import DeclSchema.Grammar.Terminal
import DeclSchema.Unicode.Digit
import DeclSchema.Unicode.Space

/-!
# Lexemes

How many characters a lexeme of each class takes from the front of the input, and which lexeme comes
next where only some terminals are admitted.

The classes are tried in a fixed order and the first one that takes a character wins; a longer
lexeme of a later class does not count. A word of the grammar is read as a whole identifier where a
name is admitted too, and as a mere initial part of the input where no name is. In the same way a
mark of one character is that mark where it is admitted, and any other character where it is not.

## Main definitions

* `triviaLength`: blanks and comments
* `nameLength`, `stringLength`, `numberLength`, `templateLength`: the lexeme classes
* `Terminal.lexemeLength`: what a terminal takes from the input
* `lexeme?`: the next lexeme, given the terminals that are admitted
-/

namespace DeclSchema.Grammar

/-! ### Blanks and comments -/

def isBlank (c : Char) : Bool :=
  c == ' ' || c == '\t' || c == '\x0c' || c == '\r' || c == '\n'

/-- The characters up to and including the end of a block comment, if it ends. -/
def commentEnd? : List Char → Option Nat
  | '*' :: '/' :: _ => some 2
  | _ :: rest => (commentEnd? rest).map (· + 1)
  | [] => none

/-- The length of the comment at the front of the input, or zero. -/
def commentLength : List Char → Nat
  | '/' :: '/' :: rest => 2 + (rest.takeWhile (· != '\n')).length
  | '/' :: '*' :: rest => ((commentEnd? rest).map (· + 2)).getD 0
  | _ => 0

/-- The length of the blanks, or else of the comment, at the front of the input. -/
def blankLength (input : List Char) : Nat :=
  match (input.takeWhile isBlank).length with
  | 0 => commentLength input
  | n => n

/-- The length of all blanks and comments at the front of the input. -/
def triviaLength : List Char → Nat
  | [] => 0
  | c :: rest =>
    match blankLength (c :: rest) with
    | 0 => 0
    | n + 1 => n + 1 + triviaLength (rest.drop n)
termination_by input => input.length
decreasing_by
  rw [List.length_drop, List.length_cons]
  omega

/-! ### Lexeme classes -/

def isNameStart (c : Char) : Bool :=
  c.isAlpha || c == '_' || c == '$'

def isNamePart (c : Char) : Bool :=
  isNameStart c || c.isDigit

/-- The length of the name at the front of the input, or zero. -/
def nameLength : List Char → Nat
  | c :: rest => if isNameStart c then 1 + (rest.takeWhile isNamePart).length else 0
  | [] => 0

/-- The characters up to and including the closing delimiter, where a backslash takes the next
character with it. Unless the text may go over line ends, a line end stops it. -/
def delimitedLength? (delimiter : Char) (acrossLines : Bool) : List Char → Option Nat
  | [] => none
  | '\\' :: c :: rest =>
    if c == '\n' && !acrossLines then none
    else (delimitedLength? delimiter acrossLines rest).map (· + 2)
  | c :: rest =>
    if c == delimiter then some 1
    else if c == '\\' || (c == '\n' && !acrossLines) then none
    else (delimitedLength? delimiter acrossLines rest).map (· + 1)

/-- The length of the quoted string at the front of the input, or zero. -/
def stringLength : List Char → Nat
  | '"' :: rest => ((delimitedLength? '"' false rest).map (· + 1)).getD 0
  | '\'' :: rest => ((delimitedLength? '\'' false rest).map (· + 1)).getD 0
  | _ => 0

/-- The length of the text between backquotes at the front of the input, or zero. -/
def templateLength : List Char → Nat
  | '\x60' :: rest => ((delimitedLength? '\x60' true rest).map (· + 1)).getD 0
  | _ => 0

def isHexDigit (c : Char) : Bool :=
  c.isDigit || ('a' ≤ c && c ≤ 'f') || ('A' ≤ c && c ≤ 'F')

/-- The length of a number with a radix mark, or zero. -/
def radixLength : List Char → Nat
  | '0' :: mark :: rest =>
    let digits :=
      if mark == 'x' || mark == 'X' then rest.takeWhile fun c => isHexDigit c || c == '_'
      else if mark == 'b' || mark == 'B' then
        rest.takeWhile fun c => c == '0' || c == '1' || c == '_'
      else if mark == 'o' || mark == 'O' then
        rest.takeWhile fun c => ('0' ≤ c && c ≤ '7') || c == '_'
      else []
    if digits.isEmpty then 0 else 2 + digits.length
  | _ => 0

/-- The length of the mantissa of a decimal number, or zero. -/
def mantissaLength : List Char → Nat
  | '.' :: rest =>
    match (rest.takeWhile Unicode.isDigit).length with
    | 0 => 0
    | n => 1 + n
  | c :: rest =>
    if Unicode.isDigit c then
      let whole := 1 + (rest.takeWhile fun c => Unicode.isDigit c || c == '_').length
      match rest.drop (whole - 1) with
      | '.' :: fraction => whole + 1 + (fraction.takeWhile Unicode.isDigit).length
      | _ => whole
    else 0
  | [] => 0

/-- The length of the exponent at the front of the input, or zero. -/
def exponentLength : List Char → Nat
  | mark :: rest =>
    if mark == 'e' || mark == 'E' then
      let sign :=
        match rest with
        | c :: _ => if c == '+' || c == '-' then 1 else 0
        | [] => 0
      match ((rest.drop sign).takeWhile Unicode.isDigit).length with
      | 0 => 0
      | n => 1 + sign + n
    else 0
  | [] => 0

/-- The length of the number at the front of the input, or zero. A number with a radix mark comes
before a decimal one, and either may end in the mark `n` of a big integer. -/
def numberLength (input : List Char) : Nat :=
  let plain :=
    match radixLength input with
    | 0 =>
      match mantissaLength input with
      | 0 => 0
      | n => n + exponentLength (input.drop n)
    | n => n
  match plain, input.drop plain with
  | 0, _ => 0
  | n, 'n' :: _ => n + 1
  | n, _ => n

/-- The characters that a skipped part may hold one by one: all but white space, brackets, quotes
and the semicolon. -/
def isOther (c : Char) : Bool :=
  !(Unicode.isSpace c || "\x7b\x7d()[];'\"\x60".toList.contains c)

/-- The length of any other character at the front of the input, or zero. -/
def otherLength : List Char → Nat
  | c :: _ => if isOther c then 1 else 0
  | [] => 0

/-! ### The next lexeme -/

namespace Terminal

/-- How many characters a terminal takes from the front of the input, if it takes any. -/
def lexemeLength (t : Terminal) (input : List Char) : Nat :=
  match t with
  | name => nameLength input
  | string => stringLength input
  | number => numberLength input
  | template => templateLength input
  | other => otherLength input
  | t => if t.spelling.isPrefixOf input then t.spelling.length else 0

/-- The terminals in the order in which they are tried. -/
def order : List Terminal :=
  [number, string, name, template] ++ words ++ longMarks ++ [other] ++ plainMarks ++ closedMarks

/-- The words among the names, and the plain marks among the other characters. -/
def special : Terminal → List Terminal
  | name => words
  | other => plainMarks
  | _ => []

/-- Whether a terminal is read through a class of lexemes that is admitted too. -/
def isAbsorbed (admits : Terminal → Bool) (t : Terminal) : Bool :=
  [name, other].any fun c => admits c && c.special.contains t

/-- The terminal that a lexeme of a class stands for: the admitted word or mark with this
spelling, or else the class. -/
def refine (admits : Terminal → Bool) (t : Terminal) (lexeme : List Char) : Terminal :=
  (t.special.find? fun s => admits s && s.spelling == lexeme).getD t

end Terminal

/-- The next lexeme: the terminal that it stands for and its length, where the input starts with
neither blanks nor comments and `admits` tells which terminals may come. -/
def lexeme? (admits : Terminal → Bool) (input : List Char) : Option (Terminal × Nat) :=
  Terminal.order.findSome? fun t =>
    if admits t && !t.isAbsorbed admits then
      match t.lexemeLength input with
      | 0 => none
      | n => some (t.refine admits (input.take n), n)
    else none

end DeclSchema.Grammar
