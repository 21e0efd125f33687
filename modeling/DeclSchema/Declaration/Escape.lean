import DeclSchema.Fault
import DeclSchema.Grammar.Lexeme

/-!
# Escapes in string literals

What a quoted string of a declaration file spells. A backslash with `u` and hexadecimal digits in
braces, with `u` and four of them, or with `x` and two of them spells the code point of that number;
with one of seven letters it spells a control character; and any other character after it stands
for itself.

## Main definitions

* `Escape.unescape`: the text that the characters between the quotes spell
* `Escape.unquote`: the text that a quoted string spells
-/

namespace DeclSchema.Escape

/-- What some characters spell, or why they spell nothing. -/
abbrev Decoded (α : Type) := Except Fault α

def digitValue (c : Char) : Nat :=
  if c.isDigit then c.toNat - '0'.toNat
  else if 'a' ≤ c then c.toNat - 'a'.toNat + 10
  else c.toNat - 'A'.toNat + 10

def hexValue (digits : List Char) : Nat :=
  digits.foldl (fun n c => 16 * n + digitValue c) 0

/-- The hexadecimal digits of a numeric escape and its length, where `input` follows a backslash. -/
def numeric? (input : List Char) : Option (List Char × Nat) :=
  let digits (width : Nat) (rest : List Char) : Option (List Char × Nat) :=
    let taken := rest.take width
    if taken.length = width && taken.all Grammar.isHexDigit then some (taken, width + 1) else none
  match input with
  | 'x' :: rest => digits 2 rest
  | 'u' :: '\x7b' :: rest =>
    let taken := rest.takeWhile Grammar.isHexDigit
    match taken, rest.drop taken.length with
    | [], _ => none
    | _, '\x7d' :: _ => some (taken, taken.length + 3)
    | _, _ => none
  | 'u' :: rest => digits 4 rest
  | _ => none

/-- What a backslash and one character spell. -/
def simple (c : Char) : Char :=
  match c with
  | 'n' => '\n'
  | 't' => '\t'
  | 'r' => '\r'
  | 'b' => '\x08'
  | 'f' => '\x0c'
  | 'v' => '\x0b'
  | '0' => '\x00'
  | c => c

/-- The code point of a number. -/
def point (n : Nat) : Decoded CodePoint :=
  match CodePoint.ofNat? n with
  | some p => .ok p
  | none => .error (if 2147483647 < n then .hugeCodePoint else .noCodePoint)

/-- The text that the characters between the quotes of a string spell. -/
def unescape : List Char → Decoded Text
  | [] => .ok []
  | '\\' :: c :: rest =>
    match numeric? (c :: rest) with
    | some (digits, length) => do
      let p ← point (hexValue digits)
      return p :: (← unescape (rest.drop (length - 1)))
    | none => return .ofChar (simple c) :: (← unescape rest)
  | c :: rest => return .ofChar c :: (← unescape rest)
termination_by input => input.length
decreasing_by all_goals simp only [List.length_drop, List.length_cons]; omega

/-- The text that a quoted string spells. -/
def unquote (lexeme : List Char) : Decoded Text :=
  unescape (lexeme.drop 1).dropLast

end DeclSchema.Escape
