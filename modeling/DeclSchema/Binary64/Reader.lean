import DeclSchema.Binary64
import DeclSchema.Unicode.Digit
import DeclSchema.Unicode.Space

/-!
# Reading floating-point numbers

A number is written with decimal digits of any script, a point, an exponent and a sign, or as one of
the words for the infinities and the value that is no number. Blanks around it do not count, and
between two digits there may be one underscore.

## Main definitions

* `Binary64.ofChars?`: the number that a text writes
-/

namespace DeclSchema.Binary64

/-- The blanks that may stand around a number. -/
def isBlank (c : Char) : Bool :=
  c = ' ' || ('\t' ≤ c && c ≤ '\r') || (0x80 ≤ c.toNat && Unicode.isSpace c)

def withoutBlanks (cs : List Char) : List Char :=
  ((cs.dropWhile isBlank).reverse.dropWhile isBlank).reverse

/-- The digit of ASCII for a digit of any script, and any other character as it is. -/
def plainDigit (c : Char) : Char :=
  match Unicode.digitValue? c.toNat with
  | some n => Char.ofNat ('0'.toNat + n)
  | none => c

/-- A text without its underscores, each of which must stand between two digits. -/
def joinDigits : List Char → Option (List Char)
  | [] => some []
  | '_' :: _ => none
  | c :: '_' :: d :: rest =>
    if c.isDigit && d.isDigit then (joinDigits (d :: rest)).map (c :: ·) else none
  | [_, '_'] => none
  | c :: rest => (joinDigits rest).map (c :: ·)

/-- Splits a sign off. -/
def signOf : List Char → Bool × List Char
  | '-' :: rest => (true, rest)
  | '+' :: rest => (false, rest)
  | cs => (false, cs)

def digitsValue (cs : List Char) : Nat :=
  cs.foldl (fun n c => 10 * n + (c.toNat - '0'.toNat)) 0

/-- The value of an exponent, or zero if there is none. -/
def exponentOf? : List Char → Option Int
  | [] => some 0
  | mark :: rest =>
    let (negative, digits) := signOf rest
    if (mark = 'e' || mark = 'E') && digits ≠ [] && digits.all Char.isDigit then
      some (if negative then -Int.ofNat (digitsValue digits) else Int.ofNat (digitsValue digits))
    else none

/-- The digits after a point, if there is a point, and what follows. -/
def fractionOf : List Char → List Char × List Char
  | '.' :: rest => rest.span Char.isDigit
  | cs => ([], cs)

/-- The number that unsigned decimals write. -/
def ofDecimals? (negative : Bool) (cs : List Char) : Option Binary64 := do
  let (whole, rest) := cs.span Char.isDigit
  let (fraction, rest) := fractionOf rest
  let exponent ← exponentOf? rest
  if whole = [] && fraction = [] then none
  else
    some (ofDecimal negative (digitsValue (whole ++ fraction))
      (exponent - Int.ofNat fraction.length))

/-- The number that a text writes. -/
def ofChars? (cs : List Char) : Option Binary64 := do
  let cs ← joinDigits ((withoutBlanks cs).map plainDigit)
  let (negative, cs) := signOf cs
  let word := String.ofList (cs.map Char.toLower)
  if word = "inf" || word = "infinity" then some (infinite negative)
  else if word = "nan" then some undefined
  else ofDecimals? negative cs

end DeclSchema.Binary64
