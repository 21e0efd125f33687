import DeclSchema.Text
import DeclSchema.Unicode.Printable

/-!
# Quoted texts

How a message quotes a text: between single quotes, or between double quotes if the text has a
single quote and no double quote. The quote and the backslash are escaped with a backslash, and a
code point that is not printable by its code in two, four or eight hexadecimal digits.
-/

namespace DeclSchema

/-- The hexadecimal digits of a number in lower case, filled with zeros to `width` digits. -/
def hexDigits (width n : Nat) : List Char :=
  let digits := Nat.toDigits 16 n
  List.replicate (width - digits.length) '0' ++ digits

namespace Text

/-- The delimiter that quotes a text. -/
def quoteMark (t : Text) : Char :=
  if t.contains (.ofChar '\'') && !t.contains (.ofChar '"') then '"' else '\''

/-- A code point inside a quoted text with a given delimiter. -/
def quotedPoint (mark : Char) (p : CodePoint) : Text :=
  if p.value == mark.toNat || p.value == 0x5c then [.ofChar '\\', p]
  else if p.value == 0x0a then ofString "\\n"
  else if p.value == 0x0d then ofString "\\r"
  else if p.value == 0x09 then ofString "\\t"
  else if Unicode.isPrintable p.value then [p]
  else if p.value < 0x100 then ofChars (['\\', 'x'] ++ hexDigits 2 p.value)
  else if p.value < 0x10000 then ofChars (['\\', 'u'] ++ hexDigits 4 p.value)
  else ofChars (['\\', 'U'] ++ hexDigits 8 p.value)

/-- A text between quotes. -/
def quoted (t : Text) : Text :=
  let mark := t.quoteMark
  .ofChar mark :: t.flatMap (quotedPoint mark) ++ [.ofChar mark]

end Text

end DeclSchema
