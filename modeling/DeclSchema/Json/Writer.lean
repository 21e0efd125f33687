import DeclSchema.Binary64.Shortest
import DeclSchema.Json
import DeclSchema.Text.Quoted

/-!
# Writing JSON

The JSON text of a value. A layout says whether characters beyond ASCII are escaped, and with which
unit lines are indented; without a unit the whole text is one line.

## Main definitions

* `Json.Layout`: the decisions of the format
* `Json.write`: the JSON text of a value in a layout
* `Json.compact`: the one-line ASCII form
-/

namespace DeclSchema.Json

/-- How a JSON text is laid out. -/
structure Layout where
  asciiOnly : Bool
  /-- What a line is indented with for each level, if items stand on lines of their own. -/
  unit? : Option Text

namespace Layout

/-- What stands between two items at a level. -/
def separator (l : Layout) (level : Nat) : Text :=
  match l.unit? with
  | none => .ofString ", "
  | some unit => .ofString ",\n" ++ (List.replicate level unit).flatten

/-- What stands after an opening bracket, where `level` is the level of its items, and before the
closing one, where `level` is the level around them. -/
def lineBreak (l : Layout) (level : Nat) : Text :=
  match l.unit? with
  | none => []
  | some unit => .ofString "\n" ++ (List.replicate level unit).flatten

end Layout

/-- The escape of a number of sixteen bits. -/
def unitEscape (n : Nat) : Text :=
  .ofChars (['\\', 'u'] ++ hexDigits 4 n)

/-- A code point inside a string. -/
def writePoint (asciiOnly : Bool) (p : CodePoint) : Text :=
  let n := p.value
  if n == 0x22 then .ofString "\\\""
  else if n == 0x5c then .ofString "\\\\"
  else if n == 0x0a then .ofString "\\n"
  else if n == 0x0d then .ofString "\\r"
  else if n == 0x09 then .ofString "\\t"
  else if n == 0x0c then .ofString "\\f"
  else if n == 0x08 then .ofString "\\b"
  else if n < 0x20 then unitEscape n
  else if !asciiOnly || n < 0x7f then [p]
  else if n < 0x10000 then unitEscape n
  else unitEscape (0xD800 + (n - 0x10000) / 0x400) ++ unitEscape (0xDC00 + (n - 0x10000) % 0x400)

def writeString (asciiOnly : Bool) (t : Text) : Text :=
  .ofString "\"" ++ t.flatMap (writePoint asciiOnly) ++ .ofString "\""

def writeReal : Binary64 → Text
  | .infinite negative => .ofString (if negative then "-Infinity" else "Infinity")
  | .undefined => .ofString "NaN"
  | x => x.decimal

mutual

/-- The JSON text of a value whose opening bracket stands at a level. -/
def writeAt (l : Layout) (level : Nat) : Json → Text
  | null => .ofString "null"
  | truth b => .ofString (if b then "true" else "false")
  | integer n => .ofInt n
  | real x => writeReal x
  | text t => writeString l.asciiOnly t
  | array [] => .ofString "[]"
  | array (x :: xs) =>
    .ofString "[" ++ l.lineBreak (level + 1) ++ writeAt l (level + 1) x
      ++ writeItems l (level + 1) xs ++ l.lineBreak level ++ .ofString "]"
  | object [] => .ofString "\x7b\x7d"
  | object ((k, v) :: fs) =>
    .ofString "\x7b" ++ l.lineBreak (level + 1) ++ writeString l.asciiOnly k ++ .ofString ": "
      ++ writeAt l (level + 1) v ++ writeFields l (level + 1) fs ++ l.lineBreak level
      ++ .ofString "\x7d"

def writeItems (l : Layout) (level : Nat) : List Json → Text
  | [] => []
  | x :: xs => l.separator level ++ writeAt l level x ++ writeItems l level xs

def writeFields (l : Layout) (level : Nat) : List (Text × Json) → Text
  | [] => []
  | (k, v) :: fs =>
    l.separator level ++ writeString l.asciiOnly k ++ .ofString ": " ++ writeAt l level v
      ++ writeFields l level fs

end

/-- The JSON text of a value. -/
def write (l : Layout) (v : Json) : Text :=
  writeAt l 0 v

/-- The JSON text of a value on one line, in ASCII. -/
def compact (v : Json) : Text :=
  write ⟨true, none⟩ v

end DeclSchema.Json
