import DeclSchema.Json
import DeclSchema.Text.Place

/-!
# Reading JSON

A strict reader of JSON texts, which also takes `NaN` and the two infinities. Blanks are the space,
the tabulator, the carriage return and the line feed. A string may spell any code point, surrogates
included; a high and a low surrogate that are spelled one after the other are one character.

A failure tells the problem and where it is: the rest of the text from that place on.

## Main definitions

* `Json.Problem`, `Json.Failure`: what is wrong, and where
* `Json.read`: the value of a JSON text
* `Json.Failure.message`: the problem with its line, column and offset
-/

namespace DeclSchema.Json

/-- What is wrong with a JSON text. -/
inductive Problem where
  | noValue
  | noPropertyName
  | noColon
  | noComma
  | extraData
  | unterminatedString
  | controlCharacter
  | badEscape
  | badUnicodeEscape
  | byteOrderMark
  /-- An integer has more than 4300 digits. -/
  | longInteger
deriving DecidableEq

/-- A problem, and what is left of the text at its place. -/
structure Failure where
  problem : Problem
  rest : Text

/-- The wording of a problem. -/
def Problem.wording : Problem → String
  | noValue => "Expecting value"
  | noPropertyName => "Expecting property name enclosed in double quotes"
  | noColon => "Expecting ':' delimiter"
  | noComma => "Expecting ',' delimiter"
  | extraData => "Extra data"
  | unterminatedString => "Unterminated string starting at"
  | controlCharacter => "Invalid control character at"
  | badEscape => "Invalid \\escape"
  | badUnicodeEscape => "Invalid \\uXXXX escape"
  | byteOrderMark => "Unexpected UTF-8 BOM (decode using utf-8-sig)"
  | longInteger => "Integer too long"

/-- The problem in `source` with its line, column and offset. -/
def Failure.message (source : Text) (f : Failure) : Text :=
  let place := Place.of source.glyphs f.rest.glyphs
  .ofString f.problem.wording ++ .ofString ": line " ++ .ofNat place.line ++ .ofString " column "
    ++ .ofNat place.column ++ .ofString " (char " ++ .ofNat place.offset ++ .ofString ")"

/-- What is left of a text after something at its front. -/
abbrev Rest (input : Text) :=
  { rest : Text // rest.length < input.length }

/-- A value with what is left of a text after it. -/
abbrev Read (α : Type) (input : Text) :=
  Except Failure (α × Rest input)

def isBlank (c : Char) : Bool :=
  c == ' ' || c == '\t' || c == '\r' || c == '\n'

/-- The text without the blanks at its front. -/
def skipBlanks (input : Text) : Text :=
  input.dropWhile fun p => isBlank p.glyph

theorem length_skipBlanks_le (input : Text) : (skipBlanks input).length ≤ input.length :=
  (List.dropWhile_suffix _).length_le

/-- What is left after a mark, if a text starts with it. -/
def markAt? (c : Char) : (input : Text) → Option (Rest input)
  | [] => none
  | p :: rest => if p.glyph = c then some ⟨rest, Nat.lt_succ_self _⟩ else none

/-- What is left after blanks and a mark, if a text starts with them. -/
def mark? (c : Char) (input : Text) : Option (Rest input) :=
  (markAt? c (skipBlanks input)).map fun r =>
    ⟨r.1, Nat.lt_of_lt_of_le r.2 (length_skipBlanks_le input)⟩

/-! ### Strings -/

def hexValue? (c : Char) : Option Nat :=
  if c.isDigit then some (c.toNat - '0'.toNat)
  else if 'a' ≤ c && c ≤ 'f' then some (c.toNat - 'a'.toNat + 10)
  else if 'A' ≤ c && c ≤ 'F' then some (c.toNat - 'A'.toNat + 10)
  else none

def hexNumber? (digits : List Char) : Option Nat :=
  digits.foldlM (fun n c => (hexValue? c).map (16 * n + ·)) 0

/-- The code point of a number; a number out of range does not occur. -/
def pointOf (n : Nat) : CodePoint :=
  (CodePoint.ofNat? n).getD (.ofChar '\x00')

/-- The character that a backslash and a letter spell. -/
def simpleEscape? : Char → Option Char
  | '"' => some '"'
  | '\\' => some '\\'
  | '/' => some '/'
  | 'b' => some '\x08'
  | 'f' => some '\x0c'
  | 'n' => some '\n'
  | 'r' => some '\r'
  | 't' => some '\t'
  | _ => none

def isHighSurrogate (n : Nat) : Bool := 0xD800 ≤ n && n < 0xDC00

def isLowSurrogate (n : Nat) : Bool := 0xDC00 ≤ n && n < 0xE000

/-- The character of a high and a low surrogate. -/
def joinSurrogates (high low : Nat) : Nat :=
  0x10000 + (high - 0xD800) * 0x400 + (low - 0xDC00)

/-- The low surrogate whose escape is at the front of a text, if there is one. At least one
character must follow the escape. -/
def lowSurrogate : (input : Text) → Except Failure (Option (Nat × Rest input))
  | backslash :: letter :: more =>
    if backslash.glyph = '\\' && letter.glyph = 'u' && 4 < more.length then
      match hexNumber? (Text.glyphs (more.take 4)) with
      | none => .error ⟨.badUnicodeEscape, letter :: more⟩
      | some n =>
        if isLowSurrogate n then
          .ok (some (n, ⟨more.drop 4, by simp only [List.length_drop, List.length_cons]; omega⟩))
        else .ok none
    else .ok none
  | _ => .ok none

/-- The code point of an escape and what is left after it, where `digits` follows a backslash and
the letter `u`. At least one character must follow the digits. -/
def unicodeEscape (digits : Text) : Read CodePoint digits :=
  if hd : digits.length < 5 then .error ⟨.badUnicodeEscape, .ofChar 'u' :: digits⟩
  else
    match hexNumber? (Text.glyphs (digits.take 4)) with
    | none => .error ⟨.badUnicodeEscape, .ofChar 'u' :: digits⟩
    | some n => do
      have hlength : (digits.drop 4).length < digits.length := by
        rw [List.length_drop]
        omega
      -- Only a high surrogate looks at the escape after it, and only a low one is joined to it.
      if isHighSurrogate n then
        match ← lowSurrogate (digits.drop 4) with
        | some (low, ⟨rest, h⟩) =>
          return (pointOf (joinSurrogates n low), ⟨rest, Nat.lt_trans h hlength⟩)
        | none => return (pointOf n, ⟨digits.drop 4, hlength⟩)
      else return (pointOf n, ⟨digits.drop 4, hlength⟩)

/-- The code point of an escape, where `escape` starts with its backslash and `input` follows that.
The string around it starts at `start`. -/
def readEscape (start escape : Text) : (input : Text) → Read CodePoint input
  | [] => .error ⟨.unterminatedString, start⟩
  | p :: more =>
    if p.glyph = 'u' then do
      let (q, ⟨rest, h⟩) ← unicodeEscape more
      return (q, ⟨rest, Nat.lt_succ_of_lt h⟩)
    else
      match simpleEscape? p.glyph with
      | none => .error ⟨.badEscape, escape⟩
      | some c => return (.ofChar c, ⟨more, Nat.lt_succ_self _⟩)

/-- The text of a string from after its opening quote on, with what is left after its closing one.
The quote is at `start`. -/
def readString (start : Text) (input : Text) : Read Text input :=
  match input with
  | [] => .error ⟨.unterminatedString, start⟩
  | p :: more =>
    if p.glyph = '"' then .ok ([], ⟨more, Nat.lt_succ_self _⟩)
    else if p.glyph = '\\' then do
      let (q, ⟨after, h⟩) ← readEscape start (p :: more) more
      let (t, ⟨rest, h'⟩) ← readString start after
      return (q :: t, ⟨rest, Nat.lt_succ_of_lt (Nat.lt_trans h' h)⟩)
    else if p.glyph.toNat ≤ 0x1f then .error ⟨.controlCharacter, input⟩
    else do
      let (t, ⟨rest, h⟩) ← readString start more
      return (p :: t, ⟨rest, Nat.lt_succ_of_lt h⟩)
termination_by input.length
decreasing_by
  · exact Nat.lt_succ_of_lt h
  · exact Nat.lt_succ_self _

/-! ### Numbers -/

def decimalValue (digits : List Char) : Nat :=
  digits.foldl (fun n c => 10 * n + (c.toNat - '0'.toNat)) 0

/-- The length of the integer part of a number, or zero. -/
def wholeLength : List Char → Nat
  | '0' :: _ => 1
  | c :: rest => if c.isDigit then 1 + (rest.takeWhile Char.isDigit).length else 0
  | [] => 0

/-- The digits after the point at the front of a text. -/
def fractionDigits : List Char → List Char
  | '.' :: rest => rest.takeWhile Char.isDigit
  | _ => []

/-- The sign and the digits of the exponent at the front of a text. -/
def exponentDigits : List Char → Bool × List Char × Nat
  | mark :: rest =>
    if mark == 'e' || mark == 'E' then
      let (negative, sign) :=
        match rest with
        | '-' :: _ => (true, 1)
        | '+' :: _ => (false, 1)
        | _ => (false, 0)
      let digits := (rest.drop sign).takeWhile Char.isDigit
      (negative, digits, if digits.isEmpty then 0 else 1 + sign + digits.length)
    else (false, [], 0)
  | [] => (false, [], 0)

/-- The number at the front of a text and its length, which is zero if there is none. -/
def numberAt (input : List Char) : Except Problem (Json × Nat) :=
  let (negative, sign) :=
    match input with
    | '-' :: _ => (true, 1)
    | _ => (false, 0)
  let whole := wholeLength (input.drop sign)
  if whole = 0 then .ok (null, 0)
  else
    let digits := (input.drop sign).take whole
    let fraction := fractionDigits (input.drop (sign + whole))
    let point := if fraction.isEmpty then 0 else 1 + fraction.length
    let (exponentNegative, exponent, exponentLength) :=
      exponentDigits (input.drop (sign + whole + point))
    if point + exponentLength = 0 then
      -- Without a fraction and an exponent the number is an integer.
      if 4300 < whole then .error .longInteger
      else
        let n := Int.ofNat (decimalValue digits)
        .ok (integer (if negative then -n else n), sign + whole)
    else
      let e := Int.ofNat (decimalValue exponent)
      let power := (if exponentNegative then -e else e) - Int.ofNat fraction.length
      .ok (real (.ofDecimal negative (decimalValue (digits ++ fraction)) power),
        sign + whole + point + exponentLength)

/-- The values that are spelled by a word. -/
def wordValues : List (List Char × Json) :=
  [("null".toList, null), ("true".toList, truth true), ("false".toList, truth false),
   ("NaN".toList, real .undefined), ("Infinity".toList, real (.infinite false)),
   ("-Infinity".toList, real (.infinite true))]

/-- Whether words and numbers can have a character. -/
def isScalarChar (c : Char) : Bool :=
  c.isAlphanum || c == '+' || c == '-' || c == '.'

/-- The word or the number at the front of a text and its length, which is zero if there is none. -/
def scalarAt (input : Text) : Except Failure (Json × Nat) :=
  let cs := Text.glyphs (input.takeWhile fun p => isScalarChar p.glyph)
  match wordValues.find? fun w => w.1.isPrefixOf cs with
  | some (w, v) => .ok (v, w.length)
  | none => (numberAt cs).mapError (⟨·, input⟩)

/-- The word or the number at the front of a text. -/
def readScalar : (input : Text) → Read Json input
  | [] => .error ⟨.noValue, []⟩
  | p :: more => do
    match ← scalarAt (p :: more) with
    | (_, 0) => .error ⟨.noValue, p :: more⟩
    | (v, n + 1) =>
      return (v, ⟨more.drop n, by simp only [List.length_drop, List.length_cons]; omega⟩)

/-! ### Values -/

mutual

/-- The value at the front of a text. -/
def readValue (input : Text) : Read Json input :=
  match input with
  | [] => .error ⟨.noValue, []⟩
  | p :: more =>
    if p.glyph = '"' then do
      let (t, ⟨rest, h⟩) ← readString input more
      return (text t, ⟨rest, Nat.lt_succ_of_lt h⟩)
    else if p.glyph = '[' then
      match mark? ']' more with
      | some ⟨rest, h⟩ => return (array [], ⟨rest, Nat.lt_succ_of_lt h⟩)
      | none => do
        have hs := length_skipBlanks_le more
        let (xs, ⟨rest, h⟩) ← readItems (skipBlanks more)
        return (array xs, ⟨rest, Nat.lt_succ_of_lt (Nat.lt_of_lt_of_le h hs)⟩)
    else if p.glyph = '\x7b' then
      match mark? '\x7d' more with
      | some ⟨rest, h⟩ => return (object [], ⟨rest, Nat.lt_succ_of_lt h⟩)
      | none => do
        have hs := length_skipBlanks_le more
        let (fs, ⟨rest, h⟩) ← readFields (skipBlanks more)
        return (object (Entries.ofList fs), ⟨rest, Nat.lt_succ_of_lt (Nat.lt_of_lt_of_le h hs)⟩)
    else readScalar (p :: more)
termination_by (input.length, 0)
decreasing_by
  all_goals exact Prod.Lex.left _ _ (Nat.lt_succ_of_le hs)

/-- The items of an array up to its closing bracket, where at least one must follow. -/
def readItems (input : Text) : Read (List Json) input := do
  let (x, ⟨after, h⟩) ← readValue input
  match mark? ']' after, mark? ',' after with
  | some ⟨rest, h'⟩, _ => return ([x], ⟨rest, Nat.lt_trans h' h⟩)
  | none, some ⟨more, h'⟩ =>
    have hs := length_skipBlanks_le more
    let (xs, ⟨rest, hr⟩) ← readItems (skipBlanks more)
    return (x :: xs, ⟨rest, by omega⟩)
  | none, none => .error ⟨.noComma, skipBlanks after⟩
termination_by (input.length, 1)
decreasing_by
  · exact Prod.Lex.right _ Nat.zero_lt_one
  · exact Prod.Lex.left _ _ (by omega)

/-- The fields of an object up to its closing brace, where at least one must follow. -/
def readFields (input : Text) : Read (List (Text × Json)) input := do
  match markAt? '"' input with
  | none => .error ⟨.noPropertyName, input⟩
  | some ⟨more, hq⟩ =>
    let (k, ⟨afterKey, hk⟩) ← readString input more
    match mark? ':' afterKey with
    | none => .error ⟨.noColon, skipBlanks afterKey⟩
    | some ⟨beforeValue, hm⟩ =>
      have hb := length_skipBlanks_le beforeValue
      let (v, ⟨after, h⟩) ← readValue (skipBlanks beforeValue)
      match mark? '\x7d' after, mark? ',' after with
      | some ⟨rest, h'⟩, _ => return ([(k, v)], ⟨rest, by omega⟩)
      | none, some ⟨next, h'⟩ =>
        have hs := length_skipBlanks_le next
        let (fs, ⟨rest, hr⟩) ← readFields (skipBlanks next)
        return ((k, v) :: fs, ⟨rest, by omega⟩)
      | none, none => .error ⟨.noComma, skipBlanks after⟩
termination_by (input.length, 1)
decreasing_by
  · exact Prod.Lex.left _ _ (by omega)
  · exact Prod.Lex.left _ _ (by omega)

end

/-- The value of a JSON text. -/
def read (input : Text) : Except Failure Json := do
  if (markAt? '\uFEFF' input).isSome then .error ⟨.byteOrderMark, input⟩
  else
    let (v, ⟨rest, _⟩) ← readValue (skipBlanks input)
    match skipBlanks rest with
    | [] => return v
    | stop => .error ⟨.extraData, stop⟩

end DeclSchema.Json
