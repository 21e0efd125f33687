/-!
# Texts

A text is a list of code points. Surrogate code points are code points of their own, because an
escape in a string literal may spell one; a text without surrogates is a list of characters, and
only such a text has a UTF-8 form.

## Main definitions

* `CodePoint`, `Text`: code points and their sequences
* `Text.ofString`, `Text.chars?`: from characters, and back where no surrogate occurs
* `Text.le`: the order by code points
-/

namespace DeclSchema

/-- A code point is a number below `0x110000`. -/
structure CodePoint where
  value : Nat
  value_lt : value < 0x110000
deriving DecidableEq

/-- A text is a sequence of code points. -/
abbrev Text := List CodePoint

instance : LawfulBEq Text := inferInstance

namespace CodePoint

def ofChar (c : Char) : CodePoint where
  value := c.toNat
  value_lt := by
    have h := c.valid
    simp only [UInt32.isValidChar, Nat.isValidChar] at h
    simp only [Char.toNat]
    omega

/-- Surrogates are the code points that are no characters. -/
def isSurrogate (p : CodePoint) : Bool :=
  0xD800 ≤ p.value && p.value < 0xE000

/-- The character of a code point that is no surrogate. -/
def char? (p : CodePoint) : Option Char :=
  if p.isSurrogate then none else some (Char.ofNat p.value)

/-- The character that a code point is shown as: a replacement stands for a surrogate. -/
def glyph (p : CodePoint) : Char :=
  p.char?.getD '\uFFFD'

/-- The code point of a number, if it is in range. -/
def ofNat? (n : Nat) : Option CodePoint :=
  if h : n < 0x110000 then some ⟨n, h⟩ else none

theorem ofChar_inj {c d : Char} (h : ofChar c = ofChar d) : c = d := by
  have h : c.toNat = d.toNat := congrArg value h
  exact Char.ext (UInt32.toNat_inj.mp h)

theorem glyph_of_isSurrogate {p : CodePoint} (h : p.isSurrogate = true) : p.glyph = '\uFFFD' := by
  rw [glyph, char?, if_pos h]
  rfl

theorem toNat_glyph {p : CodePoint} (h : p.isSurrogate = false) : p.glyph.toNat = p.value := by
  have hvalid : p.value.isValidChar := by
    simp only [isSurrogate, Bool.and_eq_false_iff, decide_eq_false_iff_not] at h
    have := p.value_lt
    unfold Nat.isValidChar
    omega
  rw [glyph, char?, h]
  change (Char.ofNat p.value).toNat = p.value
  rw [Char.ofNat, dif_pos hvalid]
  rfl

theorem ofChar_glyph {p : CodePoint} (h : p.isSurrogate = false) : .ofChar p.glyph = p := by
  obtain ⟨value, hlt⟩ := p
  simp only [ofChar, mk.injEq]
  exact toNat_glyph h

/-- A character other than the replacement is the character of one code point. -/
theorem eq_ofChar_of_glyph {p : CodePoint} {c : Char} (hc : c ≠ '\uFFFD') (h : p.glyph = c) :
    p = .ofChar c := by
  cases hs : p.isSurrogate with
  | true => exact absurd (h.symm.trans (glyph_of_isSurrogate hs)) hc
  | false => rw [← h, ofChar_glyph hs]

theorem isSurrogate_ofChar (c : Char) : (ofChar c).isSurrogate = false := by
  have h := c.valid
  simp only [UInt32.isValidChar, Nat.isValidChar] at h
  have : ¬ (0xD800 ≤ c.toNat ∧ c.toNat < 0xE000) := by
    simp only [Char.toNat]
    omega
  rw [isSurrogate, ← Bool.decide_and]
  exact decide_eq_false this

@[simp] theorem glyph_ofChar (c : Char) : (ofChar c).glyph = c := by
  have h : (ofChar c).glyph.toNat = c.toNat := toNat_glyph (isSurrogate_ofChar c)
  exact Char.ext (UInt32.toNat_inj.mp h)

end CodePoint

namespace Text

def ofChars (cs : List Char) : Text :=
  cs.map .ofChar

def ofString (s : String) : Text :=
  ofChars s.toList

instance : Coe String Text := ⟨ofString⟩

instance : Coe (List Char) Text := ⟨ofChars⟩

/-- The characters that a text is shown as. -/
def glyphs (t : Text) : List Char :=
  t.map CodePoint.glyph

@[simp] theorem glyphs_ofChars (cs : List Char) : glyphs (ofChars cs) = cs := by
  simp [glyphs, ofChars, Function.comp_def]

/-- The characters of a text that has no surrogates. -/
def chars? (t : Text) : Option (List Char) :=
  t.mapM CodePoint.char?

def hasSurrogate (t : Text) : Bool :=
  t.any CodePoint.isSurrogate

/-- The order of texts compares them code point by code point; a proper initial part comes first. -/
def le : Text → Text → Bool
  | [], _ => true
  | _ :: _, [] => false
  | a :: as, b :: bs => a.value < b.value || (a.value == b.value && le as bs)

/-- Whether `part` occurs in `whole` as a contiguous piece. -/
def occursIn (part : Text) : Text → Bool
  | [] => part.isEmpty
  | whole@(_ :: rest) => part.isPrefixOf whole || occursIn part rest

/-- The texts of a list, with `separator` between neighbours. -/
def joined (separator : Text) (ts : List Text) : Text :=
  List.intercalate separator ts

/-- The decimal digits of a natural number. -/
def ofNat (n : Nat) : Text :=
  ofChars (Nat.toDigits 10 n)

/-- The decimal digits of an integer, with a sign if it is negative. -/
def ofInt : Int → Text
  | .ofNat n => ofNat n
  | .negSucc n => ofString "-" ++ ofNat (n + 1)

end Text

end DeclSchema
