import DeclSchema.Text

/-!
# UTF-8

Texts as bytes. A text with surrogates has no UTF-8 form, and a sequence of bytes that is no UTF-8
has no text.

## Main definitions

* `Utf8.encode`, `Utf8.decode?`: characters and bytes
* `Text.utf8?`: the bytes of a text
* `Text.byteLength`: the number of bytes of a name
* `Utf8.unixLines`: line ends as line feeds

## Main results

* `Utf8.decode?_encode`, `Utf8.encode_of_decode?`: decoding undoes encoding, and encoding decoding
* `Utf8.unixLines_unixLines`: line ends are mended once and for all
-/

namespace DeclSchema

namespace Utf8

/-- The bytes of a sequence of characters. -/
def encode (cs : List Char) : ByteArray :=
  (String.ofList cs).toUTF8

/-- The characters that a sequence of bytes stands for. -/
def decode? (bytes : ByteArray) : Option (List Char) :=
  (String.fromUTF8? bytes).map String.toList

theorem decode?_encode (cs : List Char) : decode? (encode cs) = some cs := by
  have valid : (encode cs).IsValidUTF8 := (String.ofList cs).isValidUTF8
  have read : String.fromUTF8? (encode cs) = some (String.ofList cs) := by
    unfold String.fromUTF8?
    rw [dif_pos valid]
    rfl
  simp [decode?, read]

/-- Bytes that can be decoded are those of the characters. -/
theorem encode_of_decode? {bytes : ByteArray} {cs : List Char} (h : decode? bytes = some cs) :
    encode cs = bytes := by
  obtain ⟨s, hs, rfl⟩ := Option.map_eq_some_iff.1 h
  rw [encode, String.ofList_toList]
  unfold String.fromUTF8? at hs
  split at hs
  · cases hs
    rfl
  · cases hs

theorem decode?_eq_none_iff {bytes : ByteArray} :
    decode? bytes = none ↔ ∀ cs, encode cs ≠ bytes := by
  constructor
  · rintro h cs rfl
    rw [decode?_encode] at h
    cases h
  · intro h
    cases hcs : decode? bytes with
    | none => rfl
    | some cs => exact absurd (encode_of_decode? hcs) (h cs)

/-- The same characters with a line feed for every line end: a carriage return with a line feed
after it, or alone, is one line end. -/
def unixLines : List Char → List Char
  | [] => []
  | '\r' :: '\n' :: rest => '\n' :: unixLines rest
  | c :: rest => (if c = '\r' then '\n' else c) :: unixLines rest

theorem not_mem_unixLines (cs : List Char) : '\r' ∉ unixLines cs := by
  fun_induction unixLines cs with
  | case1 => simp
  | case2 rest ih => simpa using ih
  | case3 c rest _ ih =>
    simp only [List.mem_cons, not_or]
    refine ⟨fun h => ?_, ih⟩
    split at h
    · cases h
    · next hc => exact hc h.symm

theorem unixLines_of_not_mem {cs : List Char} (h : '\r' ∉ cs) : unixLines cs = cs := by
  fun_induction unixLines cs with
  | case1 => rfl
  | case2 rest ih => simp at h
  | case3 c rest _ ih =>
    have hc : c ≠ '\r' := fun e => h (e ▸ List.mem_cons_self)
    simp only [hc, if_false, ih fun hm => h (List.mem_cons_of_mem c hm)]

theorem unixLines_unixLines (cs : List Char) : unixLines (unixLines cs) = unixLines cs :=
  unixLines_of_not_mem (not_mem_unixLines cs)

end Utf8

def Text.utf8? (t : Text) : Option ByteArray :=
  t.chars?.map Utf8.encode

/-- Whether a code point stands for a single byte that is no UTF-8, in the name of a file. These
code points are surrogates. -/
def CodePoint.isByte (p : CodePoint) : Bool :=
  0xDC80 ≤ p.value && p.value ≤ 0xDCFF

/-- The number of bytes of a text as the name of a file. -/
def Text.byteLength (t : Text) : Nat :=
  t.foldl (fun n p =>
    n + if p.value < 0x80 || p.isByte then 1 else if p.value < 0x800 then 2
      else if p.value < 0x10000 then 3 else 4) 0

end DeclSchema
