import DeclSchema.Json.Reader

/-!
# What the reader gives

The reader goes through a text from its front and leaves what is behind a value. Here is what it
does in each of its steps, for a text in which nothing is wrong: what it gives and what it leaves, in
terms of what its parts give and leave.

## Main definitions

* `Json.Gives`: a reader gives a value and leaves a rest
* `Json.Marks`: a mark comes next, perhaps after blanks

## Main results

* `Json.readString_raw`, `Json.readString_escape`: code points in a string
* `Json.readValue_word`, `Json.readValue_string`, `Json.readValue_array`, `Json.readValue_object`:
  the forms of values
* `Json.readItems_next`, `Json.readFields_next`: items and fields
-/

namespace DeclSchema

namespace Json

/-! ### What a reader gives -/

/-- A reader gives a value and leaves `rest`. -/
def Gives {α : Type} (read : (input : Text) → Read α input) (input : Text) (a : α) (rest : Text) :
    Prop :=
  ∃ h, read input = .ok (a, ⟨rest, h⟩)

/-- A text starts with blanks and a mark, and then comes `rest`. -/
def Marks (c : Char) (input rest : Text) : Prop :=
  ∃ h, mark? c input = some ⟨rest, h⟩

variable {input more rest after : Text}

theorem Gives.length_pos {α : Type} {read : (input : Text) → Read α input} {a : α}
    (h : Gives read input a rest) : 0 < input.length := by
  obtain ⟨h, -⟩ := h
  exact Nat.zero_lt_of_lt h

theorem skipBlanks_cons {p : CodePoint} (h : isBlank p.glyph = false) (t : Text) :
    skipBlanks (p :: t) = p :: t :=
  List.dropWhile_cons_of_neg (by rw [h]; decide)

theorem marks_of_skipBlanks {c : Char} (h : skipBlanks input = .ofChar c :: rest) :
    Marks c input rest := by
  have hlt : rest.length < input.length := by
    have := length_skipBlanks_le input
    rw [h] at this
    exact this
  refine ⟨hlt, ?_⟩
  -- The length of what is skipped does not matter for what is left.
  have hmark : (markAt? c (skipBlanks input)).map Subtype.val = some rest := by
    rw [h, markAt?, if_pos (CodePoint.glyph_ofChar c)]
    rfl
  obtain ⟨r, hr, he⟩ := Option.map_eq_some_iff.1 hmark
  rw [mark?, hr]
  exact congrArg some (Subtype.ext he)

theorem mark?_of_skipBlanks {p : CodePoint} {c : Char} (h : skipBlanks input = p :: rest)
    (hc : p.glyph ≠ c) : mark? c input = none := by
  have hmark : (markAt? c (skipBlanks input)).map Subtype.val = none := by
    rw [h, markAt?, if_neg hc]
    rfl
  rw [mark?, Option.map_eq_none_iff.1 hmark]
  rfl

/-! ### Strings -/

section Strings

variable {start : Text} {t : Text}

theorem readString_quote (start rest : Text) :
    Gives (readString start) (.ofChar '"' :: rest) [] rest := by
  refine ⟨Nat.lt_succ_self _, ?_⟩
  rw [readString, if_pos (CodePoint.glyph_ofChar _)]

theorem readString_raw {p : CodePoint} (hq : p.glyph ≠ '"') (hb : p.glyph ≠ '\\')
    (hc : ¬ p.glyph.toNat ≤ 0x1f) (h : Gives (readString start) more t rest) :
    Gives (readString start) (p :: more) (p :: t) rest := by
  obtain ⟨hlt, h⟩ := h
  refine ⟨Nat.lt_succ_of_lt hlt, ?_⟩
  rw [readString, if_neg hq, if_neg hb, if_neg hc, h]
  rfl

theorem readString_escape {escape : Text} {q : CodePoint}
    (he : Gives (readEscape start (.ofChar '\\' :: escape)) escape q after)
    (h : Gives (readString start) after t rest) :
    Gives (readString start) (.ofChar '\\' :: escape) (q :: t) rest := by
  obtain ⟨ha, he⟩ := he
  obtain ⟨hlt, h⟩ := h
  refine ⟨Nat.lt_succ_of_lt (Nat.lt_trans hlt ha), ?_⟩
  have hq : (CodePoint.ofChar '\\').glyph ≠ '"' := by simp
  rw [readString, if_neg hq, if_pos (CodePoint.glyph_ofChar _), he]
  change (readString start after >>= _) = _
  rw [h]
  rfl

theorem readEscape_simple (start escape : Text) {c d : Char} (hc : c ≠ 'u')
    (h : simpleEscape? c = some d) (more : Text) :
    Gives (readEscape start escape) (.ofChar c :: more) (.ofChar d) more := by
  refine ⟨Nat.lt_succ_self _, ?_⟩
  simp only [readEscape, CodePoint.glyph_ofChar, if_neg hc, h]
  rfl

end Strings

/-! ### The steps of the reader -/

section Steps

variable {x v : Json} {xs : List Json} {k : Text} {fs : List (Text × Json)} {afterKey before : Text}

theorem readValue_string {t : Text} (h : Gives (readString (.ofChar '"' :: more)) more t rest) :
    Gives readValue (.ofChar '"' :: more) (text t) rest := by
  obtain ⟨hlt, h⟩ := h
  refine ⟨Nat.lt_succ_of_lt hlt, ?_⟩
  rw [readValue, if_pos (CodePoint.glyph_ofChar _), h]
  rfl

theorem readValue_array_nil (h : Marks ']' more rest) :
    Gives readValue (.ofChar '[' :: more) (array []) rest := by
  obtain ⟨hlt, h⟩ := h
  refine ⟨Nat.lt_succ_of_lt hlt, ?_⟩
  have hq : (CodePoint.ofChar '[').glyph ≠ '"' := by simp
  rw [readValue, if_neg hq, if_pos (CodePoint.glyph_ofChar _), h]
  rfl

theorem readValue_array (hm : mark? ']' more = none)
    (h : Gives readItems (skipBlanks more) xs rest) :
    Gives readValue (.ofChar '[' :: more) (array xs) rest := by
  obtain ⟨hlt, h⟩ := h
  refine ⟨Nat.lt_succ_of_lt (Nat.lt_of_lt_of_le hlt (length_skipBlanks_le more)), ?_⟩
  have hq : (CodePoint.ofChar '[').glyph ≠ '"' := by simp
  rw [readValue, if_neg hq, if_pos (CodePoint.glyph_ofChar _), hm]
  simp only [h]
  rfl

theorem readValue_object_nil (h : Marks '\x7d' more rest) :
    Gives readValue (.ofChar '\x7b' :: more) (object []) rest := by
  obtain ⟨hlt, h⟩ := h
  refine ⟨Nat.lt_succ_of_lt hlt, ?_⟩
  have hq : (CodePoint.ofChar '\x7b').glyph ≠ '"' := by simp
  have ha : (CodePoint.ofChar '\x7b').glyph ≠ '[' := by simp
  rw [readValue, if_neg hq, if_neg ha, if_pos (CodePoint.glyph_ofChar _), h]
  rfl

theorem readValue_object (hm : mark? '\x7d' more = none)
    (h : Gives readFields (skipBlanks more) fs rest) :
    Gives readValue (.ofChar '\x7b' :: more) (object (Entries.ofList fs)) rest := by
  obtain ⟨hlt, h⟩ := h
  refine ⟨Nat.lt_succ_of_lt (Nat.lt_of_lt_of_le hlt (length_skipBlanks_le more)), ?_⟩
  have hq : (CodePoint.ofChar '\x7b').glyph ≠ '"' := by simp
  have ha : (CodePoint.ofChar '\x7b').glyph ≠ '[' := by simp
  rw [readValue, if_neg hq, if_neg ha, if_pos (CodePoint.glyph_ofChar _), hm]
  simp only [h]
  rfl

theorem readItems_last (hx : Gives readValue input x after) (hm : Marks ']' after rest) :
    Gives readItems input [x] rest := by
  obtain ⟨ha, hx⟩ := hx
  obtain ⟨hlt, hm⟩ := hm
  refine ⟨Nat.lt_trans hlt ha, ?_⟩
  simp only [readItems, hx, bind, Except.bind, hm]
  rfl

theorem readItems_next (hx : Gives readValue input x after) (hn : mark? ']' after = none)
    (hm : Marks ',' after more) (h : Gives readItems (skipBlanks more) xs rest) :
    Gives readItems input (x :: xs) rest := by
  obtain ⟨ha, hx⟩ := hx
  obtain ⟨hc, hm⟩ := hm
  obtain ⟨hlt, h⟩ := h
  have hs := length_skipBlanks_le more
  refine ⟨by omega, ?_⟩
  simp only [readItems, hx, bind, Except.bind, hn, hm, h]
  rfl

theorem readFields_last (hk : Gives (readString (.ofChar '"' :: more)) more k afterKey)
    (hc : Marks ':' afterKey before) (hv : Gives readValue (skipBlanks before) v after)
    (hm : Marks '\x7d' after rest) :
    Gives readFields (.ofChar '"' :: more) [(k, v)] rest := by
  obtain ⟨hkey, hk⟩ := hk
  obtain ⟨hcolon, hc⟩ := hc
  obtain ⟨hvalue, hv⟩ := hv
  obtain ⟨hlt, hm⟩ := hm
  have hb := length_skipBlanks_le before
  refine ⟨by simp only [List.length_cons]; omega, ?_⟩
  simp only [readFields, markAt?, CodePoint.glyph_ofChar, if_true, hk, hc, hv, bind, Except.bind,
    hm]
  rfl

theorem readFields_next (hk : Gives (readString (.ofChar '"' :: more)) more k afterKey)
    (hc : Marks ':' afterKey before) (hv : Gives readValue (skipBlanks before) v after)
    (hn : mark? '\x7d' after = none) {next : Text} (hm : Marks ',' after next)
    (h : Gives readFields (skipBlanks next) fs rest) :
    Gives readFields (.ofChar '"' :: more) ((k, v) :: fs) rest := by
  obtain ⟨hkey, hk⟩ := hk
  obtain ⟨hcolon, hc⟩ := hc
  obtain ⟨hvalue, hv⟩ := hv
  obtain ⟨hcomma, hm⟩ := hm
  obtain ⟨hlt, h⟩ := h
  have hb := length_skipBlanks_le before
  have hs := length_skipBlanks_le next
  refine ⟨by simp only [List.length_cons]; omega, ?_⟩
  simp only [readFields, markAt?, CodePoint.glyph_ofChar, if_true, hk, hc, hv, bind, Except.bind,
    hn, hm, h]
  rfl

/-- Every word that stands for a value is read as this value. -/
theorem scalarAt_word {w : List Char} {v : Json} (h : (w, v) ∈ wordValues) (rest : Text) :
    scalarAt (Text.ofChars w ++ rest) = .ok (v, w.length) := by
  have hscalar : ∀ p ∈ Text.ofChars w, isScalarChar p.glyph = true := by
    have hall : ∀ w ∈ wordValues, w.1.all isScalarChar = true := by
      decide
    intro p hp
    obtain ⟨c, hc, rfl⟩ := List.mem_map.1 hp
    rw [CodePoint.glyph_ofChar]
    exact List.all_eq_true.1 (hall _ h) c hc
  have hfront : ∃ tail, Text.glyphs ((Text.ofChars w ++ rest).takeWhile
      fun p => isScalarChar p.glyph) = w ++ tail := by
    rw [List.takeWhile_append_of_pos hscalar, Text.glyphs, List.map_append]
    exact ⟨_, congrArg (· ++ _) (Text.glyphs_ofChars w)⟩
  obtain ⟨tail, hfront⟩ := hfront
  -- No word is the beginning of another one, so the first one that fits is this one.
  have hfind : wordValues.find? (fun u => u.1.isPrefixOf (w ++ tail)) = some (w, v) := by
    simp only [wordValues, List.mem_cons, Prod.mk.injEq, List.not_mem_nil, or_false] at h
    rcases h with ⟨rfl, rfl⟩ | ⟨rfl, rfl⟩ | ⟨rfl, rfl⟩ | ⟨rfl, rfl⟩ | ⟨rfl, rfl⟩ | ⟨rfl, rfl⟩ <;>
      rfl
  simp only [scalarAt, hfront, hfind]

theorem readValue_word {w : List Char} (h : (w, v) ∈ wordValues) (rest : Text) :
    Gives readValue (Text.ofChars w ++ rest) v rest := by
  have hmarks : ∀ w ∈ wordValues, ∃ c cs, w.1 = c :: cs ∧ c ≠ '"' ∧ c ≠ '[' ∧ c ≠ '\x7b' := by
    simp [wordValues]
  obtain ⟨c, cs, rfl, hq, ha, ho⟩ := hmarks _ h
  have hscalar : scalarAt (.ofChar c :: (Text.ofChars cs ++ rest)) = .ok (v, cs.length + 1) :=
    scalarAt_word h rest
  have hdrop : (Text.ofChars cs ++ rest).drop cs.length = rest :=
    List.drop_left' (List.length_map _)
  change Gives readValue (.ofChar c :: (Text.ofChars cs ++ rest)) v rest
  refine ⟨by simp only [List.length_cons, List.length_append]; omega, ?_⟩
  rw [← CodePoint.glyph_ofChar c] at hq ha ho
  rw [readValue, if_neg hq, if_neg ha, if_neg ho, readScalar, hscalar]
  exact congrArg Except.ok (Prod.ext rfl (Subtype.ext hdrop))

end Steps

end Json

end DeclSchema
