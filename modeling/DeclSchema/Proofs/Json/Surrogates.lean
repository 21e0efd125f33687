import DeclSchema.Json.Writer
import DeclSchema.Proofs.Declaration.Escapes
import DeclSchema.Text.Utf8
import Mathlib.Data.Set.Basic

/-!
# Surrogates

Only a text without surrogates has a UTF-8 form. The writer of JSON values adds no surrogates: those
of the text of a value are those of the texts in it, of its keys and of the indentation.

## Main definitions

* `Text.SurrogatesIn`, `Json.SurrogatesIn`: all surrogates have their numbers in a set
* `Json.strings`: the texts in a value

## Main results

* `Text.exists_utf8?`: a text without surrogates has a UTF-8 form
* `Json.surrogatesIn_write`: the writer adds no surrogates
-/

namespace DeclSchema

variable {s : Set Nat}

/-! ### Texts -/

namespace Text

variable {t u : Text}

/-- Every surrogate of a text has its number in a set. -/
def SurrogatesIn (s : Set Nat) (t : Text) : Prop :=
  ∀ p ∈ t, p.isSurrogate = true → p.value ∈ s

@[simp] theorem surrogatesIn_nil : SurrogatesIn s [] :=
  nofun

@[simp] theorem surrogatesIn_ofChars (cs : List Char) : SurrogatesIn s (ofChars cs) := by
  intro p hp hsurrogate
  obtain ⟨c, -, rfl⟩ := List.mem_map.1 hp
  rw [CodePoint.isSurrogate_ofChar] at hsurrogate
  cases hsurrogate

@[simp] theorem surrogatesIn_ofString (cs : String) : SurrogatesIn s (ofString cs) :=
  surrogatesIn_ofChars _

@[simp] theorem surrogatesIn_append :
    SurrogatesIn s (t ++ u) ↔ SurrogatesIn s t ∧ SurrogatesIn s u := by
  simp only [SurrogatesIn, List.forall_mem_append]

theorem surrogatesIn_flatten {ts : List Text} (h : ∀ t ∈ ts, SurrogatesIn s t) :
    SurrogatesIn s ts.flatten := by
  intro p hp
  obtain ⟨t, ht, hp⟩ := List.mem_flatten.1 hp
  exact h t ht p hp

@[simp] theorem surrogatesIn_ofInt (n : Int) : SurrogatesIn s (ofInt n) := by
  cases n with
  | ofNat n => exact surrogatesIn_ofChars _
  | negSucc n => exact surrogatesIn_append.2 ⟨surrogatesIn_ofString _, surrogatesIn_ofChars _⟩

theorem hasSurrogate_eq_false_iff : t.hasSurrogate = false ↔ SurrogatesIn ∅ t := by
  simp [hasSurrogate, SurrogatesIn]

/-- A text without surrogates is a list of characters. -/
theorem chars?_eq (h : SurrogatesIn ∅ t) : t.chars? = some t.glyphs := by
  induction t with
  | nil => rfl
  | cons p t ih =>
    have hp : p.isSurrogate = false := by
      rw [← Bool.not_eq_true]
      exact fun hsurrogate => h p (List.mem_cons_self ..) hsurrogate
    have ht : t.mapM CodePoint.char? = some (glyphs t) :=
      ih fun q hq => h q (List.mem_cons_of_mem _ hq)
    have hchar : p.char? = some p.glyph := by simp [CodePoint.glyph, CodePoint.char?, hp]
    simp only [chars?, List.mapM_cons, hchar, ht]
    rfl

/-- A text without surrogates has a UTF-8 form. -/
theorem exists_utf8? (h : SurrogatesIn ∅ t) : ∃ content, t.utf8? = some content :=
  ⟨_, by rw [utf8?, chars?_eq h]; rfl⟩

end Text

/-- The surrogates of a string that is spelled are among the numbers of its escapes. -/
theorem Escape.surrogatesIn_unquote {lexeme : List Char} {t : Text} (h : unquote lexeme = .ok t)
    (hs : ∀ n ∈ numbersOf lexeme, n ∈ s) : t.SurrogatesIn s := by
  have hreflects := unquote_reflects lexeme
  rw [h] at hreflects
  exact fun p hp hsurrogate => hs _ (hreflects.2 p hp hsurrogate)

namespace Json

/-! ### Values -/

mutual

/-- The texts in a value, the keys of its objects included. -/
def strings : Json → List Text
  | text t => [t]
  | array items => stringsOfItems items
  | object fields => stringsOfFields fields
  | _ => []

def stringsOfItems : List Json → List Text
  | [] => []
  | v :: rest => strings v ++ stringsOfItems rest

def stringsOfFields : List (Text × Json) → List Text
  | [] => []
  | (k, v) :: rest => k :: (strings v ++ stringsOfFields rest)

end

/-- Every surrogate in a value has its number in a set. -/
def SurrogatesIn (s : Set Nat) (v : Json) : Prop :=
  ∀ t ∈ v.strings, t.SurrogatesIn s

@[simp] theorem surrogatesIn_text {t : Text} : (text t).SurrogatesIn s ↔ t.SurrogatesIn s := by
  simp [SurrogatesIn, strings]

@[simp] theorem surrogatesIn_array {items : List Json} :
    (array items).SurrogatesIn s ↔ ∀ v ∈ items, v.SurrogatesIn s := by
  simp only [SurrogatesIn, strings]
  induction items with
  | nil => simp [stringsOfItems]
  | cons v rest ih => simp only [stringsOfItems, List.forall_mem_append, ih, List.forall_mem_cons]

@[simp] theorem surrogatesIn_object {fields : List (Text × Json)} :
    (object fields).SurrogatesIn s ↔
      ∀ f ∈ fields, f.1.SurrogatesIn s ∧ f.2.SurrogatesIn s := by
  simp only [SurrogatesIn, strings]
  induction fields with
  | nil => simp [stringsOfFields]
  | cons f rest ih =>
    simp only [stringsOfFields, List.forall_mem_append, ih, List.forall_mem_cons, and_assoc]

/-! ### Writing -/

/-- The unit of a layout has no surrogates but those in a set. -/
def Layout.SurrogatesIn (s : Set Nat) (l : Layout) : Prop :=
  ∀ unit ∈ l.unit?, Text.SurrogatesIn s unit

section Writing

variable {l : Layout}

theorem Layout.SurrogatesIn.indent (h : l.SurrogatesIn s) (level : Nat) {unit : Text}
    (hu : l.unit? = some unit) : Text.SurrogatesIn s (List.replicate level unit).flatten := by
  refine Text.surrogatesIn_flatten fun t ht => ?_
  rw [List.eq_of_mem_replicate ht]
  exact h unit hu

theorem Layout.SurrogatesIn.separator (h : l.SurrogatesIn s) (level : Nat) :
    (l.separator level).SurrogatesIn s := by
  unfold Layout.separator
  split
  · exact Text.surrogatesIn_ofString _
  · next unit hu => exact Text.surrogatesIn_append.2 ⟨Text.surrogatesIn_ofString _, h.indent _ hu⟩

theorem Layout.SurrogatesIn.lineBreak (h : l.SurrogatesIn s) (level : Nat) :
    (l.lineBreak level).SurrogatesIn s := by
  unfold Layout.lineBreak
  split
  · exact Text.surrogatesIn_nil
  · next unit hu => exact Text.surrogatesIn_append.2 ⟨Text.surrogatesIn_ofString _, h.indent _ hu⟩

/-- A code point is written as itself or in characters. -/
theorem surrogatesIn_writePoint (asciiOnly : Bool) {p : CodePoint}
    (h : p.isSurrogate = true → p.value ∈ s) : (writePoint asciiOnly p).SurrogatesIn s := by
  have hp : Text.SurrogatesIn s [p] := by
    intro q hq
    obtain rfl := List.mem_singleton.1 hq
    exact h
  have hunit (n : Nat) : (unitEscape n).SurrogatesIn s := Text.surrogatesIn_ofChars _
  dsimp only [writePoint]
  repeat' split
  all_goals simp only [Text.surrogatesIn_ofString, Text.surrogatesIn_append, hunit, hp, and_self]

theorem surrogatesIn_writeString (asciiOnly : Bool) {t : Text} (h : t.SurrogatesIn s) :
    (writeString asciiOnly t).SurrogatesIn s := by
  have hpoints : Text.SurrogatesIn s (t.flatMap (writePoint asciiOnly)) := by
    intro q hq
    obtain ⟨p, hp, hq⟩ := List.mem_flatMap.1 hq
    exact surrogatesIn_writePoint asciiOnly (h p hp) q hq
  simp only [writeString, Text.surrogatesIn_append, Text.surrogatesIn_ofString, hpoints, and_self]

theorem surrogatesIn_decimal (x : Binary64) : x.decimal.SurrogatesIn s := by
  unfold Binary64.decimal
  repeat' split
  all_goals exact Text.surrogatesIn_ofChars _

theorem surrogatesIn_writeReal (x : Binary64) : (writeReal x).SurrogatesIn s := by
  unfold writeReal
  split
  · exact Text.surrogatesIn_ofString _
  · exact Text.surrogatesIn_ofString _
  · exact surrogatesIn_decimal x

-- Induction on the value: what the writer puts around the parts are characters and indentation.

mutual

theorem surrogatesIn_writeAt (hl : l.SurrogatesIn s) (level : Nat) :
    ∀ v : Json, v.SurrogatesIn s → (writeAt l level v).SurrogatesIn s
  | null, _ => by
    rw [writeAt]
    exact Text.surrogatesIn_ofString _
  | truth b, _ => by
    rw [writeAt]
    exact Text.surrogatesIn_ofString _
  | integer n, _ => by
    rw [writeAt]
    exact Text.surrogatesIn_ofInt n
  | real x, _ => by
    rw [writeAt]
    exact surrogatesIn_writeReal x
  | text t, h => by
    rw [writeAt]
    exact surrogatesIn_writeString _ (surrogatesIn_text.1 h)
  | array [], _ => by
    rw [writeAt]
    exact Text.surrogatesIn_ofString _
  | array (x :: xs), h => by
    obtain ⟨hx, hxs⟩ := List.forall_mem_cons.1 (surrogatesIn_array.1 h)
    simp only [writeAt, Text.surrogatesIn_append, Text.surrogatesIn_ofString, hl.lineBreak,
      surrogatesIn_writeAt hl _ x hx, surrogatesIn_writeItems hl _ xs hxs, and_self]
  | object [], _ => by
    rw [writeAt]
    exact Text.surrogatesIn_ofString _
  | object ((k, v) :: fs), h => by
    obtain ⟨⟨hk, hv⟩, hfs⟩ := List.forall_mem_cons.1 (surrogatesIn_object.1 h)
    simp only [writeAt, Text.surrogatesIn_append, Text.surrogatesIn_ofString, hl.lineBreak,
      surrogatesIn_writeString _ hk, surrogatesIn_writeAt hl _ v hv,
      surrogatesIn_writeFields hl _ fs hfs, and_self]

theorem surrogatesIn_writeItems (hl : l.SurrogatesIn s) (level : Nat) :
    ∀ items : List Json, (∀ v ∈ items, v.SurrogatesIn s) →
      (writeItems l level items).SurrogatesIn s
  | [], _ => by
    rw [writeItems]
    exact Text.surrogatesIn_nil
  | x :: xs, h => by
    obtain ⟨hx, hxs⟩ := List.forall_mem_cons.1 h
    simp only [writeItems, Text.surrogatesIn_append, hl.separator,
      surrogatesIn_writeAt hl _ x hx, surrogatesIn_writeItems hl _ xs hxs, and_self]

theorem surrogatesIn_writeFields (hl : l.SurrogatesIn s) (level : Nat) :
    ∀ fields : List (Text × Json), (∀ f ∈ fields, f.1.SurrogatesIn s ∧ f.2.SurrogatesIn s) →
      (writeFields l level fields).SurrogatesIn s
  | [], _ => by
    rw [writeFields]
    exact Text.surrogatesIn_nil
  | (k, v) :: fs, h => by
    obtain ⟨⟨hk, hv⟩, hfs⟩ := List.forall_mem_cons.1 h
    simp only [writeFields, Text.surrogatesIn_append, Text.surrogatesIn_ofString, hl.separator,
      surrogatesIn_writeString _ hk, surrogatesIn_writeAt hl _ v hv,
      surrogatesIn_writeFields hl _ fs hfs, and_self]

end

/-- The writer adds no surrogates. -/
theorem surrogatesIn_write (hl : l.SurrogatesIn s) {v : Json} (h : v.SurrogatesIn s) :
    (write l v).SurrogatesIn s :=
  surrogatesIn_writeAt hl 0 v h

end Writing

end Json

end DeclSchema
