import DeclSchema.Json.Writer
import DeclSchema.Proofs.Entries
import DeclSchema.Proofs.Json.Reader

/-!
# Reading what was written

A value without numbers is read back from its text, with the fields of every object in their order.
The statement is about a value with anything behind it, since this is what the reader meets inside a
text: it gives the value and leaves what is behind. The layout may put blanks between the parts,
because the reader skips them at every place where the writer puts them.

A string is read back one code point after the other, because no escape can be taken for the
beginning of another one. Two surrogates that follow each other stay two code points: they are
written as they are, and the reader joins only surrogates that are escaped.

## Main definitions

* `Json.IsPlain`: values without numbers whose objects have distinct keys
* `Json.Layout.IsReadable`: layouts that put only blanks between the parts of a value

## Main results

* `Json.readString_writeString`: a string is read back
* `Json.readValue_writeAt`: a value is read back
* `Json.read_write`: so is a whole text
-/

namespace DeclSchema.Json

variable {more rest after : Text}

/-! ### Strings -/

section Strings

variable {start t : Text}

theorem hexNumber?_hexDigits : ∀ n < 0x20, hexNumber? (hexDigits 4 n) = some n := by
  decide

theorem length_hexDigits : ∀ n < 0x20, (hexDigits 4 n).length = 4 := by
  decide

theorem isHighSurrogate_of_lt : ∀ n < 0x20, isHighSurrogate n = false := by
  decide

/-- The escape of a control character is read by its number; something follows it. -/
theorem unicodeEscape_hexDigits {n : Nat} (hn : n < 0x20) (hmore : 0 < more.length) :
    Gives unicodeEscape (Text.ofChars (hexDigits 4 n) ++ more) (pointOf n) more := by
  have hlength : (Text.ofChars (hexDigits 4 n)).length = 4 := by
    rw [Text.ofChars, List.length_map, length_hexDigits n hn]
  have htake : (Text.ofChars (hexDigits 4 n) ++ more).take 4 = Text.ofChars (hexDigits 4 n) :=
    List.take_left' hlength
  have hdrop : (Text.ofChars (hexDigits 4 n) ++ more).drop 4 = more := List.drop_left' hlength
  have hfive : ¬ (Text.ofChars (hexDigits 4 n) ++ more).length < 5 := by
    rw [List.length_append, hlength]
    omega
  refine ⟨by rw [List.length_append, hlength]; omega, ?_⟩
  simp only [unicodeEscape, dif_neg hfive, htake, Text.glyphs_ofChars, hexNumber?_hexDigits n hn,
    isHighSurrogate_of_lt n hn]
  exact congrArg Except.ok (Prod.ext rfl (Subtype.ext hdrop))

theorem readEscape_unitEscape (start escape : Text) {n : Nat} (hn : n < 0x20)
    (hmore : 0 < more.length) :
    Gives (readEscape start escape) (.ofChar 'u' :: (Text.ofChars (hexDigits 4 n) ++ more))
      (pointOf n) more := by
  obtain ⟨hlt, h⟩ := unicodeEscape_hexDigits hn hmore
  refine ⟨Nat.lt_succ_of_lt hlt, ?_⟩
  rw [readEscape, if_pos (CodePoint.glyph_ofChar _), h]
  rfl

/-- A code point is written as an escape that names it, as an escape with its number, or as it
is. -/
theorem writePoint_cases (p : CodePoint) :
    (∃ c d, c ≠ 'u' ∧ simpleEscape? c = some d ∧ p.value = d.toNat ∧
      writePoint false p = [.ofChar '\\', .ofChar c]) ∨
    (p.value < 0x20 ∧
      writePoint false p = .ofChar '\\' :: .ofChar 'u' :: Text.ofChars (hexDigits 4 p.value)) ∨
    (p.value ≠ '"'.toNat ∧ p.value ≠ '\\'.toNat ∧ 0x20 ≤ p.value ∧ writePoint false p = [p]) := by
  have named (c d : Char) (hc : c ≠ 'u') (hd : simpleEscape? c = some d) (hp : p.value = d.toNat) :
      ∃ c' d, c' ≠ 'u' ∧ simpleEscape? c' = some d ∧ p.value = d.toNat ∧
        [CodePoint.ofChar '\\', .ofChar c] = [.ofChar '\\', .ofChar c'] :=
    ⟨c, d, hc, hd, hp, rfl⟩
  unfold writePoint
  simp only [beq_iff_eq, Bool.not_false, Bool.true_or, if_true]
  -- The branches of the writer in their order: the escapes with a name, the control characters, and
  -- all others.
  split
  · next hp => exact Or.inl (named '"' _ (by decide) rfl hp)
  next hquote =>
  split
  · next hp => exact Or.inl (named '\\' _ (by decide) rfl hp)
  next hbackslash =>
  split
  · next hp => exact Or.inl (named 'n' _ (by decide) rfl hp)
  split
  · next hp => exact Or.inl (named 'r' _ (by decide) rfl hp)
  split
  · next hp => exact Or.inl (named 't' _ (by decide) rfl hp)
  split
  · next hp => exact Or.inl (named 'f' _ (by decide) rfl hp)
  split
  · next hp => exact Or.inl (named 'b' _ (by decide) rfl hp)
  split
  · next hcontrol => exact Or.inr (Or.inl ⟨hcontrol, rfl⟩)
  · next hcontrol => exact Or.inr (Or.inr ⟨hquote, hbackslash, Nat.le_of_not_lt hcontrol, rfl⟩)

/-- A code point is read back from inside a string. -/
theorem readString_writePoint (p : CodePoint) (h : Gives (readString start) more t rest) :
    Gives (readString start) (writePoint false p ++ more) (p :: t) rest := by
  obtain ⟨c, d, hc, hd, hp, hw⟩ | ⟨hcontrol, hw⟩ | ⟨hquote, hbackslash, hcontrol, hw⟩ :=
    writePoint_cases p
  · have he : p = .ofChar d := by
      obtain ⟨value, hlt⟩ := p
      cases hp
      rfl
    rw [hw, he]
    exact readString_escape (readEscape_simple start _ hc hd more) h
  · -- After the escape comes at least the closing quote.
    have he : pointOf p.value = p := by
      rw [pointOf, CodePoint.ofNat?, dif_pos p.value_lt]
      rfl
    have hescape := readEscape_unitEscape start (writePoint false p ++ more) hcontrol h.length_pos
    rw [he] at hescape
    rw [hw] at hescape ⊢
    exact readString_escape hescape h
  · have hne {c : Char} (hc : c ≠ '\uFFFD') (hv : p.value ≠ c.toNat) : p.glyph ≠ c := by
      intro hg
      exact hv (congrArg CodePoint.value (CodePoint.eq_ofChar_of_glyph hc hg))
    rw [hw]
    refine readString_raw (hne (by decide) hquote) (hne (by decide) hbackslash) ?_ h
    -- A surrogate is shown as a character that needs no escape either.
    cases hs : p.isSurrogate with
    | true =>
      rw [CodePoint.glyph_of_isSurrogate hs]
      decide
    | false =>
      rw [CodePoint.toNat_glyph hs]
      omega

theorem readString_flatMap (start t rest : Text) :
    Gives (readString start) (t.flatMap (writePoint false) ++ .ofChar '"' :: rest) t rest := by
  induction t with
  | nil => exact readString_quote start rest
  | cons p t ih =>
    rw [List.flatMap_cons, List.append_assoc]
    exact readString_writePoint p ih

/-- A string is read back, whatever comes after it. -/
theorem readString_writeString (t rest : Text) :
    ∃ more, writeString false t ++ rest = .ofChar '"' :: more ∧
      ∀ start, Gives (readString start) more t rest := by
  refine ⟨t.flatMap (writePoint false) ++ .ofChar '"' :: rest, ?_, fun start =>
    readString_flatMap start t rest⟩
  rw [writeString, List.append_assoc, List.append_assoc]
  rfl

end Strings

/-! ### Layouts -/

/-- A layout that writes all characters as they are and puts only blanks between the parts of a
value. -/
structure Layout.IsReadable (l : Layout) : Prop where
  raw : l.asciiOnly = false
  blank : ∀ unit, l.unit? = some unit → ∀ p ∈ unit, isBlank p.glyph = true

section Layouts

variable {l : Layout}

theorem skipBlanks_append {gap : Text} (h : ∀ p ∈ gap, isBlank p.glyph = true) (t : Text) :
    skipBlanks (gap ++ t) = skipBlanks t :=
  List.dropWhile_append_of_pos h

theorem Layout.IsReadable.blank_indent (hl : l.IsReadable) (level : Nat) {unit : Text}
    (hu : l.unit? = some unit) : ∀ p ∈ (List.replicate level unit).flatten,
      isBlank p.glyph = true := by
  intro p hp
  obtain ⟨u, hmem, hp⟩ := List.mem_flatten.1 hp
  rw [List.eq_of_mem_replicate hmem] at hp
  exact hl.blank unit hu p hp

theorem Layout.IsReadable.skipBlanks_lineBreak (hl : l.IsReadable) (level : Nat) (t : Text) :
    skipBlanks (l.lineBreak level ++ t) = skipBlanks t := by
  unfold lineBreak
  split
  · rfl
  · next unit hu =>
    rw [List.append_assoc]
    exact (skipBlanks_append (by decide) _).trans
      (skipBlanks_append (hl.blank_indent level hu) t)

/-- Between two items are a comma and blanks. -/
theorem Layout.IsReadable.exists_separator (hl : l.IsReadable) (level : Nat) :
    ∃ gap, l.separator level = .ofChar ',' :: gap ∧ ∀ t, skipBlanks (gap ++ t) = skipBlanks t := by
  unfold separator
  split
  · exact ⟨Text.ofString " ", rfl, skipBlanks_append (by decide)⟩
  · next unit hu =>
    refine ⟨Text.ofString "\n" ++ (List.replicate level unit).flatten, rfl, fun t => ?_⟩
    rw [List.append_assoc]
    exact (skipBlanks_append (by decide) _).trans
      (skipBlanks_append (hl.blank_indent level hu) t)

end Layouts

/-! ### Values -/

mutual

/-- A value without numbers in which no object has two fields of one key. -/
def IsPlain : Json → Prop
  | null => True
  | truth _ => True
  | integer _ => False
  | real _ => False
  | text _ => True
  | array items => arePlain items
  | object fields => (Entries.keys fields).Nodup ∧ arePlainFields fields

def arePlain : List Json → Prop
  | [] => True
  | v :: rest => v.IsPlain ∧ arePlain rest

def arePlainFields : List (Text × Json) → Prop
  | [] => True
  | (_, v) :: rest => v.IsPlain ∧ arePlainFields rest

end

theorem arePlain_iff {vs : List Json} : arePlain vs ↔ ∀ v ∈ vs, v.IsPlain := by
  induction vs with
  | nil => simp [arePlain]
  | cons v rest ih => simp [arePlain, ih]

theorem arePlainFields_iff {fs : List (Text × Json)} :
    arePlainFields fs ↔ ∀ f ∈ fs, f.2.IsPlain := by
  induction fs with
  | nil => simp [arePlainFields]
  | cons f rest ih => simp [arePlainFields, ih]

/-- The text of a value starts with a character that neither is skipped nor closes a list. -/
theorem exists_writeAt {v : Json} (hv : v.IsPlain) (l : Layout) (level : Nat) :
    ∃ c t, writeAt l level v = .ofChar c :: t ∧ isBlank c = false ∧ c ≠ ']' ∧ c ≠ '\uFEFF' := by
  have hopen : ∀ c ∈ ['n', 'f', 't', '"', '[', '\x7b'],
      isBlank c = false ∧ c ≠ ']' ∧ c ≠ '\uFEFF' := by
    intro c hc
    simp only [List.mem_cons, List.not_mem_nil, or_false] at hc
    rcases hc with rfl | rfl | rfl | rfl | rfl | rfl <;> decide
  -- Six characters may come first, and none of them is skipped or closes a list.
  suffices h : ∃ c ∈ ['n', 'f', 't', '"', '[', '\x7b'], ∃ t, writeAt l level v = .ofChar c :: t by
    obtain ⟨c, hc, t, hw⟩ := h
    exact ⟨c, t, hw, hopen c hc⟩
  cases v with
  | null => exact ⟨'n', by decide, Text.ofString "ull", by rw [writeAt]; rfl⟩
  | truth b =>
    cases b with
    | false => exact ⟨'f', by decide, Text.ofString "alse", by rw [writeAt]; rfl⟩
    | true => exact ⟨'t', by decide, Text.ofString "rue", by rw [writeAt]; rfl⟩
  | integer n =>
    rw [IsPlain] at hv
    exact hv.elim
  | real x =>
    rw [IsPlain] at hv
    exact hv.elim
  | text t => exact ⟨'"', by decide, _, by rw [writeAt]; rfl⟩
  | array items => cases items <;> exact ⟨'[', by decide, _, by rw [writeAt]; rfl⟩
  | object fields => cases fields <;> exact ⟨'\x7b', by decide, _, by rw [writeAt]; rfl⟩

section Values

variable {l : Layout}

theorem skipBlanks_writeAt {v : Json} (hv : v.IsPlain) (l : Layout) (level : Nat) (rest : Text) :
    skipBlanks (writeAt l level v ++ rest) = writeAt l level v ++ rest := by
  obtain ⟨c, t, hw, hc, -⟩ := exists_writeAt hv l level
  rw [hw]
  exact skipBlanks_cons (by rw [CodePoint.glyph_ofChar, hc]) _

theorem mark?_writeAt {v : Json} (hv : v.IsPlain) (l : Layout) (level : Nat) (rest : Text)
    (h : skipBlanks more = writeAt l level v ++ rest) : mark? ']' more = none := by
  obtain ⟨c, t, hw, -, hc, -⟩ := exists_writeAt hv l level
  rw [hw] at h
  exact mark?_of_skipBlanks h (by rwa [CodePoint.glyph_ofChar])

theorem marks_lineBreak (hl : l.IsReadable) (level : Nat) {c : Char} (hc : isBlank c = false)
    (rest : Text) : Marks c (l.lineBreak level ++ .ofChar c :: rest) rest := by
  refine marks_of_skipBlanks ?_
  rw [hl.skipBlanks_lineBreak]
  exact skipBlanks_cons (by rwa [CodePoint.glyph_ofChar]) rest

/-- After an item and before another one, the reader finds a comma and neither bracket. -/
theorem exists_marks_separator (hl : l.IsReadable) (level : Nat) (t : Text) :
    ∃ next, Marks ',' (l.separator level ++ t) next ∧ skipBlanks next = skipBlanks t ∧
      ∀ c, c ≠ ',' → mark? c (l.separator level ++ t) = none := by
  obtain ⟨gap, hs, hgap⟩ := hl.exists_separator level
  have hskip : skipBlanks (l.separator level ++ t) = .ofChar ',' :: (gap ++ t) := by
    rw [hs]
    exact skipBlanks_cons rfl _
  refine ⟨gap ++ t, marks_of_skipBlanks hskip, hgap t, fun c hc => ?_⟩
  exact mark?_of_skipBlanks hskip (by rw [CodePoint.glyph_ofChar]; exact hc.symm)

/-- A field is read up to the end of its value if its value is. -/
theorem exists_field {v : Json} (hv : v.IsPlain) (level : Nat) (k : Text)
    (h : Gives readValue (writeAt l level v ++ after) v rest) :
    ∃ more afterKey before,
      writeString false k ++ (Text.ofString ": " ++ (writeAt l level v ++ after)) =
        .ofChar '"' :: more ∧
      Gives (readString (.ofChar '"' :: more)) more k afterKey ∧ Marks ':' afterKey before ∧
      Gives readValue (skipBlanks before) v rest := by
  obtain ⟨more, hw, hkey⟩ := readString_writeString k
    (Text.ofString ": " ++ (writeAt l level v ++ after))
  refine ⟨more, _, _, hw, hkey _, marks_of_skipBlanks (skipBlanks_cons rfl _), ?_⟩
  have hskip : skipBlanks (.ofString " " ++ (writeAt l level v ++ after)) =
      writeAt l level v ++ after :=
    (skipBlanks_append (by decide) _).trans (skipBlanks_writeAt hv l level after)
  rw [← hskip] at h
  exact h

theorem skipBlanks_writeString (k rest : Text) :
    skipBlanks (writeString false k ++ rest) = writeString false k ++ rest := by
  rw [writeString, List.append_assoc, List.append_assoc]
  exact skipBlanks_cons rfl _

-- Induction on the value: what comes after a part is the rest that the reader leaves for the next
-- step, and blanks before a part are skipped by the step that ends there.

mutual

/-- A value is read back from the front of a text. -/
theorem readValue_writeAt (hl : l.IsReadable) (level : Nat) :
    ∀ v : Json, v.IsPlain → ∀ rest, Gives readValue (writeAt l level v ++ rest) v rest
  | null, _, rest => by
    rw [writeAt]
    exact readValue_word (w := "null".toList) (by simp [wordValues]) rest
  | truth b, _, rest => by
    rw [writeAt]
    cases b with
    | false => exact readValue_word (w := "false".toList) (by simp [wordValues]) rest
    | true => exact readValue_word (w := "true".toList) (by simp [wordValues]) rest
  | integer n, h, _ => by
    rw [IsPlain] at h
    exact h.elim
  | real x, h, _ => by
    rw [IsPlain] at h
    exact h.elim
  | text t, _, rest => by
    obtain ⟨more, hw, hread⟩ := readString_writeString t rest
    rw [writeAt, hl.raw, hw]
    exact readValue_string (hread _)
  | array [], _, rest => by
    rw [writeAt]
    exact readValue_array_nil (marks_of_skipBlanks (skipBlanks_cons rfl _))
  | array (x :: xs), h, rest => by
    rw [IsPlain] at h
    have hitems := readItems_writeItems hl (level + 1) x xs h
      (marks_lineBreak hl level (c := ']') rfl rest)
    rw [arePlain] at h
    -- The reader looks at the first item behind the line break before it reads the items, so both
    -- are about the text from there on.
    have hskip := skipBlanks_writeAt h.1 l (level + 1)
      (writeItems l (level + 1) xs ++ (l.lineBreak level ++ .ofChar ']' :: rest))
    rw [← hskip, ← hl.skipBlanks_lineBreak (level + 1)] at hitems
    rw [← hl.skipBlanks_lineBreak (level + 1)] at hskip
    have hvalue := readValue_array (mark?_writeAt h.1 l (level + 1) _ hskip) hitems
    rw [writeAt]
    simp only [List.append_assoc]
    exact hvalue
  | object [], _, rest => by
    rw [writeAt]
    exact readValue_object_nil (marks_of_skipBlanks (skipBlanks_cons rfl _))
  | object ((k, v) :: fs), h, rest => by
    rw [IsPlain] at h
    -- No key occurs twice, so the reader puts the fields together as they were.
    have hsame : Entries.ofList ((k, v) :: fs) = (k, v) :: fs :=
      Entries.putAll_of_disjoint h.1 fun _ _ => List.not_mem_nil
    have hfields := readFields_writeFields hl (level + 1) k v fs h.2
      (marks_lineBreak hl level (c := '\x7d') rfl rest)
    rw [← skipBlanks_writeString, ← hl.skipBlanks_lineBreak (level + 1)] at hfields
    have hvalue := readValue_object (mark?_of_skipBlanks (p := .ofChar '"') (by
      rw [hl.skipBlanks_lineBreak, skipBlanks_writeString]
      rfl) (by simp)) hfields
    rw [hsame] at hvalue
    rw [writeAt, hl.raw]
    simp only [List.append_assoc]
    exact hvalue
termination_by v => sizeOf v

theorem readItems_writeItems (hl : l.IsReadable) (level : Nat) (x : Json) :
    ∀ xs : List Json, arePlain (x :: xs) → ∀ {close rest}, Marks ']' close rest →
      Gives readItems (writeAt l level x ++ (writeItems l level xs ++ close)) (x :: xs) rest
  | [], h, close, rest, hclose => by
    rw [arePlain] at h
    rw [writeItems]
    exact readItems_last (readValue_writeAt hl level x h.1 close) hclose
  | y :: ys, h, close, rest, hclose => by
    rw [arePlain] at h
    have hx := readValue_writeAt hl level x h.1 (writeItems l level (y :: ys) ++ close)
    have hitems := readItems_writeItems hl level y ys h.2 hclose
    rw [arePlain] at h
    -- The next item starts behind the separator, whose blanks the reader skips.
    obtain ⟨next, hcomma, hskip, hnone⟩ := exists_marks_separator hl level
      (writeAt l level y ++ (writeItems l level ys ++ close))
    rw [← skipBlanks_writeAt h.2.1, ← hskip] at hitems
    rw [writeItems] at hx ⊢
    simp only [List.append_assoc] at hx ⊢
    exact readItems_next hx (hnone ']' (by decide)) hcomma hitems
termination_by xs => sizeOf (x :: xs)

theorem readFields_writeFields (hl : l.IsReadable) (level : Nat) (k : Text) (v : Json) :
    ∀ fs : List (Text × Json), arePlainFields ((k, v) :: fs) →
      ∀ {close rest}, Marks '\x7d' close rest →
      Gives readFields (writeString false k ++ (Text.ofString ": " ++
        (writeAt l level v ++ (writeFields l level fs ++ close)))) ((k, v) :: fs) rest
  | [], h, close, rest, hclose => by
    rw [arePlainFields] at h
    obtain ⟨more, afterKey, before, hw, hkey, hcolon, hvalue⟩ :=
      exists_field h.1 level k (readValue_writeAt hl level v h.1 close)
    rw [writeFields, List.nil_append, hw]
    exact readFields_last hkey hcolon hvalue hclose
  | (k', v') :: fs, h, close, rest, hclose => by
    rw [arePlainFields] at h
    have hfields := readFields_writeFields hl level k' v' fs h.2 hclose
    obtain ⟨more, afterKey, before, hw, hkey, hcolon, hvalue⟩ :=
      exists_field h.1 level k (readValue_writeAt hl level v h.1
        (writeFields l level ((k', v') :: fs) ++ close))
    -- The next key starts behind the separator, whose blanks the reader skips.
    obtain ⟨next, hcomma, hskip, hnone⟩ := exists_marks_separator hl level
      (writeString false k' ++ (Text.ofString ": " ++
        (writeAt l level v' ++ (writeFields l level fs ++ close))))
    rw [← skipBlanks_writeString, ← hskip] at hfields
    have hafter : writeFields l level ((k', v') :: fs) ++ close =
        l.separator level ++ (writeString false k' ++ (Text.ofString ": " ++
          (writeAt l level v' ++ (writeFields l level fs ++ close)))) := by
      rw [writeFields, hl.raw]
      simp only [List.append_assoc]
    rw [← hafter] at hcomma hnone
    rw [hw]
    exact readFields_next hkey hcolon hvalue (hnone '\x7d' (by decide)) hcomma hfields
termination_by fs => sizeOf ((k, v) :: fs)

end

/-- A text of a value, with blanks after it, is read as this value. -/
theorem read_write (hl : l.IsReadable) {v : Json} (hv : v.IsPlain) {gap : Text}
    (hg : ∀ p ∈ gap, isBlank p.glyph = true) : read (write l v ++ gap) = .ok v := by
  have hmark : markAt? '\uFEFF' (write l v ++ gap) = none := by
    obtain ⟨c, t, hw, -, -, hc⟩ := exists_writeAt hv l 0
    rw [write, hw]
    exact if_neg (by rwa [CodePoint.glyph_ofChar])
  have hvalue : Gives readValue (skipBlanks (write l v ++ gap)) v gap := by
    rw [write, skipBlanks_writeAt hv]
    exact readValue_writeAt hl 0 v hv gap
  have hend : skipBlanks gap = [] := by
    have := skipBlanks_append hg []
    rwa [List.append_nil] at this
  obtain ⟨hlt, hvalue⟩ := hvalue
  simp only [read, hmark, hvalue, bind, Except.bind, hend]
  rfl

end Values

end DeclSchema.Json
