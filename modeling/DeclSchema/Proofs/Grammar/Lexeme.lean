import DeclSchema.Proofs.Grammar.Gap

/-!
# Lexemes before a gap

A lexeme that is followed by a space is read as itself. Which terminal it is read as depends on what
is admitted: a word of the grammar that is admitted is told apart from a name, so a name must not be
spelled like it. A word or a mark is read as itself wherever it is admitted, be it through the class
that it belongs to.

## Main definitions

* `IsLexeme`: a terminal takes the whole of a lexeme

## Main results

* `IsLexeme.lexeme?_append`: a lexeme before a gap is read as itself
* `triviaLength_lead`: the space before a lexeme is skipped
-/

namespace DeclSchema.Grammar

namespace Terminal

/-! ### Words and marks among the terminals -/

/-- The words and marks of the grammar. -/
def spelled : List Terminal :=
  words ++ longMarks ++ plainMarks ++ closedMarks

theorem mem_spelled {t : Terminal} (ht : t.spelling ≠ []) : t ∈ spelled := by
  cases t <;> first | exact absurd rfl ht | decide

theorem eq_of_spelling_eq :
    ∀ t ∈ spelled, ∀ u ∈ spelled, u.spelling = t.spelling → u = t := by
  decide

/-- No word and no mark starts with a blank, a comment or a quote. -/
theorem head_spelling {t : Terminal} (ht : t.spelling ≠ []) {c : Char}
    (hc : c ∈ t.spelling.head?) :
    isBlank c = false ∧ c ≠ '/' ∧ c ∉ ['"', '\'', '\x60'] := by
  have hall : ∀ t ∈ spelled, (t.spelling.head?.all fun c =>
      !isBlank c && c != '/' && decide (c ∉ ['"', '\'', '\x60'])) = true := by
    decide
  have := hall t (mem_spelled ht)
  rw [hc] at this
  simpa [and_assoc] using this

/-- The words of the grammar are spelled like names. -/
theorem exists_of_mem_words {w : Terminal} (hw : w ∈ words) :
    ∃ c s, w.spelling = c :: s ∧ isNameStart c = true ∧ s.all isNamePart = true := by
  have hall : ∀ w ∈ words, (w.spelling.head?.any isNameStart && w.spelling.tail.all isNamePart)
      = true := by
    decide
  have hspelling := hall w hw
  cases hs : w.spelling with
  | nil =>
    rw [hs] at hspelling
    cases hspelling
  | cons c s =>
    rw [hs, Bool.and_eq_true] at hspelling
    exact ⟨c, s, rfl, hspelling⟩

theorem order_eq (t : Terminal) : ∃ back, order = order.takeWhile (· != t) ++ t :: back := by
  cases t <;> exact ⟨_, rfl⟩

theorem mem_order (t : Terminal) : t ∈ order := by
  cases t <;> decide

/-! ### Words and marks of the classes -/

theorem mem_classes_of_mem_special {c t : Terminal} (ht : t ∈ c.special) : c ∈ [name, other] := by
  cases c <;> first | exact absurd ht List.not_mem_nil | decide

theorem mem_spelled_of_special : ∀ c ∈ [name, other], ∀ t ∈ c.special, t ∈ spelled := by
  decide

/-- A terminal is read for itself if no class that it belongs to is admitted. -/
theorem isAbsorbed_eq_false_iff {admits : Terminal → Bool} {t : Terminal} :
    t.isAbsorbed admits = false ↔ ∀ c ∈ [name, other], admits c = true → t ∉ c.special := by
  simp only [isAbsorbed, List.any_eq_false, Bool.and_eq_true, List.contains_iff_mem, not_and]

/-- A terminal that belongs to no class is always read for itself. -/
theorem isAbsorbed_eq_false {admits : Terminal → Bool} {t : Terminal}
    (ht : ∀ c ∈ [name, other], t ∉ c.special) : t.isAbsorbed admits = false :=
  isAbsorbed_eq_false_iff.2 fun c hc _ => ht c hc

/-- A class of lexemes belongs to no other class. -/
theorem isAbsorbed_class {c : Terminal} (hc : c ∈ [name, other]) (admits : Terminal → Bool) :
    c.isAbsorbed admits = false := by
  have hnone : ∀ c ∈ [name, other], ∀ d ∈ [name, other], c ∉ d.special := by decide
  exact isAbsorbed_eq_false (hnone c hc)

/-- A lexeme that no admitted word or mark is spelled like stands for its class. -/
theorem refine_eq_self {admits : Terminal → Bool} {c : Terminal} {lexeme : List Char}
    (h : ∀ t ∈ c.special, admits t = true → t.spelling ≠ lexeme) : c.refine admits lexeme = c := by
  rw [refine, List.find?_eq_none.2, Option.getD_none]
  intro t ht
  rw [Bool.and_eq_true, beq_iff_eq]
  exact fun hsame => h t ht hsame.1 hsame.2

/-- A lexeme stands for its class, or for a word or a mark that is spelled like it. -/
theorem refine_eq_or_mem_special (admits : Terminal → Bool) (c : Terminal) (lexeme : List Char) :
    (c.refine admits lexeme = c ∧ ∀ t ∈ c.special, admits t = true → t.spelling ≠ lexeme) ∨
      (c.refine admits lexeme ∈ c.special ∧ (c.refine admits lexeme).spelling = lexeme) := by
  cases hfind : c.special.find? fun t => admits t && t.spelling == lexeme with
  | none =>
    have hplain : ∀ t ∈ c.special, admits t = true → t.spelling ≠ lexeme := by
      intro t ht hadmits hsame
      exact List.find?_eq_none.1 hfind t ht (by simp [hadmits, hsame])
    exact .inl ⟨refine_eq_self hplain, hplain⟩
  | some t =>
    have hsame := List.find?_some hfind
    rw [Bool.and_eq_true, beq_iff_eq] at hsame
    rw [refine, hfind, Option.getD_some]
    exact .inr ⟨List.mem_of_find?_eq_some hfind, hsame.2⟩

/-- A class that a word or a mark belongs to takes it whole, and what is tried before takes nothing
of it. -/
theorem lexemeLength_of_special :
    ∀ t ∈ spelled, ∀ c ∈ [name, other], c.special.contains t = true →
      c.lexemeLength t.spelling = t.spelling.length
        ∧ ∀ u ∈ order.takeWhile (· != c), u.lexemeLength t.spelling = 0 := by
  decide

/-- What is tried before a word or a mark takes nothing of it, but for the class that it
belongs to. -/
theorem lexemeLength_of_spelled :
    ∀ t ∈ spelled, ∀ u ∈ order.takeWhile (· != t),
      u.lexemeLength t.spelling = 0 ∨ u ∈ [name, other] ∧ u.special.contains t = true := by
  decide

end Terminal

/-! ### What terminals take before a gap -/

namespace Terminal

theorem delimitedLength?_le {delimiter : Char} {acrossLines : Bool} {s : List Char} {n : Nat}
    (h : delimitedLength? delimiter acrossLines s = some n) : n ≤ s.length := by
  fun_induction delimitedLength? delimiter acrossLines s generalizing n with
  | case1 => cases h
  | case2 => cases h
  | case3 c rest _ ih =>
    obtain ⟨m, hm, rfl⟩ := Option.map_eq_some_iff.1 h
    have := ih hm
    simp only [List.length_cons]
    omega
  | case4 c rest =>
    cases h
    simp
  | case5 => cases h
  | case6 c rest _ _ _ ih =>
    obtain ⟨m, hm, rfl⟩ := Option.map_eq_some_iff.1 h
    have := ih hm
    simp only [List.length_cons]
    omega

/-- A quoted text is no longer than the input. -/
theorem quotedLength_le (delimiter c : Char) (acrossLines : Bool) (s : List Char) :
    ((delimitedLength? delimiter acrossLines s).map (· + 1)).getD 0 ≤ (c :: s).length := by
  cases h : delimitedLength? delimiter acrossLines s with
  | none => simp
  | some n => simpa using delimitedLength?_le h

/-- No lexeme is longer than the input. -/
theorem lexemeLength_le (t : Terminal) (s : List Char) : t.lexemeLength s ≤ s.length := by
  cases t
  case name =>
    cases s with
    | nil => exact Nat.le_refl _
    | cons c s =>
      have := (s.takeWhile_sublist isNamePart).length_le
      simp only [lexemeLength, nameLength, List.length_cons]
      split <;> omega
  case string =>
    simp only [lexemeLength, stringLength]
    split
    · exact quotedLength_le _ _ _ _
    · exact quotedLength_le _ _ _ _
    · exact Nat.zero_le _
  case number => exact numberLength_le s
  case template =>
    simp only [lexemeLength, templateLength]
    split
    · exact quotedLength_le _ _ _ _
    · exact Nat.zero_le _
  case other =>
    cases s with
    | nil => exact Nat.le_refl _
    | cons c s =>
      simp only [lexemeLength, otherLength, List.length_cons]
      split <;> omega
  all_goals
    simp only [lexemeLength]
    split
    · next h => exact (List.isPrefixOf_iff_prefix.1 h).length_le
    · exact Nat.zero_le _

/-- What a word or a mark takes is its own spelling. -/
theorem lexemeLength_of_spelling {t : Terminal} (ht : t.spelling ≠ []) (s : List Char) :
    t.lexemeLength s = if t.spelling.isPrefixOf s then t.spelling.length else 0 := by
  cases t <;> first | exact absurd rfl ht | rfl

/-- A word or a mark takes nothing of what starts with another character. -/
theorem lexemeLength_eq_zero_of_ne {t : Terminal} {c d : Char} {w : List Char}
    (ht : t.spelling = d :: w) (hne : d ≠ c) (s : List Char) : t.lexemeLength (c :: s) = 0 := by
  rw [lexemeLength_of_spelling (by simp [ht]), ht, if_neg]
  simp [List.isPrefixOf, hne]

/-- A quote is in no other lexeme, and starts none. -/
theorem plain_of_quote {c : Char} (hc : c ∈ ['"', '\'', '\x60']) :
    isNameStart c = false ∧ isOther c = false ∧ isBlank c = false ∧ Unicode.isDigit c = false ∧
      c ≠ '.' ∧ c ≠ '/' := by
  simp only [List.mem_cons, List.not_mem_nil, or_false] at hc
  obtain rfl | rfl | rfl := hc <;> decide

/-- At a quote there is a quoted text or nothing. -/
theorem lexemeLength_eq_zero_of_quote {c : Char} (hc : c ∈ ['"', '\'', '\x60']) {t : Terminal}
    (hstring : t ≠ string) (htemplate : t ≠ template) (s : List Char) :
    t.lexemeLength (c :: s) = 0 := by
  obtain ⟨hname, hother, -, hdigit, hdot, -⟩ := plain_of_quote hc
  have hspelled (ht : t.spelling ≠ []) : t.lexemeLength (c :: s) = 0 := by
    obtain ⟨d, w, hspelling⟩ := List.exists_cons_of_ne_nil ht
    have hd := (head_spelling (t := t) (c := d) ht (by simp [hspelling])).2.2
    refine lexemeLength_eq_zero_of_ne hspelling ?_ s
    rintro rfl
    exact hd hc
  cases t
  case string => exact absurd rfl hstring
  case template => exact absurd rfl htemplate
  case name => simp [lexemeLength, nameLength, hname]
  case number => exact numberLength_eq_zero hdot hdigit s
  case other => simp [lexemeLength, otherLength, hother]
  all_goals exact hspelled (by decide)

theorem lexemeLength_nil (t : Terminal) : t.lexemeLength [] = 0 :=
  Nat.le_zero.1 (t.lexemeLength_le [])

theorem templateLength_append {s : List Char} (hs : templateLength s ≠ 0) (after : List Char) :
    templateLength (s ++ after) = templateLength s := by
  unfold templateLength at hs ⊢
  split at hs
  · next rest =>
    cases hn : delimitedLength? '\x60' true rest with
    | none =>
      rw [hn] at hs
      exact absurd rfl hs
    | some n => simp only [List.cons_append, delimitedLength?_append (by decide) after rest hn]
  · exact absurd rfl hs

/-- If any terminal takes something, then what the terminals take does not change behind a gap. -/
theorem lexemeLength_append_of_ne_zero {after s : List Char} (h : IsGap after) {u : Terminal}
    (hu : u.lexemeLength s ≠ 0) (t : Terminal) :
    t.lexemeLength (s ++ after) = t.lexemeLength s := by
  cases s with
  | nil => exact absurd u.lexemeLength_nil hu
  | cons c s =>
    by_cases hc : c ∈ ['"', '\'', '\x60']
    · -- What is taken is a quoted text, so it is closed; and no other terminal takes anything.
      by_cases ht : t = string ∨ t = template
      · have hquoted : t.lexemeLength (c :: s) ≠ 0 ∨ ∀ rest, t.lexemeLength (c :: rest) = 0 := by
          have hut : u = string ∨ u = template := by
            by_cases hstring : u = string
            · exact Or.inl hstring
            · by_cases htemplate : u = template
              · exact Or.inr htemplate
              · exact absurd (lexemeLength_eq_zero_of_quote hc hstring htemplate s) hu
          by_cases he : t = u
          · exact Or.inl (he ▸ hu)
          · refine Or.inr fun rest => ?_
            simp only [List.mem_cons, List.not_mem_nil, or_false] at hc
            obtain rfl | rfl := ht <;> obtain rfl | rfl := hut <;>
              obtain rfl | rfl | rfl := hc <;>
              first | exact absurd rfl he | exact absurd rfl hu | rfl
        obtain hquoted | hzero := hquoted
        · obtain rfl | rfl := ht
          · exact stringLength_append hquoted after
          · exact templateLength_append hquoted after
        · rw [List.cons_append, hzero, hzero]
      · rw [not_or] at ht
        rw [List.cons_append, lexemeLength_eq_zero_of_quote hc ht.1 ht.2,
          lexemeLength_eq_zero_of_quote hc ht.1 ht.2]
    · exact lexemeLength_append h (by simp) (by simpa using hc) t

end Terminal

/-- What is read is taken by some terminal. -/
theorem exists_of_lexeme? {admits : Terminal → Bool} {s : List Char} {t : Terminal} {n : Nat}
    (h : lexeme? admits s = some (t, n)) :
    ∃ u, admits u = true ∧ u.lexemeLength s = n ∧ n ≠ 0 ∧ t = u.refine admits (s.take n) := by
  obtain ⟨u, -, hu⟩ := List.exists_of_findSome?_eq_some h
  split at hu
  · next hadmits =>
    rw [Bool.and_eq_true] at hadmits
    split at hu
    · cases hu
    · next hne =>
      cases hu
      exact ⟨u, hadmits.1, rfl, hne, rfl⟩
  · cases hu

theorem length_of_lexeme? {admits : Terminal → Bool} {s : List Char} {t : Terminal} {n : Nat}
    (h : lexeme? admits s = some (t, n)) : 0 < n ∧ n ≤ s.length := by
  obtain ⟨u, -, hu, hne, -⟩ := exists_of_lexeme? h
  have := u.lexemeLength_le s
  omega

/-- The next lexeme does not change behind a gap. -/
theorem lexeme?_append_gap {admits : Terminal → Bool} {s after : List Char} (hafter : IsGap after)
    {t : Terminal} {n : Nat} (h : lexeme? admits s = some (t, n)) :
    lexeme? admits (s ++ after) = some (t, n) := by
  obtain ⟨u, -, hu, hne, -⟩ := exists_of_lexeme? h
  have hlength := Terminal.lexemeLength_append_of_ne_zero hafter (hu ▸ hne)
  rw [← h, lexeme?, lexeme?]
  congr 1
  funext v
  have hle := v.lexemeLength_le s
  rw [hlength v]
  cases hv : v.lexemeLength s with
  | zero => rfl
  | succ m => simp only [List.take_append_of_le_length (hv ▸ hle)]

/-! ### Lexemes -/

/-- A terminal takes the whole of a lexeme. Templates and the single characters of skipped parts are
left out. -/
structure IsLexeme (t : Terminal) (s : List Char) : Prop where
  nonempty : s ≠ []
  length : t.lexemeLength s = s.length
  class_mem : t = .name ∨ t = .string ∨ t = .number ∨ s = t.spelling

namespace IsLexeme

open Terminal

theorem of_spelling {t : Terminal} (ht : t.spelling ≠ []) : IsLexeme t t.spelling where
  nonempty := ht
  length := by
    have hself : t.spelling.isPrefixOf t.spelling = true := by simp
    cases t <;> first | exact absurd rfl ht | rfl
  class_mem := .inr (.inr (.inr rfl))

variable {admits : Terminal → Bool} {t : Terminal} {s after : List Char}

/-- What the first terminal that takes anything takes is read, as that terminal or as what it is
refined to. -/
theorem lexeme?_of_first (hs : s ≠ [])
    (hfirst : ∀ u ∈ order.takeWhile (· != t), admits u = true → u.isAbsorbed admits = false →
      u.lexemeLength (s ++ after) = 0)
    (hadmits : admits t = true) (habsorbed : t.isAbsorbed admits = false)
    (hlength : t.lexemeLength (s ++ after) = s.length) :
    lexeme? admits (s ++ after) = some (t.refine admits s, s.length) := by
  obtain ⟨back, horder⟩ := order_eq t
  rw [lexeme?, horder, List.findSome?_append, List.findSome?_eq_none_iff.mpr, Option.none_or,
    List.findSome?_cons]
  · have hlong : s.length ≠ 0 := by simpa using hs
    simp only [hadmits, habsorbed, Bool.not_false, Bool.and_self, if_true, hlength]
    simp
  · intro u hu
    by_cases hadmitted : admits u = true ∧ u.isAbsorbed admits = false
    · simp [hadmitted, hfirst u hu]
    · simp [hadmitted]

/-- The word or mark that an admitted class is refined to. -/
theorem refine_spelling {c : Terminal} (hc : c ∈ [name, other]) (ht : c.special.contains t = true)
    (hadmits : admits t = true) : c.refine admits t.spelling = t := by
  have hmem : t ∈ c.special := List.contains_iff_mem.1 ht
  obtain ⟨-, hplain⟩ | ⟨hspecial, hsame⟩ := c.refine_eq_or_mem_special admits t.spelling
  · exact absurd rfl (hplain t hmem hadmits)
  · exact eq_of_spelling_eq t (mem_spelled_of_special c hc t hmem) _
      (mem_spelled_of_special c hc _ hspecial) hsame

/-- A word or a mark is read as itself, through the class that it belongs to if that is admitted. -/
theorem lexeme?_spelling (ht : t.spelling ≠ []) (hafter : IsGap after)
    (hadmits : admits t = true) :
    lexeme? admits (t.spelling ++ after) = some (t, t.spelling.length) := by
  have hmem := mem_spelled ht
  have htake : ∀ u : Terminal, u.lexemeLength (t.spelling ++ after) = u.lexemeLength t.spelling :=
    lexemeLength_append hafter ht fun _ hc => (head_spelling ht hc).2.2
  -- A word is found through the names, and a mark through the other characters, if those are
  -- admitted as well.
  by_cases hclass : ∃ c ∈ [name, other], admits c = true ∧ c.special.contains t = true
  · obtain ⟨c, hc, hadmitted, hspecial⟩ := hclass
    obtain ⟨hlength, hfirst⟩ := lexemeLength_of_special t hmem c hc hspecial
    rw [lexeme?_of_first ht (fun u hu _ _ => (htake u).trans (hfirst u hu)) hadmitted
      (isAbsorbed_class hc admits) ((htake c).trans hlength), refine_spelling hc hspecial hadmits]
  · have habsorbed : t.isAbsorbed admits = false :=
      isAbsorbed_eq_false_iff.2 fun c hc hadmitted hmem =>
        hclass ⟨c, hc, hadmitted, List.contains_iff_mem.2 hmem⟩
    have hrefine : t.refine admits t.spelling = t := by
      cases t <;> first | rfl | exact absurd rfl ht
    rw [lexeme?_of_first ht _ hadmits habsorbed ((htake t).trans (of_spelling ht).length), hrefine]
    intro u hu hadmitted _
    refine (htake u).trans ((lexemeLength_of_spelled t hmem u hu).resolve_right fun h => ?_)
    exact hclass ⟨u, h.1, hadmitted, h.2⟩

theorem lexeme?_number (hs : numberLength s = s.length) (hne : s ≠ []) (hafter : IsGap after)
    (hadmits : admits number = true) : lexeme? admits (s ++ after) = some (number, s.length) :=
  lexeme?_of_first hne (by simp [order]) hadmits (isAbsorbed_eq_false (by decide))
    ((numberLength_append hafter s).trans hs)

theorem lexeme?_string (hs : stringLength s = s.length) (hne : s ≠ [])
    (hadmits : admits string = true) : lexeme? admits (s ++ after) = some (string, s.length) := by
  have hpositive : stringLength s ≠ 0 := by simpa [hs] using hne
  have hnumber : numberLength (s ++ after) = 0 := by
    unfold stringLength at hpositive
    split at hpositive
    · exact numberLength_eq_zero (by decide) (by decide) _
    · exact numberLength_eq_zero (by decide) (by decide) _
    · exact absurd rfl hpositive
  refine lexeme?_of_first hne ?_ hadmits (isAbsorbed_eq_false (by decide))
    ((stringLength_append hpositive after).trans hs)
  intro u hu _ _
  obtain rfl : u = number := by simpa [order] using hu
  exact hnumber

/-- A name is read as a name unless it is spelled like an admitted word. -/
theorem lexeme?_name (hs : nameLength s = s.length) (hne : s ≠ []) (hafter : IsGap after)
    (hadmits : admits name = true)
    (hplain : ∀ w ∈ words, admits w = true → w.spelling ≠ s) :
    lexeme? admits (s ++ after) = some (name, s.length) := by
  have hrefine : name.refine admits s = name := refine_eq_self hplain
  -- Numbers and strings are tried before names.
  have hfirst : numberLength (s ++ after) = 0 ∧ stringLength (s ++ after) = 0 := by
    cases s with
    | nil => exact absurd rfl hne
    | cons c rest =>
      have hc : isNameStart c = true := Decidable.by_contra fun hc => by
        simp [nameLength, hc] at hs
      have hmark (d : Char) (hd : isNameStart d = false) : c ≠ d := by
        rintro rfl
        exact absurd hc (by simp [hd])
      exact ⟨numberLength_eq_zero (hmark '.' (by decide)) (isDigit_of_isNameStart hc) _,
        by simp [stringLength, hmark '"' (by decide), hmark '\'' (by decide)]⟩
  rw [lexeme?_of_first hne _ hadmits (isAbsorbed_eq_false (by decide))
    ((nameLength_append hafter s).trans hs), hrefine]
  intro u hu _ _
  obtain rfl | rfl : u = number ∨ u = string := by simpa [order] using hu
  · exact hfirst.1
  · exact hfirst.2

/-- A lexeme before a gap is read as itself. -/
theorem lexeme?_append (h : IsLexeme t s) (hafter : IsGap after) (hadmits : admits t = true)
    (hplain : t = name → ∀ w ∈ words, admits w = true → w.spelling ≠ s) :
    lexeme? admits (s ++ after) = some (t, s.length) := by
  obtain rfl | rfl | rfl | rfl := h.class_mem
  · exact lexeme?_name h.length h.nonempty hafter hadmits (hplain rfl)
  · exact lexeme?_string h.length h.nonempty hadmits
  · exact lexeme?_number h.length h.nonempty hafter hadmits
  · exact lexeme?_spelling h.nonempty hafter hadmits

/-- No lexeme starts with a blank or a comment. -/
theorem exists_head (h : IsLexeme t s) :
    ∃ c rest, s = c :: rest ∧ isBlank c = false ∧ c ≠ '/' := by
  have hsolid {p : Char → Bool} (hp : ['/', ' ', '\t', '\x0c', '\r', '\n'].all fun d => !p d)
      {c : Char} (hc : p c = true) : isBlank c = false ∧ c ≠ '/' := by
    have hne : ∀ d ∈ ['/', ' ', '\t', '\x0c', '\r', '\n'], c ≠ d := by
      intro d hd hcd
      simpa [← hcd, hc] using List.all_eq_true.mp hp d hd
    simp only [List.forall_mem_cons] at hne
    simp [isBlank, hne]
  obtain ⟨c, rest, rfl⟩ := List.exists_cons_of_ne_nil h.nonempty
  refine ⟨c, rest, rfl, ?_⟩
  have hlength := h.length
  -- Each class has a test of its own for its first character.
  obtain rfl | rfl | rfl | hspelling := h.class_mem
  · have hc : isNameStart c = true := Decidable.by_contra fun hc => by
      simp [lexemeLength, nameLength, hc] at hlength
    exact hsolid (by decide) hc
  · have hc : (c == '"' || c == '\'') = true := Decidable.by_contra fun hc => by
      simp only [Bool.or_eq_true, beq_iff_eq, not_or] at hc
      simp [lexemeLength, stringLength, hc] at hlength
    exact hsolid (p := fun c => c == '"' || c == '\'') (by decide) hc
  · have hc : (c == '.' || Unicode.isDigit c) = true := Decidable.by_contra fun hc => by
      simp only [Bool.or_eq_true, beq_iff_eq, not_or, Bool.not_eq_true] at hc
      simp [lexemeLength, numberLength_eq_zero hc.1 hc.2] at hlength
    exact hsolid (p := fun c => c == '.' || Unicode.isDigit c) (by decide) hc
  · have hhead := head_spelling (t := t) (c := c) (by simp [← hspelling]) (by simp [← hspelling])
    exact ⟨hhead.1, hhead.2.1⟩

end IsLexeme

/-! ### Blanks before a lexeme -/

/-- What stands before a token: nothing or a space. -/
def IsLead (trivia : List Char) : Prop :=
  trivia = [] ∨ trivia = [' ']

theorem triviaLength_eq_zero {c : Char} (hblank : isBlank c = false) (hslash : c ≠ '/')
    (rest : List Char) : triviaLength (c :: rest) = 0 := by
  have hcomment : commentLength (c :: rest) = 0 := by simp [commentLength, hslash]
  rw [triviaLength, blankLength]
  simp [hblank, hcomment]

/-- The space before a lexeme is skipped. -/
theorem triviaLength_lead {trivia : List Char} (htrivia : IsLead trivia) {t : Terminal}
    {s : List Char} (h : IsLexeme t s) (after : List Char) :
    triviaLength (trivia ++ (s ++ after)) = trivia.length := by
  obtain ⟨c, rest, rfl, hblank, hslash⟩ := h.exists_head
  have hzero := triviaLength_eq_zero hblank hslash (rest ++ after)
  obtain rfl | rfl := htrivia
  · exact hzero
  · have hspace : blankLength (' ' :: c :: (rest ++ after)) = 1 := by
      have : isBlank ' ' = true := by decide
      simp [blankLength, this, hblank]
    simp only [List.cons_append, List.nil_append]
    rw [triviaLength, hspace]
    simp [hzero]

end DeclSchema.Grammar
