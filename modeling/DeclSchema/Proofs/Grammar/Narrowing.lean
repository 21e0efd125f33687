import DeclSchema.Proofs.Grammar.Derivation
import DeclSchema.Proofs.Grammar.Filling
import Mathlib.Data.List.TakeWhile

/-!
# The next token where other terminals are admitted

Which token comes next depends on the terminals that are admitted. It stays the same where the
admitted terminals change, as long as its own one remains and none is added that takes anything of
the input. A word that is added is not told apart from a name that is spelled otherwise.

## Main definitions

* `TakesFirst`: the first admitted terminal that takes anything
* `AddsNothing`: what is admitted besides takes nothing, or is a word that is not spelled alike
* `Spots`: the next token, given the terminals that are admitted

## Main results

* `lexeme?_of_admits`: the next lexeme where other terminals are admitted
* `Spots.of_admits`: the next token where other terminals are admitted
* `Spots.eq`: there is one next token
-/

namespace DeclSchema.Grammar

namespace Terminal

/-! ### Words and marks with the classes that they belong to -/

/-- What precedes a terminal that is tried before another one is tried before that one too. -/
theorem takeWhile_ne_subset {order : List Terminal} {c u : Terminal}
    (hu : u ∈ order.takeWhile (· != c)) :
    order.takeWhile (· != u) ⊆ order.takeWhile (· != c) := by
  induction order with
  | nil => exact List.Subset.refl _
  | cons v order ih =>
    rw [List.takeWhile_cons] at hu ⊢
    rw [List.takeWhile_cons]
    split at hu
    · split
      · next hv =>
        have hmem := (List.mem_cons.1 hu).resolve_left (by
          rintro rfl
          simp at hv)
        exact List.cons_subset_cons v (ih hmem)
      · exact List.nil_subset _
    · exact absurd hu List.not_mem_nil

/-- A class that words or marks belong to is tried before them, and none but these are tried between
it and one of them, besides the texts between backquotes. -/
theorem mem_takeWhile_of_special :
    ∀ c ∈ [name, other], ∀ t ∈ c.special,
      c ∈ order.takeWhile (· != t) ∧ ∀ u ∈ order.takeWhile (· != t),
        u ∈ order.takeWhile (· != c) ∨ u = c ∨ u = template ∨ u ∈ c.special := by
  decide

/-- The words and marks of a class are tried longest first. -/
theorem length_spelling_le_of_special :
    ∀ c ∈ [name, other], ∀ t ∈ c.special, ∀ u ∈ c.special, u ∈ order.takeWhile (· != t) →
      t.spelling.length ≤ u.spelling.length := by
  decide

theorem eq_of_mem_special :
    ∀ c ∈ [name, other], ∀ d ∈ [name, other], ∀ t ∈ c.special, t ∈ d.special → c = d := by
  decide

theorem spelling_ne_nil_of_special : ∀ c ∈ [name, other], ∀ t ∈ c.special, t.spelling ≠ [] := by
  decide

/-- What belongs to a class is no class itself, so nothing belongs to it. -/
theorem special_eq_nil_of_special : ∀ c ∈ [name, other], ∀ t ∈ c.special, t.special = [] := by
  decide

section Special

variable {c t : Terminal} {s : List Char}

/-- What a word or a mark takes is its spelling at the front of the input. -/
theorem spelling_isPrefix (ht : t.spelling ≠ []) (h : t.lexemeLength s ≠ 0) :
    t.spelling <+: s := by
  rw [lexemeLength_of_spelling ht] at h
  split at h
  · next hbegins => exact List.isPrefixOf_iff_prefix.1 hbegins
  · exact absurd rfl h

theorem lexemeLength_of_isPrefix (ht : t.spelling ≠ []) (h : t.spelling <+: s) :
    t.lexemeLength s = t.spelling.length := by
  rw [lexemeLength_of_spelling ht, if_pos (List.isPrefixOf_iff_prefix.2 h)]

/-- Where a word or a mark takes something, the class that it belongs to takes no less. -/
theorem length_spelling_le_class (ht : t ∈ c.special) (h : t.lexemeLength s ≠ 0) :
    t.spelling.length ≤ c.lexemeLength s := by
  have hc := mem_classes_of_mem_special ht
  obtain ⟨rest, rfl⟩ := spelling_isPrefix (spelling_ne_nil_of_special c hc t ht) h
  simp only [List.mem_cons, List.not_mem_nil, or_false] at hc
  obtain rfl | rfl := hc
  · obtain ⟨d, w, hspelling, hd, hw⟩ := exists_of_mem_words ht
    have htake : (w ++ rest).takeWhile isNamePart = w ++ rest.takeWhile isNamePart :=
      List.takeWhile_append_of_pos (List.all_eq_true.1 hw)
    simp only [hspelling, List.cons_append, lexemeLength, nameLength, hd, if_true, htake,
      List.length_cons, List.length_append]
    omega
  -- The marks of the class are single characters.
  · have hmark : ∃ d, t.spelling = [d] ∧ isOther d = true := by
      simp only [special, plainMarks, List.mem_cons, List.not_mem_nil, or_false] at ht
      obtain rfl | rfl | rfl | rfl | rfl | rfl | rfl | rfl | rfl | rfl | rfl := ht <;>
        exact ⟨_, rfl, by decide⟩
    obtain ⟨d, hspelling, hd⟩ := hmark
    simp [hspelling, lexemeLength, otherLength, hd]

theorem lexemeLength_class_ne_zero (ht : t ∈ c.special) (h : t.lexemeLength s ≠ 0) :
    c.lexemeLength s ≠ 0 := by
  have hle := length_spelling_le_class ht h
  have hpos := List.length_pos_iff.2
    (spelling_ne_nil_of_special c (mem_classes_of_mem_special ht) t ht)
  omega

end Special

end Terminal

open Terminal

/-! ### The first terminal that takes anything -/

/-- The terminal is the first one that is admitted, is read for itself and takes anything; it takes
`n` characters. -/
structure TakesFirst (admits : Terminal → Bool) (s : List Char) (c : Terminal) (n : Nat) : Prop where
  admitted : admits c = true
  isAbsorbed_eq : c.isAbsorbed admits = false
  length_eq : c.lexemeLength s = n
  ne_zero : n ≠ 0
  before : ∀ u ∈ order.takeWhile (· != c), admits u = true → u.isAbsorbed admits = false →
    u.lexemeLength s = 0

theorem TakesFirst.length_take {admits : Terminal → Bool} {s : List Char} {c : Terminal} {n : Nat}
    (h : TakesFirst admits s c n) : (s.take n).length = n :=
  List.length_take_of_le (h.length_eq ▸ c.lexemeLength_le s)

/-- The lexeme is what the first terminal takes, and stands for that terminal or for what it is
refined to. -/
theorem lexeme?_eq_some_iff {admits : Terminal → Bool} {s : List Char} {t : Terminal} {n : Nat} :
    lexeme? admits s = some (t, n) ↔
      ∃ c, TakesFirst admits s c n ∧ t = c.refine admits (s.take n) := by
  constructor
  · intro h
    obtain ⟨front, c, back, horder, hc, hfront⟩ := List.findSome?_eq_some_iff.1 h
    split at hc
    · next hadmits =>
      rw [Bool.and_eq_true, Bool.not_eq_true'] at hadmits
      split at hc
      · cases hc
      · next hn =>
        cases hc
        refine ⟨c, ⟨hadmits.1, hadmits.2, rfl, hn, fun u hu hadmitted habsorbed => ?_⟩, rfl⟩
        -- What comes before `c` in the order is tried before it, and takes nothing.
        have hmem : u ∈ front := by
          have hsplit : order.takeWhile (· != c) = front ++ (c :: back).takeWhile (· != c) := by
            rw [horder]
            refine List.takeWhile_append_of_pos fun v hv => bne_iff_ne.2 ?_
            rintro rfl
            simpa [hadmits, hn] using hfront v hv
          simpa [hsplit] using hu
        have hnone := hfront u hmem
        simp only [hadmitted, habsorbed, Bool.not_false, Bool.and_self, if_true] at hnone
        split at hnone
        · next hzero => exact hzero
        · cases hnone
    · cases hc
  · rintro ⟨c, hc, rfl⟩
    have htake := hc.length_take
    have hne : s.take n ≠ [] := fun hnil => hc.ne_zero (by rw [← htake, hnil, List.length_nil])
    have hread : lexeme? admits (s.take n ++ s.drop n) =
        some (c.refine admits (s.take n), (s.take n).length) :=
      IsLexeme.lexeme?_of_first hne (by rw [List.take_append_drop]; exact hc.before) hc.admitted
        hc.isAbsorbed_eq (by rw [List.take_append_drop, htake, hc.length_eq])
    rwa [List.take_append_drop, htake] at hread

/-! ### Other terminals -/

section Admits

variable {admits admits' : Terminal → Bool} {s lexeme : List Char} {c t : Terminal} {n : Nat}

/-- The terminals that are admitted besides take nothing, or they are words that the lexeme is not
spelled like where a name is admitted. -/
def AddsNothing (admits admits' : Terminal → Bool) (s lexeme : List Char) : Prop :=
  ∀ v, admits' v = true → admits v = true ∨ v.lexemeLength s = 0 ∨
    v ∈ words ∧ admits' name = true ∧ v.spelling ≠ lexeme

namespace AddsNothing

theorem of_imp (h : ∀ v, admits' v = true → admits v = true) :
    AddsNothing admits admits' s lexeme :=
  fun v hv => .inl (h v hv)

/-- A terminal that takes something and is read for itself was admitted before. -/
theorem admits_eq (h : AddsNothing admits admits' s lexeme) {u : Terminal} (hu : admits' u = true)
    (habsorbed : u.isAbsorbed admits' = false) (hne : u.lexemeLength s ≠ 0) : admits u = true := by
  obtain hadmits | hzero | ⟨hword, hname, -⟩ := h u hu
  · exact hadmits
  · exact absurd hzero hne
  · exact absurd hword (isAbsorbed_eq_false_iff.1 habsorbed name (by simp) hname)

/-- What is tried before the terminal that took the lexeme still takes nothing. -/
theorem before (h : AddsNothing admits admits' s lexeme) (hc : TakesFirst admits s c n) :
    ∀ u ∈ order.takeWhile (· != c), admits' u = true → u.isAbsorbed admits' = false →
      u.lexemeLength s = 0 := by
  intro u hu hadmits' habsorbed'
  refine Decidable.by_contra fun hne => ?_
  have hadmits := h.admits_eq hadmits' habsorbed' hne
  refine hne (hc.before u hu hadmits ?_)
  -- A class that it was read through would be tried before it, and would take no less.
  refine isAbsorbed_eq_false_iff.2 fun d hd hadmitted hmem => ?_
  have hdu := (mem_takeWhile_of_special d hd u hmem).1
  exact lexemeLength_class_ne_zero hmem hne
    (hc.before d (takeWhile_ne_subset hu hdu) hadmitted (isAbsorbed_class hd admits))

/-- The lexeme is not read as a word or a mark that was not admitted before. -/
theorem spelling_ne (h : AddsNothing admits admits' s (s.take n)) {w : Terminal}
    (hw : w ∈ c.special) (hadmits' : admits' w = true)
    (hplain : ∀ t ∈ c.special, admits t = true → t.spelling ≠ s.take n) :
    w.spelling ≠ s.take n := by
  intro hspelling
  obtain hadmits | hzero | ⟨-, -, hother⟩ := h w hadmits'
  · exact hplain w hw hadmits hspelling
  · have hnil := spelling_ne_nil_of_special c (mem_classes_of_mem_special hw) w hw
    rw [lexemeLength_of_isPrefix hnil (hspelling ▸ List.take_prefix n s)] at hzero
    exact hnil (List.length_eq_zero_iff.1 hzero)
  · exact hother hspelling

/-- Where the terminal that took the lexeme is still admitted, it takes the lexeme again. -/
theorem takesFirst (h : AddsNothing admits admits' s lexeme) (hc : TakesFirst admits s c n)
    (hadmits' : admits' c = true) : TakesFirst admits' s c n := by
  refine ⟨hadmits', ?_, hc.length_eq, hc.ne_zero, h.before hc⟩
  refine isAbsorbed_eq_false_iff.2 fun d hd hadmitted' hmem => ?_
  have hadmitted := h.admits_eq hadmitted' (isAbsorbed_class hd admits')
    (lexemeLength_class_ne_zero hmem (hc.length_eq ▸ hc.ne_zero))
  exact isAbsorbed_eq_false_iff.1 hc.isAbsorbed_eq d hd hadmitted hmem

/-- Where a class is not admitted any more, a word or a mark that was read through it takes the
lexeme for itself. -/
theorem takesFirst_special (h : AddsNothing admits admits' s lexeme) (hc : TakesFirst admits s c n)
    (hmem : t ∈ c.special) (hspelling : t.spelling = s.take n) (ht : admits' t = true)
    (hc' : admits' c ≠ true) : TakesFirst admits' s t n := by
  have hclasses := mem_classes_of_mem_special hmem
  have hnil := spelling_ne_nil_of_special c hclasses t hmem
  have hlength : t.spelling.length = n := by rw [hspelling, hc.length_take]
  have htlength : t.lexemeLength s = n :=
    (lexemeLength_of_isPrefix hnil (hspelling ▸ List.take_prefix n s)).trans hlength
  refine ⟨ht, ?_, htlength, hc.ne_zero, fun u hu hadmits' habsorbed' => ?_⟩
  · exact isAbsorbed_eq_false_iff.2 fun d hd hadmitted hmem' =>
      hc' (eq_of_mem_special c hclasses d hd t hmem hmem' ▸ hadmitted)
  · refine Decidable.by_contra fun hne => ?_
    obtain hfront | rfl | rfl | hspecial := (mem_takeWhile_of_special c hclasses t hmem).2 u hu
    · exact hne (h.before hc u hfront hadmits' habsorbed')
    · exact hc' hadmits'
    · obtain ⟨d, text, rfl, hd⟩ := exists_of_quoted (.inr rfl) hne
      have hquote := lexemeLength_eq_zero_of_quote (t := t) hd (by rintro rfl; exact hnil rfl)
        (by rintro rfl; exact hnil rfl) text
      exact hc.ne_zero (htlength.symm.trans hquote)
    · -- Of the words and marks of one class, no longer one can be read, and a shorter one is not
      -- tried before.
      have hle := length_spelling_le_class hspecial hne
      have hge := length_spelling_le_of_special c hclasses t hmem u hspecial hu
      have hsame : u.spelling = t.spelling := by
        have hbegins := spelling_isPrefix (spelling_ne_nil_of_special c hclasses u hspecial) hne
        rw [hspelling, List.prefix_iff_eq_take.1 hbegins]
        have hcn := hc.length_eq
        congr 1
        omega
      have heq := eq_of_spelling_eq t (mem_spelled_of_special c hclasses t hmem) u
        (mem_spelled_of_special c hclasses u hspecial) hsame
      have hneq := List.mem_takeWhile_imp hu
      simp [heq] at hneq

end AddsNothing

/-- The next lexeme stays the same where other terminals are admitted, if its own one is and the
others take nothing. -/
theorem lexeme?_of_admits (h : lexeme? admits s = some (t, n)) (ht : admits' t = true)
    (hmore : AddsNothing admits admits' s (s.take n)) : lexeme? admits' s = some (t, n) := by
  obtain ⟨c, hc, hrefine⟩ := lexeme?_eq_some_iff.1 h
  obtain ⟨hself, hplain⟩ | ⟨hmem, hspelling⟩ := c.refine_eq_or_mem_special admits (s.take n)
  · -- The lexeme stands for the terminal that took it, and for nothing else now.
    obtain rfl : t = c := hrefine.trans hself
    have hself' : t.refine admits' (s.take n) = t :=
      refine_eq_self fun w hw hadmits' => hmore.spelling_ne hw hadmits' hplain
    exact lexeme?_eq_some_iff.2 ⟨t, hmore.takesFirst hc ht, hself'.symm⟩
  · -- The lexeme stands for a word or a mark, read through its class as long as that is admitted.
    rw [← hrefine] at hmem hspelling
    have hclasses := mem_classes_of_mem_special hmem
    by_cases hc' : admits' c = true
    · have hagain : c.refine admits' (s.take n) = t :=
        hspelling ▸ IsLexeme.refine_spelling hclasses (List.contains_iff_mem.2 hmem) ht
      exact lexeme?_eq_some_iff.2 ⟨c, hmore.takesFirst hc hc', hagain.symm⟩
    · have hself : t.refine admits' (s.take n) = t :=
        refine_eq_self (by simp [special_eq_nil_of_special c hclasses t hmem])
      exact lexeme?_eq_some_iff.2
        ⟨t, hmore.takesFirst_special hc hmem hspelling ht hc', hself.symm⟩

end Admits

/-! ### The next token -/

/-- The next token is `k` where `admits` tells which terminals may come, and `rest` follows it. -/
structure Spots (admits : Terminal → Bool) (input : List Char) (k : Token) (rest : List Char) :
    Prop where
  input_eq : input = k.trivia ++ (k.lexeme ++ rest)
  triviaLength_eq : triviaLength input = k.trivia.length
  nonempty : k.lexeme ≠ []
  lexeme?_eq : lexeme? admits (k.lexeme ++ rest) = some (k.terminal, k.lexeme.length)

section Spots

variable {admits admits' : Terminal → Bool} {symbols symbols' : List Symbol}
  {input rest rest' : List Char} {k k' : Token}

theorem Sees.spots (h : Sees symbols input k rest) :
    Spots (fun t => expects symbols t || reserves symbols t) input k rest :=
  ⟨h.input_eq, h.triviaLength_eq, h.nonempty, h.lexeme?_eq⟩

theorem Spots.sees (h : Spots (fun t => expects symbols t || reserves symbols t) input k rest)
    (hk : expects symbols k.terminal = true) : Sees symbols input k rest :=
  ⟨h.input_eq, h.triviaLength_eq, h.nonempty, h.lexeme?_eq, hk⟩

theorem Spots.not_atEnd (h : Spots admits input k rest) : ¬ AtEnd input := by
  intro hend
  have hlength := congrArg List.length h.input_eq
  have hpos := List.length_pos_iff.2 h.nonempty
  have htrivia := h.triviaLength_eq
  rw [hend] at htrivia
  simp only [List.length_append] at hlength
  omega

/-- The next token stays the same where other terminals are admitted. -/
theorem Spots.of_admits (h : Spots admits input k rest) (hk : admits' k.terminal = true)
    (hmore : AddsNothing admits admits' (k.lexeme ++ rest) k.lexeme) :
    Spots admits' input k rest where
  input_eq := h.input_eq
  triviaLength_eq := h.triviaLength_eq
  nonempty := h.nonempty
  lexeme?_eq := lexeme?_of_admits h.lexeme?_eq hk (by rwa [List.take_left])

/-- There is one next token. -/
theorem Spots.eq (h : Spots admits input k rest) (h' : Spots admits input k' rest') :
    k = k' ∧ rest = rest' := by
  have hsplit : k.trivia ++ (k.lexeme ++ rest) = k'.trivia ++ (k'.lexeme ++ rest') :=
    h.input_eq.symm.trans h'.input_eq
  obtain ⟨htrivia, hback⟩ :=
    List.append_inj hsplit (h.triviaLength_eq.symm.trans h'.triviaLength_eq)
  have hlexeme := h.lexeme?_eq
  rw [hback, h'.lexeme?_eq, Option.some_inj, Prod.mk.injEq] at hlexeme
  obtain ⟨hlexemes, hrest⟩ := List.append_inj hback hlexeme.2.symm
  refine ⟨?_, hrest⟩
  cases k
  cases k'
  simp_all

end Spots

end DeclSchema.Grammar
