import DeclSchema.Proofs.Grammar.Trimming

/-!
# More terminals that may come next

The next token depends on the terminals that may come. It stays the same where marks are admitted
besides that nothing else starts like, or words that the token is not spelled like.

## Main definitions

* `Terminal.marks`: the marks of the grammar
* `Apart`: a mark where nothing that is admitted takes anything

## Main results

* `Spots.widen`: the next token where more terminals are admitted
* `Spots.terminal_eq_name`: a token that is spelled like a word that is not admitted is a name
-/

namespace DeclSchema.Grammar

open Terminal Nonterminal Grammar.Tree

namespace Terminal

/-- The marks of the grammar. -/
def marks : List Terminal :=
  longMarks ++ plainMarks ++ closedMarks

theorem exists_of_mem_marks {v : Terminal} (hv : v ∈ marks) :
    ∃ d w, v.spelling = d :: w ∧ isNameStart d = false ∧ Unicode.isDigit d = false ∧
      d ∉ ['"', '\'', '\x60'] ∧ (d = '.' → v ≠ dot → w = ['.', '.']) := by
  simp only [marks, longMarks, plainMarks, closedMarks, List.cons_append, List.nil_append,
    List.mem_cons, List.not_mem_nil, or_false] at hv
  obtain rfl | rfl | rfl | rfl | rfl | rfl | rfl | rfl | rfl | rfl | rfl | rfl | rfl | rfl | rfl |
    rfl | rfl | rfl | rfl | rfl := hv <;>
    exact ⟨_, _, rfl, by decide, by decide, by decide, by decide⟩

/-- At a mark nothing else is read but what starts with the same character, and that character. -/
theorem lexemeLength_mark {v c : Terminal} (hv : v ∈ marks) (hdot : v ≠ dot) (hc : c ≠ other)
    (hhead : c.spelling.head? ≠ v.spelling.head?) (back : List Char) :
    c.lexemeLength (v.spelling ++ back) = 0 := by
  obtain ⟨d, w, hspelling, hname, hdigit, hquotes, hdots⟩ := exists_of_mem_marks hv
  rw [hspelling, List.head?_cons] at hhead
  rw [hspelling, List.cons_append]
  simp only [List.mem_cons, List.not_mem_nil, or_false, not_or] at hquotes
  by_cases hplain : c.spelling = []
  · cases c
    case name => simp [lexemeLength, nameLength, hname]
    case string => simp [lexemeLength, stringLength, hquotes]
    case number =>
      -- A dot may start a number, but not where more of a mark is behind it.
      by_cases hd : d = '.'
      · obtain rfl := hdots hd hdot
        subst hd
        have hdigit : Unicode.isDigit '.' = false := by decide
        simp [lexemeLength, numberLength, radixLength, mantissaLength, hdigit]
      · exact numberLength_eq_zero hd hdigit _
    case template => simp [lexemeLength, templateLength, hquotes]
    case other => exact absurd rfl hc
    all_goals exact absurd hplain (by decide)
  · obtain ⟨e, w', hw'⟩ := List.exists_cons_of_ne_nil hplain
    refine lexemeLength_eq_zero_of_ne hw' ?_ _
    rintro rfl
    exact hhead (by rw [hw', List.head?_cons])

end Terminal

/-! ### The next token -/

section Spots

variable {admits admits' : Terminal → Bool} {n m : Nonterminal} {outer outer' : List Symbol}
  {input rest : List Char} {k : Token} {v : Terminal}

/-- Nothing that is admitted takes anything where the mark is. -/
def Apart (admits : Terminal → Bool) (v : Terminal) : Prop :=
  v ∈ Terminal.marks ∧ v ≠ dot ∧
    ∀ c, admits c = true → c ≠ other ∧ c.spelling.head? ≠ v.spelling.head?

theorem apart_iff : Apart admits v ↔ v ∈ Terminal.marks ∧ v ≠ dot ∧
    ∀ c ∈ order, admits c = true → c ≠ other ∧ c.spelling.head? ≠ v.spelling.head? := by
  simp only [Apart, mem_order, forall_const]

instance : Decidable (Apart admits v) :=
  decidable_of_iff' _ apart_iff

theorem Apart.lexemeLength_eq_zero (h : Apart admits v) (hspots : Spots admits input k rest) :
    v.lexemeLength (k.lexeme ++ rest) = 0 := by
  obtain ⟨hv, hdot, hapart⟩ := h
  refine Decidable.by_contra fun hne => ?_
  have hspelling : v.spelling ≠ [] := by
    obtain ⟨d, w, hspelling, -⟩ := exists_of_mem_marks hv
    rw [hspelling]
    exact List.cons_ne_nil d w
  obtain ⟨back, hback⟩ := Terminal.spelling_isPrefix hspelling hne
  obtain ⟨u, hadmits, hlength, hpos, -⟩ := exists_of_lexeme? hspots.lexeme?_eq
  obtain ⟨hother, hhead⟩ := hapart u hadmits
  rw [← hback, lexemeLength_mark hv hdot hother hhead] at hlength
  exact hpos hlength.symm

/-- The next token stays the same where marks are admitted besides that nothing else is read at, or
words that the token is not spelled like. -/
theorem Spots.widen (h : Spots admits input k rest) (hk : admits' k.terminal = true)
    (hmore : ∀ v, admits' v = true → admits v = true ∨ Apart admits v ∨
      v ∈ words ∧ admits' name = true ∧ v.spelling ≠ k.lexeme) : Spots admits' input k rest := by
  refine h.of_admits hk fun v hv => ?_
  -- A new terminal takes nothing here, or it is told apart from the name by its spelling.
  obtain hadmits | hapart | hword := hmore v hv
  · exact .inl hadmits
  · exact .inr (.inl (hapart.lexemeLength_eq_zero h))
  · exact .inr (.inr hword)

/-- What may come next where a nonterminal may not be left out starts it. -/
theorem expects_eq_starts (hn : n.mayBeEmpty = false) (outer : List Symbol) :
    expects (.sub n :: outer) = starts n := by
  funext u
  rw [expects, hn, Bool.false_and, Bool.or_false]

/-- A token that is spelled like a word that is not admitted is a name. -/
theorem Spots.terminal_eq_name (h : Spots admits input k rest) (hother : admits other = false)
    (hv : v ∈ words) (hadmits : admits v = false) (hlexeme : k.lexeme = v.spelling) :
    k.terminal = name := by
  obtain ⟨u, hu, hlength, hpos, hrefine⟩ := exists_of_lexeme? h.lexeme?_eq
  obtain ⟨d, w, hspelling, hstart, -⟩ := exists_of_mem_words hv
  have hnil : v.spelling ≠ [] := by
    rw [hspelling]
    exact List.cons_ne_nil d w
  rw [List.take_left] at hrefine
  by_cases hplain : u.spelling = []
  · -- Of the classes, only names start like a word.
    have hname : u = name := by
      rw [hlexeme, hspelling, List.cons_append] at hlength
      have hquotes : d ≠ '"' ∧ d ≠ '\'' ∧ d ≠ '\x60' := by
        refine ⟨?_, ?_, ?_⟩ <;> rintro rfl <;> exact absurd hstart (by decide)
      cases u
      case name => rfl
      case string => exact absurd hlength.symm (by simp [lexemeLength, stringLength, hquotes])
      case number =>
        have hzero : Terminal.number.lexemeLength (d :: (w ++ rest)) = 0 :=
          numberLength_eq_zero (by rintro rfl; exact absurd hstart (by decide))
            (isDigit_of_isNameStart hstart) _
        exact absurd hlength.symm (by simp [hzero])
      case template => exact absurd hlength.symm (by simp [lexemeLength, templateLength, hquotes])
      case other =>
        rw [hother] at hu
        cases hu
      all_goals exact absurd hplain (by decide)
    subst hname
    -- A name becomes a word only where the word is admitted, and this one is not.
    rw [hrefine]
    refine refine_eq_self fun x hx hadmitted hsame => ?_
    rw [hlexeme] at hsame
    have hspelled := mem_spelled_of_special name (by simp)
    have heq := eq_of_spelling_eq v (hspelled v hv) x (hspelled x hx) hsame
    rw [heq, hadmits] at hadmitted
    cases hadmitted
  · -- A word or a mark of the same length is the word itself.
    have hprefix := spelling_isPrefix hplain (hlength ▸ hpos)
    rw [lexemeLength_of_isPrefix hplain hprefix] at hlength
    have hsame : u.spelling = v.spelling := by
      rw [List.prefix_iff_eq_take.1 hprefix, hlength, List.take_left, hlexeme]
    have heq := eq_of_spelling_eq v (mem_spelled hnil) u (mem_spelled hplain) hsame
    rw [heq, hadmits] at hu
    cases hu

end Spots

/-! ### What follows a name -/

/-- What follows a name does not go on with it. -/
theorem isNamePart_behind {front back : List Char} (hne : front ≠ [])
    (h : nameLength (front ++ back) = front.length) :
    ∀ c ∈ back.head?, isNamePart c = false := by
  obtain ⟨d, front, rfl⟩ := List.exists_cons_of_ne_nil hne
  rw [List.cons_append, nameLength, List.takeWhile_append] at h
  -- The name is all of `front` and no more, so it stops right behind it.
  split at h
  · split at h
    · rw [List.length_append, List.length_cons] at h
      have hback : back.takeWhile isNamePart = [] := List.length_eq_zero_iff.1 (by omega)
      rintro c hc
      obtain ⟨more, rfl⟩ := List.head?_eq_some_iff.1 hc
      rw [List.takeWhile_cons] at hback
      split at hback
      · cases hback
      · next hpart => exact Bool.eq_false_iff.2 hpart
    · next hstop =>
      rw [List.length_cons] at h
      exact absurd (by omega) hstop
  · cases h

theorem Sees.isNamePart_of_name {symbols : List Symbol} {input next : List Char} {k : Token}
    (hk : Sees symbols input k next) (hname : k.terminal = .name) :
    ∀ c ∈ next.head?, isNamePart c = false := by
  obtain ⟨u, -, hlength, -, hrefine⟩ := exists_of_lexeme? hk.lexeme?_eq
  rw [hname] at hrefine
  -- No class is refined to a name but names themselves.
  have hu : u = .name := by
    obtain ⟨hself, -⟩ | ⟨hmem, -⟩ := u.refine_eq_or_mem_special
      (fun t => expects symbols t || reserves symbols t) ((k.lexeme ++ next).take k.lexeme.length)
    · exact hself.symm.trans hrefine.symm
    · rw [← hrefine] at hmem
      exact absurd (Terminal.mem_spelled_of_special u (Terminal.mem_classes_of_mem_special hmem) _
        hmem) (by decide)
  rw [hu] at hlength
  exact isNamePart_behind hk.nonempty hlength

end DeclSchema.Grammar
