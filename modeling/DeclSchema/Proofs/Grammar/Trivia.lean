import DeclSchema.Grammar.Lexeme

/-!
# Blanks and comments before a line end

Blanks and comments are skipped one run of blanks or one comment at a time. What is skipped does not
depend on what follows a line end: a line comment stops there at the latest, and a block comment
that ended before ends there too. Only the opening of a comment that is left open could be closed by
what is added.

## Main definitions

* `IsClear`: what follows the blanks and comments is not the opening of a comment

## Main results

* `triviaLength_cons_blank`, `triviaLength_comment`: one blank or one comment more
* `triviaLength_append_line`: another line behind the next lexeme
* `triviaLength_line`: another line behind the last lexeme
-/

namespace DeclSchema.Grammar

/-! ### One blank, one comment -/

theorem commentLength_of_isBlank {c : Char} (hc : isBlank c = true) (rest : List Char) :
    commentLength (c :: rest) = 0 := by
  have hslash : c ≠ '/' := by
    rintro rfl
    exact absurd hc (by decide)
  simp [commentLength, hslash]

theorem isBlank_of_commentLength {c : Char} {rest : List Char}
    (h : commentLength (c :: rest) ≠ 0) : isBlank c = false := by
  cases hc : isBlank c with
  | false => rfl
  | true => exact absurd (commentLength_of_isBlank hc rest) h

theorem triviaLength_of_blankLength {input : List Char} {n : Nat}
    (h : blankLength input = n + 1) :
    triviaLength input = n + 1 + triviaLength (input.drop (n + 1)) := by
  cases input with
  | nil => exact absurd h (by simp [blankLength, commentLength])
  | cons c rest =>
    rw [triviaLength, h]
    rfl

theorem triviaLength_of_blankLength_eq_zero {input : List Char} (h : blankLength input = 0) :
    triviaLength input = 0 := by
  cases input with
  | nil => rw [triviaLength]
  | cons c rest => rw [triviaLength, h]

/-- A blank is skipped alone as well as with those behind it. -/
theorem triviaLength_cons_blank {c : Char} (hc : isBlank c = true) (rest : List Char) :
    triviaLength (c :: rest) = triviaLength rest + 1 := by
  have hrun : blankLength (c :: rest) = (rest.takeWhile isBlank).length + 1 := by
    simp [blankLength, hc]
  rw [triviaLength_of_blankLength hrun, List.drop_succ_cons]
  cases hn : (rest.takeWhile isBlank).length with
  | zero =>
    rw [List.drop_zero]
    omega
  | succ n =>
    have hrest : blankLength rest = n + 1 := by simp [blankLength, hn]
    rw [triviaLength_of_blankLength hrest]
    omega

theorem triviaLength_comment {input : List Char} {n : Nat} (h : commentLength input = n + 1) :
    triviaLength input = n + 1 + triviaLength (input.drop (n + 1)) := by
  refine triviaLength_of_blankLength ?_
  cases input with
  | nil => exact absurd h (by simp [commentLength])
  | cons c rest =>
    have hc : isBlank c = false := isBlank_of_commentLength (by rw [h]; simp)
    simpa [blankLength, hc] using h

/-- What is neither a blank nor a comment is not skipped. -/
theorem triviaLength_of_solid {input : List Char} (hblank : ∀ c ∈ input.head?, isBlank c = false)
    (hcomment : commentLength input = 0) : triviaLength input = 0 := by
  refine triviaLength_of_blankLength_eq_zero ?_
  cases input with
  | nil => rfl
  | cons c rest => simpa [blankLength, hblank c rfl] using hcomment

/-- At the front of an input stands a blank, or a comment, or neither. -/
theorem triviaLength_cases (input : List Char) :
    (∃ c rest, input = c :: rest ∧ isBlank c = true) ∨ (∃ n, commentLength input = n + 1) ∨
      ((∀ c ∈ input.head?, isBlank c = false) ∧ commentLength input = 0) := by
  cases input with
  | nil => exact Or.inr (Or.inr ⟨nofun, rfl⟩)
  | cons c rest =>
    cases hc : isBlank c with
    | true => exact Or.inl ⟨c, rest, rfl, hc⟩
    | false =>
      cases hn : commentLength (c :: rest) with
      | succ n => exact Or.inr (Or.inl ⟨n, rfl⟩)
      | zero => exact Or.inr (Or.inr ⟨by simp [hc], rfl⟩)

/-! ### Comments -/

theorem commentEnd?_le {input : List Char} {n : Nat} (h : commentEnd? input = some n) :
    n ≤ input.length := by
  fun_induction commentEnd? input generalizing n with
  | case1 rest =>
    cases h
    simp
  | case2 c rest _ ih =>
    obtain ⟨m, hm, rfl⟩ := Option.map_eq_some_iff.1 h
    have := ih hm
    rw [List.length_cons]
    omega
  | case3 => cases h

theorem commentEnd?_append {input : List Char} {n : Nat} (h : commentEnd? input = some n)
    (after : List Char) : commentEnd? (input ++ after) = some n := by
  fun_induction commentEnd? input generalizing n with
  | case1 rest => exact h
  | case2 c rest hopen ih =>
    obtain ⟨m, hm, rfl⟩ := Option.map_eq_some_iff.1 h
    rw [List.cons_append, commentEnd?, ih hm]
    · rfl
    · -- The comment does not end here, and an end that `after` completes comes too late.
      intro rest' hc hrest
      cases rest with
      | nil => cases hm
      | cons d rest =>
        cases hrest
        exact hopen rest hc rfl
  | case3 => cases h

theorem commentLength_le (input : List Char) : commentLength input ≤ input.length := by
  unfold commentLength
  split
  · next rest =>
    have := (rest.takeWhile_sublist (· != '\n')).length_le
    simp only [List.length_cons]
    omega
  · next rest =>
    cases h : commentEnd? rest with
    | none => simp
    | some n =>
      have := commentEnd?_le h
      simp only [Option.map_some, Option.getD_some, List.length_cons]
      omega
  · omega

theorem triviaLength_le (input : List Char) : triviaLength input ≤ input.length := by
  induction hn : input.length using Nat.strongRecOn generalizing input with
  | ind n ih =>
    obtain ⟨c, rest, rfl, hc⟩ | ⟨m, hm⟩ | ⟨hblank, hcomment⟩ := triviaLength_cases input
    · rw [List.length_cons] at hn
      have := ih rest.length (by omega) rest rfl
      rw [triviaLength_cons_blank hc]
      omega
    · have hle := commentLength_le input
      have := ih (input.drop (m + 1)).length (by rw [List.length_drop]; omega) _ rfl
      rw [List.length_drop] at this
      rw [triviaLength_comment hm]
      omega
    · rw [triviaLength_of_solid hblank hcomment]
      omega

/-! ### Another line -/

/-- What follows the blanks and comments at the front is not the opening of a comment. -/
def IsClear (input : List Char) : Prop :=
  ¬ ['/', '*'] <+: input.drop (triviaLength input)

/-- A comment does not change if another line follows the input, unless it is left open. -/
theorem commentLength_append_line {input : List Char} (h : ¬ ['/', '*'] <+: input ∨
    commentLength input ≠ 0) (more : List Char) :
    commentLength (input ++ '\n' :: more) = commentLength input := by
  match input with
  | [] => rfl
  | [c] =>
    have hline : ('\n' : Char) ≠ '/' ∧ ('\n' : Char) ≠ '*' := by decide
    simp [commentLength, hline]
  | c :: d :: rest =>
    by_cases hc : c = '/'
    · subst hc
      by_cases hd : d = '/'
      · subst hd
        -- A line comment stops at the new line break at the latest.
        have hstop : (rest ++ '\n' :: more).takeWhile (· != '\n')
            = rest.takeWhile (· != '\n') := by
          induction rest with
          | nil => simp
          | cons e rest ih =>
            rw [List.cons_append, List.takeWhile_cons, List.takeWhile_cons]
            have := ih (Or.inl (by simp))
            split
            · rw [this]
            · rfl
        simp only [List.cons_append, commentLength, hstop]
      · by_cases hs : d = '*'
        · subst hs
          have hclosed : commentLength ('/' :: '*' :: rest) ≠ 0 :=
            h.resolve_left fun hp => hp ⟨rest, rfl⟩
          simp only [List.cons_append, commentLength] at hclosed ⊢
          cases he : commentEnd? rest with
          | none => simp [he] at hclosed
          | some n => rw [commentEnd?_append he]
        · simp [commentLength, hd, hs]
    · simp [commentLength, hc]

/-- Another line behind the next lexeme does not change what is skipped before it. -/
theorem triviaLength_append_line {input : List Char} (hnext : triviaLength input < input.length)
    (hclear : IsClear input) (more : List Char) :
    triviaLength (input ++ '\n' :: more) = triviaLength input := by
  induction hn : input.length using Nat.strongRecOn generalizing input with
  | ind n ih =>
    unfold IsClear at hclear
    obtain ⟨c, rest, rfl, hc⟩ | ⟨m, hm⟩ | ⟨hblank, hcomment⟩ := triviaLength_cases input
    · rw [triviaLength_cons_blank hc, List.length_cons] at hnext
      rw [triviaLength_cons_blank hc, List.drop_succ_cons] at hclear
      rw [List.length_cons] at hn
      rw [List.cons_append, triviaLength_cons_blank hc, triviaLength_cons_blank hc,
        ih rest.length (by omega) (by omega) hclear rfl]
    · have hle := commentLength_le input
      rw [triviaLength_comment hm] at hnext hclear
      rw [← List.drop_drop] at hclear
      have hrest := ih (input.drop (m + 1)).length (by rw [List.length_drop]; omega)
        (by rw [List.length_drop]; omega) hclear rfl
      have hsame := commentLength_append_line (Or.inr (by omega : commentLength input ≠ 0)) more
      rw [triviaLength_comment (hsame.trans hm), triviaLength_comment hm,
        List.drop_append_of_le_length (by omega), hrest]
    · have hzero := triviaLength_of_solid hblank hcomment
      rw [hzero, List.drop_zero] at hclear
      have hsame := commentLength_append_line (Or.inl hclear) more
      obtain ⟨c, rest, rfl⟩ := List.exists_cons_of_length_pos (by omega : 0 < input.length)
      rw [hzero]
      exact triviaLength_of_solid (by simpa using hblank) (hsame.trans hcomment)

/-- Where nothing but blanks and comments is left, they are skipped with those of another line. -/
theorem triviaLength_line {input : List Char} (hend : triviaLength input = input.length)
    (more : List Char) :
    triviaLength (input ++ '\n' :: more) = input.length + 1 + triviaLength more := by
  induction hn : input.length using Nat.strongRecOn generalizing input with
  | ind n ih =>
    obtain ⟨c, rest, rfl, hc⟩ | ⟨m, hm⟩ | ⟨hblank, hcomment⟩ := triviaLength_cases input
    · rw [triviaLength_cons_blank hc, List.length_cons] at hend
      rw [List.length_cons] at hn
      rw [List.cons_append, triviaLength_cons_blank hc,
        ih rest.length (by omega) (by omega) rfl]
      omega
    · have hle := commentLength_le input
      rw [triviaLength_comment hm] at hend
      have hrest := ih (input.drop (m + 1)).length (by rw [List.length_drop]; omega)
        (by rw [List.length_drop]; omega) rfl
      rw [List.length_drop] at hrest
      have hsame := commentLength_append_line (Or.inr (by omega : commentLength input ≠ 0)) more
      rw [triviaLength_comment (hsame.trans hm), List.drop_append_of_le_length (by omega), hrest]
      omega
    · have hzero := triviaLength_of_solid hblank hcomment
      obtain rfl : input = [] := List.length_eq_zero_iff.1 (by omega)
      have hline : isBlank '\n' = true := by decide
      rw [List.nil_append, triviaLength_cons_blank hline]
      simp only [List.length_nil] at hn
      omega

end DeclSchema.Grammar
