import DeclSchema.Grammar.Lexeme

/-!
# Characters before a gap

White space, brackets, quotes, the semicolon and the slash stand in no lexeme with other characters
before them, but for quoted texts. What a terminal takes from the front of an input is therefore the
same with such a character and anything else behind that input; only an open quote would run on.

## Main definitions

* `goesOn`: the characters that a lexeme may go on with
* `IsGap`: the end of the input, or a character that ends all lexemes before it

## Main results

* `goesOn_of_isNamePart`, `goesOn_of_isDigit`: names and numbers have such characters only
* `numberLength_append`, `stringLength_append`: numbers before a gap, and strings before anything
* `Terminal.lexemeLength_append`: what any terminal takes before a gap
-/

namespace DeclSchema.Grammar

/-- The characters that a lexeme other than a quoted text may go on with: all but white space,
brackets, quotes, the semicolon and the slash. -/
def goesOn (c : Char) : Bool :=
  isOther c && c != '/'

/-- The end of the input, or white space, a bracket, a quote, a semicolon or a slash. -/
def IsGap (after : List Char) : Prop :=
  ∀ c ∈ after.head?, goesOn c = false

theorem isGap_of_isOther {after : List Char} (h : ∀ c ∈ after.head?, isOther c = false) :
    IsGap after := by
  intro c hc
  rw [goesOn, h c hc, Bool.false_and]

theorem isOther_of_isBlank {c : Char} (hc : isBlank c = true) : isOther c = false := by
  simp only [isBlank, Bool.or_eq_true, beq_iff_eq] at hc
  obtain (((rfl | rfl) | rfl) | rfl) | rfl := hc <;> decide

theorem IsGap.not_goesOn {c : Char} {rest : List Char} (h : IsGap (c :: rest)) :
    ¬ goesOn c = true := by
  rw [h c rfl]
  exact Bool.false_ne_true

theorem IsGap.ne {c : Char} {rest : List Char} (h : IsGap (c :: rest)) (d : Char)
    (hd : goesOn d = true) : c ≠ d := by
  rintro rfl
  exact h.not_goesOn hd

/-! ### Characters of names and numbers -/

/-- White space, brackets, quotes, the semicolon and the slash have codes of their own. -/
theorem goesOn_of_toNat {c : Char} (hspace : Unicode.isSpaceCode c.toNat = false)
    (hclosed : c.toNat ∉ [123, 125, 40, 41, 91, 93, 59, 39, 34, 96, 47]) : goesOn c = true := by
  have hnotMem : c ∉ "\x7b\x7d()[];'\"\x60/".toList := by
    intro hc
    exact hclosed (List.mem_map.2 ⟨c, hc, rfl⟩)
  rw [goesOn, isOther, Unicode.isSpace, hspace, Bool.false_or]
  simpa [and_assoc] using hnotMem

theorem goesOn_of_range {c : Char} (hc : 48 ≤ c.toNat ∧ c.toNat ≤ 57 ∨
    65 ≤ c.toNat ∧ c.toNat ≤ 90 ∨ 97 ≤ c.toNat ∧ c.toNat ≤ 122) : goesOn c = true := by
  refine goesOn_of_toNat ?_ ?_
  · have hwide : c.toNat ∉ Unicode.wideSpaces := by
      intro hmem
      have hall : ∀ n ∈ Unicode.wideSpaces, 128 ≤ n := by decide
      have := hall _ hmem
      omega
    simp [Unicode.isSpaceCode, hwide]
    omega
  · simp only [List.mem_cons, List.not_mem_nil, or_false]
    omega

/-- The codes of letters. -/
theorem isAlpha_iff {c : Char} : c.isAlpha = true ↔
    (65 ≤ c.toNat ∧ c.toNat ≤ 90) ∨ (97 ≤ c.toNat ∧ c.toNat ≤ 122) := by
  change (decide (c.val ≥ 'A'.val ∧ c.val ≤ 'Z'.val)
    || decide (c.val ≥ 'a'.val) && decide (c.val ≤ 'z'.val)) = true ↔ _
  simp only [Bool.or_eq_true, Bool.and_eq_true, decide_eq_true_eq, ge_iff_le,
    UInt32.le_iff_toNat_le, Char.toNat_val, Char.reduceToNat]

theorem goesOn_of_isNamePart {c : Char} (hc : isNamePart c = true) : goesOn c = true := by
  simp only [isNamePart, isNameStart, isAlpha_iff, Char.isDigit, Bool.or_eq_true,
    Bool.and_eq_true, decide_eq_true_eq, beq_iff_eq, ge_iff_le, UInt32.le_iff_toNat_le,
    Char.toNat_val, Char.reduceToNat] at hc
  obtain (((hrange | hrange) | rfl) | rfl) | hrange := hc
  · exact goesOn_of_range (by omega)
  · exact goesOn_of_range (by omega)
  · decide
  · decide
  · exact goesOn_of_range (by omega)

theorem goesOn_of_isNameStart {c : Char} (hc : isNameStart c = true) : goesOn c = true :=
  goesOn_of_isNamePart (by rw [isNamePart, hc, Bool.true_or])

theorem goesOn_of_isHexDigit {c : Char} (hc : isHexDigit c = true) : goesOn c = true := by
  refine goesOn_of_range ?_
  simp only [isHexDigit, Char.isDigit, Char.le_def, Bool.or_eq_true, Bool.and_eq_true,
    decide_eq_true_eq, ge_iff_le, UInt32.le_iff_toNat_le, Char.toNat_val, Char.reduceToNat] at hc
  omega

theorem goesOn_of_isDigit {c : Char} (hc : Unicode.isDigit c = true) : goesOn c = true := by
  rw [Unicode.isDigit, Bool.or_eq_true] at hc
  rcases hc with hc | hc
  · exact goesOn_of_isNamePart (by rw [isNamePart, hc, Bool.or_true])
  · rw [Bool.and_eq_true, decide_eq_true_eq] at hc
    obtain ⟨hrange, hdigit⟩ := hc
    refine goesOn_of_toNat ?_ ?_
    · -- No run of digits has white space in it.
      have hwide : c.toNat ∉ Unicode.wideSpaces := by
        intro hmem
        have hall : ∀ n ∈ Unicode.wideSpaces, (Unicode.digitValue? n).isSome = false := by decide
        rw [hall _ hmem] at hdigit
        cases hdigit
      simp [Unicode.isSpaceCode, hwide]
      omega
    · simp only [List.mem_cons, List.not_mem_nil, or_false]
      omega

/-- A digit of a number or the mark that may divide its digits. -/
theorem goesOn_of_isDigit_or {c : Char} (hc : (Unicode.isDigit c || c == '_') = true) :
    goesOn c = true := by
  rw [Bool.or_eq_true, beq_iff_eq] at hc
  obtain hc | rfl := hc
  · exact goesOn_of_isDigit hc
  · decide

section Lengths

variable {after : List Char} (h : IsGap after)

include h

/-! ### Characters before a gap -/

/-- A run of such characters ends at a gap. -/
theorem takeWhile_append_gap {p : Char → Bool} (hp : ∀ c, p c = true → goesOn c = true)
    (s : List Char) : (s ++ after).takeWhile p = s.takeWhile p := by
  induction s with
  | nil =>
    cases after with
    | nil => rfl
    | cons c rest =>
      have hc : p c = false := Bool.eq_false_iff.2 fun hc => h.not_goesOn (hp c hc)
      rw [List.nil_append, List.takeWhile_cons, hc]
      rfl
  | cons c s ih => rw [List.cons_append, List.takeWhile_cons, List.takeWhile_cons, ih]

theorem nameLength_append (s : List Char) : nameLength (s ++ after) = nameLength s := by
  cases s with
  | nil =>
    cases after with
    | nil => rfl
    | cons c rest =>
      have hc : isNameStart c = false :=
        Bool.eq_false_iff.2 fun hc => h.not_goesOn (goesOn_of_isNameStart hc)
      simp [nameLength, hc]
  | cons c s =>
    simp only [List.cons_append, nameLength,
      takeWhile_append_gap h fun _ => goesOn_of_isNamePart]

/-! ### Numbers before a gap -/

theorem radixLength_append (s : List Char) : radixLength (s ++ after) = radixLength s := by
  match s with
  | [] =>
    match after, h with
    | [], _ => rfl
    | [c], _ => simp [radixLength]
    | c :: d :: rest, h => simp [radixLength, h.ne '0' (by decide)]
  | [c] =>
    cases after with
    | nil => rfl
    | cons d rest =>
      -- The gap starts with none of the characters that name a radix.
      have hmark : ∀ m ∈ ['x', 'X', 'b', 'B', 'o', 'O'], d ≠ m := by
        intro m hm
        have hall : ['x', 'X', 'b', 'B', 'o', 'O'].all goesOn = true := by decide
        exact h.ne m (List.all_eq_true.1 hall m hm)
      simp only [List.forall_mem_cons] at hmark
      by_cases hc : c = '0'
      · subst hc
        simp [radixLength, hmark]
      · simp [radixLength, hc]
  | c :: d :: s =>
    by_cases hc : c = '0'
    · subst hc
      have hhex := takeWhile_append_gap h (p := fun c => isHexDigit c || c == '_') (by
        intro c hc
        obtain hc | hc := Bool.or_eq_true _ _ ▸ hc
        · exact goesOn_of_isHexDigit hc
        · rw [eq_of_beq hc]
          decide) s
      have hbinary := takeWhile_append_gap h (p := fun c => c == '0' || c == '1' || c == '_') (by
        intro c hc
        simp only [Bool.or_eq_true, beq_iff_eq] at hc
        obtain (rfl | rfl) | rfl := hc <;> decide) s
      have hoctal := takeWhile_append_gap h
        (p := fun c => (decide ('0' ≤ c) && decide (c ≤ '7')) || c == '_') (by
        intro c hc
        simp only [Bool.or_eq_true, Bool.and_eq_true, decide_eq_true_eq, beq_iff_eq, Char.le_def,
          UInt32.le_iff_toNat_le, Char.toNat_val, Char.reduceToNat] at hc
        obtain hc | rfl := hc
        · exact goesOn_of_range (by omega)
        · decide) s
      simp only [List.cons_append, radixLength, hhex, hbinary, hoctal]
    · simp [radixLength, hc]

theorem mantissaLength_append (s : List Char) :
    mantissaLength (s ++ after) = mantissaLength s := by
  have hdigits := takeWhile_append_gap h (fun _ => goesOn_of_isDigit)
  cases s with
  | nil =>
    cases after with
    | nil => rfl
    | cons c rest =>
      have hdot : c ≠ '.' := h.ne '.' (by decide)
      have hdigit : Unicode.isDigit c = false :=
        Bool.eq_false_iff.2 fun hc => h.not_goesOn (goesOn_of_isDigit hc)
      rw [List.nil_append, mantissaLength, hdigit, mantissaLength]
      · rfl
      · exact fun hc => hdot hc
  | cons c s =>
    by_cases hc : c = '.'
    · subst hc
      simp only [List.cons_append, mantissaLength, hdigits]
    · have hwhole := takeWhile_append_gap h (fun _ => goesOn_of_isDigit_or) s
      simp only [List.cons_append, mantissaLength, hwhole, Nat.add_sub_cancel_left]
      rw [List.drop_append_of_le_length (List.takeWhile_sublist _).length_le]
      -- Only a dot right behind the first digits goes on with the mantissa.
      cases s.drop (s.takeWhile fun c => Unicode.isDigit c || c == '_').length with
      | nil =>
        cases after with
        | nil => rfl
        | cons d rest => simp [h.ne '.' (by decide)]
      | cons d rest =>
        by_cases hd : d = '.'
        · subst hd
          simp only [List.cons_append, hdigits]
        · simp [hd]

theorem exponentLength_append (s : List Char) :
    exponentLength (s ++ after) = exponentLength s := by
  have hdigits := takeWhile_append_gap h (fun _ => goesOn_of_isDigit)
  match s with
  | [] =>
    cases after with
    | nil => rfl
    | cons c rest => simp [exponentLength, h.ne 'e' (by decide), h.ne 'E' (by decide)]
  | [c] =>
    cases after with
    | nil => rfl
    | cons d rest =>
      have hnone : (d :: rest).takeWhile Unicode.isDigit = [] := hdigits []
      simp [exponentLength, h.ne '+' (by decide), h.ne '-' (by decide), hnone]
  | c :: d :: s =>
    have hsign : (if d == '+' || d == '-' then 1 else 0) ≤ (d :: s).length := by
      split <;> simp
    simp only [List.cons_append, exponentLength]
    rw [← List.cons_append, List.drop_append_of_le_length hsign, hdigits]

end Lengths

/-! ### No lexeme is longer than the input -/

theorem radixLength_le (s : List Char) : radixLength s ≤ s.length := by
  match s with
  | [] | [_] => simp [radixLength]
  | c :: d :: s =>
    by_cases hc : c = '0'
    · subst hc
      -- The same bound for each of the three radices.
      have hall : ∀ digits : List Char, digits.length ≤ s.length →
          (if digits.isEmpty then 0 else 2 + digits.length) ≤ s.length + 1 + 1 := by
        intro digits hle
        split <;> omega
      simp only [radixLength, List.length_cons]
      apply hall
      split
      · exact (List.takeWhile_sublist _).length_le
      · split
        · exact (List.takeWhile_sublist _).length_le
        · split
          · exact (List.takeWhile_sublist _).length_le
          · exact Nat.zero_le _
    · have : radixLength (c :: d :: s) = 0 := by simp [radixLength, hc]
      omega

theorem mantissaLength_le (s : List Char) : mantissaLength s ≤ s.length := by
  cases s with
  | nil => exact Nat.le_refl _
  | cons c s =>
    by_cases hc : c = '.'
    · subst hc
      have := (s.takeWhile_sublist Unicode.isDigit).length_le
      simp only [mantissaLength, List.length_cons]
      split <;> omega
    · have hwhole := (s.takeWhile_sublist fun c => Unicode.isDigit c || c == '_').length_le
      simp only [mantissaLength, List.length_cons, Nat.add_sub_cancel_left]
      split
      · split
        · next fraction hrest =>
          have := (fraction.takeWhile_sublist Unicode.isDigit).length_le
          have := congrArg List.length hrest
          simp only [List.length_drop, List.length_cons] at this
          omega
        · omega
      · omega

theorem exponentLength_le (s : List Char) : exponentLength s ≤ s.length := by
  match s with
  | [] => exact Nat.le_refl _
  | [c] => simp [exponentLength]
  | c :: d :: s =>
    simp only [exponentLength, List.length_cons]
    split
    · -- A sign counts for one, and the digits are in the rest behind it.
      generalize hsign : (if (d == '+' || d == '-') = true then 1 else 0) = sign
      have hsign : sign ≤ 1 := by
        rw [← hsign]
        split <;> simp
      have hdigits := (((d :: s).drop sign).takeWhile_sublist Unicode.isDigit).length_le
      rw [List.length_drop, List.length_cons] at hdigits
      split <;> omega
    · exact Nat.zero_le _

/-- The length of a number without the mark of a big integer. -/
def plainLength (s : List Char) : Nat :=
  match radixLength s with
  | 0 =>
    match mantissaLength s with
    | 0 => 0
    | n => n + exponentLength (s.drop n)
  | n => n

/-- The length of a number of `n` characters with the mark of a big integer, if one follows it. -/
def markedLength : Nat → List Char → Nat
  | 0, _ => 0
  | n, 'n' :: _ => n + 1
  | n, _ => n

theorem numberLength_eq (s : List Char) :
    numberLength s = markedLength (plainLength s) (s.drop (plainLength s)) :=
  rfl

theorem plainLength_le (s : List Char) : plainLength s ≤ s.length := by
  have hmantissa := mantissaLength_le s
  have hexponent := exponentLength_le (s.drop (mantissaLength s))
  rw [List.length_drop] at hexponent
  unfold plainLength
  split
  · split
    · exact Nat.zero_le _
    · exact Nat.le_trans (Nat.add_le_add_left hexponent _) (by omega)
  · exact radixLength_le s

theorem markedLength_le {n : Nat} {s : List Char} (hn : n ≤ s.length) :
    markedLength n (s.drop n) ≤ s.length := by
  cases n with
  | zero => exact Nat.zero_le _
  | succ n =>
    cases hdrop : s.drop (n + 1) with
    | nil => exact hn
    | cons c rest =>
      have hlong := congrArg List.length hdrop
      rw [List.length_drop, List.length_cons] at hlong
      by_cases hc : c = 'n'
      · subst hc
        rw [markedLength]
        · omega
        · exact Nat.succ_ne_zero n
      · simpa [markedLength, hc] using hn

theorem numberLength_le (s : List Char) : numberLength s ≤ s.length :=
  markedLength_le (plainLength_le s)

theorem plainLength_append {after : List Char} (h : IsGap after) (s : List Char) :
    plainLength (s ++ after) = plainLength s := by
  unfold plainLength
  simp only [radixLength_append h, mantissaLength_append h]
  cases radixLength s with
  | succ n => rfl
  | zero =>
    cases hm : mantissaLength s with
    | zero => rfl
    | succ n =>
      have hn : n + 1 ≤ s.length := hm ▸ mantissaLength_le s
      simp only [List.drop_append_of_le_length hn, exponentLength_append h]

theorem markedLength_append {after : List Char} (h : IsGap after) (n : Nat) (s : List Char) :
    markedLength n (s ++ after) = markedLength n s := by
  cases s with
  | nil =>
    cases after with
    | nil => rfl
    | cons d rest => cases n <;> simp [markedLength, h.ne 'n' (by decide)]
  | cons c rest =>
    by_cases hc : c = 'n'
    · subst hc
      cases n <;> rfl
    · cases n <;> simp [markedLength, hc]

theorem numberLength_append {after : List Char} (h : IsGap after) (s : List Char) :
    numberLength (s ++ after) = numberLength s := by
  rw [numberLength_eq, plainLength_append h, List.drop_append_of_le_length (plainLength_le s),
    markedLength_append h, numberLength_eq]

/-! ### Texts between delimiters -/

theorem delimitedLength?_cons {delimiter : Char} {acrossLines : Bool} {c : Char} (hc : c ≠ '\\')
    (rest : List Char) :
    delimitedLength? delimiter acrossLines (c :: rest)
      = if c == delimiter then some 1
        else if c == '\n' && !acrossLines then none
        else (delimitedLength? delimiter acrossLines rest).map (· + 1) := by
  rw [delimitedLength?]
  · simp [hc]
  · intro d rest' h
    exact absurd h hc

/-- What follows a closing delimiter does not matter, whatever it is. -/
theorem delimitedLength?_append {delimiter : Char} {acrossLines : Bool} (hd : delimiter ≠ '\\')
    (after s : List Char) {n : Nat} (hs : delimitedLength? delimiter acrossLines s = some n) :
    delimitedLength? delimiter acrossLines (s ++ after) = some n := by
  fun_induction delimitedLength? delimiter acrossLines s generalizing n with
  | case1 => cases hs
  | case2 => cases hs
  | case3 c rest hc ih =>
    obtain ⟨m, hm, rfl⟩ := Option.map_eq_some_iff.mp hs
    simp only [List.cons_append, delimitedLength?, hc, ih hm]
    rfl
  | case4 c rest hne hc =>
    have hback : c ≠ '\\' := by
      rw [eq_of_beq hc]
      exact hd
    simpa [delimitedLength?_cons hback, hc] using hs
  | case5 c rest hne hc hstop => cases hs
  | case6 c rest hne hc hstop ih =>
    simp only [Bool.or_eq_true, not_or, beq_iff_eq] at hstop
    obtain ⟨m, hm, rfl⟩ := Option.map_eq_some_iff.mp hs
    simp only [List.cons_append, delimitedLength?_cons hstop.1, hc, hstop.2, ih hm]
    rfl

theorem stringLength_append {s : List Char} (hs : stringLength s ≠ 0) (after : List Char) :
    stringLength (s ++ after) = stringLength s := by
  -- The same for both sorts of quotes.
  have hquote : ∀ q ∈ ['"', '\''], ∀ rest : List Char,
      ((delimitedLength? q false rest).map (· + 1)).getD 0 ≠ 0 →
      ((delimitedLength? q false (rest ++ after)).map (· + 1)).getD 0
        = ((delimitedLength? q false rest).map (· + 1)).getD 0 := by
    intro q hq rest hrest
    cases hn : delimitedLength? q false rest with
    | none =>
      rw [hn] at hrest
      exact absurd rfl hrest
    | some n =>
      have hback : q ≠ '\\' := by
        rintro rfl
        exact absurd hq (by decide)
      rw [delimitedLength?_append hback after rest hn]
  unfold stringLength at hs ⊢
  split at hs
  · exact hquote '"' (by simp) _ hs
  · exact hquote '\'' (by simp) _ hs
  · exact absurd rfl hs

/-! ### What a terminal takes before a gap -/

theorem isPrefixOf_append_gap {after : List Char} (h : IsGap after) {w : List Char}
    (hw : ∀ c ∈ w, goesOn c = true) (s : List Char) :
    w.isPrefixOf (s ++ after) = w.isPrefixOf s := by
  induction w generalizing s with
  | nil => rfl
  | cons c w ih =>
    obtain ⟨hc, hw⟩ := List.forall_mem_cons.1 hw
    cases s with
    | nil =>
      cases after with
      | nil => rfl
      | cons d rest => simp [List.isPrefixOf, (h.ne c hc).symm]
    | cons d s =>
      simp only [List.cons_append, List.isPrefixOf]
      rw [ih hw]

theorem numberLength_eq_zero {c : Char} (hdot : c ≠ '.') (hdigit : Unicode.isDigit c = false)
    (s : List Char) : numberLength (c :: s) = 0 := by
  have hzero : c ≠ '0' := by
    rintro rfl
    exact absurd hdigit (by decide)
  have hradix : radixLength (c :: s) = 0 := by
    cases s <;> simp [radixLength, hzero]
  have hmantissa : mantissaLength (c :: s) = 0 := by simp [mantissaLength, hdigit]
  simp [numberLength, hradix, hmantissa]

theorem isDigit_of_isNameStart {c : Char} (hc : isNameStart c = true) :
    Unicode.isDigit c = false := by
  have hrange : c.toNat < 128 ∧ ¬ (48 ≤ c.toNat ∧ c.toNat ≤ 57) := by
    simp only [isNameStart, isAlpha_iff, Bool.or_eq_true, beq_iff_eq] at hc
    obtain ((⟨h₁, h₂⟩ | ⟨h₁, h₂⟩) | rfl) | rfl := hc
    · omega
    · omega
    · decide
    · decide
  have hascii : c.isDigit = false := by
    simp only [Char.isDigit, Bool.and_eq_false_iff, decide_eq_false_iff_not, ge_iff_le,
      UInt32.le_iff_toNat_le, Char.toNat_val, Char.reduceToNat]
    omega
  simp only [Unicode.isDigit, hascii, Bool.false_or, Bool.and_eq_false_iff, decide_eq_false_iff_not]
  exact .inl (by omega)

namespace Terminal

/-- Marks that end lexemes have no further characters. -/
theorem goesOn_of_mem_tail_spelling (t : Terminal) :
    ∀ c ∈ t.spelling.tail, goesOn c = true := by
  rw [← List.all_eq_true]
  cases t <;> decide

/-- What follows a lexeme before a gap does not matter, unless the lexeme starts with a quote. -/
theorem lexemeLength_append {after : List Char} (h : IsGap after) {s : List Char} (hne : s ≠ [])
    (hs : ∀ c ∈ s.head?, c ∉ ['"', '\'', '\x60']) (t : Terminal) :
    t.lexemeLength (s ++ after) = t.lexemeLength s := by
  obtain ⟨c, s, rfl⟩ := List.exists_cons_of_ne_nil hne
  have hc := hs c rfl
  simp only [List.mem_cons, List.not_mem_nil, or_false, not_or] at hc
  -- A word or a mark that starts in `s` cannot go on in the gap.
  have hspelled : t.spelling.isPrefixOf (c :: s ++ after) = t.spelling.isPrefixOf (c :: s) := by
    have htail := t.goesOn_of_mem_tail_spelling
    cases hspelling : t.spelling with
    | nil => rfl
    | cons d w =>
      rw [hspelling] at htail
      have hw : w.isPrefixOf (s ++ after) = w.isPrefixOf s := isPrefixOf_append_gap h htail s
      rw [List.cons_append, List.isPrefixOf, List.isPrefixOf, hw]
  cases t
  case name => exact nameLength_append h (c :: s)
  case number => exact numberLength_append h (c :: s)
  case string => simp [lexemeLength, stringLength, hc]
  case template => simp [lexemeLength, templateLength, hc]
  case other => rfl
  all_goals simp only [lexemeLength, hspelled]

end Terminal

end DeclSchema.Grammar
