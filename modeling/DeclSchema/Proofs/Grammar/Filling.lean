import DeclSchema.Proofs.Grammar.Derivation

/-!
# Anything in balanced brackets

Inside the brackets of a part that is skipped, the reader takes any lexemes. What may stand there is
told by the characters alone: blanks and comments that are complete, quoted texts that are closed,
groups in brackets again, semicolons, and any other characters one by one. How these make up names
and numbers does not matter, since each character may also begin a lexeme of its own.

## Main definitions

* `IsTrivia`: blanks and complete comments
* `Filling`: what may stand in brackets
* `Skims`: lists of symbols where a part is skipped
* `IsReadBefore`: what is read before a closing bracket

## Main results

* `lexeme?_closedMark`: brackets and semicolons are read whatever follows them
* `Skims.exists_sees_plain`: what is read at any other character
* `Filling.isReadBefore`: what may stand in brackets is read there
-/

namespace DeclSchema.Grammar

open Terminal

/-! ### Blanks and comments -/

/-- Blanks and complete comments. -/
inductive IsTrivia : List Char → Prop where
  | nil : IsTrivia []
  | blank {c : Char} {rest : List Char} (hc : isBlank c = true) (h : IsTrivia rest) :
      IsTrivia (c :: rest)
  | lineComment {body rest : List Char} (hbody : '\n' ∉ body) (h : IsTrivia rest) :
      IsTrivia ('/' :: '/' :: (body ++ '\n' :: rest))
  | blockComment {body rest : List Char} (hbody : commentEnd? body = some body.length)
      (h : IsTrivia rest) : IsTrivia ('/' :: '*' :: (body ++ rest))

/-- Blanks and complete comments are skipped whatever follows them. -/
theorem IsTrivia.triviaLength_append {s : List Char} (h : IsTrivia s) (more : List Char) :
    triviaLength (s ++ more) = s.length + triviaLength more := by
  induction h with
  | nil => simp
  | blank hc _ ih =>
    rw [List.cons_append, triviaLength_cons_blank hc, ih, List.length_cons]
    omega
  | @lineComment body rest hbody _ ih =>
    -- A line comment ends in front of its line break, which is then a blank.
    have hstop : (body ++ '\n' :: (rest ++ more)).takeWhile (· != '\n') = body := by
      rw [List.takeWhile_append_of_pos (by simpa using fun c hc => ne_of_mem_of_not_mem hc hbody)]
      simp
    have hcomment : commentLength ('/' :: '/' :: (body ++ '\n' :: rest) ++ more)
        = body.length + 1 + 1 := by
      simp only [List.cons_append, List.append_assoc, commentLength, hstop]
      omega
    have hline : isBlank '\n' = true := by decide
    have hdrop : ('/' :: '/' :: (body ++ '\n' :: rest) ++ more).drop (body.length + 1 + 1)
        = '\n' :: (rest ++ more) := by
      simp
    rw [triviaLength_comment hcomment, hdrop, triviaLength_cons_blank hline, ih]
    simp only [List.length_cons, List.length_append]
    omega
  | @blockComment body rest hbody _ ih =>
    have hcomment : commentLength ('/' :: '*' :: (body ++ rest) ++ more)
        = body.length + 1 + 1 := by
      simp only [List.cons_append, List.append_assoc, commentLength, commentEnd?_append hbody]
      rfl
    have hdrop : ('/' :: '*' :: (body ++ rest) ++ more).drop (body.length + 1 + 1)
        = rest ++ more := by
      simp
    rw [triviaLength_comment hcomment, hdrop, ih]
    simp only [List.length_cons, List.length_append]
    omega

theorem IsTrivia.triviaLength_eq {s : List Char} (h : IsTrivia s) {more : List Char}
    (hmore : triviaLength more = 0) : triviaLength (s ++ more) = s.length := by
  rw [h.triviaLength_append, hmore, Nat.add_zero]

theorem IsTrivia.goesOn_eq {c : Char} {rest : List Char} (h : IsTrivia (c :: rest)) :
    goesOn c = false := by
  cases h with
  | blank hc => rw [goesOn, isOther_of_isBlank hc, Bool.false_and]
  | lineComment => decide
  | blockComment => decide

/-! ### What may stand in brackets -/

/-- Brackets and semicolons are single characters that start nothing else. -/
theorem exists_of_mem_closedMarks {u : Terminal} (hu : u ∈ closedMarks) :
    ∃ c, u.spelling = [c] ∧ isOther c = false ∧ isBlank c = false ∧ c ≠ '/' ∧
      isNameStart c = false ∧ c ≠ '.' ∧ Unicode.isDigit c = false ∧
      c ∉ ['"', '\'', '\x60'] := by
  simp only [closedMarks, List.mem_cons, List.not_mem_nil, or_false] at hu
  obtain rfl | rfl | rfl | rfl | rfl | rfl | rfl := hu <;> exact ⟨_, rfl, by decide⟩

theorem isOther_head_closedMark {u : Terminal} (hu : u ∈ closedMarks) (after : List Char) :
    ∀ c ∈ (u.spelling ++ after).head?, isOther c = false := by
  obtain ⟨c, hc, hother, -⟩ := exists_of_mem_closedMarks hu
  rw [hc]
  rintro _ ⟨⟩
  exact hother

/-- The opening brackets with the closing ones. -/
def brackets : List (Terminal × Terminal) :=
  [(openBrace, closeBrace), (openParen, closeParen), (openBracket, closeBracket)]

/-- Blanks, comments, quoted texts, groups in brackets, semicolons and any other characters, where a
slash starts a comment only if that comment is complete. -/
inductive Filling : List Char → Prop where
  | trivia {s : List Char} (hs : IsTrivia s) : Filling s
  | plain {s rest : List Char} {c : Char} (hs : IsTrivia s) (hc : isOther c = true)
      (hslash : c = '/' → ∀ d ∈ rest.head?, d ≠ '/' ∧ d ≠ '*') (h : Filling rest) :
      Filling (s ++ c :: rest)
  | semicolon {s rest : List Char} (hs : IsTrivia s) (h : Filling rest) :
      Filling (s ++ ';' :: rest)
  | quoted {s text rest : List Char} {t : Terminal} (hs : IsTrivia s)
      (ht : t = string ∨ t = template) (htext : t.lexemeLength text = text.length)
      (hne : text ≠ []) (h : Filling rest) :
      Filling (s ++ (text ++ rest))
  | group {s inner rest : List Char} {o c : Terminal} (hs : IsTrivia s) (hpair : (o, c) ∈ brackets)
      (hinner : Filling inner) (h : Filling rest) :
      Filling (s ++ (o.spelling ++ (inner ++ (c.spelling ++ rest))))

/-- A quoted text starts with a quote. -/
theorem exists_of_quoted {t : Terminal} (ht : t = string ∨ t = template) {s : List Char}
    (hs : t.lexemeLength s ≠ 0) : ∃ c text, s = c :: text ∧ c ∈ ['"', '\'', '\x60'] := by
  obtain rfl | rfl := ht
  · simp only [lexemeLength, stringLength] at hs
    split at hs
    · exact ⟨_, _, rfl, by simp⟩
    · exact ⟨_, _, rfl, by simp⟩
    · exact absurd rfl hs
  · simp only [lexemeLength, templateLength] at hs
    split at hs
    · exact ⟨_, _, rfl, by simp⟩
    · exact absurd rfl hs

theorem mem_closedMarks_of_mem_brackets {o c : Terminal} (h : (o, c) ∈ brackets) :
    o ∈ closedMarks ∧ c ∈ closedMarks := by
  have hall : ∀ p ∈ brackets, p.1 ∈ closedMarks ∧ p.2 ∈ closedMarks := by decide
  exact hall _ h

theorem IsTrivia.eq_nil_of_goesOn {s more rest : List Char} {c : Char} (hs : IsTrivia s)
    (h : s ++ more = c :: rest) (hc : goesOn c = true) : s = [] := by
  cases s with
  | nil => rfl
  | cons d s =>
    obtain rfl : d = c := (List.cons.inj h).1
    exact absurd hc (by simp [hs.goesOn_eq])

/-- Behind a character that a lexeme may go on with, the rest may stand in brackets too. -/
theorem Filling.of_cons {c : Char} {rest : List Char} (h : Filling (c :: rest))
    (hc : goesOn c = true) : Filling rest := by
  generalize hf : c :: rest = f at h
  -- Only a plain character goes on a lexeme; all other fillings start with something else.
  cases h with
  | trivia hs =>
    subst hf
    exact absurd hc (by simp [hs.goesOn_eq])
  | plain hs _ _ h =>
    obtain rfl := hs.eq_nil_of_goesOn hf.symm hc
    obtain ⟨rfl, rfl⟩ := List.cons.inj hf
    exact h
  | semicolon hs h =>
    obtain rfl := hs.eq_nil_of_goesOn hf.symm hc
    obtain ⟨rfl, rfl⟩ := List.cons.inj hf
    exact absurd hc (by decide)
  | quoted hs ht htext hne h =>
    obtain rfl := hs.eq_nil_of_goesOn hf.symm hc
    obtain ⟨d, text, rfl, hd⟩ := exists_of_quoted ht fun hzero =>
      hne (List.length_eq_zero_iff.1 (htext.symm.trans hzero))
    obtain ⟨rfl, -⟩ := List.cons.inj hf
    exact absurd hc (by simp [goesOn, plain_of_quote hd])
  | group hs hpair _ h =>
    obtain rfl := hs.eq_nil_of_goesOn hf.symm hc
    obtain ⟨d, ho, hd, -⟩ := exists_of_mem_closedMarks (mem_closedMarks_of_mem_brackets hpair).1
    rw [List.nil_append, ho] at hf
    obtain ⟨rfl, -⟩ := List.cons.inj hf
    exact absurd hc (by simp [goesOn, hd])

theorem Filling.of_append {front rest : List Char} (h : Filling (front ++ rest))
    (hfront : ∀ c ∈ front, goesOn c = true) : Filling rest := by
  induction front with
  | nil => exact h
  | cons c front ih =>
    obtain ⟨hc, hfront⟩ := List.forall_mem_cons.1 hfront
    exact ih (h.of_cons hc) hfront

/-! ### Brackets and semicolons -/

/-- No other terminal takes a bracket or a semicolon. -/
theorem lexemeLength_closedMark {u t : Terminal} (hu : u ∈ closedMarks) (ht : t ≠ u)
    (rest : List Char) : t.lexemeLength (u.spelling ++ rest) = 0 := by
  have hhead : ∀ t ∈ spelled, ∀ u ∈ closedMarks, t.spelling.head? = u.spelling.head? → t = u := by
    decide
  obtain ⟨c, hc, hother, -, -, hname, hdot, hdigit, hquotes⟩ := exists_of_mem_closedMarks hu
  simp only [List.mem_cons, List.not_mem_nil, or_false, not_or] at hquotes
  -- The terminals without a spelling are the classes, each with a condition on its first character.
  by_cases hspelling : t.spelling = []
  · rw [hc, List.singleton_append]
    cases t
    case name => simp [lexemeLength, nameLength, hname]
    case string => simp [lexemeLength, stringLength, hquotes]
    case number => exact numberLength_eq_zero hdot hdigit rest
    case template => simp [lexemeLength, templateLength, hquotes]
    case other => simp [lexemeLength, otherLength, hother]
    all_goals exact absurd hspelling (by decide)
  · obtain ⟨d, w, hw⟩ := List.exists_cons_of_ne_nil hspelling
    rw [hc, List.singleton_append]
    refine lexemeLength_eq_zero_of_ne hw ?_ rest
    rintro rfl
    exact ht (hhead t (mem_spelled hspelling) u hu (by rw [hw, hc]; rfl))

/-- Brackets and semicolons are read wherever they are admitted, whatever follows them. -/
theorem lexeme?_closedMark {admits : Terminal → Bool} {u : Terminal} (hu : u ∈ closedMarks)
    (hadmits : admits u = true) (rest : List Char) :
    lexeme? admits (u.spelling ++ rest) = some (u, u.spelling.length) := by
  have hspecial : ∀ u ∈ closedMarks, u.spelling ≠ [] ∧ u.special = [] ∧
      ∀ c ∈ [name, other], u ∉ c.special := by
    decide
  obtain ⟨hne, hnone, habsorbed⟩ := hspecial u hu
  refine (IsLexeme.lexeme?_of_first hne (fun v hv _ _ => ?_) hadmits
    (isAbsorbed_eq_false habsorbed) ?_).trans (by rw [refine_eq_self (by simp [hnone])])
  · have hv' : v ≠ u := by simpa using List.all_eq_true.1 List.all_takeWhile v hv
    exact lexemeLength_closedMark hu hv' rest
  · rw [lexemeLength_of_spelling hne, if_pos (by simp)]

/-- A bracket or a semicolon is the next token wherever it is expected. -/
theorem sees_closedMark {symbols : List Symbol} {u : Terminal} (hu : u ∈ closedMarks)
    (hexpects : expects symbols u = true) {s : List Char} (hs : IsTrivia s) (after : List Char) :
    Sees symbols (s ++ (u.spelling ++ after)) ⟨u, s, u.spelling⟩ after where
  input_eq := rfl
  triviaLength_eq := by
    obtain ⟨d, hd, -, hblank, hslash, -⟩ := exists_of_mem_closedMarks hu
    rw [hd]
    exact hs.triviaLength_eq (triviaLength_eq_zero hblank hslash after)
  nonempty := by
    have hall : ∀ u ∈ closedMarks, u.spelling ≠ [] := by decide
    exact hall u hu
  lexeme?_eq := lexeme?_closedMark hu (by rw [hexpects, Bool.true_or]) after
  expected := hexpects

/-- A word is the next token before a gap wherever it is expected. -/
theorem sees_word {w : Terminal} (hw : w ∈ words) {symbols : List Symbol}
    (hexpects : expects symbols w = true) {s after : List Char} (hs : IsTrivia s)
    (hafter : IsGap after) :
    Sees symbols (s ++ (w.spelling ++ after)) ⟨w, s, w.spelling⟩ after := by
  have hall : ∀ w ∈ words, w.spelling ≠ [] := by decide
  have hne := hall w hw
  refine ⟨rfl, hs.triviaLength_eq ?_, hne, ?_, hexpects⟩
  · obtain ⟨c, rest, hc, hblank, hslash⟩ := (IsLexeme.of_spelling hne).exists_head
    rw [hc]
    exact triviaLength_eq_zero hblank hslash _
  · exact IsLexeme.lexeme?_spelling hne hafter (by rw [hexpects, Bool.true_or])

/-! ### Where a part is skipped -/

/-- Every class of lexemes may come next, as may a semicolon and an opening bracket, and no mark is
told apart from any other character. -/
structure Skims (symbols : List Symbol) : Prop where
  admits : ∀ t, starts .skipped t = true → expects symbols t = true
  plain : ∀ t ∈ longMarks ++ plainMarks, (expects symbols t || reserves symbols t) = false

namespace Skims

variable {symbols : List Symbol} {s after : List Char}

theorem sees (h : Skims symbols) {trivia : List Char} {t : Terminal} (hs : s ≠ [])
    (htrivia : triviaLength (trivia ++ (s ++ after)) = trivia.length)
    (hlexeme : lexeme? (fun t => expects symbols t || reserves symbols t) (s ++ after)
      = some (t, s.length)) (ht : starts .skipped t = true) :
    Sees symbols (trivia ++ (s ++ after)) ⟨t, trivia, s⟩ after :=
  ⟨rfl, htrivia, hs, hlexeme, h.admits t ht⟩

theorem admits_or (h : Skims symbols) {t : Terminal} (ht : starts .skipped t = true) :
    (expects symbols t || reserves symbols t) = true := by
  rw [h.admits t ht, Bool.true_or]

/-- A template is read as such. -/
theorem lexeme?_template (h : Skims symbols) (hs : templateLength s = s.length) (hne : s ≠ []) :
    lexeme? (fun t => expects symbols t || reserves symbols t) (s ++ after)
      = some (template, s.length) := by
  have hpositive : templateLength s ≠ 0 := by simpa [hs] using hne
  obtain ⟨text, htext⟩ : ∃ text, s = '\x60' :: text := by
    unfold templateLength at hpositive
    split at hpositive
    · exact ⟨_, rfl⟩
    · exact absurd rfl hpositive
  refine IsLexeme.lexeme?_of_first (t := template) hne (fun u hu _ _ => ?_)
    (h.admits_or (by decide)) (isAbsorbed_eq_false (by decide))
    ((templateLength_append hpositive after).trans hs)
  have htemplate : u ≠ template := by simpa using List.all_eq_true.1 List.all_takeWhile u hu
  rw [htext]
  by_cases hstring : u = string
  · rw [hstring]
    rfl
  · exact lexemeLength_eq_zero_of_quote (by simp) hstring htemplate _

/-- A string or a template is the next token. -/
theorem sees_quoted (h : Skims symbols) {trivia : List Char} (htrivia : IsTrivia trivia)
    {t : Terminal} (ht : t = string ∨ t = template) (hs : t.lexemeLength s = s.length)
    (hne : s ≠ []) : Sees symbols (trivia ++ (s ++ after)) ⟨t, trivia, s⟩ after := by
  have hpositive : t.lexemeLength s ≠ 0 := fun hzero =>
    hne (List.length_eq_zero_iff.1 (hs.symm.trans hzero))
  have hzero : triviaLength (s ++ after) = 0 := by
    obtain ⟨c, text, rfl, hc⟩ := exists_of_quoted ht hpositive
    obtain ⟨-, -, hblank, -, -, hslash⟩ := plain_of_quote hc
    exact triviaLength_eq_zero hblank hslash _
  refine h.sees hne (htrivia.triviaLength_eq hzero) ?_ ?_
  · obtain rfl | rfl := ht
    · exact IsLexeme.lexeme?_string hs hne (h.admits_or (by decide))
    · exact h.lexeme?_template hs hne
  · obtain rfl | rfl := ht <;> decide

theorem ne_quote_of_isOther {c : Char} (hc : isOther c = true) : c ∉ ['"', '\'', '\x60'] := by
  intro hmem
  exact absurd hc (by simp [plain_of_quote hmem])

/-- Any other character is read as such if no name and no number starts there. -/
theorem lexeme?_other (h : Skims symbols) {c : Char} (hc : isOther c = true)
    (hname : isNameStart c = false) (hnumber : numberLength (c :: after) = 0) :
    lexeme? (fun t => expects symbols t || reserves symbols t) (c :: after)
      = some (other, 1) := by
  have hquote := ne_quote_of_isOther hc
  simp only [List.mem_cons, List.not_mem_nil, or_false, not_or] at hquote
  have hrefine : other.refine (fun t => expects symbols t || reserves symbols t) [c] = other :=
    refine_eq_self fun u hu => by simp [h.plain u (List.mem_append_right _ hu)]
  refine (IsLexeme.lexeme?_of_first (t := other) (s := [c]) (by simp) (fun u hu hadmitted _ => ?_)
    (h.admits_or (by decide)) (isAbsorbed_eq_false (by decide))
    (by simp [lexemeLength, otherLength, hc])).trans (by rw [hrefine]; rfl)
  -- Those that are tried before: the classes, and words and marks that are not admitted here.
  have hbefore : order.takeWhile (· != other)
      = [number, string, name, template] ++ (words ++ longMarks) := by
    decide
  rw [hbefore, List.mem_append, List.mem_append] at hu
  obtain hu | hu | hu := hu
  · simp only [List.mem_cons, List.not_mem_nil, or_false] at hu
    obtain rfl | rfl | rfl | rfl := hu
    · exact hnumber
    · simp [lexemeLength, stringLength, hquote]
    · simp [lexemeLength, nameLength, hname]
    · simp [lexemeLength, templateLength, hquote]
  · obtain ⟨d, w, hw, hd, -⟩ := exists_of_mem_words hu
    refine lexemeLength_eq_zero_of_ne hw ?_ after
    rintro rfl
    exact absurd hd (by simp [hname])
  · rw [h.plain u (List.mem_append_left _ hu)] at hadmitted
    cases hadmitted

end Skims

theorem triviaLength_plain {d : Char} (hd : isOther d = true) {more : List Char}
    (hslash : d = '/' → ∀ e ∈ more.head?, e ≠ '/' ∧ e ≠ '*') : triviaLength (d :: more) = 0 := by
  refine triviaLength_of_solid ?_ ?_
  · rintro e ⟨⟩
    refine Bool.eq_false_iff.2 fun hblank => ?_
    exact absurd hd (by simp [isOther_of_isBlank hblank])
  · by_cases he : d = '/'
    · cases more with
      | nil => simp [commentLength]
      | cons e more => simp [commentLength, hslash he e rfl]
    · simp [commentLength, he]

/-- Names and numbers have only characters that a lexeme may go on with. -/
theorem lexemeLength_le_takeWhile {u : Terminal} (hu : u = name ∨ u = number) (s : List Char)
    {after : List Char} (hafter : IsGap after) :
    u.lexemeLength (s ++ after) ≤ (s.takeWhile goesOn).length := by
  -- The characters that go on end at a gap, and behind it nothing matters.
  have hgap : IsGap (s.dropWhile goesOn ++ after) := by
    cases hback : s.dropWhile goesOn with
    | nil => exact hafter
    | cons d back =>
      rintro c ⟨⟩
      simpa [hback] using List.head?_dropWhile_not goesOn s
  have hsplit : s ++ after = s.takeWhile goesOn ++ (s.dropWhile goesOn ++ after) := by
    rw [← List.append_assoc, List.takeWhile_append_dropWhile]
  have hlength : u.lexemeLength (s ++ after) = u.lexemeLength (s.takeWhile goesOn) := by
    rw [hsplit]
    obtain rfl | rfl := hu
    · exact nameLength_append hgap _
    · exact numberLength_append hgap _
  rw [hlength]
  exact lexemeLength_le u _

/-- A name or a number is one up to where the rest of the input is cut off behind it. -/
theorem exists_of_lexemeLength_ne_zero {u : Terminal} (hu : u = name ∨ u = number) {c : Char}
    {rest after : List Char} (hafter : IsGap after)
    (h : u.lexemeLength (c :: (rest ++ after)) ≠ 0) :
    ∃ front back, rest = front ++ back ∧ (∀ d ∈ front, goesOn d = true) ∧
      u.lexemeLength (c :: front ++ (back ++ after)) = (c :: front).length := by
  obtain ⟨n, hn⟩ := Nat.exists_eq_succ_of_ne_zero h
  have hle := lexemeLength_le_takeWhile hu (c :: rest) hafter
  rw [List.cons_append, hn, List.takeWhile_cons] at hle
  split at hle
  · rw [List.length_cons, Nat.succ_le_succ_iff] at hle
    have hleads : rest.take n <+: rest.takeWhile goesOn :=
      List.prefix_of_prefix_length_le (List.take_prefix ..) (List.takeWhile_prefix ..)
        (Nat.le_trans (List.length_take_le ..) hle)
    have hlength := Nat.le_trans hle (List.takeWhile_sublist _).length_le
    refine ⟨rest.take n, rest.drop n, (List.take_append_drop ..).symm,
      fun d hd => List.all_eq_true.1 List.all_takeWhile d (hleads.subset hd), ?_⟩
    rw [List.cons_append, ← List.append_assoc, List.take_append_drop, hn, List.length_cons,
      List.length_take_of_le hlength]
  · exact absurd hle (Nat.not_succ_le_zero n)

namespace Skims

variable {symbols : List Symbol} {c : Char} {rest after : List Char}

/-- At any other character a name, a number or that character alone is read, where no word may come
next. Behind its first character there are only such as a lexeme may go on with. -/
theorem exists_lexeme?_plain (h : Skims symbols)
    (hwords : ∀ w ∈ words, (expects symbols w || reserves symbols w) = false)
    (hc : isOther c = true) (rest : List Char) (hafter : IsGap after) :
    ∃ t front back, t ∈ [name, number, other] ∧ rest = front ++ back ∧
      (∀ d ∈ front, goesOn d = true) ∧
      lexeme? (fun t => expects symbols t || reserves symbols t) (c :: front ++ (back ++ after))
        = some (t, (c :: front).length) := by
  have hquote := ne_quote_of_isOther hc
  simp only [List.mem_cons, List.not_mem_nil, or_false, not_or] at hquote
  -- A number is tried before a name, and a name before any other character.
  by_cases hnumber : numberLength (c :: (rest ++ after)) = 0
  · by_cases hname : nameLength (c :: (rest ++ after)) = 0
    · have hstart : isNameStart c = false := by
        refine Bool.eq_false_iff.2 fun hstart => ?_
        simp [nameLength, hstart] at hname
      exact ⟨other, [], rest, by simp, rfl, by simp, h.lexeme?_other hc hstart hnumber⟩
    · obtain ⟨front, back, rfl, hfront, hlength⟩ :=
        exists_of_lexemeLength_ne_zero (.inl rfl) hafter hname
      rw [List.append_assoc] at hnumber
      have hrefine : name.refine (fun t => expects symbols t || reserves symbols t) (c :: front)
          = name :=
        refine_eq_self fun w hw => by simp [hwords w hw]
      refine ⟨name, front, back, by simp, rfl, hfront, ?_⟩
      refine (IsLexeme.lexeme?_of_first (t := name) (List.cons_ne_nil _ _) (fun u hu _ _ => ?_)
        (h.admits_or (by decide)) (isAbsorbed_eq_false (by decide)) hlength).trans
        (by rw [hrefine])
      obtain rfl | rfl : u = number ∨ u = string := by simpa [order] using hu
      · exact hnumber
      · simp [lexemeLength, stringLength, hquote]
  · obtain ⟨front, back, rfl, hfront, hlength⟩ :=
      exists_of_lexemeLength_ne_zero (.inr rfl) hafter hnumber
    exact ⟨number, front, back, by simp, rfl, hfront,
      IsLexeme.lexeme?_of_first (t := number) (List.cons_ne_nil _ _) (by simp [order])
        (h.admits_or (by decide)) (isAbsorbed_eq_false (by decide)) hlength⟩

/-- Any other character starts the next token, unless it starts a comment. -/
theorem exists_sees_plain (h : Skims symbols)
    (hwords : ∀ w ∈ words, (expects symbols w || reserves symbols w) = false)
    {s : List Char} (hs : IsTrivia s) (hc : isOther c = true)
    (hslash : c = '/' → ∀ d ∈ rest.head?, d ≠ '/' ∧ d ≠ '*')
    (hafter : ∀ d ∈ after.head?, isOther d = false) :
    ∃ t front back, t ∈ [name, number, other] ∧ rest = front ++ back ∧
      (∀ d ∈ front, goesOn d = true) ∧
      Sees symbols (s ++ (c :: front ++ (back ++ after))) ⟨t, s, c :: front⟩ (back ++ after) := by
  obtain ⟨t, front, back, ht, rfl, hfront, hlexeme⟩ :=
    h.exists_lexeme?_plain hwords hc rest (isGap_of_isOther hafter)
  -- A slash that comes last does not become a comment with what follows the filling.
  have hhead : c = '/' → ∀ d ∈ (front ++ back ++ after).head?, d ≠ '/' ∧ d ≠ '*' := by
    intro hc d hd
    cases hrest : front ++ back with
    | cons e rest => exact hslash hc d (by simpa [hrest] using hd)
    | nil =>
      rw [hrest] at hd
      constructor <;> rintro rfl <;> exact absurd (hafter _ hd) (by decide)
  have hzero : triviaLength (c :: front ++ (back ++ after)) = 0 := by
    rw [List.cons_append, ← List.append_assoc]
    exact triviaLength_plain hc hhead
  have hstarts : ∀ t ∈ [name, number, other], starts .skipped t = true := by decide
  exact ⟨t, front, back, ht, rfl, hfront,
    h.sees (List.cons_ne_nil _ _) (hs.triviaLength_eq hzero) hlexeme (hstarts t ht)⟩

end Skims

/-! ### Reading what stands in brackets -/

section Inner

variable {outer : List Symbol} {o c : Terminal}

theorem skims_inner (hpair : (o, c) ∈ brackets) : Skims (.sub .inner :: .tok c :: outer) where
  admits t ht := by
    have hinner : starts .inner t = true := by
      revert ht
      cases t <;> decide
    simp [expects, hinner]
  plain t ht := by
    have hall : ∀ t ∈ longMarks ++ plainMarks, starts .inner t = false ∧
        ∀ p ∈ brackets, p.2 ≠ t := by
      decide
    obtain ⟨hinner, hclose⟩ := hall t ht
    simp [expects, reserves, hinner, hclose _ hpair]

theorem admits_inner_eq_false (hpair : (o, c) ∈ brackets) :
    ∀ w ∈ words, (expects (.sub .inner :: .tok c :: outer) w
      || reserves (.sub .inner :: .tok c :: outer) w) = false := by
  intro w hw
  have hall : ∀ w ∈ words, starts .inner w = false ∧ ∀ p ∈ brackets, p.2 ≠ w := by
    decide
  obtain ⟨hinner, hclose⟩ := hall w hw
  simp [expects, reserves, hinner, hclose _ hpair]

theorem branch?_inner : ∀ t ∈ [name, number, other, string, template],
    branch? .inner t = some (.led t [.sub .inner]) := by
  decide

theorem branch?_inner_open : ∀ p ∈ brackets,
    branch? .inner p.1 = some (.led p.1 [.sub .inner, .tok p.2, .sub .inner]) := by
  decide

/-- What stands in brackets, the closing bracket, and what follows it. -/
theorem Derives.group {symbols : List Symbol} {input back after rest : List Char} {t : Tree}
    {ts : List Tree} (hclosed : c ∈ closedMarks) (hback : IsTrivia back)
    (h : Derives (.list [.sub .inner]) (.tok c :: (symbols ++ outer)) input [t]
      (back ++ (c.spelling ++ after)))
    (hrest : Derives (.list symbols) outer after ts rest) :
    Derives (.list (.sub .inner :: .tok c :: symbols)) outer input
      (t :: .leaf ⟨c, back, c.spelling⟩ :: ts) rest := by
  have hc : Sees (.tok c :: (symbols ++ outer)) (back ++ (c.spelling ++ after))
      ⟨c, back, c.spelling⟩ after :=
    sees_closedMark hclosed (by simp [expects]) hback after
  exact h.append (.tok hc hrest)

/-- What stands before the bracket `c` is read there, up to blanks and comments at its end. -/
def IsReadBefore (c : Terminal) (outer : List Symbol) (after f : List Char) : Prop :=
  ∃ t back, IsTrivia back ∧
    Derives (.list [.sub .inner]) (.tok c :: outer) (f ++ (c.spelling ++ after)) [t]
      (back ++ (c.spelling ++ after))

namespace IsReadBefore

variable {f front rest after : List Char}

/-- Nothing but blanks and comments stands before the bracket. -/
theorem trivia (hpair : (o, c) ∈ brackets) (hf : IsTrivia f) : IsReadBefore c outer after f := by
  have hstarts : ∀ p ∈ brackets, starts .inner p.2 = false := by decide
  have hexpects : expects (.sub .inner :: .tok c :: outer) c = true := by
    simp [expects, Nonterminal.mayBeEmpty]
  have hk := sees_closedMark (mem_closedMarks_of_mem_brackets hpair).2 hexpects hf after
  exact ⟨_, _, hf, .skip hk (hstarts _ hpair) .nil⟩

/-- A lexeme stands in front of the rest. -/
theorem cons {u : Terminal} {k : Token} (h : IsReadBefore c outer after rest)
    (hk : Sees (.sub .inner :: .tok c :: outer) (front ++ (rest ++ (c.spelling ++ after))) k
      (rest ++ (c.spelling ++ after)))
    (hbranch : branch? .inner k.terminal = some (.led u [.sub .inner])) :
    IsReadBefore c outer after (front ++ rest) := by
  obtain ⟨t, back, hback, hrest⟩ := h
  refine ⟨.node .inner [.leaf k, t], back, hback, ?_⟩
  rw [List.append_assoc]
  exact .start hk (starts_of_branch? hbranch) (.led hbranch hrest) .nil

/-- Brackets that are read themselves stand in front of the rest. -/
theorem group {o' c' : Terminal} {s inner : List Char} (hpair : (o', c') ∈ brackets)
    (hs : IsTrivia s) (h : IsReadBefore c outer after rest)
    (hinner : IsReadBefore c' (.sub .inner :: .tok c :: outer) (rest ++ (c.spelling ++ after))
      inner) :
    IsReadBefore c outer after (s ++ (o'.spelling ++ (inner ++ (c'.spelling ++ rest)))) := by
  obtain ⟨hopen, hclose⟩ := mem_closedMarks_of_mem_brackets hpair
  obtain ⟨t, back, hback, hrest⟩ := h
  obtain ⟨t', back', hback', hread⟩ := hinner
  have hbranch := branch?_inner_open _ hpair
  have hexpects : expects (.sub .inner :: .tok c :: outer) o' = true :=
    expects_of_starts (starts_of_branch? hbranch)
  have hopened := sees_closedMark hopen hexpects hs
    (inner ++ (c'.spelling ++ (rest ++ (c.spelling ++ after))))
  refine ⟨.node .inner [.leaf ⟨o', s, o'.spelling⟩, t', .leaf ⟨c', back', c'.spelling⟩, t],
    back, hback, ?_⟩
  simp only [List.append_assoc]
  exact .start hopened (starts_of_branch? hbranch)
    (.led hbranch (.group hclose hback' hread hrest)) .nil

end IsReadBefore

/-- What may stand in brackets is read there. -/
theorem Filling.isReadBefore {f : List Char} (h : Filling f) (hpair : (o, c) ∈ brackets)
    (outer : List Symbol) (after : List Char) : IsReadBefore c outer after f := by
  -- By length, since a name or a number is one token and several steps of what stands in brackets.
  induction hn : f.length using Nat.strongRecOn generalizing f o c outer after with
  | ind size ih =>
    have hskims : Skims (.sub .inner :: .tok c :: outer) := skims_inner hpair
    have hclosed := (mem_closedMarks_of_mem_brackets hpair).2
    cases h with
    | trivia hs => exact .trivia hpair hs
    | @plain s rest e hs he hslash h =>
      obtain ⟨t, front, mid, ht, rfl, hfront, hk⟩ := hskims.exists_sees_plain
        (admits_inner_eq_false hpair) hs he hslash (isOther_head_closedMark hclosed after)
      simp only [List.length_append, List.length_cons] at hn
      have hmid := ih mid.length (by omega) (h.of_append hfront) hpair outer after rfl
      rw [← List.append_assoc s] at hk
      have hread := hmid.cons hk (branch?_inner t (List.mem_append_left [string, template] ht))
      rwa [List.append_assoc s, List.cons_append] at hread
    | @semicolon s rest hs h =>
      simp only [List.length_append, List.length_cons] at hn
      have hrest := ih rest.length (by omega) h hpair outer after rfl
      have hk : Sees (.sub .inner :: .tok c :: outer)
          (s ++ [';'] ++ (rest ++ (c.spelling ++ after)))
          ⟨Terminal.semicolon, s, [';']⟩ (rest ++ (c.spelling ++ after)) := by
        rw [List.append_assoc]
        exact sees_closedMark (u := Terminal.semicolon) (by decide) rfl hs _
      have hread := hrest.cons hk rfl
      rwa [List.append_assoc] at hread
    | @quoted s text rest t hs ht htext hne h =>
      simp only [List.length_append] at hn
      have hpositive := List.length_pos_iff.2 hne
      have hrest := ih rest.length (by omega) h hpair outer after rfl
      have hk : Sees (.sub .inner :: .tok c :: outer)
          (s ++ text ++ (rest ++ (c.spelling ++ after))) ⟨t, s, text⟩
          (rest ++ (c.spelling ++ after)) := by
        rw [List.append_assoc]
        exact hskims.sees_quoted hs ht htext hne
      have hread := hrest.cons hk (branch?_inner t (by obtain rfl | rfl := ht <;> decide))
      rwa [List.append_assoc s] at hread
    | @group s inner rest o' c' hs hpair' hinner h =>
      obtain ⟨d, hd, -⟩ := exists_of_mem_closedMarks (mem_closedMarks_of_mem_brackets hpair').1
      simp only [List.length_append, hd, List.length_singleton] at hn
      exact .group hpair' hs (ih rest.length (by omega) h hpair outer after rfl)
        (ih inner.length (by omega) hinner hpair' _ _ rfl)

end Inner

end DeclSchema.Grammar
