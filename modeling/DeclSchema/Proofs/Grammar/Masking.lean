import DeclSchema.Proofs.Grammar.Layout
import DeclSchema.Proofs.Grammar.Filling
import DeclSchema.Proofs.Grammar.Nesting

/-!
# Comments and quoted texts put out of sight

Which lexeme comes next depends on what the reader expects, but what is a comment, a string or a
template does not: they can be told from the front of a source to its end, by the characters alone.
With blanks in their place, the brackets that are left in a source that is read are those of its
tokens, and each character stands where it stood.

## Main definitions

* `coveredLength`, `masked`: a source with blanks for its comments, strings and templates
* `Token.Shows`, `Sketch`: what is left of a token, and of tokens
* `Lexes`: tokens that are seen one behind the other

## Main results

* `Sees.exists_shows`: what is left of the next token
* `Derives.exists_lexes`, `Lexes.exists_sketch`: what is left of what is read
* `Sketch.nest_eq`: the brackets that are left are those of the tokens
-/

namespace DeclSchema.Grammar

open Terminal Grammar.Tree

/-! ### Blanks for what is covered -/

/-- The length of the comment, the string or the template at the front of the input, or zero. -/
def coveredLength (input : List Char) : Nat :=
  max (commentLength input) (max (stringLength input) (templateLength input))

/-- The input with blanks for its first `n` characters and for the comments, strings and templates
behind them. -/
def maskFrom : Nat → List Char → List Char
  | _, [] => []
  | n + 1, _ :: rest => ' ' :: maskFrom n rest
  | 0, c :: rest =>
    match coveredLength (c :: rest) with
    | 0 => c :: maskFrom 0 rest
    | n + 1 => ' ' :: maskFrom n rest

/-- The input with blanks for its comments, strings and templates. -/
def masked (input : List Char) : List Char :=
  maskFrom 0 input

section Masked

variable {c : Char} {front rest : List Char}

@[simp] theorem masked_nil : masked [] = [] :=
  rfl

theorem length_maskFrom (n : Nat) (input : List Char) :
    (maskFrom n input).length = input.length := by
  fun_induction maskFrom n input with
  | case1 => rfl
  | case2 _ _ _ ih => rw [List.length_cons, ih, List.length_cons]
  | case3 _ _ _ ih => rw [List.length_cons, ih, List.length_cons]
  | case4 _ _ _ _ ih => rw [List.length_cons, ih, List.length_cons]

/-- Every character keeps its place. -/
theorem length_masked (input : List Char) : (masked input).length = input.length :=
  length_maskFrom 0 input

theorem maskFrom_append (front rest : List Char) :
    maskFrom front.length (front ++ rest) = List.replicate front.length ' ' ++ masked rest := by
  induction front with
  | nil => rfl
  | cons c front ih =>
    rw [List.length_cons, List.cons_append, maskFrom, ih, List.replicate_succ, List.cons_append]

/-- A comment, a string or a template is put out of sight. -/
theorem masked_covered (hne : front ≠ []) (h : coveredLength (front ++ rest) = front.length) :
    masked (front ++ rest) = List.replicate front.length ' ' ++ masked rest := by
  obtain ⟨c, front, rfl⟩ := List.exists_cons_of_ne_nil hne
  rw [List.cons_append, List.length_cons] at h
  rw [List.cons_append, masked, maskFrom, h, List.length_cons, List.replicate_succ,
    List.cons_append, ← maskFrom_append]

example : masked "a /* ( */ ']' b".toList = "a             b".toList := by
  decide +kernel

theorem masked_cons (h : coveredLength (c :: rest) = 0) :
    masked (c :: rest) = c :: masked rest := by
  rw [masked, maskFrom, h]
  rfl

theorem coveredLength_of_not_quote (hc : c ∉ ['"', '\'', '\x60']) (rest : List Char) :
    coveredLength (c :: rest) = commentLength (c :: rest) := by
  simp only [List.mem_cons, List.not_mem_nil, or_false, not_or] at hc
  simp [coveredLength, stringLength, templateLength, hc]

theorem commentLength_of_ne (hc : c ≠ '/') (rest : List Char) : commentLength (c :: rest) = 0 := by
  simp [commentLength, hc]

/-- Where no quote and no slash is, nothing is put out of sight. -/
theorem masked_append (hfront : ∀ c ∈ front, c ≠ '/' ∧ c ∉ ['"', '\'', '\x60'])
    (rest : List Char) : masked (front ++ rest) = front ++ masked rest := by
  induction front with
  | nil => rfl
  | cons c front ih =>
    obtain ⟨⟨hslash, hquote⟩, hfront⟩ := List.forall_mem_cons.1 hfront
    rw [List.cons_append, masked_cons, ih hfront, List.cons_append]
    rw [coveredLength_of_not_quote hquote, commentLength_of_ne hslash]

/-- At a quote nothing but the quoted text is put out of sight. -/
theorem coveredLength_of_quoted {t : Terminal} (ht : t = string ∨ t = template) {s : List Char}
    (hs : t.lexemeLength s ≠ 0) : coveredLength s = t.lexemeLength s := by
  obtain ⟨c, text, rfl, hc⟩ := exists_of_quoted ht hs
  have hcomment := commentLength_of_ne (plain_of_quote hc).2.2.2.2.2 text
  simp only [List.mem_cons, List.not_mem_nil, or_false] at hc
  obtain rfl | rfl := ht <;> obtain rfl | rfl | rfl := hc <;>
    simp_all [coveredLength, lexemeLength, stringLength, templateLength]

end Masked

/-! ### Blanks and comments -/

theorem not_bracket_of_isBlank {c : Char} (hc : isBlank c = true) : isBracket c = false := by
  simp only [isBlank, Bool.or_eq_true, beq_iff_eq] at hc
  obtain (((rfl | rfl) | rfl) | rfl) | rfl := hc <;> decide

theorem not_bracket_of_isOther {c : Char} (hc : isOther c = true) : isBracket c = false := by
  refine Bool.eq_false_iff.2 fun hbracket => ?_
  have hmem : c ∈ ['(', ')', '[', ']', '{', '}'] := by
    simp only [isBracket, closer?, isCloser, Bool.or_eq_true, beq_iff_eq] at hbracket
    split at hbracket <;> simp_all [or_assoc]
  have hall : ['(', ')', '[', ']', '{', '}'].all (fun c => !isOther c) = true := by decide
  simpa [hc] using List.all_eq_true.1 hall c hmem

/-- Blanks and comments become blanks. -/
theorem SkipsTo.exists_masked {back gap : List Char} (h : SkipsTo back gap) :
    ∃ blanks, masked (gap ++ back) = blanks ++ masked back ∧ blanks.length = gap.length ∧
      ∀ c ∈ blanks, isBlank c = true := by
  induction h with
  | here => exact ⟨[], rfl, rfl, List.forall_mem_nil _⟩
  | @blank c gap hc _ ih =>
    obtain ⟨blanks, hmasked, hlength, hblanks⟩ := ih
    refine ⟨c :: blanks, ?_, congrArg (· + 1) hlength, List.forall_mem_cons.2 ⟨hc, hblanks⟩⟩
    have hquote : c ∉ ['"', '\'', '\x60'] := fun hmem => by
      rw [(plain_of_quote hmem).2.2.1] at hc
      cases hc
    rw [List.cons_append, masked_cons, hmasked, List.cons_append]
    rw [coveredLength_of_not_quote hquote, commentLength_of_isBlank hc]
  | @comment text gap hne htext _ ih =>
    obtain ⟨blanks, hmasked, hlength, hblanks⟩ := ih
    refine ⟨List.replicate text.length ' ' ++ blanks, ?_, ?_, ?_⟩
    · have hcovered : coveredLength (text ++ (gap ++ back)) = text.length := by
        rw [← htext]
        obtain ⟨c, text, rfl⟩ := List.exists_cons_of_ne_nil hne
        refine coveredLength_of_not_quote (fun hc => ?_) _
        rw [List.cons_append, commentLength_of_ne (plain_of_quote hc).2.2.2.2.2] at htext
        cases htext
      rw [List.append_assoc, masked_covered hne hcovered, hmasked, List.append_assoc]
    · rw [List.length_append, List.length_replicate, hlength, List.length_append]
    · intro c hc
      obtain hc | hc := List.mem_append.1 hc
      · obtain rfl := List.eq_of_mem_replicate hc
        decide
      · exact hblanks c hc

theorem AtEnd.isBlank_masked {input : List Char} (h : AtEnd input) :
    ∀ c ∈ masked input, isBlank c = true := by
  have hskips := skipsTo_triviaLength input
  rw [h, List.drop_length, List.take_length] at hskips
  obtain ⟨blanks, hmasked, -, hblanks⟩ := hskips.exists_masked
  rw [List.append_nil, masked_nil, List.append_nil] at hmasked
  rwa [hmasked]

/-! ### Tokens -/

/-- What is left of a token: blanks for what stands before it, and its lexeme, or blanks if that is
a quoted text. -/
structure Token.Shows (k : Token) (blanks shown : List Char) : Prop where
  length_blanks : blanks.length = k.trivia.length
  isBlank : ∀ c ∈ blanks, isBlank c = true
  length_shown : shown.length = k.lexeme.length
  shown_cases : shown = k.terminal.spelling ∨
    k.terminal.spelling = [] ∧ ∀ c ∈ shown, isBracket c = false

section Sees

variable {symbols : List Symbol} {input rest : List Char} {k : Token}

/-- A lexeme is spelled like its terminal, or is one of its class. -/
theorem Sees.lexeme_cases (h : Sees symbols input k rest) :
    k.lexeme = k.terminal.spelling ∨ k.terminal.spelling = [] ∧
      k.terminal.lexemeLength (k.lexeme ++ rest) = k.lexeme.length := by
  obtain ⟨u, -, hlength, hne, hrefine⟩ := exists_of_lexeme? h.lexeme?_eq
  rw [List.take_left, refine] at hrefine
  -- A class that found one of its words is read as that word.
  cases hfind : u.special.find? fun s =>
      (expects symbols s || reserves symbols s) && s.spelling == k.lexeme with
  | some s =>
    rw [hfind, Option.getD_some] at hrefine
    have hs := List.find?_some hfind
    rw [Bool.and_eq_true, beq_iff_eq] at hs
    exact .inl (hrefine ▸ hs.2.symm)
  | none =>
    rw [hfind, Option.getD_none] at hrefine
    rw [hrefine]
    by_cases hspelling : u.spelling = []
    · exact .inr ⟨hspelling, hlength⟩
    · obtain ⟨after, hafter⟩ := spelling_isPrefix hspelling (hlength ▸ hne)
      rw [lexemeLength_of_isPrefix hspelling ⟨after, hafter⟩] at hlength
      exact .inl ((List.append_inj hafter hlength).1).symm

/-- No word and no mark has a quote or a slash in it. -/
theorem plain_of_mem_spelling (t : Terminal) :
    ∀ c ∈ t.spelling, c ≠ '/' ∧ c ∉ ['"', '\'', '\x60'] := by
  have hall : t.spelling.all (fun c => c ≠ '/' ∧ c ∉ ['"', '\'', '\x60']) = true := by
    cases t <;> decide
  exact fun c hc => of_decide_eq_true (List.all_eq_true.1 hall c hc)

/-- Names and numbers have only characters that a lexeme may go on with. -/
theorem goesOn_of_lexemeLength {u : Terminal} (hu : u = name ∨ u = number) {lexeme : List Char}
    (h : u.lexemeLength (lexeme ++ rest) = lexeme.length) : ∀ c ∈ lexeme, goesOn c = true := by
  have hle := @lexemeLength_le_takeWhile u hu (lexeme ++ rest) [] nofun
  rw [List.append_nil, h] at hle
  have hleads := List.prefix_of_prefix_length_le (List.prefix_append lexeme rest)
    (List.takeWhile_prefix goesOn) hle
  exact fun c hc => List.all_eq_true.1 List.all_takeWhile c (hleads.subset hc)

/-- Where blanks and comments are skipped, no comment is left. -/
theorem commentLength_eq_zero (h : triviaLength input = 0) : commentLength input = 0 := by
  cases hcomment : commentLength input with
  | zero => rfl
  | succ n =>
    rw [triviaLength_comment hcomment] at h
    omega

/-- A class of lexemes has no spelling of its own. -/
theorem class_of_spelling_eq_nil {t : Terminal} (ht : t.spelling = []) :
    t = string ∨ t = template ∨ t = other ∨ t = name ∨ t = number := by
  cases t <;> first | exact absurd ht (by decide) | simp

/-- What is left of a lexeme. -/
theorem Sees.exists_shown (h : Sees symbols input k rest) :
    ∃ shown, masked (k.lexeme ++ rest) = shown ++ masked rest ∧ shown.length = k.lexeme.length ∧
      (shown = k.terminal.spelling ∨
        k.terminal.spelling = [] ∧ ∀ c ∈ shown, isBracket c = false) := by
  obtain hspelling | ⟨hspelling, hlength⟩ := h.lexeme_cases
  · exact ⟨k.lexeme, masked_append (hspelling ▸ plain_of_mem_spelling _) rest, rfl, .inl hspelling⟩
  have hne : k.terminal.lexemeLength (k.lexeme ++ rest) ≠ 0 := by
    rw [hlength]
    exact mt List.length_eq_zero_iff.1 h.nonempty
  have hquoted (ht : k.terminal = string ∨ k.terminal = template) :
      masked (k.lexeme ++ rest) = List.replicate k.lexeme.length ' ' ++ masked rest :=
    masked_covered h.nonempty ((coveredLength_of_quoted ht hne).trans hlength)
  have hblank : ∀ c ∈ List.replicate k.lexeme.length ' ', isBracket c = false := fun c hc => by
    obtain rfl := List.eq_of_mem_replicate hc
    decide
  have hplain (ht : k.terminal = name ∨ k.terminal = number) : ∀ c ∈ k.lexeme, isOther c = true ∧
      c ≠ '/' := fun c hc => by
    simpa [goesOn] using goesOn_of_lexemeLength ht hlength c hc
  obtain ht | ht | ht | ht := class_of_spelling_eq_nil hspelling
  · exact ⟨_, hquoted (.inl ht), List.length_replicate, .inr ⟨hspelling, hblank⟩⟩
  · exact ⟨_, hquoted (.inr ht), List.length_replicate, .inr ⟨hspelling, hblank⟩⟩
  · -- A slash may be such a character, but no comment starts with it.
    have hcomment := commentLength_eq_zero h.triviaLength_lexeme
    obtain ⟨c, lexeme, hlexeme⟩ := List.exists_cons_of_ne_nil h.nonempty
    rw [ht, hlexeme, List.cons_append, lexemeLength, otherLength] at hne hlength
    split at hne
    · next hc =>
      rw [if_pos hc, List.length_cons] at hlength
      obtain rfl : lexeme = [] := List.length_eq_zero_iff.1 (by omega)
      rw [hlexeme, List.singleton_append] at hcomment
      refine ⟨[c], ?_, by rw [hlexeme], .inr ⟨hspelling, ?_⟩⟩
      · rw [hlexeme, List.singleton_append, masked_cons, List.singleton_append]
        rw [coveredLength_of_not_quote (Skims.ne_quote_of_isOther hc), hcomment]
      · exact List.forall_mem_singleton.2 (not_bracket_of_isOther hc)
    · exact absurd rfl hne
  · refine ⟨k.lexeme, masked_append (fun c hc => ?_) rest, rfl, .inr ⟨hspelling, fun c hc => ?_⟩⟩
    · exact ⟨(hplain ht c hc).2, Skims.ne_quote_of_isOther (hplain ht c hc).1⟩
    · exact not_bracket_of_isOther (hplain ht c hc).1

/-- What is left of the next token. -/
theorem Sees.exists_shows (h : Sees symbols input k rest) :
    ∃ blanks shown, k.Shows blanks shown ∧ masked input = blanks ++ (shown ++ masked rest) := by
  obtain ⟨blanks, hblanks, hlength, hblank⟩ := h.skipsTo.exists_masked
  obtain ⟨shown, hshown, hlong, hcases⟩ := h.exists_shown
  exact ⟨blanks, shown, ⟨hlength, hblank, hlong, hcases⟩, by rw [h.input_eq, hblanks, hshown]⟩

end Sees

/-! ### What is read -/

/-- What is left of tokens, one behind the other. -/
inductive Sketch : List Token → List Char → Prop where
  | nil : Sketch [] []
  | cons {k : Token} {ks : List Token} {blanks shown cs : List Char} (hk : k.Shows blanks shown)
      (h : Sketch ks cs) : Sketch (k :: ks) (blanks ++ (shown ++ cs))

section Sketch

variable {ks ls : List Token} {cs ds : List Char}

theorem Token.Shows.nest_eq {k : Token} {blanks shown : List Char} (h : k.Shows blanks shown)
    (owed : List Char) : nest owed (blanks ++ shown) = nest owed k.terminal.spelling := by
  have hblanks : IsNested blanks :=
    isNested_of_not_bracket fun c hc => not_bracket_of_isBlank (h.isBlank c hc)
  rw [nest_append, hblanks.nest_eq, Option.bind_some]
  obtain rfl | ⟨hspelling, hplain⟩ := h.shown_cases
  · rfl
  · rw [nest_of_not_bracket hplain, hspelling, nest_nil]

theorem Sketch.length_eq (h : Sketch ks cs) : cs.length = (source ks).length := by
  induction h with
  | nil => rfl
  | cons hk _ ih =>
    rw [source, List.flatMap_cons, ← source, Token.source]
    simp only [List.length_append, hk.length_blanks, hk.length_shown, ih]
    omega

/-- The brackets that are left are those of the tokens. -/
theorem Sketch.nest_eq (h : Sketch ks cs) (owed : List Char) :
    nest owed cs = nest owed (skeleton ks) := by
  induction h generalizing owed with
  | nil => rfl
  | cons hk _ ih =>
    rw [← List.append_assoc, nest_append, hk.nest_eq, skeleton_cons, nest_append]
    exact congrArg _ (funext ih)

theorem Sketch.append (hks : Sketch ks cs) (hls : Sketch ls ds) : Sketch (ks ++ ls) (cs ++ ds) := by
  induction hks with
  | nil => exact hls
  | cons hk _ ih =>
    rw [List.cons_append, List.append_assoc, List.append_assoc]
    exact .cons hk ih

theorem Sketch.exists_of_append (h : Sketch (ks ++ ls) cs) :
    ∃ front back, cs = front ++ back ∧ Sketch ks front ∧ Sketch ls back := by
  induction ks generalizing cs with
  | nil => exact ⟨[], cs, rfl, .nil, h⟩
  | cons k ks ih =>
    cases h with
    | @cons _ _ blanks shown _ hk h =>
      obtain ⟨front, back, rfl, hks, hls⟩ := ih h
      exact ⟨blanks ++ (shown ++ front), back, by simp only [List.append_assoc], .cons hk hks, hls⟩

end Sketch

/-- Tokens that are seen one behind the other, each among the symbols that it was read for. -/
inductive Lexes : List Char → List Token → List Char → Prop where
  | nil {rest : List Char} : Lexes rest [] rest
  | cons {symbols : List Symbol} {input next rest : List Char} {k : Token} {ks : List Token}
      (hk : Sees symbols input k next) (h : Lexes next ks rest) : Lexes input (k :: ks) rest

section Lexes

variable {input mid rest : List Char} {ks ls : List Token} {ts : List Tree}

theorem Lexes.append (hks : Lexes input ks mid) (hls : Lexes mid ls rest) :
    Lexes input (ks ++ ls) rest := by
  induction hks with
  | nil => exact hls
  | cons hk _ ih => exact .cons hk (ih hls)

theorem Lexes.input_eq (h : Lexes input ks rest) : input = source ks ++ rest := by
  induction h with
  | nil => rfl
  | cons hk _ ih =>
    rw [hk.input_eq, ih]
    simp only [source, List.flatMap_cons, Token.source, List.append_assoc]

/-- What is left of tokens that are seen, before what is left of the rest. -/
theorem Lexes.exists_sketch (h : Lexes input ks rest) :
    ∃ cs, Sketch ks cs ∧ masked input = cs ++ masked rest := by
  induction h with
  | nil => exact ⟨[], .nil, rfl⟩
  | cons hk _ ih =>
    obtain ⟨cs, hcs, hnext⟩ := ih
    obtain ⟨blanks, shown, hshows, hinput⟩ := hk.exists_shows
    exact ⟨_, .cons hshows hcs, by simp only [hinput, hnext, List.append_assoc]⟩

/-- What is read is seen token by token. -/
theorem Derives.exists_lexes {task : Task} {outer : List Symbol}
    (h : Derives task outer input ts rest) :
    ∃ ks, tokensOf ts = task.taken ++ ks ∧ Lexes input ks rest := by
  induction h with
  | nil => exact ⟨[], rfl, .nil⟩
  | tok hk _ ih =>
    obtain ⟨ks, hks, hlexes⟩ := ih
    exact ⟨_ :: ks, congrArg (_ :: ·) hks, .cons hk hlexes⟩
  | start hk _ _ _ iht ih =>
    obtain ⟨ks₁, hks₁, hlexes₁⟩ := iht
    obtain ⟨ks₂, hks₂, hlexes₂⟩ := ih
    rw [tokensOf, tokensOf, List.append_nil] at hks₁
    exact ⟨_ :: (ks₁ ++ ks₂), by rw [tokensOf, hks₁, hks₂]; rfl, .cons hk (hlexes₁.append hlexes₂)⟩
  | skip _ _ _ ih => exact ih
  | finish _ _ _ ih => exact ih
  | led _ _ ih =>
    obtain ⟨ks, hks, hlexes⟩ := ih
    refine ⟨ks, ?_, hlexes⟩
    rw [tokensOf, tokensOf, List.append_nil, Tree.tokens, tokensOf, hks]
    rfl
  | via _ _ _ iht ih =>
    obtain ⟨ks₁, hks₁, hlexes₁⟩ := iht
    obtain ⟨ks₂, hks₂, hlexes₂⟩ := ih
    rw [tokensOf, tokensOf, List.append_nil] at hks₁
    refine ⟨ks₁ ++ ks₂, ?_, hlexes₁.append hlexes₂⟩
    rw [tokensOf, tokensOf, List.append_nil, Tree.tokens, tokensOf, hks₁, hks₂]
    simp only [Task.taken, List.cons_append, List.nil_append]

/-- A statement is seen token by token, its first one included. -/
theorem ReadsStatement.lexes {k : Token} (hk : Sees [.sub .statements] input k mid)
    (h : ReadsStatement k mid ts rest) : Lexes input (tokensOf ts) rest := by
  obtain ⟨ks, hks, hlexes⟩ : ∃ ks, tokensOf ts = k :: ks ∧ Lexes mid ks rest := by
    cases h with
    | led _ h =>
      obtain ⟨ks, hks, hlexes⟩ := h.exists_lexes
      exact ⟨ks, congrArg (k :: ·) hks, hlexes⟩
    | via _ h => exact h.exists_lexes
  rw [hks]
  exact .cons hk hlexes

end Lexes

end DeclSchema.Grammar
