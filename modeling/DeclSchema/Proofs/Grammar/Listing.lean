import DeclSchema.Proofs.Grammar.Appending

/-!
# Lists of statements

A file is a list of statements, each read where the one before it ends. What comes first in a file
comes after a complete statement of another file too, with one exception. Where a skipped statement
may go on after a block, a name may come next, so a word that starts a statement is told apart from
a longer name there, and at the start of a file it is not.

## Main definitions

* `ReadsStatement`, `Listing`: a statement after its first token, and all statements of a file
* `treeOf`: the tree of statements
* `StartsApart`: the first word is told apart from a longer name

## Main results

* `read_eq_ok_iff_listing`: a file is read as the tree of its statements
* `ReadsStatement.append_line`: another line does not change a statement
* `Listing.follows_body`, `Listing.follows_block`: what a list of statements may follow
-/

namespace DeclSchema.Grammar

open Terminal Nonterminal Grammar.Tree

/-! ### Statements -/

/-- The trees of a statement whose first token is `k`, and what is left. -/
inductive ReadsStatement (k : Token) (input : List Char) : List Tree → List Char → Prop where
  | led {u : Terminal} {n : Nonterminal} {t : Tree} {rest : List Char}
      (hbranch : branch? .statements k.terminal = some (.led u [.sub n, .sub .statements]))
      (h : Derives (.list [.sub n]) [.sub .statements] input [t] rest) :
      ReadsStatement k input [.leaf k, t] rest
  | via {m : Nonterminal} {t : Tree} {rest : List Char}
      (hbranch : branch? .statements k.terminal = some (.via m [.sub .statements]))
      (h : Derives (.node m k) [.sub .statements] input [t] rest) :
      ReadsStatement k input [t] rest

/-- The statements of a file. -/
inductive Listing : List Char → List (List Tree) → Prop where
  | finish {input : List Char} (hend : AtEnd input) : Listing input []
  | next {input mid rest : List Char} {k : Token} {ts : List Tree} {ss : List (List Tree)}
      (hk : Sees [.sub .statements] input k mid) (h : ReadsStatement k mid ts rest)
      (hrest : Listing rest ss) : Listing input (ts :: ss)

/-- The tree of statements. -/
def treeOf : List (List Tree) → Tree
  | [] => .node .statements []
  | ts :: ss => .node .statements (ts ++ [treeOf ss])

theorem tokensOf_treeOf_cons (ts : List Tree) (ss : List (List Tree)) :
    tokensOf [treeOf (ts :: ss)] = tokensOf ts ++ tokensOf [treeOf ss] := by
  rw [treeOf, tokensOf, tokensOf, Tree.tokens, tokensOf_append, List.append_nil]

theorem endsOpenOf_treeOf_cons (before : Bool) (ts : List Tree) (ss : List (List Tree)) :
    endsOpenOf before [treeOf (ts :: ss)] = endsOpenOf (endsOpenOf before ts) [treeOf ss] :=
  endsOpenOf_append before ts [treeOf ss]

/-- What follows a statement are statements, and a nonterminal that leads one starts with a word of
its own. -/
theorem eq_of_branch?_statements {t : Terminal} {b : Branch} (h : branch? .statements t = some b) :
    (∃ u n, b = .led u [.sub n, .sub .statements] ∧ n.mayBeLast = true) ∨
      ∃ m, b = .via m [.sub .statements] ∧ (m = .definition ∨ m = .skippedStatement) := by
  have hb : b ∈ statements.branches := List.mem_of_find?_eq_some h
  simp only [branches, List.mem_cons, List.not_mem_nil, or_false] at hb
  obtain rfl | rfl | rfl | rfl | rfl := hb
  · exact .inl ⟨_, _, rfl, rfl⟩
  · exact .inl ⟨_, _, rfl, rfl⟩
  · exact .inl ⟨_, _, rfl, rfl⟩
  · exact .inr ⟨_, rfl, .inl rfl⟩
  · exact .inr ⟨_, rfl, .inr rfl⟩

section Reading

variable {outer : List Symbol} {input rest : List Char} {k : Token} {ts : List Tree}
  {ss : List (List Tree)}

theorem Derives.length_le {task : Task} (h : Derives task outer input ts rest) :
    rest.length ≤ input.length := by
  obtain ⟨ks, -, rfl⟩ := h.exists_tokens
  rw [List.length_append]
  omega

/-- One nonterminal is one tree. -/
theorem Derives.exists_of_sub {n : Nonterminal}
    (h : Derives (.list [.sub n]) outer input ts rest) : ∃ t, ts = [t] := by
  cases h with
  | start _ _ _ h => cases h; exact ⟨_, rfl⟩
  | skip _ _ h => cases h; exact ⟨_, rfl⟩
  | finish _ _ h => cases h; exact ⟨_, rfl⟩

theorem Sees.starts_statements (h : Sees [.sub .statements] input k rest) :
    starts .statements k.terminal = true := by
  simpa [expects] using h.expected

/-- What is read as statements is a list of them. -/
theorem Derives.exists_listing (h : Derives (.list [.sub .statements]) [] input ts rest) :
    ∃ ss, Listing input ss ∧ ts = [treeOf ss] := by
  -- The other statements are read from less input, though not by a part of this derivation alone:
  -- where a word leads the first one, they are the end of the list of symbols it leads.
  induction hn : input.length using Nat.strongRecOn generalizing input ts rest with
  | ind size ih =>
    cases h with
    | start hk hstarts ht h =>
      have hless := hk.length_lt
      cases h
      cases ht with
      | led hbranch h =>
        obtain ⟨u, n, hb, -⟩ | ⟨m, hb, -⟩ := eq_of_branch?_statements hbranch
        · cases hb
          obtain ⟨ts₁, ts₂, mid, rfl, hfirst, hmore⟩ := Derives.exists_of_append [.sub n] h
          obtain ⟨t, rfl⟩ := hfirst.exists_of_sub
          have := hfirst.length_le
          obtain ⟨ss, hss, rfl⟩ := ih mid.length (by omega) hmore rfl
          exact ⟨_ :: ss, .next hk (.led hbranch hfirst) hss, rfl⟩
        · cases hb
      | via hbranch ht h =>
        obtain ⟨u, n, hb, -⟩ | ⟨m, hb, -⟩ := eq_of_branch?_statements hbranch
        · cases hb
        · cases hb
          have := ht.length_le
          obtain ⟨ss, hss, rfl⟩ := ih _ (by omega) h rfl
          exact ⟨_ :: ss, .next hk (.via hbranch ht) hss, rfl⟩
    | skip hk hstarts => exact absurd hk.starts_statements (by simp [hstarts])
    | finish hend _ h =>
      cases h
      exact ⟨[], .finish hend, rfl⟩

/-- A list of statements is read as such. -/
theorem Listing.exists_derives (h : Listing input ss) :
    ∃ rest, Derives (.list [.sub .statements]) [] input [treeOf ss] rest := by
  induction h with
  | finish hend => exact ⟨_, .finish hend rfl .nil⟩
  | next hk h _ ih =>
    obtain ⟨rest, hrest⟩ := ih
    refine ⟨rest, .start hk hk.starts_statements ?_ .nil⟩
    cases h with
    | led hbranch h => exact .led hbranch (h.append hrest)
    | via hbranch h => exact .via hbranch h hrest

/-- A file is read as the tree of its statements. -/
theorem read_eq_ok_iff_listing :
    read input = .ok ts ↔ ∃ ss, Listing input ss ∧ ts = [treeOf ss] := by
  rw [read_eq_ok_iff]
  constructor
  · rintro ⟨rest, h⟩
    exact h.exists_listing
  · rintro ⟨ss, h, rfl⟩
    exact h.exists_derives

end Reading

/-! ### Another line behind a statement -/

section ReadsStatement

variable {input rest : List Char} {k : Token} {ts : List Tree}

theorem ReadsStatement.exists_tokens (h : ReadsStatement k input ts rest) :
    ∃ ks, tokensOf ts = k :: ks ∧ input = source ks ++ rest := by
  cases h with
  | led _ h =>
    obtain ⟨ks, hks, hinput⟩ := h.exists_tokens
    exact ⟨ks, congrArg (k :: ·) hks, hinput⟩
  | via _ h => exact h.exists_tokens

/-- Another line does not change a statement. Where nothing is left behind it, it has to be
complete. -/
theorem ReadsStatement.append_line (h : ReadsStatement k input ts rest) (more : List Char)
    (before : Bool) {ks : List Token} (hks : tokensOf ts = k :: ks) (hclosed : ClosesComments input ks)
    (hsemicolon : AtEnd rest → Follows .optionalSemicolon (rest ++ '\n' :: more))
    (hblock : AtEnd rest → endsOpenOf before ts = true →
      Follows .skippedAfterBlock (rest ++ '\n' :: more)) :
    ReadsStatement k (input ++ '\n' :: more) ts (rest ++ '\n' :: more) := by
  cases h with
  | led hbranch h =>
    obtain ⟨u, n, hb, hlast⟩ | ⟨m, hb, -⟩ := eq_of_branch?_statements hbranch
    · cases hb
      refine .led hbranch (h.append_line more false (List.cons.inj hks).2 hclosed fun hend => ?_)
      exact ⟨rfl, hlast, hsemicolon hend, hblock hend⟩
    · cases hb
  | @via m t rest hbranch h =>
    obtain ⟨u, n, hb, -⟩ | ⟨_, hb, hm⟩ := eq_of_branch?_statements hbranch
    · cases hb
    · cases hb
      have hlast : m.mayBeLast = true := by obtain rfl | rfl := hm <;> rfl
      refine .via hbranch (h.append_line more before hks hclosed fun hend => ?_)
      exact ⟨rfl, hlast, hsemicolon hend, hblock hend⟩

end ReadsStatement

/-! ### What may come after a statement -/

/-- A word at the front of the input that may start a statement does not go on in a longer name. -/
def StartsApart (input : List Char) : Prop :=
  ∀ w, starts .statements w = true → ∀ rest,
    input.drop (triviaLength input) = w.spelling ++ rest →
      ∀ c ∈ rest.head?, isNamePart c = false

theorem mem_words_of_starts {t : Terminal} (h : starts .statements t = true) : t ∈ words := by
  cases t <;> first | exact absurd h (by decide) | decide

theorem spelling_of_starts {t : Terminal} (h : starts .statements t = true) :
    t.spelling ≠ [] ∧ t.special = [] ∧ ';' ∉ t.spelling := by
  have hall : ∀ t ∈ words, t.spelling ≠ [] ∧ t.special = [] ∧ ';' ∉ t.spelling := by decide
  exact hall t (mem_words_of_starts h)

/-- No word that starts a statement is the beginning of another one. -/
theorem eq_of_spelling_leads {t u : Terminal} (ht : starts .statements t = true)
    (hu : starts .statements u = true) {input : List Char} (htinput : t.spelling <+: input)
    (huinput : u.spelling <+: input) : t = u := by
  have halone : ∀ t ∈ words, ∀ u ∈ words, starts .statements t = true →
      starts .statements u = true → t.spelling.isPrefixOf u.spelling = true → t = u := by
    decide
  have ht' := mem_words_of_starts ht
  have hu' := mem_words_of_starts hu
  obtain h | h := List.prefix_or_prefix_of_prefix htinput huinput
  · exact halone t ht' u hu' ht hu (List.isPrefixOf_iff_prefix.2 h)
  · exact (halone u hu' t ht' hu ht (List.isPrefixOf_iff_prefix.2 h)).symm

theorem startsApart_of_word {w : Terminal} (hw : starts .statements w = true)
    {input rest : List Char} (hinput : input.drop (triviaLength input) = w.spelling ++ rest)
    (hrest : ∀ c ∈ rest.head?, isNamePart c = false) : StartsApart input := by
  intro u hu rest' hinput'
  obtain rfl := eq_of_spelling_leads hw hu ⟨rest, hinput.symm⟩ ⟨rest', hinput'.symm⟩
  rwa [List.append_cancel_left (hinput.symm.trans hinput')] at hrest

/-- A word that starts a statement is read where only such words and a semicolon may come next,
whatever follows it. -/
theorem lexeme?_word {admits : Terminal → Bool} {w : Terminal} (hw : starts .statements w = true)
    (hadmits : admits w = true)
    (hwords : ∀ u, admits u = true → starts .statements u = true ∨ u = semicolon)
    (rest : List Char) :
    lexeme? admits (w.spelling ++ rest) = some (w, w.spelling.length) := by
  obtain ⟨hne, hspecial, hclean⟩ := spelling_of_starts hw
  have hclass : ∀ c ∈ [name, other], admits c = false := by
    intro c hc
    refine Bool.eq_false_iff.2 fun h => ?_
    simp only [List.mem_cons, List.not_mem_nil, or_false] at hc
    obtain rfl | rfl := hc <;> exact absurd (hwords _ h) (by decide)
  have hrefine : w.refine admits w.spelling = w := refine_eq_self (by simp [hspecial])
  have hleads : w.spelling.isPrefixOf (w.spelling ++ rest) = true :=
    List.isPrefixOf_iff_prefix.2 (List.prefix_append ..)
  refine (IsLexeme.lexeme?_of_first hne ?_ hadmits ?_ ?_).trans (by rw [hrefine])
  · -- Of the terminals before it, no word starts the same text and the semicolon does not.
    intro u hu hadmitted _
    have hother : u ≠ w := by simpa using List.all_eq_true.1 List.all_takeWhile u hu
    obtain hstarts | rfl := hwords u hadmitted
    · rw [lexemeLength_of_spelling (spelling_of_starts hstarts).1, if_neg]
      intro h
      exact hother (eq_of_spelling_leads hstarts hw (List.isPrefixOf_iff_prefix.1 h)
        (List.prefix_append ..))
    · obtain ⟨c, s, hs⟩ := List.exists_cons_of_ne_nil hne
      rw [hs, List.cons_append]
      refine lexemeLength_eq_zero_of_ne (t := semicolon) rfl ?_ _
      rintro rfl
      exact hclean (by simp [hs])
  · exact isAbsorbed_eq_false_iff.2 fun c hc hadmitted => by simp [hclass c hc] at hadmitted
  · rw [lexemeLength_of_spelling hne, hleads, if_pos rfl]

/-- A word that no longer name goes on from is read where names may come next as well. -/
theorem lexeme?_word_apart {admits : Terminal → Bool} {w : Terminal} (hw : w ∈ words)
    (hadmits : admits w = true) (hname : admits name = true) {rest : List Char}
    (hrest : ∀ c ∈ rest.head?, isNamePart c = false) :
    lexeme? admits (w.spelling ++ rest) = some (w, w.spelling.length) := by
  obtain ⟨c, s, hs, hc, hpart⟩ := exists_of_mem_words hw
  -- The longest name that starts here is the word itself.
  have hstop : rest.takeWhile isNamePart = [] := by
    cases rest with
    | nil => rfl
    | cons d rest => rw [List.takeWhile_cons, hrest d rfl]; rfl
  have hlength : nameLength (w.spelling ++ rest) = w.spelling.length := by
    rw [hs, List.cons_append, nameLength, hc, if_pos rfl,
      List.takeWhile_append_of_pos (List.all_eq_true.1 hpart), hstop, List.append_nil,
      List.length_cons, Nat.add_comm]
  have hmark (d : Char) (hd : isNameStart d = false) : c ≠ d := by
    rintro rfl
    exact absurd hc (by simp [hd])
  have hrefine : name.refine admits w.spelling = w :=
    IsLexeme.refine_spelling (by simp) (by simpa [special] using hw) hadmits
  refine (IsLexeme.lexeme?_of_first (by simp [hs]) ?_ hname
    (isAbsorbed_eq_false (by decide)) hlength).trans (by rw [hrefine])
  intro u hu _ _
  rw [hs, List.cons_append]
  obtain rfl | rfl : u = number ∨ u = string := by simpa [order] using hu
  · exact numberLength_eq_zero (hmark '.' (by decide)) (isDigit_of_isNameStart hc) _
  · simp [lexemeLength, stringLength, hmark '"' (by decide), hmark '\'' (by decide)]

section Sees

variable {input rest : List Char} {k : Token}

theorem Sees.drop_triviaLength {symbols : List Symbol} (h : Sees symbols input k rest) :
    input.drop (triviaLength input) = k.lexeme ++ rest := by
  rw [h.triviaLength_eq]
  conv => lhs; rw [h.input_eq]
  exact List.drop_left

/-- The first token of a statement is spelled like its word. -/
theorem Sees.lexeme_eq (h : Sees [.sub .statements] input k rest) :
    k.lexeme = k.terminal.spelling := by
  obtain ⟨u, hadmits, hlength, hne, hrefine⟩ := exists_of_lexeme? h.lexeme?_eq
  have hu : starts .statements u = true := by simpa [expects, reserves] using hadmits
  obtain ⟨hspelling, hspecial, -⟩ := spelling_of_starts hu
  obtain rfl : k.terminal = u := by rw [hrefine, refine, hspecial]; rfl
  rw [lexemeLength_of_spelling hspelling] at hlength
  split at hlength
  · next hleads =>
    obtain ⟨after, hafter⟩ := List.isPrefixOf_iff_prefix.1 hleads
    exact ((List.append_inj hafter hlength).1).symm
  · exact absurd hlength.symm hne

/-- The first token of a statement is the same after a body that a semicolon may follow. -/
theorem Sees.after_body (h : Sees [.sub .statements] input k rest) :
    Sees [.sub .optionalSemicolon, .sub .statements] input k rest where
  input_eq := h.input_eq
  triviaLength_eq := h.triviaLength_eq
  nonempty := h.nonempty
  lexeme?_eq := by
    rw [h.lexeme_eq]
    refine lexeme?_word h.starts_statements ?_ ?_ rest
    · simp [expects, h.starts_statements, mayBeEmpty]
    · intro u hu
      cases u <;> first | exact .inr rfl | exact .inl (by decide) | exact absurd hu (by decide)
  expected := by simp [expects, h.starts_statements, mayBeEmpty]

/-- The first token of a statement is the same after the block of a skipped statement, where it
could be a name, unless it goes on in one. -/
theorem Sees.after_block (h : Sees [.sub .statements] input k rest) (hapart : StartsApart input) :
    Sees [.sub .skippedAfterBlock, .sub .statements] input k rest where
  input_eq := h.input_eq
  triviaLength_eq := h.triviaLength_eq
  nonempty := h.nonempty
  lexeme?_eq := by
    have hrest := hapart k.terminal h.starts_statements rest (h.lexeme_eq ▸ h.drop_triviaLength)
    rw [h.lexeme_eq]
    refine lexeme?_word_apart (mem_words_of_starts h.starts_statements) ?_ (by decide) hrest
    simp [expects, h.starts_statements, mayBeEmpty]
  expected := by simp [expects, h.starts_statements, mayBeEmpty]

end Sees

/-- A list of statements may follow a body, blanks and comments and a line end. -/
theorem Listing.follows_body {more : List Char} {ss : List (List Tree)} (h : Listing more ss)
    {front : List Char} (hfront : AtEnd front) :
    Follows .optionalSemicolon (front ++ '\n' :: more) := by
  cases h with
  | finish hend => exact .inl (hfront.prepend_line hend)
  | next hk =>
    refine .inr ⟨_, _, hk.after_body.prepend_line hfront, ?_⟩
    have hstarts := hk.starts_statements
    generalize Token.terminal _ = w at hstarts ⊢
    cases w <;> first | rfl | exact absurd hstarts (by decide)

/-- A list of statements that starts apart may follow a block as well. -/
theorem Listing.follows_block {more : List Char} {ss : List (List Tree)} (h : Listing more ss)
    (hapart : StartsApart more) {front : List Char} (hfront : AtEnd front) :
    Follows .skippedAfterBlock (front ++ '\n' :: more) := by
  cases h with
  | finish hend => exact .inl (hfront.prepend_line hend)
  | next hk =>
    refine .inr ⟨_, _, (hk.after_block hapart).prepend_line hfront, ?_⟩
    have hstarts := hk.starts_statements
    generalize Token.terminal _ = w at hstarts ⊢
    cases w <;> first | rfl | exact absurd hstarts (by decide)

end DeclSchema.Grammar
