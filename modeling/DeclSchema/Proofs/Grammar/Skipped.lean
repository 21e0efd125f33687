import DeclSchema.Proofs.Grammar.Appending
import DeclSchema.Proofs.Grammar.Filling

/-!
# Runs of lexemes that are skipped

What follows the first words of a skipped statement: lexemes and groups in brackets, apart from each
other, up to a semicolon or a block. No word of the grammar stands there outside brackets, since it
could be read as one where more words may come next than in the middle of the run.

## Main definitions

* `IsSpacing`: blanks, and comments behind them
* `IsPlainLexeme`: the lexemes of a run
* `IsBody`: a run with its end
* `opensRun`, `inRun`: the nonterminals that may be such a run, and their trees

## Main results

* `IsPlainLexeme.sees`: a lexeme of a run is the next token
* `IsBody.exists_derives`: a run is read up to its end
-/

namespace DeclSchema.Grammar

open Terminal

/-! ### Runs -/

/-- Blanks, and complete comments behind them. -/
structure IsSpacing (s : List Char) : Prop where
  isTrivia : IsTrivia s
  isBlank_head : ∀ c ∈ s.head?, isBlank c = true

/-- The lexemes of a run, apart from brackets and semicolons. -/
inductive IsPlainLexeme : Terminal → List Char → Prop where
  | word {s : List Char} (hs : nameLength s = s.length) (hne : s ≠ [])
      (hplain : ∀ w ∈ words, w.spelling ≠ s) : IsPlainLexeme name s
  | number {s : List Char} (hs : numberLength s = s.length) (hne : s ≠ []) : IsPlainLexeme number s
  | quoted {s : List Char} {t : Terminal} (ht : t = string ∨ t = template)
      (hs : t.lexemeLength s = s.length) (hne : s ≠ []) : IsPlainLexeme t s
  | mark {c : Char} (hc : isOther c = true) (hname : isNameStart c = false)
      (hdigit : Unicode.isDigit c = false) : IsPlainLexeme other [c]

/-- Lexemes and groups with spacing before each, and a semicolon or a block at the end. The truth
value tells that it is a block. -/
inductive IsBody : Bool → List Char → Prop where
  | semicolon {gap : List Char} (hgap : IsSpacing gap) : IsBody false (gap ++ [';'])
  | block {gap f : List Char} (hgap : IsSpacing gap) (hf : Filling f) :
      IsBody true (gap ++ (openBrace.spelling ++ (f ++ closeBrace.spelling)))
  | lexeme {inBlock : Bool} {gap s rest : List Char} {t : Terminal} (hgap : IsSpacing gap)
      (hne : gap ≠ []) (hs : IsPlainLexeme t s) (h : IsBody inBlock rest) :
      IsBody inBlock (gap ++ (s ++ rest))
  | group {inBlock : Bool} {gap f rest : List Char} {o c : Terminal} (hgap : IsSpacing gap)
      (hne : gap ≠ []) (hpair : (o, c) ∈ brackets) (hf : Filling f) (h : IsBody inBlock rest) :
      IsBody inBlock (gap ++ (o.spelling ++ (f ++ (c.spelling ++ rest))))

/-! ### Lexemes of a run -/

/-- The first characters of what follows spacing, or of the spacing. -/
theorem IsSpacing.isOther_head {gap rest : List Char} (h : IsSpacing gap)
    (hrest : gap = [] → ∀ c ∈ rest.head?, isOther c = false) :
    ∀ c ∈ (gap ++ rest).head?, isOther c = false := by
  cases gap with
  | nil => exact hrest rfl
  | cons d gap =>
    rintro c ⟨⟩
    exact isOther_of_isBlank (h.isBlank_head d rfl)

theorem IsBody.isOther_head {inBlock : Bool} {s : List Char} (h : IsBody inBlock s)
    (after : List Char) : ∀ c ∈ (s ++ after).head?, isOther c = false := by
  cases h with
  | semicolon hgap =>
    rw [List.append_assoc]
    refine hgap.isOther_head fun _ => ?_
    rintro c ⟨⟩
    decide
  | block hgap =>
    rw [List.append_assoc]
    refine hgap.isOther_head fun _ => ?_
    rintro c ⟨⟩
    decide
  | lexeme hgap hne =>
    rw [List.append_assoc]
    exact hgap.isOther_head fun h => absurd h hne
  | group hgap hne =>
    rw [List.append_assoc]
    exact hgap.isOther_head fun h => absurd h hne

theorem branch?_skipped : ∀ t ∈ [name, number, other, string, template],
    starts .skipped t = true ∧ branch? .skipped t = some (.led t [.sub .skipped]) := by
  decide

theorem IsPlainLexeme.branch? {t : Terminal} {s : List Char} (h : IsPlainLexeme t s) :
    starts .skipped t = true ∧ branch? .skipped t = some (.led t [.sub .skipped]) := by
  refine branch?_skipped t ?_
  cases h with
  | quoted ht => obtain rfl | rfl := ht <;> decide
  | _ => decide

/-- A lexeme of a run is the next token where a part is skipped. -/
theorem IsPlainLexeme.sees {t : Terminal} {s : List Char} (h : IsPlainLexeme t s)
    {symbols : List Symbol} (hskims : Skims symbols) {gap after : List Char} (hgap : IsTrivia gap)
    (hafter : ∀ c ∈ after.head?, isOther c = false) :
    Sees symbols (gap ++ (s ++ after)) ⟨t, gap, s⟩ after := by
  have hstarts := h.branch?.1
  have hend := isGap_of_isOther hafter
  have hzero {t : Terminal} (hs : IsLexeme t s) : triviaLength (s ++ after) = 0 := by
    obtain ⟨c, rest, rfl, hblank, hslash⟩ := hs.exists_head
    exact triviaLength_eq_zero hblank hslash _
  cases h with
  | word hs hne hplain =>
    exact hskims.sees hne (hgap.triviaLength_eq (hzero (t := Terminal.name) ⟨hne, hs, .inl rfl⟩))
      (IsLexeme.lexeme?_name hs hne hend (hskims.admits_or hstarts) fun w hw _ => hplain w hw)
      hstarts
  | number hs hne =>
    exact hskims.sees hne (hgap.triviaLength_eq (hzero (t := Terminal.number) ⟨hne, hs, by simp⟩))
      (IsLexeme.lexeme?_number hs hne hend (hskims.admits_or hstarts)) hstarts
  | quoted ht hs hne => exact hskims.sees_quoted hgap ht hs hne
  -- A dot starts a number only where a digit follows.
  | @mark c hc hname hdigit =>
    have hnumber : numberLength (c :: after) = 0 := by
      by_cases hdot : c = '.'
      · subst hdot
        exact numberLength_append hend ['.']
      · exact numberLength_eq_zero hdot hdigit after
    refine hskims.sees (List.cons_ne_nil _ _) (hgap.triviaLength_eq ?_)
      (hskims.lexeme?_other hc hname hnumber) hstarts
    refine triviaLength_plain hc fun _ d hd => ?_
    constructor <;> rintro rfl <;> exact absurd (hafter _ hd) (by decide)

/-! ### Reading a run -/

/-- The nonterminals before a statement that may be a run, where it starts or goes on. -/
def opensRun : List Nonterminal :=
  [.skipped, .skippedAfterBlock, .constant, .exportedPlain, .exported]

/-- The tree of such a nonterminal if it is a run. -/
def inRun : Nonterminal → Tree → Tree
  | .skipped, t => t
  | .exported, t => .node .exported [.node .exportedPlain [t]]
  | n, t => .node n [t]

theorem starts_of_mem_opensRun {n : Nonterminal} (hn : n ∈ opensRun) {t : Terminal}
    (ht : starts .skipped t = true) : starts n t = true := by
  have hall : ∀ n ∈ opensRun, (!starts .skipped t || starts n t) = true := by
    cases t <;> decide
  have := hall n hn
  rwa [ht] at this

theorem skims_of_mem_opensRun {n : Nonterminal} (hn : n ∈ opensRun) :
    Skims [.sub n, .sub .statements] where
  admits t ht := expects_of_starts (starts_of_mem_opensRun hn ht)
  plain := by
    have hall : ∀ n ∈ opensRun, ∀ t ∈ longMarks ++ plainMarks,
        (expects [.sub n, .sub .statements] t || reserves [.sub n, .sub .statements] t)
          = false := by
      decide
    exact hall n hn

/-- What a run starts with leads to it from each of these nonterminals. -/
theorem derives_inRun {n : Nonterminal} (hn : n ∈ opensRun) {k : Token}
    (hk : starts .skipped k.terminal = true) {outer : List Symbol} {input rest : List Char}
    {t : Tree} (h : Derives (.node .skipped k) outer input [t] rest) :
    Derives (.node n k) outer input [inRun n t] rest := by
  have hvia {m : Nonterminal} (hm : m ∈ [.skippedAfterBlock, .constant, .exportedPlain]) :
      branch? m k.terminal = some (.via .skipped []) := by
    have hall : ∀ u, starts .skipped u = true →
        ∀ m ∈ [.skippedAfterBlock, .constant, .exportedPlain],
          branch? m u = some (.via .skipped []) := by
      intro u hu
      cases u <;> first | exact absurd hu (by decide) | decide
    exact hall _ hk m hm
  have hexported : branch? .exported k.terminal = some (.via .exportedPlain []) := by
    revert hk
    cases k.terminal <;> decide
  simp only [opensRun, List.mem_cons, List.not_mem_nil, or_false] at hn
  obtain rfl | rfl | rfl | rfl | rfl := hn
  · exact h
  · exact .via (hvia (by simp)) h .nil
  · exact .via (hvia (by simp)) h .nil
  · exact .via (hvia (by simp)) h .nil
  · exact .via hexported (.via (hvia (by simp)) h .nil) .nil

/-- What is read behind a group of a run. -/
def afterGroup (o : Terminal) : Nonterminal :=
  if o = openBrace then .skippedAfterBlock else .skipped

theorem branch?_skipped_open : ∀ p ∈ brackets, afterGroup p.1 ∈ opensRun ∧
    branch? .skipped p.1 = some (.led p.1 [.sub .inner, .tok p.2, .sub (afterGroup p.1)]) := by
  decide

/-- A run is read from its first token on. -/
theorem Derives.inRun_cons {n : Nonterminal} (hn : n ∈ opensRun) {u : Terminal} {k : Token}
    {input next rest : List Char} {symbols : List Symbol} {ts : List Tree}
    (hk : Sees [.sub n, .sub .statements] input k next)
    (hbranch : branch? .skipped k.terminal = some (.led u symbols))
    (h : Derives (.list symbols) [.sub .statements] next ts rest) :
    Derives (.list [.sub n]) [.sub .statements] input
      [inRun n (.node .skipped (.leaf k :: ts))] rest :=
  have hstarts := starts_of_branch? hbranch
  .start hk (starts_of_mem_opensRun hn hstarts) (derives_inRun hn hstarts (.led hbranch h)) .nil

/-- A group of a run, and what follows it there. -/
theorem Derives.inRun_group {n : Nonterminal} (hn : n ∈ opensRun) {o c : Terminal}
    (hpair : (o, c) ∈ brackets) {gap f after rest : List Char} (hgap : IsTrivia gap)
    (hf : Filling f) {t : Tree}
    (h : Derives (.list [.sub (afterGroup o)]) [.sub .statements] after [t] rest) :
    ∃ ts, Derives (.list [.sub n]) [.sub .statements]
      (gap ++ (o.spelling ++ (f ++ (c.spelling ++ after)))) [inRun n (.node .skipped ts)] rest := by
  obtain ⟨hopen, hclose⟩ := mem_closedMarks_of_mem_brackets hpair
  have hbranch := (branch?_skipped_open _ hpair).2
  have hexpects := (skims_of_mem_opensRun hn).admits o (starts_of_branch? hbranch)
  obtain ⟨inner, back, hback, hinner⟩ :=
    hf.isReadBefore hpair [.sub (afterGroup o), .sub .statements] after
  exact ⟨_, .inRun_cons hn (sees_closedMark hopen hexpects hgap _) hbranch
    (.group hclose hback hinner h)⟩

/-- A run is read up to its end. Behind a block the next token has to belong to another
statement. -/
theorem IsBody.exists_derives {inBlock : Bool} {s : List Char} (h : IsBody inBlock s)
    {n : Nonterminal} (hn : n ∈ opensRun) {after : List Char}
    (hafter : inBlock = true → Follows .skippedAfterBlock after) :
    ∃ ts, Derives (.list [.sub n]) [.sub .statements] (s ++ after) [inRun n (.node .skipped ts)]
      after := by
  -- The run is read as another nonterminal at its start and behind a block than in the middle.
  induction h generalizing n with
  | semicolon hgap =>
    have hexpects := (skims_of_mem_opensRun hn).admits Terminal.semicolon (by decide)
    rw [List.append_assoc]
    exact ⟨_, .inRun_cons hn
      (sees_closedMark (u := Terminal.semicolon) (by decide) hexpects hgap.isTrivia after) rfl .nil⟩
  | block hgap hf =>
    have hrest : Derives (.list [.sub .skippedAfterBlock]) [.sub .statements] after
        [.node .skippedAfterBlock []] after := by
      obtain hend | ⟨k, next, hk, hstarts⟩ := hafter rfl
      · exact .finish hend rfl .nil
      · exact .skip hk hstarts .nil
    simp only [List.append_assoc]
    exact Derives.inRun_group hn (o := openBrace) (c := closeBrace) (by decide) hgap.isTrivia hf
      hrest
  | @lexeme inBlock gap s rest t hgap _ hs h ih =>
    obtain ⟨ts, hrest⟩ := ih (by decide : Nonterminal.skipped ∈ opensRun) hafter
    simp only [List.append_assoc]
    exact ⟨_, .inRun_cons hn
      (hs.sees (skims_of_mem_opensRun hn) hgap.isTrivia (h.isOther_head after)) hs.branch?.2 hrest⟩
  | @group inBlock gap f rest o c hgap _ hpair hf _ ih =>
    obtain ⟨ts, hrest⟩ := ih (branch?_skipped_open _ hpair).1 hafter
    simp only [List.append_assoc]
    exact Derives.inRun_group hn hpair hgap.isTrivia hf hrest

end DeclSchema.Grammar
