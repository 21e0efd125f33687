import DeclSchema.Grammar.Reading
import DeclSchema.Proofs.Grammar.Lexeme
import DeclSchema.Proofs.Grammar.Trivia

/-!
# Rules of reading

What the reader does with tokens that were written with single spaces between them, one rule for
each of its steps. A token comes next where it is expected; a name must not be spelled like a word
that is expected too. A nonterminal is started by a token that its branches start with, and is left
out otherwise.

## Main definitions

* `source`, `IsSpaced`: the characters of tokens with single spaces between them
* `AtEnd`, `Sees`: the end of an input, and its next token
* `Awaits`: a token may come next and is told apart from all others
* `Ahead`: which marks may come next
* `Reads`, `Unfolds`, `Takes`: what a list of symbols, a nonterminal after its first token, and a
  nonterminal that may be left out make of the tokens ahead

## Main results

* `peek_of_sees`, `peek_of_awaits`: the token that is seen, or awaited, is the next one
* `Reads.tok`, `Reads.sub`, `Unfolds.led`, `Unfolds.via`: the steps of the reader
* `read_of_takes`: a whole file is read from its first symbol
-/

namespace DeclSchema.Grammar

open Terminal Grammar.Tree

/-! ### Spaced tokens -/

/-- The characters of tokens. -/
def source (ks : List Token) : List Char :=
  ks.flatMap Token.source

theorem tokensOf_append (ts ts' : List Tree) :
    tokensOf (ts ++ ts') = tokensOf ts ++ tokensOf ts' := by
  induction ts with
  | nil => rfl
  | cons t ts ih => rw [List.cons_append, tokensOf, tokensOf, ih, List.append_assoc]

/-- A lexeme with a space before it. -/
structure Token.IsSpaced (k : Token) : Prop where
  trivia : k.trivia = [' ']
  lexeme : IsLexeme k.terminal k.lexeme

/-- Tokens with single spaces between them, and perhaps one before the first. -/
def IsSpaced : List Token → Prop
  | [] => True
  | k :: ks => IsLead k.trivia ∧ IsLexeme k.terminal k.lexeme ∧ ∀ k ∈ ks, k.IsSpaced

theorem isSpaced_of_forall {ks : List Token} (h : ∀ k ∈ ks, k.IsSpaced) : IsSpaced ks := by
  cases ks with
  | nil => trivial
  | cons k ks =>
    have hk := h k (List.mem_cons_self ..)
    exact ⟨.inr hk.trivia, hk.lexeme, fun k' hk' => h k' (List.mem_cons_of_mem _ hk')⟩

theorem IsSpaced.tail {k : Token} {ks : List Token} (h : IsSpaced (k :: ks)) : IsSpaced ks :=
  isSpaced_of_forall h.2.2

theorem IsSpaced.of_append {front ks : List Token} (h : IsSpaced (front ++ ks)) :
    IsSpaced ks := by
  induction front with
  | nil => exact h
  | cons k front ih => exact ih h.tail

/-- What follows a token is a gap. -/
theorem isGap_source {ks : List Token} (h : ∀ k ∈ ks, k.IsSpaced) : IsGap (source ks) := by
  cases ks with
  | nil => exact nofun
  | cons k ks =>
    intro c hc
    have hk := h k (List.mem_cons_self ..)
    simp only [source, List.flatMap_cons, Token.source, hk.trivia, List.cons_append,
      List.head?_cons, Option.mem_some_iff] at hc
    subst hc
    decide

/-! ### The next token -/

/-- Nothing but blanks and comments is left. -/
def AtEnd (input : List Char) : Prop :=
  triviaLength input = input.length

theorem atEnd_nil : AtEnd [] :=
  Nat.le_zero.1 (triviaLength_le [])

/-- The next token where `symbols` are still to be read is `k`, and `rest` follows it. -/
structure Sees (symbols : List Symbol) (input : List Char) (k : Token) (rest : List Char) :
    Prop where
  input_eq : input = k.trivia ++ (k.lexeme ++ rest)
  triviaLength_eq : triviaLength input = k.trivia.length
  nonempty : k.lexeme ≠ []
  lexeme?_eq : lexeme? (fun t => expects symbols t || reserves symbols t) (k.lexeme ++ rest)
    = some (k.terminal, k.lexeme.length)
  expected : expects symbols k.terminal = true

theorem peek_eq {symbols : List Symbol} {c : Cursor} {first : Char} {rest : List Char}
    (hdrop : c.rest.drop (triviaLength c.rest) = first :: rest) {t : Terminal} {n : Nat}
    (hlexeme : lexeme? (fun t => expects symbols t || reserves symbols t) (first :: rest)
      = some (t, n + 1))
    (hexpected : expects symbols t = true) :
    ∃ h, peek symbols c = .ok (some
      (⟨t, c.rest.take (triviaLength c.rest), (first :: rest).take (n + 1)⟩,
        ⟨⟨rest.drop n, first :: rest⟩, h⟩)) := by
  have hsize : (rest.drop n).length < c.rest.length := by
    have := congrArg List.length hdrop
    simp only [List.length_drop, List.length_cons] at this ⊢
    omega
  refine ⟨hsize, ?_⟩
  unfold peek
  dsimp only
  split
  · next hempty =>
    rw [hdrop] at hempty
    cases hempty
  · next first' rest' hfirst =>
    rw [hdrop] at hfirst
    obtain ⟨rfl, rfl⟩ := List.cons.inj hfirst
    simp only [hlexeme, hexpected, if_true]

section Peek

variable {symbols : List Symbol} {input rest : List Char} {k : Token} {c : Cursor}

theorem Sees.length_lt (h : Sees symbols input k rest) : rest.length < input.length := by
  have := List.length_pos_iff.2 h.nonempty
  rw [h.input_eq, List.length_append, List.length_append]
  omega

theorem Sees.triviaLength_lt (h : Sees symbols input k rest) :
    triviaLength input < input.length := by
  have := List.length_pos_iff.2 h.nonempty
  have hlength := congrArg List.length h.input_eq
  rw [List.length_append, List.length_append] at hlength
  rw [h.triviaLength_eq]
  omega

theorem Sees.not_atEnd (h : Sees symbols input k rest) : ¬ AtEnd input :=
  fun hend => absurd h.triviaLength_lt (Nat.not_lt.2 (Nat.le_of_eq hend.symm))

/-- The token that is seen is the next one. -/
theorem peek_of_sees (h : Sees symbols c.rest k rest) :
    ∃ next, peek symbols c = .ok (some (k, next)) ∧ next.1.rest = rest := by
  obtain ⟨first, lexeme, hlexeme⟩ := List.exists_cons_of_ne_nil h.nonempty
  have hdrop : c.rest.drop (triviaLength c.rest) = first :: (lexeme ++ rest) := by
    rw [h.triviaLength_eq, h.input_eq, List.drop_left, hlexeme, List.cons_append]
  have hnext := h.lexeme?_eq
  rw [hlexeme, List.cons_append, List.length_cons] at hnext
  obtain ⟨hsize, hpeek⟩ := peek_eq hdrop hnext h.expected
  have htrivia : c.rest.take (triviaLength c.rest) = k.trivia := by
    rw [h.triviaLength_eq, h.input_eq, List.take_left]
  have hlong : (first :: (lexeme ++ rest)).take (lexeme.length + 1) = k.lexeme := by
    rw [hlexeme, List.take_succ_cons, List.take_left]
  rw [htrivia, hlong] at hpeek
  exact ⟨_, hpeek, List.drop_left⟩

theorem peek_of_atEnd (symbols : List Symbol) (h : AtEnd c.rest) : peek symbols c = .ok none := by
  unfold peek
  dsimp only
  split
  · rfl
  · next hfirst =>
    rw [h, List.drop_length] at hfirst
    cases hfirst

theorem sees_of_peek {next : { c' : Cursor // c'.size < c.size }}
    (h : peek symbols c = .ok (some (k, next))) : Sees symbols c.rest k next.1.rest := by
  unfold peek at h
  dsimp only at h
  split at h
  · cases h
  · next first after hdrop =>
    split at h
    · next t n hlexeme =>
      split at h
      · next hexpected =>
        cases h
        have hle : n ≤ after.length := by
          have := (length_of_lexeme? hlexeme).2
          rw [List.length_cons] at this
          omega
        have hinput : c.rest = c.rest.take (triviaLength c.rest) ++ (first :: after) := by
          rw [← hdrop, List.take_append_drop]
        -- The lexeme is as long as was found, since nothing is found beyond the input.
        have hsplit : (first :: after).take (n + 1) ++ after.drop n = first :: after := by
          rw [List.take_succ_cons, List.cons_append, List.take_append_drop]
        exact {
          input_eq := by rw [hsplit, ← hinput]
          triviaLength_eq := (List.length_take_of_le (triviaLength_le _)).symm
          nonempty := by simp
          lexeme?_eq := by
            rw [hsplit, hlexeme, List.length_take_of_le (by simpa using hle)]
          expected := hexpected }
      · cases h
    · cases h

theorem atEnd_of_peek (h : peek symbols c = .ok none) : AtEnd c.rest := by
  unfold peek at h
  dsimp only at h
  split at h
  · next hdrop =>
    have hle := List.drop_eq_nil_iff.1 hdrop
    exact Nat.le_antisymm (triviaLength_le _) hle
  · split at h
    · split at h <;> cases h
    · cases h

end Peek

/-- A token that may come next where `symbols` are still to be read, and that is not taken for
another one there. -/
structure Awaits (symbols : List Symbol) (k : Token) : Prop where
  expected : expects symbols k.terminal = true
  plain : k.terminal = .name → ∀ w ∈ words, (expects symbols w || reserves symbols w) = true →
    w.spelling ≠ k.lexeme

theorem Awaits.sees {symbols : List Symbol} {k : Token} {ks : List Token} (h : Awaits symbols k)
    (hspaced : IsSpaced (k :: ks)) : Sees symbols (source (k :: ks)) k (source ks) := by
  obtain ⟨hlead, hlexeme, hks⟩ := hspaced
  have hsource : source (k :: ks) = k.trivia ++ (k.lexeme ++ source ks) := by
    rw [source, List.flatMap_cons, Token.source, List.append_assoc]
    rfl
  exact {
    input_eq := hsource
    triviaLength_eq := by rw [hsource, triviaLength_lead hlead hlexeme]
    nonempty := hlexeme.nonempty
    lexeme?_eq := hlexeme.lexeme?_append (isGap_source hks) (by simp [h.expected]) h.plain
    expected := h.expected }

/-- The token that is awaited is the next one. -/
theorem peek_of_awaits {symbols : List Symbol} {k : Token} {ks : List Token}
    (h : Awaits symbols k) (hspaced : IsSpaced (k :: ks)) {c : Cursor}
    (hc : c.rest = source (k :: ks)) :
    ∃ next, peek symbols c = .ok (some (k, next)) ∧ next.1.rest = source ks :=
  peek_of_sees (hc ▸ h.sees hspaced)

/-! ### Judgements -/

/-- The reader takes `symbols`, which `outer` follow, from the tokens ahead as the trees `ts` and
leaves `rest`. -/
structure Reads (symbols outer : List Symbol) (input rest : List Token) (ts : List Tree) :
    Prop where
  tokens : tokensOf ts ++ rest = input
  reads : IsSpaced input → ∀ c : Cursor, c.rest = source input →
    ∃ next, readSymbols symbols outer c = .ok (ts, next) ∧ next.1.rest = source rest

/-- The reader takes a nonterminal, which `outer` follow, from the token `k` that it has already
taken and the tokens ahead as the tree `t` and leaves `rest`. -/
structure Unfolds (n : Nonterminal) (outer : List Symbol) (k : Token) (input rest : List Token)
    (t : Tree) : Prop where
  isNode : ∃ ts, t = .node n ts
  tokens : t.tokens ++ rest = k :: input
  reads : IsSpaced (k :: input) → ∀ c : Cursor, c.rest = source input →
    ∃ next, readNonterminal n k outer c = .ok (t, next) ∧ next.1.rest = source rest

/-- The reader takes a nonterminal, which `outer` follow, if the tokens ahead start it, and leaves
it out otherwise. -/
inductive Takes (n : Nonterminal) (outer : List Symbol) :
    List Token → List Token → Tree → Prop where
  | start {k : Token} {input rest : List Token} {t : Tree} (hk : Awaits (.sub n :: outer) k)
      (hn : starts n k.terminal = true) (ht : Unfolds n outer k input rest t) :
      Takes n outer (k :: input) rest t
  | skip {k : Token} {input : List Token} (hk : Awaits (.sub n :: outer) k)
      (hn : starts n k.terminal = false) : Takes n outer (k :: input) (k :: input) (.node n [])
  | finish (hn : n.mayBeEmpty = true) : Takes n outer [] [] (.node n [])

theorem Takes.tokens {n : Nonterminal} {outer : List Symbol} {input rest : List Token} {t : Tree}
    (h : Takes n outer input rest t) : t.tokens ++ rest = input := by
  cases h with
  | start _ _ ht => exact ht.tokens
  | skip => rfl
  | finish => rfl

theorem Takes.isNode {n : Nonterminal} {outer : List Symbol} {input rest : List Token} {t : Tree}
    (h : Takes n outer input rest t) : ∃ ts, t = .node n ts := by
  cases h with
  | start _ _ ht => exact ht.isNode
  | skip => exact ⟨[], rfl⟩
  | finish => exact ⟨[], rfl⟩

/-! ### Steps -/

section Steps

variable {n m : Nonterminal} {symbols outer : List Symbol} {k : Token}
  {input mid rest : List Token} {t : Tree} {ts : List Tree}

theorem Reads.nil : Reads [] outer input input [] where
  tokens := rfl
  reads _ c hc := ⟨_, by rw [readSymbols], hc⟩

theorem Awaits.tok {u : Terminal} (hk : k.terminal = u) : Awaits (.tok u :: symbols) k where
  expected := by simp [expects, hk]
  plain hname w hw h := by
    have hu : u = w := by simpa [expects, reserves] using h
    rw [← hu, ← hk, hname] at hw
    exact absurd hw (by decide)

theorem Reads.tok {u : Terminal} (hk : k.terminal = u) (h : Reads symbols outer input rest ts) :
    Reads (.tok u :: symbols) outer (k :: input) rest (.leaf k :: ts) where
  tokens := by
    rw [tokensOf, Tree.tokens, List.append_assoc, h.tokens]
    rfl
  reads hspaced c hc := by
    have hawaits : Awaits (.tok u :: (symbols ++ outer)) k := .tok hk
    obtain ⟨⟨c₁, h₁⟩, hpeek, hc₁⟩ := peek_of_awaits hawaits hspaced hc
    obtain ⟨⟨c₂, h₂⟩, hread, hc₂⟩ := h.reads hspaced.tail c₁ hc₁
    rw [readSymbols, List.cons_append, hpeek]
    simp only [bind, Except.bind, hread]
    exact ⟨_, rfl, hc₂⟩

theorem Reads.sub (hn : Takes n (symbols ++ outer) input mid t)
    (h : Reads symbols outer mid rest ts) :
    Reads (.sub n :: symbols) outer input rest (t :: ts) where
  tokens := by
    rw [tokensOf, List.append_assoc, h.tokens, hn.tokens]
  reads hspaced c hc := by
    rw [readSymbols, List.cons_append]
    cases hn with
    | start hk hstarts ht =>
      obtain ⟨⟨c₁, h₁⟩, hpeek, hc₁⟩ := peek_of_awaits hk hspaced hc
      obtain ⟨⟨c₂, h₂⟩, hnode, hc₂⟩ := ht.reads hspaced c₁ hc₁
      rw [← ht.tokens] at hspaced
      obtain ⟨⟨c₃, h₃⟩, hread, hc₃⟩ := h.reads hspaced.of_append c₂ hc₂
      simp only [hpeek, bind, Except.bind, hstarts, if_true, hnode, hread]
      exact ⟨_, rfl, hc₃⟩
    | skip hk hstarts =>
      obtain ⟨⟨c₁, h₁⟩, hpeek, hc₁⟩ := peek_of_awaits hk hspaced hc
      obtain ⟨⟨c₂, h₂⟩, hread, hc₂⟩ := h.reads hspaced c hc
      simp only [hpeek, bind, Except.bind, hstarts, hread]
      exact ⟨_, rfl, hc₂⟩
    | finish hempty =>
      obtain ⟨⟨c₂, h₂⟩, hread, hc₂⟩ := h.reads hspaced c hc
      simp only [peek_of_atEnd _ (show AtEnd c.rest from hc ▸ atEnd_nil), bind, Except.bind,
        hempty, if_true, hread]
      exact ⟨_, rfl, hc₂⟩

theorem readNonterminal_led {u : Terminal} (hbranch : branch? n k.terminal = some (.led u symbols))
    {c : Cursor} {next : { c' : Cursor // c'.size ≤ c.size }}
    (hread : readSymbols symbols outer c = .ok (ts, next)) :
    readNonterminal n k outer c = .ok (.node n (.leaf k :: ts), next) := by
  rw [readNonterminal]
  split
  · next h =>
    rw [hbranch] at h
    cases h
  · next h =>
    rw [hbranch] at h
    cases h
    simp only [hread, bind, Except.bind, pure, Except.pure]
  · next h =>
    rw [hbranch] at h
    cases h

theorem readNonterminal_via (hbranch : branch? n k.terminal = some (.via m symbols)) {c : Cursor}
    {next : { c' : Cursor // c'.size ≤ c.size }}
    (hm : readNonterminal m k (symbols ++ outer) c = .ok (t, next))
    {last : { c' : Cursor // c'.size ≤ next.1.size }}
    (hread : readSymbols symbols outer next.1 = .ok (ts, last)) :
    readNonterminal n k outer c
      = .ok (.node n (t :: ts), ⟨last.1, Nat.le_trans last.2 next.2⟩) := by
  rw [readNonterminal]
  split
  · next h =>
    rw [hbranch] at h
    cases h
  · next h =>
    rw [hbranch] at h
    cases h
  · next h =>
    rw [hbranch] at h
    cases h
    simp only [hm, hread, bind, Except.bind, pure, Except.pure]

theorem Unfolds.led {u : Terminal} (hk : k.terminal = u)
    (hbranch : branch? n u = some (.led u symbols))
    (h : Reads symbols outer input rest ts) :
    Unfolds n outer k input rest (.node n (.leaf k :: ts)) where
  isNode := ⟨_, rfl⟩
  tokens := by
    rw [Tree.tokens, tokensOf, Tree.tokens, List.append_assoc, h.tokens]
    rfl
  reads hspaced c hc := by
    obtain ⟨next, hread, hnext⟩ := h.reads hspaced.tail c hc
    exact ⟨next, readNonterminal_led (hk ▸ hbranch) hread, hnext⟩

theorem Unfolds.via (hbranch : branch? n k.terminal = some (.via m symbols))
    (hm : Unfolds m (symbols ++ outer) k input mid t) (h : Reads symbols outer mid rest ts) :
    Unfolds n outer k input rest (.node n (t :: ts)) where
  isNode := ⟨_, rfl⟩
  tokens := by
    rw [Tree.tokens, tokensOf, List.append_assoc, h.tokens, hm.tokens]
  reads hspaced c hc := by
    obtain ⟨next, hnode, hnext⟩ := hm.reads hspaced c hc
    rw [← hm.tokens] at hspaced
    obtain ⟨last, hread, hlast⟩ := h.reads hspaced.of_append next.1 hnext
    exact ⟨_, readNonterminal_via hbranch hnode hread, hlast⟩

end Steps

/-! ### Tokens that are no names

No other token is ever taken for one that is no name. It comes next wherever it is expected. -/

section Marks

variable {n : Nonterminal} {symbols outer : List Symbol} {k : Token} {input rest : List Token}
  {t : Tree}

theorem Awaits.of_expects (hk : k.terminal ≠ .name) (h : expects symbols k.terminal = true) :
    Awaits symbols k :=
  ⟨h, fun hname => absurd hname hk⟩

theorem expects_of_starts {u : Terminal} (h : starts n u = true) :
    expects (.sub n :: symbols) u = true := by
  simp [expects, h]

theorem expects_of_mayBeEmpty {u : Terminal} (hn : n.mayBeEmpty = true)
    (h : expects symbols u = true) : expects (.sub n :: symbols) u = true := by
  simp [expects, hn, h]

/-- A terminal that selects a branch starts the nonterminal. -/
theorem starts_of_branch? {u : Terminal} {b : Branch} (h : branch? n u = some b) :
    starts n u = true := by
  have hb := List.find?_some h
  rw [starts, List.any_eq_true]
  refine ⟨⟨b, List.mem_of_find?_eq_some h⟩, List.mem_attach .., ?_⟩
  cases b <;> exact hb

theorem Takes.of_starts (hk : k.terminal ≠ .name) (hn : starts n k.terminal = true)
    (ht : Unfolds n outer k input rest t) : Takes n outer (k :: input) rest t :=
  .start (.of_expects hk (expects_of_starts hn)) hn ht

theorem Takes.of_branch? {b : Branch} (hk : k.terminal ≠ .name)
    (hbranch : branch? n k.terminal = some b) (ht : Unfolds n outer k input rest t) :
    Takes n outer (k :: input) rest t :=
  .of_starts hk (starts_of_branch? hbranch) ht

theorem Takes.led {u : Terminal} {ts : List Tree} (hk : k.terminal = u)
    (hn : u ≠ .name ∧ branch? n u = some (.led u symbols)) (h : Reads symbols outer input rest ts) :
    Takes n outer (k :: input) rest (.node n (.leaf k :: ts)) :=
  .of_branch? (hk ▸ hn.1) (hk ▸ hn.2) (.led hk hn.2 h)

theorem Takes.omitted {u : Terminal} (hk : k.terminal = u)
    (hn : u ≠ .name ∧ n.mayBeEmpty = true ∧ starts n u = false) (h : expects outer u = true) :
    Takes n outer (k :: input) (k :: input) (.node n []) :=
  .skip (.of_expects (hk ▸ hn.1) (expects_of_mayBeEmpty hn.2.1 (hk ▸ h))) (hk ▸ hn.2.2)

end Marks

/-! ### Marks ahead -/

/-- One of `marks` comes next, and it is expected. -/
def Ahead (marks : List Terminal) (symbols : List Symbol) (input : List Token) : Prop :=
  ∃ k ks, input = k :: ks ∧ k.terminal ∈ marks ∧ expects symbols k.terminal = true

section Ahead

variable {marks : List Terminal} {n m : Nonterminal} {symbols outer : List Symbol}
  {input rest : List Token} {t : Tree}

theorem Ahead.tok {k : Token} {u : Terminal} (hk : k.terminal = u) (hu : u ∈ marks) :
    Ahead marks (.tok u :: symbols) (k :: input) :=
  ⟨k, input, rfl, hk ▸ hu, by simp [expects, hk]⟩

theorem Ahead.sub (h : Ahead marks symbols input) (hempty : n.mayBeEmpty = true) :
    Ahead marks (.sub n :: symbols) input := by
  obtain ⟨k, ks, rfl, hmem, hexpects⟩ := h
  exact ⟨k, ks, rfl, hmem, expects_of_mayBeEmpty hempty hexpects⟩

theorem Ahead.mono {more : List Terminal} (h : Ahead marks symbols input)
    (hmarks : ∀ t ∈ marks, t ∈ more) : Ahead more symbols input := by
  obtain ⟨k, ks, rfl, hmem, hexpects⟩ := h
  exact ⟨k, ks, rfl, hmarks _ hmem, hexpects⟩

/-- A nonterminal that none of the marks starts is left out. -/
theorem Ahead.takes (h : Ahead marks symbols input)
    (hn : n.mayBeEmpty = true ∧ ∀ u ∈ marks, u ≠ .name ∧ starts n u = false) :
    Takes n symbols input input (.node n []) := by
  obtain ⟨k, ks, rfl, hmem, hexpects⟩ := h
  obtain ⟨hname, hstarts⟩ := hn.2 _ hmem
  exact .omitted rfl ⟨hname, hn.1, hstarts⟩ hexpects

/-- A nonterminal with a branch that another one is alone in is read through that branch, or else
both are left out. -/
theorem Ahead.alone (hahead : Ahead marks (.sub m :: outer) input) (h : Takes m outer input rest t)
    (hn : n.mayBeEmpty = true ∧ ∀ u ∈ marks, u ≠ .name ∧ starts n u = starts m u
      ∧ (starts m u = true → branch? n u = some (.via m []))) :
    Takes n outer input rest (.node n [t])
      ∨ t = .node m [] ∧ Takes n outer input rest (.node n []) := by
  obtain ⟨k, ks, rfl, hmem, -⟩ := hahead
  obtain ⟨hname, hstarts, hbranch⟩ := hn.2 _ hmem
  cases h with
  | start hk hm ht => exact .inl (.of_branch? hname (hbranch hm) (.via (hbranch hm) ht .nil))
  | skip hk hm =>
    have hexpects : expects outer k.terminal = true := by
      have := hk.expected
      simp only [expects, hm, Bool.false_or, Bool.and_eq_true] at this
      exact this.2
    exact .inr ⟨rfl, .omitted rfl ⟨hname, hn.1, hstarts.trans hm⟩ hexpects⟩

end Ahead

/-! ### Names -/

/-- A name is read as such where no word that may come next is spelled like it. -/
theorem Awaits.of_name {n : Nonterminal} {symbols : List Symbol} {k : Token}
    (hn : starts n k.terminal = true) (hreserves : n ≠ .exportListAfterBlock)
    (hplain : ∀ w ∈ words, starts n w = true ∨ n.mayBeEmpty = true ∧ expects symbols w = true →
      w.spelling ≠ k.lexeme) :
    Awaits (.sub n :: symbols) k where
  expected := expects_of_starts hn
  plain _ w hw h := by
    refine hplain w hw ?_
    have : reserves (.sub n :: symbols) w = false := by
      unfold reserves
      split
      · next h => simp_all
      · rfl
    simpa [expects, this] using h

/-- A token that is told apart from all words that may come next is so where fewer of them may. -/
theorem Awaits.narrow {n m : Nonterminal} {symbols outer : List Symbol} {k : Token}
    (h : Awaits (.sub m :: symbols) k) (hn : starts n k.terminal = true)
    (hwords : n ≠ .exportListAfterBlock ∧ n.mayBeEmpty = false
      ∧ ∀ w ∈ words, starts n w = true → starts m w = true) :
    Awaits (.sub n :: outer) k := by
  by_cases hk : k.terminal = .name
  · refine .of_name hn hwords.1 fun w hw hstarts => ?_
    obtain hstarts | ⟨hempty, -⟩ := hstarts
    · exact h.plain hk w hw (by rw [expects_of_starts (hwords.2.2 w hw hstarts), Bool.true_or])
    · rw [hwords.2.1] at hempty
      cases hempty
  · exact .of_expects hk (expects_of_starts hn)

/-! ### Whole files -/

theorem read_of_takes {input : List Token} {t : Tree} (h : Takes .statements [] input [] t)
    (hspaced : IsSpaced input) : read (source input) = .ok [t] := by
  have hreads : Reads [.sub .statements] [] input [] [t] := .sub h .nil
  obtain ⟨next, hread, -⟩ := hreads.reads hspaced ⟨source input, source input⟩ rfl
  rw [read, hread]
  rfl

end DeclSchema.Grammar
