import DeclSchema.Fault
import DeclSchema.Proofs.Grammar.Reading

/-!
# Derivations

What the reader does with any characters, as a relation between the symbols to be read, the input
and the trees. It has one rule for each step of the reader, and it holds exactly where the reader
succeeds. A property of what is read is proved by induction on a derivation, and a text is shown to
be read by giving one.

## Main definitions

* `Derives`: what is read from a list of symbols, or from a nonterminal after its first token

## Main results

* `read_eq_ok_iff`: the derivations of whole files are what the reader makes of them
* `Derives.exists_tokens`: the tokens of the trees spell what was read
* `Derives.exists_of_append`: a list of symbols is read in two parts
-/

namespace DeclSchema.Grammar

open Terminal Grammar.Tree

/-! ### Derivations -/

/-- What is to be read: a list of symbols, or a nonterminal whose first token has been taken. -/
inductive Task where
  | list (symbols : List Symbol)
  | node (n : Nonterminal) (first : Token)

/-- What is read from an input as trees where `outer` follows, and what is left. -/
inductive Derives : Task → List Symbol → List Char → List Tree → List Char → Prop where
  | nil {outer : List Symbol} {input : List Char} : Derives (.list []) outer input [] input
  | tok {t : Terminal} {symbols outer : List Symbol} {input next rest : List Char} {k : Token}
      {ts : List Tree} (hk : Sees (.tok t :: symbols ++ outer) input k next)
      (h : Derives (.list symbols) outer next ts rest) :
      Derives (.list (.tok t :: symbols)) outer input (.leaf k :: ts) rest
  | start {n : Nonterminal} {symbols outer : List Symbol} {input next mid rest : List Char}
      {k : Token} {t : Tree} {ts : List Tree} (hk : Sees (.sub n :: symbols ++ outer) input k next)
      (hn : starts n k.terminal = true) (ht : Derives (.node n k) (symbols ++ outer) next [t] mid)
      (h : Derives (.list symbols) outer mid ts rest) :
      Derives (.list (.sub n :: symbols)) outer input (t :: ts) rest
  | skip {n : Nonterminal} {symbols outer : List Symbol} {input next rest : List Char}
      {k : Token} {ts : List Tree} (hk : Sees (.sub n :: symbols ++ outer) input k next)
      (hn : starts n k.terminal = false) (h : Derives (.list symbols) outer input ts rest) :
      Derives (.list (.sub n :: symbols)) outer input (.node n [] :: ts) rest
  | finish {n : Nonterminal} {symbols outer : List Symbol} {input rest : List Char}
      {ts : List Tree} (hend : AtEnd input) (hn : n.mayBeEmpty = true)
      (h : Derives (.list symbols) outer input ts rest) :
      Derives (.list (.sub n :: symbols)) outer input (.node n [] :: ts) rest
  | led {n : Nonterminal} {u : Terminal} {symbols outer : List Symbol} {input rest : List Char}
      {k : Token} {ts : List Tree} (hbranch : branch? n k.terminal = some (.led u symbols))
      (h : Derives (.list symbols) outer input ts rest) :
      Derives (.node n k) outer input [.node n (.leaf k :: ts)] rest
  | via {n m : Nonterminal} {symbols outer : List Symbol} {input mid rest : List Char}
      {k : Token} {t : Tree} {ts : List Tree}
      (hbranch : branch? n k.terminal = some (.via m symbols))
      (ht : Derives (.node m k) (symbols ++ outer) input [t] mid)
      (h : Derives (.list symbols) outer mid ts rest) :
      Derives (.node n k) outer input [.node n (t :: ts)] rest

/-! ### The reader derives what it reads -/

mutual

theorem derives_of_readNonterminal {n : Nonterminal} {k : Token} {outer : List Symbol} {c : Cursor}
    {t : Tree} {last : { c' : Cursor // c'.size ≤ c.size }}
    (hread : readNonterminal n k outer c = .ok (t, last)) :
    Derives (.node n k) outer c.rest [t] last.1.rest := by
  rw [readNonterminal] at hread
  split at hread
  · cases hread
  · next rest hbranch =>
    have := rest_length_le_of_branch? hbranch
    obtain ⟨⟨ts, c'⟩, hts, hlast⟩ := exists_of_bind_eq_ok hread
    cases hlast
    exact .led hbranch (derives_of_readSymbols hts)
  · next m rest hbranch =>
    have := rest_length_le_of_branch? hbranch
    have := rank_lt_of_branch? hbranch
    obtain ⟨⟨t, ⟨c₁, h₁⟩⟩, ht, hrest⟩ := exists_of_bind_eq_ok hread
    obtain ⟨⟨ts, ⟨c₂, h₂⟩⟩, hts, hlast⟩ := exists_of_bind_eq_ok hrest
    cases hlast
    exact .via hbranch (derives_of_readNonterminal ht) (derives_of_readSymbols hts)
-- The measures are those of the reader itself.
termination_by c.size * stepsPerCharacter + (n.rank + 1) * 8
decreasing_by
  all_goals
    simp only [Branch.rest, stepsPerCharacter] at *
    omega

theorem derives_of_readSymbols {symbols outer : List Symbol} {c : Cursor} {ts : List Tree}
    {last : { c' : Cursor // c'.size ≤ c.size }}
    (hread : readSymbols symbols outer c = .ok (ts, last)) :
    Derives (.list symbols) outer c.rest ts last.1.rest := by
  match symbols with
  | [] =>
    rw [readSymbols] at hread
    cases hread
    exact .nil
  | .tok t :: symbols =>
    rw [readSymbols] at hread
    obtain ⟨next, hpeek, hread⟩ := exists_of_bind_eq_ok hread
    match next with
    | none => cases hread
    | some (k, ⟨c₁, h₁⟩) =>
      obtain ⟨⟨ts, ⟨c₂, h₂⟩⟩, hts, hlast⟩ := exists_of_bind_eq_ok hread
      cases hlast
      exact .tok (sees_of_peek hpeek) (derives_of_readSymbols hts)
  | .sub n :: symbols =>
    rw [readSymbols] at hread
    obtain ⟨next, hpeek, hread⟩ := exists_of_bind_eq_ok hread
    match next with
    | some (k, ⟨c₁, h₁⟩) =>
      by_cases hn : starts n k.terminal = true
      · simp only [hn, if_true] at hread
        obtain ⟨⟨t, ⟨c₂, h₂⟩⟩, ht, hread⟩ := exists_of_bind_eq_ok hread
        obtain ⟨⟨ts, ⟨c₃, h₃⟩⟩, hts, hlast⟩ := exists_of_bind_eq_ok hread
        cases hlast
        exact .start (sees_of_peek hpeek) hn (derives_of_readNonterminal ht)
          (derives_of_readSymbols hts)
      · simp only [hn] at hread
        obtain ⟨⟨ts, c'⟩, hts, hlast⟩ := exists_of_bind_eq_ok hread
        cases hlast
        exact .skip (sees_of_peek hpeek) (by simpa using hn) (derives_of_readSymbols hts)
    | none =>
      by_cases hn : n.mayBeEmpty = true
      · simp only [hn, if_true] at hread
        obtain ⟨⟨ts, c'⟩, hts, hlast⟩ := exists_of_bind_eq_ok hread
        cases hlast
        exact .finish (atEnd_of_peek hpeek) hn (derives_of_readSymbols hts)
      · simp only [hn] at hread
        cases hread
termination_by c.size * stepsPerCharacter + symbols.length
decreasing_by
  all_goals
    simp only [stepsPerCharacter, List.length_cons]
    try have := n.rank_le
    omega

end

/-! ### The reader reads what is derived -/

/-- What is derived for a task is read at any cursor before the input. -/
def Task.IsRead (outer : List Symbol) (c : Cursor) (ts : List Tree) (rest : List Char) :
    Task → Prop
  | .list symbols => ∃ last, readSymbols symbols outer c = .ok (ts, last) ∧ last.1.rest = rest
  | .node n k =>
    ∃ t last, ts = [t] ∧ readNonterminal n k outer c = .ok (t, last) ∧ last.1.rest = rest

theorem Derives.isRead {task : Task} {outer : List Symbol} {input rest : List Char}
    {ts : List Tree} (h : Derives task outer input ts rest) {c : Cursor} (hc : c.rest = input) :
    task.IsRead outer c ts rest := by
  induction h generalizing c with
  | nil => exact ⟨_, by rw [readSymbols], hc⟩
  | tok hk _ ih =>
    obtain ⟨⟨c₁, h₁⟩, hpeek, hc₁⟩ := peek_of_sees (c := c) (hc ▸ hk)
    obtain ⟨⟨c₂, h₂⟩, hread, hc₂⟩ := ih hc₁
    refine ⟨⟨c₂, Nat.le_of_lt (Nat.lt_of_le_of_lt h₂ h₁)⟩, ?_, hc₂⟩
    rw [readSymbols, hpeek]
    simp only [bind, Except.bind, hread]
    rfl
  | start hk hn _ _ iht ih =>
    obtain ⟨⟨c₁, h₁⟩, hpeek, hc₁⟩ := peek_of_sees (c := c) (hc ▸ hk)
    obtain ⟨_, ⟨c₂, h₂⟩, ⟨⟩, hnode, hc₂⟩ := iht hc₁
    obtain ⟨⟨c₃, h₃⟩, hread, hc₃⟩ := ih hc₂
    refine ⟨⟨c₃, Nat.le_of_lt (Nat.lt_of_le_of_lt (Nat.le_trans h₃ h₂) h₁)⟩, ?_, hc₃⟩
    rw [readSymbols, hpeek]
    simp only [bind, Except.bind, hn, if_true, hnode, hread]
    rfl
  | skip hk hn _ ih =>
    obtain ⟨⟨c₁, h₁⟩, hpeek, -⟩ := peek_of_sees (c := c) (hc ▸ hk)
    obtain ⟨last, hread, hlast⟩ := ih hc
    refine ⟨last, ?_, hlast⟩
    rw [readSymbols, hpeek]
    simp only [bind, Except.bind, hn, Bool.false_eq_true, if_false, hread]
    rfl
  | finish hend hn _ ih =>
    obtain ⟨last, hread, hlast⟩ := ih hc
    refine ⟨last, ?_, hlast⟩
    rw [readSymbols, peek_of_atEnd _ (c := c) (hc ▸ hend)]
    simp only [bind, Except.bind, hn, if_true, hread]
    rfl
  | led hbranch _ ih =>
    obtain ⟨last, hread, hlast⟩ := ih hc
    exact ⟨_, last, rfl, readNonterminal_led hbranch hread, hlast⟩
  | via hbranch _ _ iht ih =>
    obtain ⟨_, mid, ⟨⟩, hnode, hmid⟩ := iht hc
    obtain ⟨last, hread, hlast⟩ := ih hmid
    exact ⟨_, _, rfl, readNonterminal_via hbranch hnode hread, hlast⟩

/-- A file is read as what is derived from it. -/
theorem read_eq_ok_iff {input : List Char} {ts : List Tree} :
    read input = .ok ts ↔ ∃ rest, Derives (.list [.sub .statements]) [] input ts rest := by
  constructor
  · intro h
    rw [read] at h
    cases hread : readSymbols [.sub .statements] [] ⟨input, input⟩ with
    | error e =>
      rw [hread] at h
      cases h
    | ok after =>
      rw [hread] at h
      cases h
      exact ⟨_, derives_of_readSymbols hread⟩
  · rintro ⟨rest, h⟩
    obtain ⟨last, hread, -⟩ := h.isRead (c := ⟨input, input⟩) rfl
    rw [read, hread]
    rfl

/-! ### What a derivation takes -/

variable {task : Task} {outer : List Symbol} {input rest : List Char} {ts : List Tree}

/-- The tokens of a task that have been taken before. -/
def Task.taken : Task → List Token
  | .list _ => []
  | .node _ k => [k]

/-- The tokens of the trees are those taken before and others that spell what was read. -/
theorem Derives.exists_tokens (h : Derives task outer input ts rest) :
    ∃ ks, tokensOf ts = task.taken ++ ks ∧ input = source ks ++ rest := by
  induction h with
  | nil => exact ⟨[], rfl, rfl⟩
  | @tok _ _ _ _ _ _ k _ hk _ ih =>
    obtain ⟨ks, hks, hnext⟩ := ih
    refine ⟨k :: ks, congrArg (k :: ·) hks, ?_⟩
    rw [hk.input_eq, hnext]
    simp only [source, List.flatMap_cons, Token.source, List.append_assoc]
  | @start _ _ _ _ _ _ _ k _ _ hk _ _ _ iht ih =>
    obtain ⟨ks₁, hks₁, hnext⟩ := iht
    obtain ⟨ks₂, hks₂, hmid⟩ := ih
    rw [tokensOf, tokensOf, List.append_nil] at hks₁
    refine ⟨k :: (ks₁ ++ ks₂), ?_, ?_⟩
    · rw [tokensOf, hks₁, hks₂]
      rfl
    · rw [hk.input_eq, hnext, hmid]
      simp only [source, List.flatMap_cons, List.flatMap_append, Token.source, List.append_assoc]
  -- What is left out adds an empty node, which has no tokens.
  | skip _ _ _ ih => exact ih
  | finish _ _ _ ih => exact ih
  | led _ _ ih =>
    obtain ⟨ks, hks, hinput⟩ := ih
    refine ⟨ks, ?_, hinput⟩
    rw [tokensOf, tokensOf, List.append_nil, Tree.tokens, tokensOf, hks]
    rfl
  | via _ _ _ iht ih =>
    obtain ⟨ks₁, hks₁, hinput⟩ := iht
    obtain ⟨ks₂, hks₂, hmid⟩ := ih
    rw [tokensOf, tokensOf, List.append_nil] at hks₁
    refine ⟨ks₁ ++ ks₂, ?_, ?_⟩
    · rw [tokensOf, tokensOf, List.append_nil, Tree.tokens, tokensOf, hks₁, hks₂]
      simp only [Task.taken, List.cons_append, List.nil_append]
    · rw [hinput, hmid]
      simp only [source, List.flatMap_append, List.append_assoc]

/-- At the end of the input nothing more is taken. -/
theorem Derives.rest_eq_of_atEnd (h : Derives task outer input ts rest) (hend : AtEnd input) :
    rest = input := by
  induction h with
  | nil => rfl
  | tok hk => exact absurd hend hk.not_atEnd
  | start hk => exact absurd hend hk.not_atEnd
  | skip hk => exact absurd hend hk.not_atEnd
  | finish _ _ _ ih => exact ih hend
  | led _ _ ih => exact ih hend
  | via _ _ _ iht ih =>
    obtain rfl := iht hend
    exact ih hend

/-- A list of symbols is read in two parts. -/
theorem Derives.exists_of_append (front : List Symbol) {back : List Symbol}
    (h : Derives (.list (front ++ back)) outer input ts rest) :
    ∃ ts₁ ts₂ mid, ts = ts₁ ++ ts₂ ∧ Derives (.list front) (back ++ outer) input ts₁ mid ∧
      Derives (.list back) outer mid ts₂ rest := by
  induction front generalizing input ts with
  | nil => exact ⟨[], ts, input, rfl, .nil, h⟩
  | cons s front ih =>
    rw [List.cons_append] at h
    cases h with
    | tok hk h =>
      obtain ⟨ts₁, ts₂, mid, rfl, hfront, hback⟩ := ih h
      rw [← List.cons_append, List.append_assoc] at hk
      exact ⟨_, ts₂, mid, rfl, .tok hk hfront, hback⟩
    | start hk hn ht h =>
      obtain ⟨ts₁, ts₂, mid, rfl, hfront, hback⟩ := ih h
      rw [← List.cons_append, List.append_assoc] at hk
      rw [List.append_assoc] at ht
      exact ⟨_, ts₂, mid, rfl, .start hk hn ht hfront, hback⟩
    | skip hk hn h =>
      obtain ⟨ts₁, ts₂, mid, rfl, hfront, hback⟩ := ih h
      rw [← List.cons_append, List.append_assoc] at hk
      exact ⟨_, ts₂, mid, rfl, .skip hk hn hfront, hback⟩
    | finish hend hn h =>
      obtain ⟨ts₁, ts₂, mid, rfl, hfront, hback⟩ := ih h
      exact ⟨_, ts₂, mid, rfl, .finish hend hn hfront, hback⟩

/-- Two lists of symbols are read one after the other. -/
theorem Derives.append {front back : List Symbol} {ts₁ ts₂ : List Tree} {mid : List Char}
    (h₁ : Derives (.list front) (back ++ outer) input ts₁ mid)
    (h₂ : Derives (.list back) outer mid ts₂ rest) :
    Derives (.list (front ++ back)) outer input (ts₁ ++ ts₂) rest := by
  induction front generalizing input ts₁ with
  | nil =>
    cases h₁
    exact h₂
  | cons s front ih =>
    cases h₁ with
    | tok hk h =>
      rw [← List.append_assoc, List.cons_append] at hk
      exact .tok hk (ih h)
    | start hk hn ht h =>
      rw [← List.append_assoc, List.cons_append] at hk
      rw [← List.append_assoc] at ht
      exact .start hk hn ht (ih h)
    | skip hk hn h =>
      rw [← List.append_assoc, List.cons_append] at hk
      exact .skip hk hn (ih h)
    | finish hend hn h => exact .finish hend hn (ih h)

end DeclSchema.Grammar
