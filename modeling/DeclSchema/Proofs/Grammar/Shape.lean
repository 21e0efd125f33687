import DeclSchema.Proofs.Grammar.Appending

/-!
# Shapes of trees

Every tree that was read has the shape of a branch of its nonterminal, unless it has no children
because the nonterminal was left out. What is made of a tree is looked at by the cases of its shape,
and where it matters how the tree was read, the shape says that too.

## Main definitions

* `ReadAs`: somewhere a nonterminal is read as a tree
* `Fits`, `HasShape`: the trees of a list of symbols, or of one nonterminal, have the shapes that
  the grammar admits

## Main results

* `Derives.fits`: what is derived fits
* `HasShape.exists_cases`: the shapes of the tree of a nonterminal
-/

namespace DeclSchema.Grammar

open Terminal Nonterminal Grammar.Tree

/-- Somewhere the nonterminal is read as the tree, where its first token is seen among others that
may start it. -/
inductive ReadAs (n : Nonterminal) (t : Tree) : Prop where
  | intro {symbols outer : List Symbol} {input next rest : List Char} {k : Token}
      (hk : Sees symbols input k next)
      (hstarts : ∀ u, starts n u = true → expects symbols u = true)
      (h : Derives (.node n k) outer next [t] rest) : ReadAs n t

/-- The trees of symbols have the shapes of branches, and were read. -/
inductive Fits : List Symbol → List Tree → Prop where
  | nil : Fits [] []
  | tok {u : Terminal} {symbols : List Symbol} {k : Token} {ts : List Tree} (hk : k.terminal = u)
      (h : Fits symbols ts) : Fits (.tok u :: symbols) (.leaf k :: ts)
  | empty {n : Nonterminal} {symbols : List Symbol} {ts : List Tree} (hn : n.mayBeEmpty = true)
      (h : Fits symbols ts) : Fits (.sub n :: symbols) (.node n [] :: ts)
  | node {n : Nonterminal} {symbols : List Symbol} {ts us : List Tree} {b : Branch}
      (hb : b ∈ n.branches) (hus : Fits b.symbols us) (hread : ReadAs n (.node n us))
      (h : Fits symbols ts) : Fits (.sub n :: symbols) (.node n us :: ts)

/-! ### What is derived -/

section Derives

variable {n m : Nonterminal} {symbols outer : List Symbol} {input rest : List Char}
  {ts : List Tree}

/-- A terminal that starts what leads a branch starts the nonterminal. -/
theorem starts_of_via (h : .via m symbols ∈ n.branches) {u : Terminal} (hm : starts m u = true) :
    starts n u = true := by
  rw [starts, List.any_eq_true]
  exact ⟨⟨_, h⟩, List.mem_attach .., hm⟩

theorem eq_of_branch?_led {u v : Terminal} (h : branch? n v = some (.led u symbols)) : v = u := by
  have hlead := List.find?_some h
  exact (beq_iff_eq.1 hlead).symm

theorem expects_of_sees {k : Token} {next : List Char}
    (hk : Sees (.sub n :: symbols) input k next) (hn : starts n k.terminal = false) :
    n.mayBeEmpty = true := by
  have hexpected := hk.expected
  simp only [expects, hn, Bool.false_or, Bool.and_eq_true] at hexpected
  exact hexpected.1

/-- What is read for a task fits: its symbols, or a branch of the nonterminal that was started. -/
def Task.Fits (input : List Char) (ts : List Tree) : Task → Prop
  | .list symbols => Grammar.Fits symbols ts
  | .node n k => ∀ ⦃symbols : List Symbol⦄ ⦃before : List Char⦄, Sees symbols before k input →
      (∀ u, starts n u = true → expects symbols u = true) →
        ∃ us, ts = [.node n us] ∧ ReadAs n (.node n us) ∧
          ∃ b ∈ n.branches, Grammar.Fits b.symbols us

theorem Derives.task_fits {task : Task} (h : Derives task outer input ts rest) :
    task.Fits input ts := by
  induction h with
  | nil => exact .nil
  | tok hk _ ih =>
    exact .tok (beq_iff_eq.1 hk.expected).symm ih
  | start hk _ _ _ iht ih =>
    obtain ⟨us, ⟨⟩, hread, b, hb, hus⟩ := iht hk fun u hu => expects_of_starts hu
    exact .node hb hus hread ih
  | skip hk hn _ ih => exact .empty (expects_of_sees hk hn) ih
  | finish _ hn _ ih => exact .empty hn ih
  | led hbranch h ih =>
    intro symbols before hk hstarts
    exact ⟨_, rfl, .intro hk hstarts (.led hbranch h), _, List.mem_of_find?_eq_some hbranch,
      .tok (eq_of_branch?_led hbranch) ih⟩
  | via hbranch ht h iht ih =>
    intro symbols before hk hstarts
    have hmem := List.mem_of_find?_eq_some hbranch
    obtain ⟨us, ⟨⟩, hread, b, hb, hus⟩ := iht hk fun u hu => hstarts u (starts_of_via hmem hu)
    exact ⟨_, rfl, .intro hk hstarts (.via hbranch ht h), _, hmem, .node hb hus hread ih⟩

/-- What is derived from symbols fits them. -/
theorem Derives.fits (h : Derives (.list symbols) outer input ts rest) : Fits symbols ts :=
  h.task_fits

end Derives

/-! ### The shape of one tree -/

/-- The tree has a shape that the grammar gives to the nonterminal. -/
def HasShape (n : Nonterminal) (t : Tree) : Prop :=
  Fits [.sub n] [t]

section Fits

variable {n : Nonterminal} {u : Terminal} {symbols : List Symbol} {ts : List Tree} {t : Tree}

theorem fits_nil_iff : Fits [] ts ↔ ts = [] := by
  constructor
  · rintro ⟨⟩
    rfl
  · rintro rfl
    exact .nil

theorem fits_tok_iff :
    Fits (.tok u :: symbols) ts ↔
      ∃ k rest, ts = .leaf k :: rest ∧ k.terminal = u ∧ Fits symbols rest := by
  constructor
  · rintro (_ | ⟨hk, h⟩)
    exact ⟨_, _, rfl, hk, h⟩
  · rintro ⟨k, rest, rfl, hk, h⟩
    exact .tok hk h

theorem fits_sub_iff :
    Fits (.sub n :: symbols) ts ↔ ∃ t rest, ts = t :: rest ∧ HasShape n t ∧ Fits symbols rest := by
  constructor
  · rintro (_ | _ | ⟨hn, h⟩ | ⟨hb, hus, hread, h⟩)
    · exact ⟨_, _, rfl, .empty hn .nil, h⟩
    · exact ⟨_, _, rfl, .node hb hus hread .nil, h⟩
  · rintro ⟨t, rest, rfl, hn, h⟩
    cases hn with
    | empty hn => exact .empty hn h
    | node hb hus hread => exact .node hb hus hread h

/-- A tree has no children because the nonterminal was left out, or it has the shape of a branch. -/
theorem HasShape.exists_cases (h : HasShape n t) :
    n.mayBeEmpty = true ∧ t = .node n [] ∨
      ∃ us, t = .node n us ∧ ReadAs n t ∧ ∃ b ∈ n.branches, Fits b.symbols us := by
  cases h with
  | empty hn => exact .inl ⟨hn, rfl⟩
  | node hb hus hread => exact .inr ⟨_, rfl, hread, _, hb, hus⟩

/-- A nonterminal that is not left out has a tree with the shape of a branch. -/
theorem HasShape.exists_branch (h : HasShape n t) (hn : n.mayBeEmpty = false) :
    ∃ us, t = .node n us ∧ ReadAs n t ∧ ∃ b ∈ n.branches, Fits b.symbols us := by
  obtain ⟨hempty, -⟩ | hbranch := h.exists_cases
  · rw [hn] at hempty
    cases hempty
  · exact hbranch

end Fits

end DeclSchema.Grammar
