import DeclSchema.Proofs.Grammar.Closing

/-!
# The same tokens in other groups

The grammar reads what follows an operand by nonterminals of its own where the operand is a name or
in parentheses at the start of a type, so that the next terminal alone decides. The same tokens can
be read as the brackets, the names and the operands of any other type.

## Main definitions

* `Omits`: a nonterminal is left out
* `joinMore`, `joinSuffixes`, `joinNamed`: the trees of several nonterminals as that of one
* `Joins`: one nonterminal repeats what another one repeats, and takes what comes after it too
* `Leads`: a nonterminal stands for another one unless some terminals come next

## Main results

* `Derives.congr`: only the terminals that may follow matter
* `derives_cons_iff`, `derives_sub_iff`: a list of symbols is read symbol by symbol
* `Joins.derives_iff`, `derives_joinSuffixes_iff`, `derives_joinNamed_iff`: the same tokens are
  read in either way
-/

namespace DeclSchema.Grammar

open Terminal Nonterminal

variable {task : Task} {n m : Nonterminal} {symbols outer outer' : List Symbol}
  {input next mid rest : List Char} {k : Token} {t : Tree} {ts : List Tree}

/-! ### What follows -/

theorem expects_append_congr (he : expects outer = expects outer') (symbols : List Symbol) :
    expects (symbols ++ outer) = expects (symbols ++ outer') := by
  induction symbols with
  | nil => exact he
  | cons s symbols ih =>
    funext u
    cases s with
    | tok t => rfl
    | sub n => simp only [List.cons_append, expects, ih]

/-- The next token is the same where the same terminals may come. -/
theorem Sees.congr {s : Symbol} (hk : Sees (s :: symbols ++ outer) input k rest)
    (he : expects outer = expects outer') : Sees (s :: symbols ++ outer') input k rest := by
  have hexpects := expects_append_congr he (s :: symbols)
  have hreserves : reserves (s :: symbols ++ outer) = reserves (s :: symbols ++ outer') :=
    reserves_cons s _ _
  have hspots := hk.spots
  rw [hexpects, hreserves] at hspots
  exact hspots.sees (hexpects ▸ hk.expected)

/-- Only the terminals that may follow matter for what is read. -/
theorem Derives.congr (h : Derives task outer input ts rest) (he : expects outer = expects outer') :
    Derives task outer' input ts rest := by
  induction h generalizing outer' with
  | nil => exact .nil
  | tok hk _ ih => exact .tok (hk.congr he) (ih he)
  | start hk hn _ _ iht ih =>
    exact .start (hk.congr he) hn (iht (expects_append_congr he _)) (ih he)
  | skip hk hn _ ih => exact .skip (hk.congr he) hn (ih he)
  | finish hend hn _ ih => exact .finish hend hn (ih he)
  | led hbranch _ ih => exact .led hbranch (ih he)
  | via hbranch _ _ iht ih => exact .via hbranch (iht (expects_append_congr he _)) (ih he)

/-- No terminal is told apart from a name besides those that may come. -/
theorem Spots.sub_sees (h : Spots (expects (.sub m :: outer)) input k rest)
    (hk : expects (.sub m :: outer) k.terminal = true) (hm : m ≠ .exportListAfterBlock) :
    Sees (.sub m :: outer) input k rest := by
  refine (h.of_admits (by rw [hk, Bool.true_or]) (.of_imp fun v hv => ?_)).sees hk
  have hreserves : reserves (.sub m :: outer) v = false := by
    cases m <;> first | rfl | exact absurd rfl hm
  rwa [hreserves, Bool.or_false] at hv

/-- The next token is the same where the same terminals may come, whatever may be read from it. -/
theorem Sees.sub_congr (hk : Sees (.sub n :: outer) input k rest)
    (he : expects (.sub n :: outer) = expects (.sub m :: outer'))
    (hm : m ≠ .exportListAfterBlock) : Sees (.sub m :: outer') input k rest := by
  have hspots := ClosesAs.spots_of_sees hk
  rw [he] at hspots
  exact hspots.sub_sees (he ▸ hk.expected) hm

/-- Behind a nonterminal that is left out, the next token is the same. -/
theorem Sees.behind (hk : Sees (.sub n :: .sub m :: outer) input k rest)
    (hn : starts n k.terminal = false) (hm : m ≠ .exportListAfterBlock) :
    Sees (.sub m :: outer) input k rest := by
  refine (ClosesAs.spots_of_skip hk hn).sub_sees ?_ hm
  have hexpected := hk.expected
  rw [expects, hn, Bool.false_or, Bool.and_eq_true] at hexpected
  exact hexpected.2

/-! ### Symbol by symbol -/

/-- The nonterminal is left out: the next token does not start it, or there is none. -/
def Omits (n : Nonterminal) (outer : List Symbol) (input : List Char) : Prop :=
  n.mayBeEmpty = true ∧
    (AtEnd input ∨ ∃ k next, Sees (.sub n :: outer) input k next ∧ starts n k.terminal = false)

theorem derives_cons_iff {s : Symbol} {us : List Tree} :
    Derives (.list (s :: symbols)) outer input us rest ↔
      ∃ t ts mid, us = t :: ts ∧ Derives (.list [s]) (symbols ++ outer) input [t] mid ∧
        Derives (.list symbols) outer mid ts rest := by
  constructor
  · intro h
    obtain ⟨ts₁, ts₂, mid, rfl, h₁, h₂⟩ := h.exists_of_append [s]
    have hone : ∃ t, ts₁ = [t] := by
      cases h₁ with
      | tok _ h => cases h; exact ⟨_, rfl⟩
      | start _ _ _ h => cases h; exact ⟨_, rfl⟩
      | skip _ _ h => cases h; exact ⟨_, rfl⟩
      | finish _ _ h => cases h; exact ⟨_, rfl⟩
    obtain ⟨t, rfl⟩ := hone
    exact ⟨t, ts₂, mid, rfl, h₁, h₂⟩
  · rintro ⟨t, ts, mid, rfl, h₁, h₂⟩
    exact h₁.append h₂

theorem derives_nil_iff : Derives (.list []) outer input ts rest ↔ ts = [] ∧ rest = input := by
  constructor
  · rintro ⟨⟩
    exact ⟨rfl, rfl⟩
  · rintro ⟨rfl, rfl⟩
    exact .nil

theorem exists_of_derives_single {s : Symbol} (h : Derives (.list [s]) outer input ts rest) :
    ∃ t, ts = [t] ∧ Derives (.list [s]) outer input [t] rest := by
  obtain ⟨t, _, _, rfl, ht, hnil⟩ := derives_cons_iff.1 h
  obtain ⟨rfl, rfl⟩ := derives_nil_iff.1 hnil
  exact ⟨t, rfl, ht⟩

theorem exists_of_derives_pair {s s' : Symbol}
    (h : Derives (.list [s, s']) outer input ts rest) :
    ∃ t t' mid, ts = [t, t'] ∧ Derives (.list [s]) (s' :: outer) input [t] mid ∧
      Derives (.list [s']) outer mid [t'] rest := by
  obtain ⟨t, _, mid, rfl, ht, h⟩ := derives_cons_iff.1 h
  obtain ⟨t', rfl, ht'⟩ := exists_of_derives_single h
  exact ⟨t, t', mid, rfl, ht, ht'⟩

theorem derives_tok_iff {u : Terminal} :
    Derives (.list [.tok u]) outer input [t] rest ↔
      ∃ k, t = .leaf k ∧ Sees (.tok u :: outer) input k rest := by
  constructor
  · intro h
    cases h with
    | tok hk h =>
      cases h
      exact ⟨_, rfl, hk⟩
  · rintro ⟨k, rfl, hk⟩
    exact .tok hk .nil

theorem derives_sub_iff :
    Derives (.list [.sub n]) outer input [t] rest ↔
      (∃ k next, Sees (.sub n :: outer) input k next ∧ starts n k.terminal = true ∧
        Derives (.node n k) outer next [t] rest) ∨
      t = .node n [] ∧ rest = input ∧ Omits n outer input := by
  constructor
  · intro h
    cases h with
    | start hk hn ht h =>
      cases h
      exact .inl ⟨_, _, hk, hn, ht⟩
    | skip hk hn h =>
      cases h
      exact .inr ⟨rfl, rfl, expects_of_sees hk hn, .inr ⟨_, _, hk, hn⟩⟩
    | finish hend hn h =>
      cases h
      exact .inr ⟨rfl, rfl, hn, .inl hend⟩
  · rintro (⟨k, next, hk, hn, ht⟩ | ⟨rfl, rfl, hn, hend | ⟨k, next, hk, hk'⟩⟩)
    · exact .start hk hn ht .nil
    · exact .finish hend hn .nil
    · exact .skip hk hk' .nil

theorem derives_sub_iff_of_atEnd (hend : AtEnd input) (hn : n.mayBeEmpty = true) :
    Derives (.list [.sub n]) outer input [t] rest ↔ t = .node n [] ∧ rest = input := by
  rw [derives_sub_iff]
  constructor
  · rintro (⟨k, next, hk, -⟩ | ⟨ht, hrest, -⟩)
    · exact absurd hend hk.not_atEnd
    · exact ⟨ht, hrest⟩
  · rintro ⟨ht, hrest⟩
    exact .inr ⟨ht, hrest, hn, .inl hend⟩

theorem derives_sub_iff_of_sees (hk : Sees (.sub n :: outer) input k next)
    (hn : n.mayBeEmpty = true) :
    Derives (.list [.sub n]) outer input [t] rest ↔
      starts n k.terminal = true ∧ Derives (.node n k) outer next [t] rest ∨
        starts n k.terminal = false ∧ t = .node n [] ∧ rest = input := by
  rw [derives_sub_iff]
  constructor
  · rintro (⟨k', next', hk', hstarts, ht⟩ | ⟨ht, hrest, -, hend | ⟨k', next', hk', hstarts⟩⟩)
    · obtain ⟨rfl, rfl⟩ := hk.spots.eq hk'.spots
      exact .inl ⟨hstarts, ht⟩
    · exact absurd hend hk.not_atEnd
    · obtain ⟨rfl, rfl⟩ := hk.spots.eq hk'.spots
      exact .inr ⟨hstarts, ht, hrest⟩
  · rintro (⟨hstarts, ht⟩ | ⟨hstarts, ht, hrest⟩)
    · exact .inl ⟨k, next, hk, hstarts, ht⟩
    · exact .inr ⟨ht, hrest, hn, .inr ⟨k, next, hk, hstarts⟩⟩

/-- A nonterminal that is left out before other symbols. -/
theorem derives_cons_iff_of_omits (homits : Omits n (symbols ++ outer) input) :
    Derives (.list (.sub n :: symbols)) outer input (t :: ts) rest ↔
      t = .node n [] ∧ Derives (.list symbols) outer input ts rest := by
  rw [derives_cons_iff]
  constructor
  · rintro ⟨_, _, mid, ⟨⟩, ht, hts⟩
    obtain ⟨hn, hend | ⟨k, next, hk, hstarts⟩⟩ := homits
    · obtain ⟨rfl, rfl⟩ := (derives_sub_iff_of_atEnd hend hn).1 ht
      exact ⟨rfl, hts⟩
    · obtain ⟨hstarts', -⟩ | ⟨-, rfl, rfl⟩ := (derives_sub_iff_of_sees hk hn).1 ht
      · rw [hstarts] at hstarts'
        cases hstarts'
      · exact ⟨rfl, hts⟩
  · rintro ⟨rfl, hts⟩
    exact ⟨_, _, _, rfl, derives_sub_iff.2 (.inr ⟨rfl, rfl, homits⟩), hts⟩

theorem derives_led_iff {u : Terminal} (hbranch : branch? n k.terminal = some (.led u symbols)) :
    Derives (.node n k) outer next [t] rest ↔
      ∃ ts, t = .node n (.leaf k :: ts) ∧ Derives (.list symbols) outer next ts rest := by
  constructor
  · intro h
    cases h with
    | led hbranch' h =>
      cases hbranch.symm.trans hbranch'
      exact ⟨_, rfl, h⟩
    | via hbranch' => cases hbranch.symm.trans hbranch'
  · rintro ⟨ts, rfl, h⟩
    exact .led hbranch h

theorem derives_via_iff (hbranch : branch? n k.terminal = some (.via m symbols)) :
    Derives (.node n k) outer next [t] rest ↔
      ∃ u ts mid, t = .node n (u :: ts) ∧ Derives (.node m k) (symbols ++ outer) next [u] mid ∧
        Derives (.list symbols) outer mid ts rest := by
  constructor
  · intro h
    cases h with
    | led hbranch' => cases hbranch.symm.trans hbranch'
    | via hbranch' ht h =>
      cases hbranch.symm.trans hbranch'
      exact ⟨_, _, _, rfl, ht, h⟩
  · rintro ⟨u, ts, mid, rfl, ht, h⟩
    exact .via hbranch ht h

/-- A nonterminal is read by a branch that its first token leads, or by one that starts with another
nonterminal. -/
theorem Derives.node_cases (h : Derives (.node n k) outer next [t] rest) :
    (∃ symbols ts, .led k.terminal symbols ∈ branches n ∧ t = .node n (.leaf k :: ts) ∧
      Derives (.list symbols) outer next ts rest) ∨
    ∃ m symbols u ts mid, .via m symbols ∈ branches n ∧ starts m k.terminal = true ∧
      t = .node n (u :: ts) ∧ Derives (.node m k) (symbols ++ outer) next [u] mid ∧
      Derives (.list symbols) outer mid ts rest := by
  cases h with
  | led hbranch h =>
    have hmem := List.mem_of_find?_eq_some hbranch
    rw [← eq_of_branch?_led hbranch] at hmem
    exact .inl ⟨_, _, hmem, rfl, h⟩
  | via hbranch ht h =>
    have hstarts := List.find?_some hbranch
    exact .inr ⟨_, _, _, _, _, List.mem_of_find?_eq_some hbranch, hstarts, rfl, ht, h⟩

/-- A nonterminal is left out where another one is that the same terminals start or follow. -/
theorem Omits.congr (h : Omits n outer input)
    (he : expects (.sub n :: outer) = expects (.sub m :: outer'))
    (hm : m ≠ .exportListAfterBlock ∧ m.mayBeEmpty = true)
    (hstarts : ∀ u, starts n u = false → starts m u = false) : Omits m outer' input :=
  ⟨hm.2, h.2.imp id fun ⟨k, next, hk, hn⟩ => ⟨k, next, hk.sub_congr he hm.1, hstarts _ hn⟩⟩

/-! ### Repetitions -/

/-- The trees of a repetition as those of another nonterminal, where `base` is the tree that comes
after the last of them. -/
def joinMore (q : Nonterminal) (base : Tree) : Tree → Tree
  | .node _ [mark, item, more] => .node q [mark, item, joinMore q base more]
  | _ => base

/-- The nonterminal `q` repeats what `n` repeats, the symbol `s` after the terminal `u`, and takes
what `back` takes after that, as a tree that `base` relates to the trees of `back`. -/
structure Joins (n q : Nonterminal) (u : Terminal) (s : Symbol) (back outer : List Symbol)
    (base : List Tree → Tree → Prop) : Prop where
  branch_left : branch? n u = some (.led u [s, .sub n])
  branch_right : branch? q u = some (.led u [s, .sub q])
  starts_eq : ∀ v, starts n v = true → v = u
  mayBeEmpty : n.mayBeEmpty = true
  ne : n ≠ .exportListAfterBlock ∧ q ≠ .exportListAfterBlock
  expects_eq : expects (.sub n :: (back ++ outer)) = expects (.sub q :: outer)
  base_iff : ∀ {input rest : List Char} {t : Tree}, Omits n (back ++ outer) input →
    (Derives (.list [.sub q]) outer input [t] rest ↔
      ∃ bs, base bs t ∧ Derives (.list back) outer input bs rest)

namespace Joins

variable {q : Nonterminal} {u : Terminal} {s : Symbol} {back : List Symbol}
  {base : List Tree → Tree → Prop}

theorem derives (hj : Joins n q u s back outer base) {input : List Char} {o b : Tree}
    {bs : List Tree} (hb : base bs b)
    (h : Derives (.list (.sub n :: back)) outer input (o :: bs) rest) :
    Derives (.list [.sub q]) outer input [joinMore q b o] rest := by
  obtain ⟨_, _, mid, ⟨⟩, ho, hbs⟩ := derives_cons_iff.1 h
  -- By recursion on the trees of the repetition, at the end of which `back` is read.
  obtain ⟨k, next, hk, hn, ho⟩ | ⟨rfl, rfl, homits⟩ := derives_sub_iff.1 ho
  · have hk' := hj.starts_eq _ hn
    have hleft := hj.branch_left
    have hright := hj.branch_right
    rw [← hk'] at hleft hright
    obtain ⟨us, rfl, hus⟩ := (derives_led_iff hleft).1 ho
    obtain ⟨p, m, mid', rfl, hp, hm⟩ := exists_of_derives_pair hus
    have hrest := hj.derives hb (derives_cons_iff.2 ⟨m, bs, _, rfl, hm, hbs⟩)
    exact derives_sub_iff.2 (.inl ⟨k, next, hk.sub_congr hj.expects_eq hj.ne.2,
      starts_of_branch? hright, (derives_led_iff hright).2 ⟨_, rfl, derives_cons_iff.2
        ⟨p, _, mid', rfl, hp.congr hj.expects_eq, hrest⟩⟩⟩)
  · exact (hj.base_iff homits).2 ⟨bs, hb, hbs⟩
termination_by sizeOf o

theorem exists_derives (hj : Joins n q u s back outer base) {input : List Char} {t : Tree}
    (h : Derives (.list [.sub q]) outer input [t] rest) :
    ∃ o bs b, base bs b ∧ t = joinMore q b o ∧
      Derives (.list (.sub n :: back)) outer input (o :: bs) rest := by
  have homitted (h : Derives (.list [.sub q]) outer input [t] rest)
      (homits : Omits n (back ++ outer) input) : ∃ o bs b, base bs b ∧ t = joinMore q b o ∧
        Derives (.list (.sub n :: back)) outer input (o :: bs) rest := by
    obtain ⟨bs, hb, hbs⟩ := (hj.base_iff homits).1 h
    exact ⟨.node n [], bs, t, hb, rfl, derives_cons_iff.2
      ⟨_, _, _, rfl, derives_sub_iff.2 (.inr ⟨rfl, rfl, homits⟩), hbs⟩⟩
  obtain ⟨k, next, hk, hn, ht⟩ | ⟨-, -, -, hend | ⟨k, next, hk, hn⟩⟩ := derives_sub_iff.1 h
  · have hk'' := hk.sub_congr hj.expects_eq.symm hj.ne.1
    by_cases hk' : k.terminal = u
    · have hleft := hj.branch_left
      have hright := hj.branch_right
      rw [← hk'] at hleft hright
      obtain ⟨us, rfl, hus⟩ := (derives_led_iff hright).1 ht
      obtain ⟨p, m, mid, rfl, hp, hm⟩ := exists_of_derives_pair hus
      obtain ⟨o, bs, b, hb, rfl, hrest⟩ := hj.exists_derives hm
      obtain ⟨_, _, mid', ⟨⟩, ho, hbs⟩ := derives_cons_iff.1 hrest
      refine ⟨.node n [.leaf k, p, o], bs, b, hb, rfl, derives_cons_iff.2 ⟨_, _, mid', rfl,
        derives_sub_iff.2 (.inl ⟨k, next, hk'', starts_of_branch? hleft,
          (derives_led_iff hleft).2 ⟨_, rfl, ?_⟩⟩), hbs⟩⟩
      exact derives_cons_iff.2 ⟨p, _, mid, rfl, hp.congr hj.expects_eq.symm, ho⟩
    · exact homitted h ⟨hj.mayBeEmpty, .inr ⟨k, next, hk'',
        Bool.eq_false_iff.2 fun hstarts => hk' (hj.starts_eq _ hstarts)⟩⟩
  · exact homitted h ⟨hj.mayBeEmpty, .inl hend⟩
  · refine homitted h ⟨hj.mayBeEmpty, .inr ⟨k, next, hk.sub_congr hj.expects_eq.symm hj.ne.1,
      Bool.eq_false_iff.2 fun hstarts => ?_⟩⟩
    -- A terminal that both repeat is taken where it comes next.
    have hright := hj.branch_right
    rw [← hj.starts_eq _ hstarts] at hright
    rw [starts_of_branch? hright] at hn
    cases hn
termination_by sizeOf t

/-- The same tokens are read in either way. -/
theorem derives_iff (hj : Joins n q u s back outer base) :
    Derives (.list [.sub q]) outer input [t] rest ↔
      ∃ o bs b, base bs b ∧ t = joinMore q b o ∧
        Derives (.list (.sub n :: back)) outer input (o :: bs) rest :=
  ⟨hj.exists_derives, fun ⟨_, _, _, hb, ht, h⟩ => ht ▸ hj.derives hb h⟩

end Joins

/-! ### Operands -/

theorem joins_operands (outer : List Symbol) :
    Joins .moreOperands (.typeRest true) .ampersand (.sub .operator) [.sub (.typeRest true)] outer
      (fun bs b => bs = [b]) where
  branch_left := rfl
  branch_right := rfl
  starts_eq v hv := by cases v <;> first | rfl | exact absurd hv Bool.false_ne_true
  mayBeEmpty := rfl
  ne := ⟨nofun, nofun⟩
  expects_eq := by
    funext u
    cases u <;> rfl
  base_iff _ := by simp

/-! ### A nonterminal in the place of another one -/

/-- A tree as the only one of a nonterminal, which is left out where the tree is. -/
def alone (n : Nonterminal) : Tree → Tree
  | .node _ [] => .node n []
  | t => .node n [t]

/-- Where the next token is none of `marks`, the nonterminal `n` has nothing but `m` to be read. -/
structure Leads (n m : Nonterminal) (marks : List Terminal) : Prop where
  mayBeEmpty : n.mayBeEmpty = true ∧ m.mayBeEmpty = true
  ne : n ≠ .exportListAfterBlock ∧ m ≠ .exportListAfterBlock
  starts_imp : ∀ u, starts m u = true → starts n u = true
  starts_eq : ∀ u, u ∉ marks → starts n u = starts m u
  branch : ∀ u, u ∉ marks → starts m u = true → branch? n u = some (.via m [])

namespace Leads

variable {marks : List Terminal}

/-- The next token is none of `marks`, if there is one. -/
def Avoids (n : Nonterminal) (marks : List Terminal) (outer : List Symbol) (input : List Char) :
    Prop :=
  AtEnd input ∨ ∃ k next, Sees (.sub n :: outer) input k next ∧ k.terminal ∉ marks

theorem sees (hl : Leads n m marks) (hk : Sees (.sub n :: outer) input k next)
    (hmarks : k.terminal ∉ marks) : Sees (.sub m :: outer) input k next := by
  have hexpects : ∀ u, expects (.sub m :: outer) u = true → expects (.sub n :: outer) u = true := by
    intro u hu
    simp only [expects, hl.mayBeEmpty, Bool.true_and, Bool.or_eq_true] at hu ⊢
    exact hu.imp (hl.starts_imp u) id
  have hexpected : expects (.sub m :: outer) k.terminal = true := by
    have hexpected := hk.expected
    simp only [expects, hl.mayBeEmpty, hl.starts_eq _ hmarks] at hexpected ⊢
    exact hexpected
  exact (hk.spots.of_admits hexpected (.of_imp fun v hv => by
    rw [hexpects v hv, Bool.true_or])).sub_sees hexpected hl.ne.2

/-- What `m` is read as is what `n` is read as, alone. -/
theorem derives_iff (hl : Leads n m marks) (havoids : Avoids n marks outer input) :
    Derives (.list [.sub n]) outer input [t] rest ↔
      ∃ r, t = alone n r ∧ Derives (.list [.sub m]) outer input [r] rest := by
  obtain ⟨hn, hm⟩ := hl.mayBeEmpty
  obtain hend | ⟨k, next, hk, hmarks⟩ := havoids
  · simp only [derives_sub_iff_of_atEnd hend hn, derives_sub_iff_of_atEnd hend hm]
    constructor
    · rintro ⟨rfl, rfl⟩
      exact ⟨_, rfl, rfl, rfl⟩
    · rintro ⟨_, rfl, rfl, rfl⟩
      exact ⟨rfl, rfl⟩
  · rw [derives_sub_iff_of_sees hk hn, hl.starts_eq _ hmarks]
    simp only [derives_sub_iff_of_sees (hl.sees hk hmarks) hm]
    constructor
    · rintro (⟨hstarts, ht⟩ | ⟨hstarts, rfl, rfl⟩)
      · obtain ⟨r, _, mid, rfl, hr, hnil⟩ := (derives_via_iff (hl.branch _ hmarks hstarts)).1 ht
        obtain ⟨rfl, rfl⟩ := derives_nil_iff.1 hnil
        refine ⟨r, ?_, .inl ⟨hstarts, hr⟩⟩
        cases hr <;> rfl
      · exact ⟨_, rfl, .inr ⟨hstarts, rfl, rfl⟩⟩
    · rintro ⟨r, rfl, ⟨hstarts, hr⟩ | ⟨hstarts, rfl, rfl⟩⟩
      · -- A tree that was read is not empty, so it is put below `n`.
        have halone : alone n r = .node n [r] := by cases hr <;> rfl
        rw [halone]
        exact .inl ⟨hstarts, (derives_via_iff (hl.branch _ hmarks hstarts)).2
          ⟨r, [], _, rfl, hr, .nil⟩⟩
      · exact .inr ⟨hstarts, rfl, rfl⟩

/-- The nonterminal `n` is read from its mark on, or as `m` alone. -/
theorem cases {u : Terminal} {x : Nonterminal} (hl : Leads n m [u])
    (hbranch : branch? n u = some (.led u [.sub x]))
    (h : Derives (.list [.sub n]) outer input [t] rest) :
    (∃ k r, t = .node n [.leaf k, r]) ∨
      ∃ r, t = alone n r ∧ Derives (.list [.sub m]) outer input [r] rest := by
  have hn := hl.mayBeEmpty.1
  by_cases hmark : ∃ k next, Sees (.sub n :: outer) input k next ∧ k.terminal = u
  · obtain ⟨k, next, hk, rfl⟩ := hmark
    obtain ⟨-, ht⟩ | ⟨hfalse, -⟩ := (derives_sub_iff_of_sees hk hn).1 h
    · obtain ⟨_, rfl, hr⟩ := (derives_led_iff hbranch).1 ht
      obtain ⟨r, rfl, -⟩ := exists_of_derives_single hr
      exact .inl ⟨k, r, rfl⟩
    · rw [starts_of_branch? hbranch] at hfalse
      cases hfalse
  · -- The mark does not come next, so nothing but `m` is read.
    refine .inr ((hl.derives_iff ?_).1 h)
    have hsees {k : Token} {next : List Char} (hk : Sees (.sub n :: outer) input k next) :
        Avoids n [u] outer input :=
      .inr ⟨k, next, hk, fun hmem => hmark ⟨k, next, hk, List.mem_singleton.1 hmem⟩⟩
    obtain ⟨k, next, hk, -⟩ | ⟨-, -, -, hend | ⟨k, next, hk, -⟩⟩ := derives_sub_iff.1 h
    · exact hsees hk
    · exact .inl hend
    · exact hsees hk

end Leads

/-- Where a nonterminal is left out, the next token is none that starts it. -/
theorem Omits.avoids {q : Nonterminal} {marks : List Terminal} (homits : Omits n outer' input)
    (he : expects (.sub n :: outer') = expects (.sub q :: outer)) (hq : q ≠ .exportListAfterBlock)
    (hmarks : ∀ u ∈ marks, starts n u = true) : Leads.Avoids q marks outer input := by
  obtain ⟨-, hend | ⟨k, next, hk, hn⟩⟩ := homits
  · exact .inl hend
  · refine .inr ⟨k, next, hk.sub_congr he hq, fun hmem => ?_⟩
    rw [hmarks _ hmem] at hn
    cases hn

/-! ### Brackets -/

/-- The brackets after an operand, before what may follow them. -/
def joinSuffixes (s r : Tree) : Tree :=
  joinMore (.suffixedRest true) (alone (.suffixedRest true) r) s

theorem leads_suffixedRest : Leads (.suffixedRest true) (.typeRest true) [.openBracket] where
  mayBeEmpty := ⟨rfl, rfl⟩
  ne := ⟨nofun, nofun⟩
  starts_imp u hu := by cases u <;> first | rfl | exact absurd hu Bool.false_ne_true
  starts_eq u hu := by cases u <;> first | rfl | exact absurd (List.mem_singleton_self _) hu
  branch u hu hstarts := by
    cases u <;> first | rfl | exact absurd hstarts Bool.false_ne_true

theorem expects_suffixes (outer : List Symbol) :
    expects (.sub .suffixes :: .sub (.typeRest true) :: outer)
      = expects (.sub (.suffixedRest true) :: outer) := by
  funext u
  cases u <;> rfl

theorem derives_singleton_iff {p : Tree → Prop} :
    (∃ bs, (∃ r, bs = [r] ∧ p r) ∧ Derives (.list [.sub n]) outer input bs rest) ↔
      ∃ r, p r ∧ Derives (.list [.sub n]) outer input [r] rest := by
  constructor
  · rintro ⟨_, ⟨r, rfl, hp⟩, h⟩
    exact ⟨r, hp, h⟩
  · rintro ⟨r, hp, h⟩
    exact ⟨_, ⟨r, rfl, hp⟩, h⟩

theorem joins_suffixes (outer : List Symbol) :
    Joins .suffixes (.suffixedRest true) .openBracket (.sub .arrayOrIndex) [.sub (.typeRest true)]
      outer (fun bs b => ∃ r, bs = [r] ∧ b = alone (.suffixedRest true) r) where
  branch_left := rfl
  branch_right := rfl
  starts_eq v hv := by cases v <;> first | rfl | exact absurd hv Bool.false_ne_true
  mayBeEmpty := rfl
  ne := ⟨nofun, nofun⟩
  expects_eq := expects_suffixes outer
  base_iff homits := by
    have hmarks : ∀ u ∈ [Terminal.openBracket], starts .suffixes u = true := by
      rintro u hu
      rw [List.mem_singleton.1 hu]
      rfl
    rw [leads_suffixedRest.derives_iff (homits.avoids (expects_suffixes outer) nofun hmarks),
      derives_singleton_iff]

/-- Brackets and what may follow them are read together. -/
theorem derives_joinSuffixes_iff :
    Derives (.list [.sub (.suffixedRest true)]) outer input [t] rest ↔
      ∃ s r, t = joinSuffixes s r ∧
        Derives (.list [.sub .suffixes, .sub (.typeRest true)]) outer input [s, r] rest := by
  rw [(joins_suffixes outer).derives_iff]
  constructor
  · rintro ⟨s, _, _, ⟨r, rfl, rfl⟩, ht, h⟩
    exact ⟨s, r, ht, h⟩
  · rintro ⟨s, r, ht, h⟩
    exact ⟨s, _, _, ⟨r, rfl, rfl⟩, ht, h⟩

/-! ### Names -/

/-- The type arguments and brackets after a name, before what may follow them. -/
def joinArguments (a s r : Tree) : Tree :=
  match a with
  | .node _ [opening, first, more, closing] =>
    .node (.namedRest true) [opening, first, more, closing, joinSuffixes s r]
  | _ => alone (.namedRest true) (joinSuffixes s r)

/-- The names, type arguments and brackets after a name, before what may follow them. -/
def joinNamed (d a s r : Tree) : Tree :=
  joinMore (.namedRest true) (joinArguments a s r) d

theorem leads_namedRest : Leads (.namedRest true) (.suffixedRest true) [.dot, .less] where
  mayBeEmpty := ⟨rfl, rfl⟩
  ne := ⟨nofun, nofun⟩
  starts_imp u hu := by cases u <;> first | rfl | exact absurd hu Bool.false_ne_true
  starts_eq u hu := by cases u <;> first | rfl | exact absurd (by simp) hu
  branch u hu hstarts := by
    cases u <;> first | rfl | exact absurd hstarts Bool.false_ne_true

theorem expects_typeArguments (outer : List Symbol) :
    expects (.sub .dotted :: .sub .typeArguments :: .sub .suffixes :: .sub (.typeRest true) :: outer)
      = expects (.sub (.namedRest true) :: outer) := by
  funext u
  cases u <;> rfl

/-- Where type arguments are left out, brackets and what may follow them come next. -/
theorem derives_joinArguments_iff_of_omits
    (hargs : Omits .typeArguments ([.sub .suffixes, .sub (.typeRest true)] ++ outer) input)
    (havoids : Leads.Avoids (.namedRest true) [.dot, .less] outer input) :
    Derives (.list [.sub (.namedRest true)]) outer input [t] rest ↔
      ∃ a s r, t = joinArguments a s r ∧
        Derives (.list [.sub .typeArguments, .sub .suffixes, .sub (.typeRest true)]) outer input
          [a, s, r] rest := by
  simp only [leads_namedRest.derives_iff havoids, derives_joinSuffixes_iff,
    derives_cons_iff_of_omits hargs]
  constructor
  · rintro ⟨_, rfl, s, r, rfl, h⟩
    exact ⟨_, s, r, rfl, rfl, h⟩
  · rintro ⟨_, s, r, rfl, rfl, h⟩
    exact ⟨_, rfl, s, r, rfl, h⟩

/-- What follows the arguments differs in its nonterminals but not in what may come next. -/
theorem derives_arguments_iff {ts : List Tree} :
    Derives (.list [.sub (.type true), .sub .moreTypes, .tok .greater])
        (.sub (.suffixedRest true) :: outer) next ts mid ↔
      Derives (.list [.sub (.type true), .sub .moreTypes, .tok .greater])
        (.sub .suffixes :: .sub (.typeRest true) :: outer) next ts mid :=
  ⟨fun h => h.congr (expects_suffixes outer).symm, fun h => h.congr (expects_suffixes outer)⟩

/-- Where a type argument list opens, it is read in front of the brackets. -/
theorem derives_joinArguments_iff_of_less (hless : k.terminal = .less)
    (hnamed : Sees (.sub (.namedRest true) :: outer) input k next)
    (hargs : Sees (.sub .typeArguments :: ([.sub .suffixes, .sub (.typeRest true)] ++ outer))
      input k next) :
    Derives (.list [.sub (.namedRest true)]) outer input [t] rest ↔
      ∃ a s r, t = joinArguments a s r ∧
        Derives (.list [.sub .typeArguments, .sub .suffixes, .sub (.typeRest true)]) outer input
          [a, s, r] rest := by
  have hbranch : branch? (.namedRest true) k.terminal = some (.led .less [.sub (.type true),
      .sub .moreTypes, .tok .greater, .sub (.suffixedRest true)]) := by
    rw [hless]
    rfl
  have hbranch' : branch? .typeArguments k.terminal = some (.led .less [.sub (.type true),
      .sub .moreTypes, .tok .greater]) := by
    rw [hless]
    rfl
  rw [derives_sub_iff_of_sees hnamed rfl]
  simp only [starts_of_branch? hbranch, derives_led_iff hbranch]
  constructor
  · rintro (⟨-, ts, rfl, h⟩ | ⟨⟨⟩, -⟩)
    obtain ⟨us, vs, mid, rfl, hus, hvs⟩ := h.exists_of_append
      [.sub (.type true), .sub .moreTypes, .tok .greater]
    obtain ⟨q, rfl, hq⟩ := exists_of_derives_single hvs
    obtain ⟨s, r, rfl, hsr⟩ := derives_joinSuffixes_iff.1 hq
    obtain ⟨f, _, _, rfl, hf, hmore⟩ := derives_cons_iff.1 hus
    obtain ⟨m, g, _, rfl, hm, hg⟩ := exists_of_derives_pair hmore
    refine ⟨.node .typeArguments [.leaf k, f, m, g], s, r, rfl, derives_cons_iff.2
      ⟨_, _, _, rfl, ?_, hsr⟩⟩
    rw [derives_sub_iff_of_sees hargs rfl]
    exact .inl ⟨starts_of_branch? hbranch', (derives_led_iff hbranch').2
      ⟨_, rfl, derives_arguments_iff.1 hus⟩⟩
  · rintro ⟨a, s, r, rfl, h⟩
    obtain ⟨_, _, mid, ⟨⟩, ha, hsr⟩ := derives_cons_iff.1 h
    rw [derives_sub_iff_of_sees hargs rfl] at ha
    simp only [starts_of_branch? hbranch', derives_led_iff hbranch'] at ha
    obtain ⟨-, us, rfl, hus⟩ | ⟨⟨⟩, -⟩ := ha
    -- The other way, the parts are read one behind the other again.
    have hq := derives_joinSuffixes_iff.2 ⟨s, r, rfl, hsr⟩
    obtain ⟨f, _, _, rfl, hf, hmore⟩ := derives_cons_iff.1 hus
    obtain ⟨m, g, _, rfl, hm, hg⟩ := exists_of_derives_pair hmore
    exact .inl ⟨trivial, _, rfl, (derives_arguments_iff.2 hus).append hq⟩

/-- Where no further name comes next, the type arguments and the brackets are read together. -/
theorem derives_joinArguments_iff
    (homits : Omits .dotted ([.sub .typeArguments, .sub .suffixes, .sub (.typeRest true)] ++ outer)
      input) :
    Derives (.list [.sub (.namedRest true)]) outer input [t] rest ↔
      ∃ a s r, t = joinArguments a s r ∧
        Derives (.list [.sub .typeArguments, .sub .suffixes, .sub (.typeRest true)]) outer input
          [a, s, r] rest := by
  obtain ⟨-, hend | ⟨k, next, hk, hn⟩⟩ := homits
  · exact derives_joinArguments_iff_of_omits ⟨rfl, .inl hend⟩ (.inl hend)
  have hnamed := hk.sub_congr (expects_typeArguments outer) nofun
  have hargs : Sees (.sub .typeArguments :: ([.sub .suffixes, .sub (.typeRest true)] ++ outer))
      input k next := hk.behind hn nofun
  by_cases hless : k.terminal = .less
  · exact derives_joinArguments_iff_of_less hless hnamed hargs
  · have hstarts : starts .typeArguments k.terminal = false := by
      generalize k.terminal = u at hless
      cases u <;> first | rfl | exact absurd rfl hless
    have hdot : k.terminal ≠ .dot := by
      intro hdot
      rw [hdot] at hn
      cases hn
    exact derives_joinArguments_iff_of_omits ⟨rfl, .inr ⟨k, next, hargs, hstarts⟩⟩
      (.inr ⟨k, next, hnamed, by simp [hdot, hless]⟩)

theorem joins_dotted (outer : List Symbol) :
    Joins .dotted (.namedRest true) .dot (.tok .name)
      [.sub .typeArguments, .sub .suffixes, .sub (.typeRest true)] outer
      (fun bs b => ∃ a s r, bs = [a, s, r] ∧ b = joinArguments a s r) where
  branch_left := rfl
  branch_right := rfl
  starts_eq v hv := by cases v <;> first | rfl | exact absurd hv Bool.false_ne_true
  mayBeEmpty := rfl
  ne := ⟨nofun, nofun⟩
  expects_eq := expects_typeArguments outer
  base_iff homits := by
    rw [derives_joinArguments_iff homits]
    constructor
    · rintro ⟨a, s, r, rfl, h⟩
      exact ⟨_, ⟨a, s, r, rfl, rfl⟩, h⟩
    · rintro ⟨_, ⟨a, s, r, rfl, rfl⟩, h⟩
      exact ⟨a, s, r, rfl, h⟩

/-- The names, type arguments and brackets after a name and what may follow them are read
together. -/
theorem derives_joinNamed_iff :
    Derives (.list [.sub (.namedRest true)]) outer input [t] rest ↔
      ∃ d a s r, t = joinNamed d a s r ∧
        Derives (.list [.sub .dotted, .sub .typeArguments, .sub .suffixes, .sub (.typeRest true)])
          outer input [d, a, s, r] rest := by
  rw [(joins_dotted outer).derives_iff]
  constructor
  · rintro ⟨d, _, _, ⟨a, s, r, rfl, rfl⟩, ht, h⟩
    exact ⟨d, a, s, r, ht, h⟩
  · rintro ⟨d, a, s, r, ht, h⟩
    exact ⟨d, _, _, ⟨a, s, r, rfl, rfl⟩, ht, h⟩

end DeclSchema.Grammar
