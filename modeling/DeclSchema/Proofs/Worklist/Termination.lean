import DeclSchema.Proofs.Schema.Mention
import DeclSchema.Proofs.Worklist.Closure
import Mathlib.Logic.Function.Iterate

/-!
# Treating names ends

The loop that treats all names puts names on the stack while it runs, so the stack measures nothing.
But a name is asked for once and for all, and what is on the stack or was taken from it are together
the requested names. So no name is taken twice, whatever failed in between, and there are only so
many names: beyond those from outside, only what the declarations of the table mention.

The worklist is followed here through its whole life in single rounds of the loop, with the names
that were asked for from outside and the names that were taken from the stack. All treatments of all
names, failing or not, are made of such rounds.

## Main definitions

* `Life`: a worklist with the names that were asked for and those that were taken, round by round
* `Mentioned`: the names that the declarations of a table mention

## Main results

* `Life.runs`: every run is made of rounds
* `Life.perm`: the names that were taken and those on the stack are the requested ones
* `iterate_resolve_stack`: treating all names often enough leaves nothing, even if names fail
* `life_ends`: no name is taken twice, and every way of using a worklist comes to an end
-/

namespace DeclSchema.Worklist

variable {d : Drafts} {w₀ w w' : Worklist} {wanted taken : List Name}

/-- The life of a worklist: the names that were asked for from outside and the names that were taken
from the stack, each in order. A round of the loop takes one name and treats it; a life does not end
where that fails. -/
inductive Life (d : Drafts) (w₀ : Worklist) : List Name → List Name → Worklist → Prop where
  | start : Life d w₀ [] [] w₀
  | request {wanted taken : List Name} {w : Worklist} (h : Life d w₀ wanted taken w) (name : Name)
      (requester : Option Text) : Life d w₀ (wanted ++ [name]) taken (w.request name requester)
  | round {wanted taken : List Name} {w w' : Worklist} {name : Name} {rest : List Name}
      {fault? : Option Fault} (h : Life d w₀ wanted taken w) (hs : w.stack = name :: rest)
      (ht : treat d name { w with stack := rest } = (w', fault?)) :
      Life d w₀ wanted (taken ++ [name]) w'

/-- The names that the declarations of a table mention: named types and entries of `extends`
clauses, at any depth. -/
def Mentioned (t : Table) (name : Text) : Prop :=
  ∃ p ∈ t.entries, ∃ m ∈ p.2.mentions, m.name = name

theorem asked_concat (steps : List Step) (step : Step) :
    asked (steps ++ [step]) = asked steps ++ step.asked?.toList := by
  cases step <;> simp [asked, Step.asked?]

namespace Life

/-! ### Runs are made of rounds -/

/-- Treating all names goes on with a life round by round, whether it fails or not. -/
theorem drains {failure? : Option Failure} (h : Life d w₀ wanted taken w)
    (hd : Drains d w w' failure?) : ∃ more, Life d w₀ wanted (taken ++ more) w' := by
  induction hd generalizing taken with
  | done => exact ⟨[], by rwa [List.append_nil]⟩
  | fail hs ht => exact ⟨[_], h.round hs ht⟩
  | next hs ht _ ih =>
    obtain ⟨more, hmore⟩ := ih (h.round hs ht)
    exact ⟨_ :: more, by rwa [List.append_cons]⟩

theorem runs {steps : List Step} {failures : List Failure} (h : Runs d w₀ steps w failures) :
    ∃ taken, Life d w₀ ((asked steps).map .text) taken w := by
  induction h with
  | nil => exact ⟨[], .start⟩
  | snoc _ ht ih =>
    obtain ⟨taken, hlife⟩ := ih
    cases ht with
    | request name requester =>
      refine ⟨taken, ?_⟩
      simpa [asked_concat, Step.asked?] using hlife.request (.text name) requester
    | resolve hd =>
      obtain ⟨more, hmore⟩ := hlife.drains hd
      refine ⟨taken ++ more, ?_⟩
      simpa [asked_concat, Step.asked?] using hmore

end Life

/-! ### Names that were taken -/

/-- The names that were taken and those on the stack are the requested ones, and no two of these
stand for one name. -/
structure Parts (w : Worklist) (taken : List Name) : Prop where
  apart : w.requested.Pairwise fun m n => m.same n = false
  perm : (taken ++ w.stack).Perm w.requested

namespace Parts

theorem empty : Parts Worklist.empty [] :=
  ⟨.nil, .refl _⟩

theorem request (h : Parts w taken) (name : Name) (requester : Option Text) :
    Parts (w.request name requester) taken := by
  by_cases hr : w.isRequested name
  · rwa [Worklist.request, if_pos hr]
  · -- A new name stands for none of the old ones, and goes to both lists.
    have hnew : ∀ m ∈ w.requested, m.same name = false := by
      intro m hm
      rw [Name.same_comm]
      exact Bool.eq_false_iff.2 fun hs => hr (List.any_eq_true.2 ⟨m, hm, hs⟩)
    rw [Worklist.request, if_neg hr]
    refine ⟨List.pairwise_append.2 ⟨h.apart, by simp, ?_⟩, ?_⟩
    · intro m hm n hn
      rw [List.mem_singleton.1 hn]
      exact hnew m hm
    · exact List.perm_middle.trans ((h.perm.cons name).trans (List.perm_append_singleton _ _).symm)

theorem noteAll (h : Parts w taken) (scope : Text) (events : List Schema.Event) :
    Parts (w.noteAll scope events) taken := by
  induction events generalizing w with
  | nil => exact h
  | cons e rest ih =>
    apply ih
    cases e with
    | asked name => exact h.request _ _
    | schemaless sort text => exact ⟨h.apart, h.perm⟩

theorem requestAll (h : Parts w taken) (vs : List Json) : Parts (w.requestAll vs).1 taken := by
  induction vs generalizing w with
  | nil => exact h
  | cons v rest ih =>
    unfold Worklist.requestAll
    split
    · exact ih (h.request _ _)
    · exact h

theorem start (o : Options) : Parts (start o).1 [] := by
  unfold Worklist.start
  split
  · exact empty.requestAll _
  · exact empty

/-- A name that is taken from the stack goes from one part to the other. -/
theorem pop {name : Name} {rest : List Name} (h : Parts w taken) (hs : w.stack = name :: rest) :
    Parts { w with stack := rest } (taken ++ [name]) := by
  refine ⟨h.apart, ?_⟩
  have := h.perm
  rwa [hs, List.append_cons] at this

theorem treat {name : Name} {fault? : Option Fault} (h : Parts w taken)
    (ht : treat d name w = (w', fault?)) : Parts w' taken := by
  have hnote (u : Text) (events : List Schema.Event) :
      Parts ((w.report (.resolving u)).noteAll u events) taken :=
    noteAll (w := w.report (.resolving u)) ⟨h.apart, h.perm⟩ u events
  obtain ⟨u, draft, schema, -, -, -, -, rfl⟩ | ⟨u, draft, fault, -, -, -, -, rfl⟩ | ⟨-, -, rfl⟩ :=
    treat_cases ht
  · exact ⟨(hnote u draft.events).apart, (hnote u draft.events).perm⟩
  · exact hnote u draft.events
  · exact ⟨h.apart, h.perm⟩

theorem life (h₀ : Parts w₀ []) (h : Life d w₀ wanted taken w) : Parts w taken := by
  induction h with
  | start => exact h₀
  | request _ name requester ih => exact ih.request name requester
  | round _ hs ht ih => exact (ih.pop hs).treat ht

theorem pairwise_taken (h : Parts w taken) : taken.Pairwise fun m n => m.same n = false := by
  have hall := h.perm.symm.pairwise h.apart fun hmn => by rwa [Name.same_comm]
  exact (List.pairwise_append.1 hall).1

theorem length_add (h : Parts w taken) :
    taken.length + w.pending.length = w.requested.length := by
  rw [pending, List.length_reverse, ← List.length_append]
  exact h.perm.length_eq

theorem taken_subset (h : Parts w taken) : taken ⊆ w.requested :=
  fun _ hn => h.perm.subset (List.mem_append_left _ hn)

end Parts

/-! ### Where names come from -/

theorem mem_requested_of_request {n name : Name} {requester : Option Text}
    (h : n ∈ (w.request name requester).requested) : n ∈ w.requested ∨ n = name := by
  unfold request at h
  split at h
  · exact Or.inl h
  · simpa using h

theorem mem_requested_of_requestAll {n : Name} {vs : List Json}
    (h : n ∈ (w.requestAll vs).1.requested) :
    n ∈ w.requested ∨ ∃ v ∈ vs, Name.ofJson? v = some n := by
  induction vs generalizing w with
  | nil => exact Or.inl h
  | cons v rest ih =>
    unfold requestAll at h
    split at h
    · next name hname =>
      rcases ih h with hn | ⟨v', hv', hn⟩
      · rcases mem_requested_of_request hn with hn | rfl
        · exact Or.inl hn
        · exact Or.inr ⟨v, List.mem_cons_self, hname⟩
      · exact Or.inr ⟨v', List.mem_cons_of_mem _ hv', hn⟩
    · exact Or.inl h

theorem mem_requested_of_treat {name n : Name} {fault? : Option Fault}
    (ht : treat d name w = (w', fault?)) (h : n ∈ w'.requested) :
    n ∈ w.requested ∨ ∃ u, n = .text u ∧ ∃ scope, u ∈ d.refs scope := by
  have hnote {u : Text} {draft : Draft} (hd : d u = some draft)
      (hn : n ∈ ((w.report (.resolving u)).noteAll u draft.events).requested) :
      n ∈ w.requested ∨ ∃ v, n = .text v ∧ ∃ scope, v ∈ d.refs scope := by
    rcases mem_requested_noteAll.1 hn with hn | ⟨v, hv, rfl⟩
    · exact Or.inl hn
    · exact Or.inr ⟨v, rfl, u, by simpa [Drafts.refs, hd] using hv⟩
  obtain ⟨u, draft, schema, -, hd, -, -, rfl⟩ | ⟨u, draft, fault, -, hd, -, -, rfl⟩ |
    ⟨-, -, rfl⟩ := treat_cases ht
  · exact hnote hd h
  · exact hnote hd h
  · exact Or.inl h

/-- A name that was asked for was so from the start, from outside, or by a draft. -/
theorem Life.mem_requested {n : Name} (h : Life d w₀ wanted taken w) (hn : n ∈ w.requested) :
    n ∈ w₀.requested ∨ n ∈ wanted ∨ ∃ u, n = .text u ∧ ∃ scope, u ∈ d.refs scope := by
  induction h with
  | start => exact Or.inl hn
  | request _ name _ ih =>
    rcases mem_requested_of_request hn with hn | rfl
    · rcases ih hn with hn | hn | hn
      · exact Or.inl hn
      · exact Or.inr (Or.inl (List.mem_append_left _ hn))
      · exact Or.inr (Or.inr hn)
    · exact Or.inr (Or.inl (by simp))
  | round _ _ ht ih =>
    rcases mem_requested_of_treat ht hn with hn | hn
    · exact ih hn
    · exact Or.inr (Or.inr hn)

section Tables

variable {t : Table} {o : Options}

/-- The definitions of a table ask for nothing that its declarations do not mention. -/
theorem mentioned_of_mem_refs {u scope : Text} (h : u ∈ (drafts t o).refs scope) :
    Mentioned t u := by
  cases hget : t.get? scope with
  | none => simp [Drafts.refs, drafts, hget] at h
  | some declared =>
    simp only [Drafts.refs, drafts_of_get? hget, Option.map_some, Option.getD_some,
      mem_askedNames] at h
    have hasks := Schema.ofDeclaration_asks (s := {n | ∃ m ∈ declared.mentions, m.name = n})
      ⟨t, o, scope⟩ fun m hm => ⟨m, hm, rfl⟩
    exact ⟨_, Entries.mem_of_get? hget, hasks _ h⟩

theorem mem_seeds_of_start (h₀ : start o = (w₀, none)) {n : Name} (hn : n ∈ w₀.requested) :
    ∃ seeds, o.seeds = .ok seeds ∧ ∃ v ∈ seeds, Name.ofJson? v = some n := by
  unfold start at h₀
  split at h₀
  · next seeds hseeds =>
    have hw : (empty.requestAll seeds).1 = w₀ := congrArg Prod.fst h₀
    rw [← hw] at hn
    refine ⟨seeds, ?_, (mem_requested_of_requestAll hn).resolve_left List.not_mem_nil⟩
    cases hc : o.check with
    | ok _ => rwa [hc] at hseeds
    | error fault =>
      rw [hc] at hseeds
      cases hseeds
  · cases h₀

/-! ### Nothing is left in the end -/

/-- To take a name makes a worklist smaller, and to treat it does not undo that. -/
theorem size_treat_lt {name : Name} {rest : List Name} (hs : w.stack = name :: rest) :
    (treat (drafts t o) name { w with stack := rest }).1.size t o < w.size t o := by
  refine Nat.lt_of_le_of_lt (size_treat_le t o name _) ?_
  simp [size, isRequested, hs]

theorem size_resolve_le (w : Worklist) : (w.resolve t o).1.size t o ≤ w.size t o := by
  fun_induction resolve t o w with
  | case1 => exact Nat.le_refl _
  | case2 w name rest hs => exact Nat.le_of_lt (size_treat_lt hs)
  | case3 w name rest hs treated _ ih => exact Nat.le_trans ih (Nat.le_of_lt (size_treat_lt hs))

/-- To treat all names, even if the first one fails, makes a worklist smaller if there are any. -/
theorem size_resolve_lt (hs : w.stack ≠ []) : (w.resolve t o).1.size t o < w.size t o := by
  obtain ⟨name, rest, hs⟩ := List.exists_cons_of_ne_nil hs
  have hlt := size_treat_lt (t := t) (o := o) hs
  rw [resolve.eq_def]
  split
  · next hnil => cases hs.symm.trans hnil
  · next name' rest' hcons =>
    cases hs.symm.trans hcons
    dsimp only
    split
    · exact hlt
    · exact Nat.lt_of_le_of_lt (size_resolve_le _) hlt

theorem resolve_of_stack_eq_nil (hs : w.stack = []) : w.resolve t o = (w, none) :=
  resolve_eq_iff_drains.2 ⟨none, .done hs, rfl⟩

/-- Nothing is left when all names were treated as often as the size of the worklist says. -/
theorem iterate_resolve_stack {k : Nat} (hk : w.size t o ≤ k) :
    ((fun w => (w.resolve t o).1)^[k] w).stack = [] := by
  induction k generalizing w with
  | zero =>
    have hsize : w.stack.length ≤ w.size t o := Nat.le_add_left _ _
    have hlength : w.stack.length = 0 := by omega
    exact List.length_eq_zero_iff.1 hlength
  | succ k ih =>
    rw [Function.iterate_succ_apply]
    by_cases hs : w.stack = []
    · have hfixed : (w.resolve t o).1 = w := by rw [resolve_of_stack_eq_nil hs]
      rw [hfixed, Function.iterate_fixed hfixed]
      exact hs
    · have := size_resolve_lt (t := t) (o := o) hs
      exact ih (by omega)

/-- **Treating names ends.** Every run, whatever fails in it, is made of rounds that take one name
each. At any time between two rounds no two of the names that were taken stand for one name, they
are as many as the requested names without the pending ones, and each of them is one to start from,
or was asked for from outside, or is mentioned in the table. So to treat all names always ends, and
after sufficiently many times nothing is pending. -/
theorem life_ends (h₀ : start o = (w₀, none)) :
    (∀ steps w failures, Runs (drafts t o) w₀ steps w failures →
      ∃ taken, Life (drafts t o) w₀ ((asked steps).map .text) taken w) ∧
    ∀ wanted taken w, Life (drafts t o) w₀ wanted taken w →
      (taken.Pairwise fun m n => m.same n = false) ∧
      taken.length + w.pending.length = w.requested.length ∧
      (∀ n ∈ taken,
        (∃ seeds, o.seeds = .ok seeds ∧ ∃ v ∈ seeds, Name.ofJson? v = some n) ∨
        n ∈ wanted ∨ ∃ u, n = .text u ∧ Mentioned t u) ∧
      (∃ failure?, Drains (drafts t o) w (w.resolve t o).1 failure?) ∧
      ∃ bound, ∀ k ≥ bound, ((fun w => (w.resolve t o).1)^[k] w).pending = [] := by
  refine ⟨fun steps w failures hr => Life.runs hr, fun wanted taken w h => ?_⟩
  have hparts : Parts w taken := by
    have := Parts.start o
    rw [h₀] at this
    exact this.life h
  -- The parts into which the requested names fall are kept by every round, so they can be read off
  -- at any time.
  refine ⟨hparts.pairwise_taken, hparts.length_add, fun n hn => ?_, ?_, w.size t o, ?_⟩
  · rcases h.mem_requested (hparts.taken_subset hn) with hseed | hwanted | ⟨u, rfl, scope, hu⟩
    · exact Or.inl (mem_seeds_of_start h₀ hseed)
    · exact Or.inr (Or.inl hwanted)
    · exact Or.inr (Or.inr ⟨u, rfl, mentioned_of_mem_refs hu⟩)
  · obtain ⟨failure?, hd, -⟩ := drains_resolve t o w
    exact ⟨failure?, hd⟩
  · intro k hk
    rw [pending, iterate_resolve_stack hk, List.reverse_nil]

/-- Two interfaces that refer to each other and to themselves; the second one has a member without a
type, so it has no definition. -/
def crossTable : Table :=
  .ofDeclarations
    [.interface (.ofString "R") [] [] []
      [.property [] (.plain (.ofString "r")) (some (.reference [] (.ofString "R") [])) false false,
       .property [] (.plain (.ofString "g")) (some (.reference [] (.ofString "G") [])) false false,
       .property [] (.plain (.ofString "s")) (some (.reference [] (.ofString "S") [])) false false],
     .interface (.ofString "S") [] [] []
      [.property [] (.plain (.ofString "r")) (some (.array [] (some (.reference [] (.ofString "R")
        [])))) false false,
       .property [] (.plain (.ofString "e")) (some (.reference [] (.ofString "E") [])) false false,
       .property [] (.plain (.ofString "m")) none false false]]

/-- The first treatment of all names fails in the middle, a name is asked for, and the second one
takes what was left; each name was taken once. -/
theorem life_ends_crossTable :
    ∃ w, Life (drafts crossTable (.rootedAt (.ofString "R")))
        (start (.rootedAt (.ofString "R"))).1 [.text (.ofString "S")]
        [.text (.ofString "R"), .text (.ofString "S"), .text (.ofString "E")] w ∧
      w.pending = [.text (.ofString "G")] ∧
      3 + w.pending.length = w.requested.length ∧
      ∃ bound, ∀ k ≥ bound,
        ((fun w => (w.resolve crossTable (.rootedAt (.ofString "R"))).1)^[k] w).pending = [] := by
  have h : Life (drafts crossTable (.rootedAt (.ofString "R")))
      (start (.rootedAt (.ofString "R"))).1 ([] ++ [.text (.ofString "S")])
      ([] ++ [.text (.ofString "R")] ++ [.text (.ofString "S")] ++ [.text (.ofString "E")]) _ :=
    .round (.request (.round (.round .start rfl rfl) rfl rfl) _ none) rfl rfl
  obtain ⟨-, hlength, -, -, hend⟩ := (life_ends (Prod.ext rfl rfl)).2 _ _ _ h
  exact ⟨_, h, rfl, hlength, hend⟩

end Tables

end DeclSchema.Worklist
