import DeclSchema.Proofs.Schema.Exclusion
import DeclSchema.Proofs.Worklist.Closure

/-!
# Runs that exclude more

A run whose options leave out more asks for less. The two runs take their names in different orders
from the first union or base on that only one of them visits, so they are not compared step by step.
The one that excludes less is taken as it is in the end: what it requested is closed under its own
drafts, so it is closed under the smaller drafts of the other run as well, and that run never leaves
it.

## Main definitions

* `Drafts.Bounds`: drafts of the same names that report no more and fail no more
* `Settles`: what a run without a failure comes to, wherever it started

## Main results

* `Settles.requested_subset`: a run with smaller drafts requests nothing else
* `resolve_of_excludesMore`: names that are defined or missing when more is excluded are so when
  less is, and a run that succeeds still does so where empty unions are accepted
-/

namespace DeclSchema.Worklist

variable {d d' : Drafts} {w₀ w w' : Worklist} {p : Prop}

/-- The same names have drafts, and the draft that a name has in the first place bounds the other
one. -/
structure Drafts.Bounds (p : Prop) (d d' : Drafts) : Prop where
  declared : ∀ u, d' u = none ↔ d u = none
  bounds : ∀ u draft draft', d u = some draft → d' u = some draft' → Traced.Bounds p draft draft'

/-! ### What a run comes to -/

/-- A missing name has no draft. -/
def Undeclared (d : Drafts) (w : Worklist) : Prop :=
  ∀ u, .text u ∈ w.missing → d u = none

theorem Undeclared.treat {name : Name} {fault? : Option Fault} (h : Undeclared d w)
    (ht : treat d name w = (w', fault?)) : Undeclared d w' := by
  obtain ⟨u, draft, schema, -, -, -, -, rfl⟩ | ⟨u, draft, fault, -, -, -, -, rfl⟩ |
    ⟨hd, -, rfl⟩ := treat_cases ht
  · intro v hv
    simp only [noteAll_missing] at hv
    exact h v hv
  · intro v hv
    rw [noteAll_missing] at hv
    exact h v hv
  · -- Only the name that is treated is new among the missing ones.
    intro v hv
    rcases List.mem_append.1 hv with hv | hv
    · exact h v hv
    · exact hd v (List.mem_singleton.1 hv).symm

theorem Undeclared.drains {failure? : Option Failure} (h : Undeclared d w)
    (hd : Drains d w w' failure?) : Undeclared d w' := by
  refine Drains.keeps (P := fun later _ => Undeclared d later) ?_ ?_ hd [] h
  · intro _ _ _ _ h _
    exact h
  · intro _ _ _ _ _ h ht
    exact h.treat ht

theorem missing_requestAll (vs : List Json) (w : Worklist) :
    (w.requestAll vs).1.missing = w.missing := by
  induction vs generalizing w with
  | nil => rfl
  | cons v rest ih =>
    unfold requestAll
    split
    · rw [ih, request_missing]
    · rfl

theorem undeclared_start (d : Drafts) (o : Options) : Undeclared d (start o).1 := by
  intro u hu
  have hnone : (start o).1.missing = [] := by
    unfold start
    split
    · exact missing_requestAll _ _
    · rfl
  rw [hnone] at hu
  cases hu

/-- Nothing is pending and nothing failed: every requested name has the definition of its draft, or
is missing and has none. -/
structure Settles (d : Drafts) (w : Worklist) : Prop where
  accounts : Accounts w []
  stack : w.stack = []
  records : Records d w
  undeclared : Undeclared d w

/-- A run without a failure settles all names, whatever values the options start from. -/
theorem Drains.settles {o : Options} (h₀ : start o = (w₀, none)) (h : Drains d w₀ w none) :
    Settles d w where
  accounts := by
    have hstart := Accounts.start o
    rw [h₀] at hstart
    exact hstart.drains h
  stack := h.stack_eq_nil
  records := by
    have hstart : Records d (start o).1 := .start o
    rw [h₀] at hstart
    exact hstart.drains h
  undeclared := by
    have hstart := undeclared_start d o
    rw [h₀] at hstart
    exact hstart.drains h

namespace Settles

variable (h : Settles d w)

include h

theorem mem_requested_iff {n : Name} :
    n ∈ w.requested ↔ n ∈ w.defined ∨ n ∈ w.missing := by
  rw [h.accounts.mem_requested_iff]
  simp [held, pending, h.stack]

theorem mem_keys_iff {u : Text} :
    u ∈ w.definitions.keys ↔ .text u ∈ w.requested ∧ d u ≠ none := by
  constructor
  · intro hu
    refine ⟨h.mem_requested_iff.2 (Or.inl (text_mem_defined.2 hu)), ?_⟩
    obtain ⟨p, hp, rfl⟩ := List.mem_map.1 hu
    obtain ⟨draft, hd, -⟩ := h.records p.1 p.2 hp
    rw [hd]
    exact Option.some_ne_none draft
  · rintro ⟨hu, hd⟩
    rcases h.mem_requested_iff.1 hu with hk | hm
    · exact text_mem_defined.1 hk
    · exact absurd (h.undeclared u hm) hd

theorem mem_missing_iff {n : Name} :
    n ∈ w.missing ↔ n ∈ w.requested ∧ ∀ u, n = .text u → d u = none := by
  constructor
  · intro hn
    refine ⟨h.mem_requested_iff.2 (Or.inr hn), ?_⟩
    rintro u rfl
    exact h.undeclared u hn
  · rintro ⟨hn, hd⟩
    rcases h.mem_requested_iff.1 hn with hk | hm
    · -- A defined name is a text that has a draft.
      obtain ⟨u, hu, rfl⟩ := List.mem_map.1 hk
      exact absurd (hd u rfl) (h.mem_keys_iff.1 hu).2
    · exact hm

/-- The draft of a requested name succeeds, and what it asks for is requested. -/
theorem exists_of_mem_requested {u : Text} {draft : Draft} (hu : .text u ∈ w.requested)
    (hd : d u = some draft) :
    (∃ schema, draft.outcome = .ok schema) ∧
      ∀ m, .asked m ∈ draft.events → .text m ∈ w.requested := by
  have hk : u ∈ w.definitions.keys := h.mem_keys_iff.2 ⟨hu, by simp [hd]⟩
  obtain ⟨q, hq, rfl⟩ := List.mem_map.1 hk
  obtain ⟨draft', hd', ho, hnoted⟩ := h.records q.1 q.2 hq
  cases hd.symm.trans hd'
  exact ⟨⟨q.2, ho⟩, fun m hm => hnoted _ hm⟩

/-! ### A run with smaller drafts -/

variable (hb : Drafts.Bounds p d d')

include hb

/-- What a run with smaller drafts requests is requested by the run that is settled. -/
theorem requested_subset {w₁ : Worklist} {others : List Name} {failure? : Option Failure}
    (hd : Drains d' w₁ w' failure?) (hsubset : w₁.requested ⊆ w.requested)
    (haccounts : Accounts w₁ others) : w'.requested ⊆ w.requested := by
  -- The account tells that the name which is treated is requested.
  refine (Drains.keeps (P := fun later others => later.requested ⊆ w.requested ∧
    Accounts later others) ?_ ?_ hd others ⟨hsubset, haccounts⟩).1
  · rintro later others name rest ⟨hsubset, haccounts⟩ hs
    exact ⟨hsubset, haccounts.pop hs⟩
  · rintro later next others name fault? ⟨hsubset, haccounts⟩ ht
    refine ⟨?_, haccounts.treat ht⟩
    have hname : name ∈ w.requested :=
      hsubset (haccounts.mem_requested_iff.2 (by simp))
    have hnoteAll : ∀ u draft', name = .text u → d' u = some draft' →
        ((later.report (.resolving u)).noteAll u draft'.events).requested ⊆ w.requested := by
      rintro u draft' rfl hd' n hn
      rcases mem_requested_noteAll.1 hn with hn | ⟨m, hm, rfl⟩
      · exact hsubset hn
      · obtain ⟨draft, hd⟩ : ∃ draft, d u = some draft := by
          rw [← Option.ne_none_iff_exists', ne_eq, ← hb.declared u]
          simp [hd']
        obtain ⟨⟨schema, ho⟩, hasked⟩ := h.exists_of_mem_requested hname hd
        exact hasked m ((hb.bounds u draft draft' hd hd' schema ho).1 (mem_askedNames.1 hm))
    obtain ⟨u, draft', schema, hu, hd', -, -, rfl⟩ | ⟨u, draft', fault, hu, hd', -, -, rfl⟩ |
      ⟨-, -, rfl⟩ := treat_cases ht
    · exact hnoteAll u draft' hu hd'
    · exact hnoteAll u draft' hu hd'
    · exact hsubset

/-- Under the proviso, a run with smaller drafts does not fail. -/
theorem failure_eq_none {failure? : Option Failure} {w₁ : Worklist} (hp : p)
    (hd : Drains d' w₁ w' failure?) (hsubset : w₁.requested ⊆ w.requested)
    (haccounts : Accounts w₁ []) : failure? = none := by
  cases failure? with
  | none => rfl
  | some failure =>
    obtain ⟨u, draft', hu, hd', hfault⟩ := hd.exists_draft
    have hrequested : failure.1 ∈ w.requested := by
      apply h.requested_subset hb hd hsubset haccounts
      exact (haccounts.drains hd).mem_requested_iff.2 (by simp)
    rw [hu] at hrequested
    obtain ⟨draft, hdraft⟩ : ∃ draft, d u = some draft := by
      rw [← Option.ne_none_iff_exists', ne_eq, ← hb.declared u]
      simp [hd']
    obtain ⟨⟨schema, ho⟩, -⟩ := h.exists_of_mem_requested hrequested hdraft
    obtain ⟨schema', ho'⟩ := (hb.bounds u draft draft' hdraft hd' schema ho).2 hp
    cases ho'.symm.trans hfault

end Settles

/-! ### Excluding more -/

variable {t : Table} {o o' : Options}

theorem drafts_bounds (h : o.ExcludesMore o') :
    Drafts.Bounds o.AcceptsEmptyUnions (drafts t o) (drafts t o') where
  declared u := by rw [drafts_eq_none_iff, drafts_eq_none_iff]
  bounds u draft draft' hd hd' := by
    obtain ⟨declared, hget, rfl⟩ := Option.map_eq_some_iff.1 hd
    obtain ⟨declared', hget', rfl⟩ := Option.map_eq_some_iff.1 hd'
    cases hget.symm.trans hget'
    exact Schema.ofDeclaration_bounds h u declared

/-- What is left out is not looked at before the first name is treated. -/
theorem start_eq_of_excludesMore (h : o.ExcludesMore o') : start o' = start o := by
  rw [start, start, h.check_eq, h.seeds_eq]

/-- **Excluding more makes nothing new reachable.** If all names are treated without a failure, then
so far as this succeeds for options that leave out more members of unions or more bases, every name
that is defined or missing was so before; and it does succeed if empty unions are accepted. -/
theorem resolve_of_excludesMore (h : o.ExcludesMore o') (h₀ : start o = (w₀, none))
    (hw : w₀.resolve t o = (w, none)) :
    start o' = (w₀, none) ∧
    (∀ w', w₀.resolve t o' = (w', none) →
      w'.definitions.keys ⊆ w.definitions.keys ∧ w'.missing ⊆ w.missing) ∧
    (o.AcceptsEmptyUnions → ∃ w', w₀.resolve t o' = (w', none)) := by
  obtain ⟨failure?, hd, hnone⟩ := resolve_eq_iff_drains.1 hw
  obtain rfl := Option.map_eq_none_iff.1 hnone
  -- Both runs settle their requested names, and those of the second one are fewer.
  have hsettles := hd.settles h₀
  have hb : Drafts.Bounds o.AcceptsEmptyUnions (drafts t o) (drafts t o') := drafts_bounds h
  have hstart : w₀.requested ⊆ w.requested := hd.extends.requested.subset
  have haccounts : Accounts w₀ [] := by
    have := Accounts.start o
    rwa [h₀] at this
  have h₀' : start o' = (w₀, none) := (start_eq_of_excludesMore h).trans h₀
  refine ⟨h₀', fun w' hw' => ?_, fun haccepts => ?_⟩
  · obtain ⟨failure?', hd', hnone'⟩ := resolve_eq_iff_drains.1 hw'
    obtain rfl := Option.map_eq_none_iff.1 hnone'
    have hsettles' := hd'.settles h₀'
    have hsubset := hsettles.requested_subset hb hd' hstart haccounts
    constructor
    · intro u hu
      obtain ⟨hrequested, hdeclared⟩ := hsettles'.mem_keys_iff.1 hu
      refine hsettles.mem_keys_iff.2 ⟨hsubset hrequested, ?_⟩
      rwa [ne_eq, ← hb.declared u]
    · intro n hn
      obtain ⟨hrequested, hundeclared⟩ := hsettles'.mem_missing_iff.1 hn
      refine hsettles.mem_missing_iff.2 ⟨hsubset hrequested, fun u hu => ?_⟩
      exact (hb.declared u).1 (hundeclared u hu)
  · obtain ⟨failure?', hd', hnone'⟩ := drains_resolve t o' w₀
    obtain rfl := hsettles.failure_eq_none hb haccepts hd' hstart haccounts
    exact ⟨_, Prod.ext rfl hnone'.symm⟩

/-- An interface with a base and two unions, of which one is in an array. -/
def shrinkingTable : Table :=
  .ofDeclarations
    [.interface (.ofString "R") [] [] [.mk (.ofString "M") (.ofString "M") []]
      [.property [] (.plain (.ofString "a")) (some (.union (.ofString "A | G")
          [.reference (.ofString "A") (.ofString "A") [],
            .reference (.ofString "G") (.ofString "G") []])) false false,
       .property [] (.plain (.ofString "b")) (some (.array [] (some (.union (.ofString "B")
          [.reference (.ofString "B") (.ofString "B") []])))) true false],
     .enumeration (.ofString "A") [] [.ofString "X"],
     .typeAlias (.ofString "B") [] [] (some (.reference (.ofString "G") (.ofString "G") []))]

/-- Options that start from one interface, accept empty unions and exclude the given texts. -/
def excluding (members bases : List String) : Options :=
  (((Options.rootedAt (.ofString "R")).set .emptyUnion (.text (.ofString "any"))).set
    .excludedUnionMembers (Options.list members)).set .markerBases (Options.list bases)

theorem excludesMore_excluding :
    (excluding [] []).ExcludesMore (excluding ["G", "B"] ["M"]) where
  own key hmembers hbases := by cases key <;> first | rfl | contradiction
  displaced := rfl
  members := ⟨_, _, rfl, rfl, List.nil_subset _⟩
  bases := ⟨_, _, rfl, rfl, List.nil_subset _⟩

/-- Without a base, a member of a union and all members of another one, fewer names are defined and
none is missing. -/
theorem resolve_of_excludesMore_sample :
    ∃ w w', (start (excluding [] [])).1.resolve shrinkingTable (excluding [] []) = (w, none) ∧
      (start (excluding [] [])).1.resolve shrinkingTable (excluding ["G", "B"] ["M"]) =
        (w', none) ∧
      w.definitions.keys = [.ofString "R", .ofString "B", .ofString "A"] ∧
      w.missing = [.text (.ofString "M"), .text (.ofString "G")] ∧
      w'.definitions.keys ⊆ w.definitions.keys ∧ w'.missing ⊆ w.missing := by
  have hd : Drains (drafts shrinkingTable (excluding [] [])) (start (excluding [] [])).1 _ none :=
    .next rfl rfl (.next rfl rfl (.next rfl rfl (.next rfl rfl (.next rfl rfl (.done rfl)))))
  have hw := resolve_eq_iff_drains.2 ⟨none, hd, rfl⟩
  obtain ⟨-, hsubset, hsucceeds⟩ :=
    resolve_of_excludesMore excludesMore_excluding (Prod.ext rfl rfl) hw
  obtain ⟨w', hw'⟩ := hsucceeds (Or.inl rfl)
  exact ⟨_, w', hw, hw', rfl, rfl, hsubset w' hw'⟩

end DeclSchema.Worklist
