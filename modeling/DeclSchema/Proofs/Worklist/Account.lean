import DeclSchema.Proofs.Entries
import DeclSchema.Proofs.Options.Seeds
import DeclSchema.Proofs.Worklist.Journal

/-!
# Every requested name is accounted for

At any time between two steps a requested name is pending, or it has a definition, or it is missing,
or its definition failed, and it is only one of these. This is a law of conservation: an operation
moves a name from one place to another one and loses none, whatever it asks for in between.

While a definition is being made its name is in no place. It is counted among `others` for that
time, together with the names that failed before; if the definition fails, it just stays there.

## Main definitions

* `held`: the names that are pending, defined or missing
* `Accounts`: the law of conservation

## Main results

* `Accounts.drains`: treating all names keeps the account, and moves a name that fails
* `partition_of_runs`: after every run, the four places part the requested names, and a name leaves
  the first three only by failing
-/

namespace DeclSchema.Worklist

variable {d : Drafts} {w w' : Worklist} {others : List Name}

/-- The names that have a definition. -/
def defined (w : Worklist) : List Name :=
  w.definitions.keys.map .text

/-- The names that are pending, defined or missing. -/
def held (w : Worklist) : List Name :=
  w.pending ++ w.defined ++ w.missing

/-- Every requested name is in exactly one place: it is held, or one of `others`. -/
structure Accounts (w : Worklist) (others : List Name) : Prop where
  nodup : w.requested.Nodup
  count (n : Name) : w.stack.count n + w.defined.count n + w.missing.count n + others.count n =
    w.requested.count n

theorem text_mem_defined {u : Text} : .text u ∈ w.defined ↔ u ∈ w.definitions.keys := by
  simp [defined]

namespace Accounts

/-! ### Reading an account -/

theorem count_le_one (h : Accounts w others) (n : Name) : w.requested.count n ≤ 1 :=
  List.nodup_iff_count.1 h.nodup n

theorem count_held_append (h : Accounts w others) (n : Name) :
    (w.held ++ others).count n = w.requested.count n := by
  rw [held, pending, List.count_append, List.count_append, List.count_append, List.count_reverse]
  exact h.count n

theorem nodup_held_append (h : Accounts w others) : (w.held ++ others).Nodup := by
  rw [List.nodup_iff_count]
  intro n
  rw [h.count_held_append]
  exact h.count_le_one n

theorem mem_requested_iff (h : Accounts w others) {n : Name} :
    n ∈ w.requested ↔ n ∈ w.held ++ others := by
  rw [← List.count_pos_iff, ← List.count_pos_iff, h.count_held_append]

/-- No name has two definitions. -/
theorem nodup_keys (h : Accounts w others) : w.definitions.keys.Nodup := by
  have hheld : w.held.Nodup := (List.nodup_append.1 h.nodup_held_append).1
  have hdefined : w.defined.Nodup :=
    (List.nodup_append.1 (List.nodup_append.1 hheld).1).2.1
  exact List.Pairwise.of_map _ (fun _ _ hne he => hne (congrArg Name.text he)) hdefined

/-- One of the others has no definition. -/
theorem notMem_keys (h : Accounts w others) {u : Text} (hu : .text u ∈ others) :
    u ∉ w.definitions.keys := by
  intro hk
  have hd : 0 < w.defined.count (.text u) := List.count_pos_iff.2 (text_mem_defined.2 hk)
  have ho : 0 < others.count (.text u) := List.count_pos_iff.2 hu
  have := h.count (.text u)
  have := h.count_le_one (.text u)
  omega

/-! ### The operations keep an account -/

theorem empty : Accounts Worklist.empty [] :=
  ⟨List.nodup_nil, fun _ => rfl⟩

theorem request (h : Accounts w others) (name : Name) (requester : Option Text) :
    Accounts (w.request name requester) others := by
  by_cases hr : w.isRequested name
  · rwa [Worklist.request, if_pos hr]
  · -- A new name goes to both lists, so both sides of its equation grow by one.
    have hn : name ∉ w.requested := by
      intro hm
      exact hr (List.any_eq_true.2 ⟨name, hm, name.same_self⟩)
    rw [Worklist.request, if_neg hr]
    refine ⟨?_, fun n => ?_⟩
    · refine List.nodup_append.2 ⟨h.nodup, by simp, ?_⟩
      rintro a ha b hb rfl
      exact hn (List.mem_singleton.1 hb ▸ ha)
    · have := h.count n
      simp only [defined] at this ⊢
      rw [List.count_cons, List.count_append, List.count_singleton]
      omega

theorem noteAll (h : Accounts w others) (scope : Text) (events : List Schema.Event) :
    Accounts (w.noteAll scope events) others := by
  induction events generalizing w with
  | nil => exact h
  | cons e rest ih =>
    apply ih
    cases e with
    | asked name => exact h.request _ _
    | schemaless sort text => exact ⟨h.nodup, h.count⟩

/-- A name that is taken from the stack is one of the others. -/
theorem pop (h : Accounts w others) {name : Name} {rest : List Name}
    (hs : w.stack = name :: rest) : Accounts { w with stack := rest } (name :: others) := by
  refine ⟨h.nodup, fun n => ?_⟩
  have := h.count n
  rw [hs, List.count_cons] at this
  rw [List.count_cons]
  simp only [defined] at this ⊢
  omega

/-- A definition takes its name from the others. -/
theorem put {u : Text} (h : Accounts w (.text u :: others)) (schema : Schema) :
    Accounts { w with definitions := w.definitions.put u schema } others := by
  refine ⟨h.nodup, fun n => ?_⟩
  have := h.count n
  -- The name has no definition yet, so the new one replaces none.
  have hk : u ∉ w.definitions.keys := h.notMem_keys List.mem_cons_self
  simp only [defined, Entries.keys_put_of_notMem hk, List.map_append, List.map_cons, List.map_nil,
    List.count_append, List.count_cons, List.count_nil] at this ⊢
  omega

/-- A name that is not declared goes from the others to the missing ones. -/
theorem miss {name : Name} (h : Accounts w (name :: others)) : Accounts (w.miss name) others := by
  refine ⟨h.nodup, fun n => ?_⟩
  have := h.count n
  simp only [Worklist.miss, report, defined, List.count_append, List.count_cons,
    List.count_nil] at this ⊢
  omega

/-- The name that is treated leaves the others unless its definition fails. -/
theorem treat {name : Name} {fault? : Option Fault} (h : Accounts w (name :: others))
    (ht : treat d name w = (w', fault?)) :
    Accounts w' ((fault?.map fun _ => name).toList ++ others) := by
  obtain ⟨u, draft, schema, rfl, -, -, rfl, rfl⟩ | ⟨u, draft, fault, rfl, -, -, rfl, rfl⟩ |
    ⟨-, rfl, rfl⟩ := treat_cases ht
  · -- What the draft asks for is noted while its name is still one of the others.
    have hn := noteAll (w := w.report (.resolving u)) ⟨h.nodup, h.count⟩ u draft.events
    have hp := hn.put schema
    rw [noteAll_definitions] at hp
    exact hp
  · exact noteAll (w := w.report (.resolving u)) ⟨h.nodup, h.count⟩ u draft.events
  · exact h.miss

/-- Treating all names keeps the account; a name that fails is one of the others afterwards. -/
theorem drains {failure? : Option Failure} (h : Accounts w others)
    (hd : Drains d w w' failure?) :
    Accounts w' ((failure?.map (·.1)).toList ++ others) := by
  -- A name is one of the others from being taken off the stack until its draft has succeeded.
  refine Drains.keeps ?_ ?_ hd others h
  · intro w others name rest h hs
    exact h.pop hs
  · intro w w' others name fault? h ht
    exact h.treat ht

theorem takes {step : Step} {failure? : Option Failure} (h : Accounts w others)
    (ht : step.Takes d w w' failure?) :
    Accounts w' ((failure?.map (·.1)).toList ++ others) := by
  cases ht with
  | request name requester => exact h.request _ _
  | resolve hd => exact h.drains hd

/-- The order of the others does not matter. -/
theorem perm {names : List Name} (h : Accounts w others) (hp : others.Perm names) :
    Accounts w names :=
  ⟨h.nodup, fun n => hp.count_eq n ▸ h.count n⟩

theorem requestAll (h : Accounts w others) (vs : List Json) :
    Accounts (w.requestAll vs).1 others := by
  induction vs generalizing w with
  | nil => exact h
  | cons v rest ih =>
    unfold Worklist.requestAll
    split
    · exact ih (h.request _ _)
    · exact h

theorem start (o : Options) : Accounts (start o).1 [] := by
  unfold Worklist.start
  split
  · exact empty.requestAll _
  · exact empty

/-- When all names that the options ask for are treated, none of them failed. -/
theorem resolve {t : Table} {o : Options} {w₀ : Worklist} (h₀ : Worklist.start o = (w₀, none))
    (h : w₀.resolve t o = (w, none)) : Accounts w [] := by
  obtain ⟨failure?, hdrains, hnone⟩ := resolve_eq_iff_drains.1 h
  obtain rfl := Option.map_eq_none_iff.1 hnone
  have := start o
  rw [h₀] at this
  exact this.drains hdrains

theorem runs {w₀ : Worklist} {steps : List Step} {failures : List Failure}
    (h : Accounts w₀ []) (hr : Runs d w₀ steps w failures) : Accounts w (failures.map (·.1)) := by
  induction hr with
  | nil => exact h
  | snoc _ ht ih => exact (ih.takes ht).perm (failedNames_perm _ _)

/-- A step takes a name out of the held ones only if its definition fails. -/
theorem held_subset {step : Step} {failure? : Option Failure} (h : Accounts w others)
    (ht : step.Takes d w w' failure?) :
    ∀ n ∈ w.held, n ∉ (failure?.map (·.1)).toList → n ∈ w'.held := by
  intro n hn hf
  -- The name is still requested, and neither it failed before nor in this step.
  have hrequested : n ∈ w'.requested :=
    ht.extends.requested.subset (h.mem_requested_iff.2 (List.mem_append_left _ hn))
  have hothers : n ∉ others := by
    intro ho
    exact (List.nodup_append.1 h.nodup_held_append).2.2 n hn n ho rfl
  rcases List.mem_append.1 ((h.takes ht).mem_requested_iff.1 hrequested) with hh | ho
  · exact hh
  · exact absurd ho (by simp [hf, hothers])

end Accounts

/-- **Every requested name is accounted for.** After every run, whatever failed in it, a name that
was asked for is pending, defined, missing or failed, and only one of these; and a further step
takes no name out of the first three places, but for the one that fails when it ends with a fault,
which did not fail before. -/
theorem partition_of_runs {o : Options} {w₀ : Worklist} {steps : List Step}
    {failures : List Failure} (h₀ : Worklist.start o = (w₀, none))
    (h : Runs d w₀ steps w failures) :
    (w.pending ++ w.defined ++ w.missing ++ failures.map (·.1)).Nodup ∧
    (∀ n, n ∈ w.requested ↔
      n ∈ w.pending ∨ n ∈ w.defined ∨ n ∈ w.missing ∨ n ∈ failures.map (·.1)) ∧
    ∀ step w' failure?, Step.Takes d step w w' failure? →
      (failure? = none → w.held ⊆ w'.held) ∧
      ∀ name fault, failure? = some (name, fault) →
        step = .resolve ∧ name ∉ failures.map (·.1) ∧ name ∉ w'.held ∧
          ∀ n ∈ w.held, n ≠ name → n ∈ w'.held := by
  have hw : Accounts w (failures.map (·.1)) := by
    have := Accounts.start o
    rw [h₀] at this
    exact this.runs h
  refine ⟨hw.nodup_held_append, fun n => ?_, fun step w' failure? ht => ⟨?_, ?_⟩⟩
  · rw [hw.mem_requested_iff]
    simp [held]
  · rintro rfl n hn
    exact hw.held_subset ht n hn (by simp)
  · rintro name fault rfl
    -- After the step the name that fails is one of the others, and these are apart from the rest.
    have hnodup := (hw.takes ht).nodup_held_append
    simp only [Option.map_some, Option.toList_some, List.singleton_append, List.nodup_append,
      List.nodup_cons, List.mem_cons] at hnodup
    refine ⟨?_, hnodup.2.1.1, fun hn => hnodup.2.2 name hn name (Or.inl rfl) rfl, ?_⟩
    · cases ht
      rfl
    · intro n hn hne
      exact hw.held_subset ht n hn (by simp [hne])

/-- Drafts that no table gives: every name is declared, asks for a longer one, and fails. -/
def growing : Drafts := fun u =>
  some ⟨[.asked (u ++ u)], .error .absentNode⟩

/-- Two names fail, one after the other, and what they asked for before is still pending. -/
theorem partition_of_growing :
    ∃ w, Runs growing (start (.rootedAt (.ofString "A"))).1
        [.resolve, .request (.ofString "B") none, .resolve] w
        [(Name.text (.ofString "A"), .absentNode), (Name.text (.ofString "B"), .absentNode)] ∧
      w.pending = [.text (.ofString "AA"), .text (.ofString "BB")] ∧
      ∀ n, n ∈ w.requested ↔ n ∈ w.pending ∨ n ∈ w.defined ∨ n ∈ w.missing ∨
        n ∈ [Name.text (.ofString "A"), Name.text (.ofString "B")] := by
  have hr : Runs growing (start (.rootedAt (.ofString "A"))).1
      [.resolve, .request (.ofString "B") none, .resolve] _
      [(Name.text (.ofString "A"), .absentNode), (Name.text (.ofString "B"), .absentNode)] :=
    .snoc (.snoc (.snoc .nil (.resolve (.fail rfl rfl))) (.request _ _ _))
      (.resolve (.fail rfl rfl))
  exact ⟨_, hr, rfl, (partition_of_runs (Prod.ext rfl rfl) hr).2.1⟩

end DeclSchema.Worklist
