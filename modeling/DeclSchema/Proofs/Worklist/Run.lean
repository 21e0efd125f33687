import DeclSchema.Worklist

/-!
# Runs of a worklist

From outside, a worklist is asked for names and told to treat all of them, in any order and as often
as one likes. Treating may end with a failure; then the worklist is used further as it was left.

The drafts may be any. Those of a table are such that treating always ends, and then it is the
function `Worklist.resolve`; in general it is a relation, since drafts may ask for ever new names.

## Main definitions

* `Drains`: treating all names, the last one first
* `Step`, `Step.Takes`: what is done from outside
* `Runs`: steps one after the other, with the failures among them

## Main results

* `treat_cases`: everything that treating one name can do
* `Drains.keeps`: an invariant of treating one name is one of treating all
* `resolve_eq_iff_drains`: on the drafts of a table, the relation is the function
-/

namespace DeclSchema.Worklist

/-- A name whose definition ended with a fault, and the fault. -/
abbrev Failure := Name × Fault

variable {d : Drafts} {w w' : Worklist}

/-! ### What the operations change -/

@[simp] theorem request_definitions (name : Name) (requester : Option Text) (w : Worklist) :
    (w.request name requester).definitions = w.definitions := by
  unfold request
  split <;> rfl

@[simp] theorem request_missing (name : Name) (requester : Option Text) (w : Worklist) :
    (w.request name requester).missing = w.missing := by
  unfold request
  split <;> rfl

theorem mem_requested_request {n : Name} {name : Text} {requester : Option Text} :
    n ∈ (w.request (.text name) requester).requested ↔ n ∈ w.requested ∨ n = .text name := by
  unfold request
  split
  · next h =>
    have hold : .text name ∈ w.requested := isRequested_text.1 h
    constructor
    · exact Or.inl
    · rintro (hn | rfl)
      · exact hn
      · exact hold
  · simp

theorem mem_stack_request {n : Name} {name : Text} {requester : Option Text} :
    n ∈ (w.request (.text name) requester).stack ↔
      n ∈ w.stack ∨ n = .text name ∧ n ∉ w.requested := by
  unfold request
  split
  · next h =>
    -- A name that was asked for before is passed over, whether it is still pending or not.
    have hold : .text name ∈ w.requested := isRequested_text.1 h
    constructor
    · exact Or.inl
    · rintro (hn | ⟨rfl, hn⟩)
      · exact hn
      · exact absurd hold hn
  · next h =>
    have hnew : .text name ∉ w.requested := by
      intro hn
      exact h (isRequested_text.2 hn)
    constructor
    · intro hn
      rcases List.mem_cons.1 hn with rfl | hn
      · exact Or.inr ⟨rfl, hnew⟩
      · exact Or.inl hn
    · rintro (hn | ⟨rfl, -⟩)
      · exact List.mem_cons_of_mem _ hn
      · exact List.mem_cons_self

@[simp] theorem askedNames_nil : askedNames [] = [] :=
  rfl

theorem mem_askedNames {events : List Schema.Event} {name : Text} :
    name ∈ askedNames events ↔ .asked name ∈ events := by
  simp only [askedNames, List.mem_filterMap]
  constructor
  · rintro ⟨e, he, hn⟩
    cases e with
    | asked n => cases hn; exact he
    | schemaless sort text => cases hn
  · intro h
    exact ⟨_, h, rfl⟩

/-! ### What the events of a draft change -/

section Events

variable {scope : Text} {events : List Schema.Event}

@[simp] theorem noteAll_definitions : (w.noteAll scope events).definitions = w.definitions := by
  induction events generalizing w with
  | nil => rfl
  | cons e rest ih =>
    refine ih.trans ?_
    cases e with
    | asked name => exact request_definitions _ _ _
    | schemaless sort text => rfl

@[simp] theorem noteAll_missing : (w.noteAll scope events).missing = w.missing := by
  induction events generalizing w with
  | nil => rfl
  | cons e rest ih =>
    refine ih.trans ?_
    cases e with
    | asked name => exact request_missing _ _ _
    | schemaless sort text => rfl

theorem mem_requested_noteAll {n : Name} :
    n ∈ (w.noteAll scope events).requested ↔
      n ∈ w.requested ∨ ∃ name ∈ askedNames events, n = .text name := by
  -- Induction on the events; the worklist varies, since the later ones find more requested.
  induction events generalizing w with
  | nil => simp [noteAll]
  | cons e rest ih =>
    refine ih.trans ?_
    cases e with
    | asked name =>
      rw [note, mem_requested_request]
      simp [askedNames, or_assoc]
    | schemaless sort text => simp [note, report, askedNames]

theorem mem_stack_noteAll {n : Name} :
    n ∈ (w.noteAll scope events).stack ↔
      n ∈ w.stack ∨ (∃ name ∈ askedNames events, n = .text name) ∧ n ∉ w.requested := by
  induction events generalizing w with
  | nil => simp [noteAll]
  | cons e rest ih =>
    refine ih.trans ?_
    cases e with
    | asked name =>
      rw [note, mem_stack_request, mem_requested_request]
      -- Only the name that is asked for here can be pending without being new afterwards.
      by_cases hn : n = .text name
      · subst hn
        simp [askedNames]
      · simp [askedNames, hn]
    | schemaless sort text => simp [note, report, askedNames]

end Events

/-! ### Treating one name -/

/-- What treating a name does: its definition is made, or it ends with a fault, or there is none.
Nothing else happens to the worklist. -/
theorem treat_cases {name : Name} {fault? : Option Fault} (h : treat d name w = (w', fault?)) :
    (∃ u draft schema, name = .text u ∧ d u = some draft ∧ draft.outcome = .ok schema ∧
      fault? = none ∧
      w' = { (w.report (.resolving u)).noteAll u draft.events with
        definitions := w.definitions.put u schema }) ∨
    (∃ u draft fault, name = .text u ∧ d u = some draft ∧ draft.outcome = .error fault ∧
      fault? = some fault ∧ w' = (w.report (.resolving u)).noteAll u draft.events) ∨
    ((∀ u, name = .text u → d u = none) ∧ fault? = none ∧ w' = w.miss name) := by
  unfold treat at h
  split at h
  · -- The name is declared, so it is a text.
    next u draft hn =>
    obtain ⟨rfl, hd⟩ : name = .text u ∧ d u = some draft := by
      cases name with
      | text v =>
        obtain ⟨_, hd, hp⟩ := Option.map_eq_some_iff.1 hn
        cases hp
        exact ⟨rfl, hd⟩
      | _ => cases hn
    unfold define at h
    cases ho : draft.outcome with
    | ok schema =>
      rw [ho] at h
      cases h
      refine Or.inl ⟨u, draft, schema, rfl, hd, ho, rfl, ?_⟩
      simp only [noteAll_definitions]
      rfl
    | error fault =>
      rw [ho] at h
      cases h
      exact Or.inr (Or.inl ⟨u, draft, fault, rfl, hd, ho, rfl, rfl⟩)
  · -- The name is not declared, or no text at all.
    next hd =>
    cases h
    refine Or.inr (Or.inr ⟨?_, rfl, rfl⟩)
    rintro u rfl
    exact Option.map_eq_none_iff.1 hd

/-! ### Treating all names -/

/-- Names are treated, the last one first, until none is left or one of them fails. -/
inductive Drains (d : Drafts) : Worklist → Worklist → Option Failure → Prop where
  | done {w : Worklist} (h : w.stack = []) : Drains d w w none
  | fail {w w' : Worklist} {name : Name} {rest : List Name} {fault : Fault}
      (h : w.stack = name :: rest)
      (ht : treat d name { w with stack := rest } = (w', some fault)) :
      Drains d w w' (some (name, fault))
  | next {w w₁ w' : Worklist} {name : Name} {rest : List Name} {failure? : Option Failure}
      (h : w.stack = name :: rest) (ht : treat d name { w with stack := rest } = (w₁, none))
      (hd : Drains d w₁ w' failure?) : Drains d w w' failure?

/-- Without a failure, nothing is left. -/
theorem Drains.stack_eq_nil (h : Drains d w w' none) : w'.stack = [] := by
  -- The induction needs the outcome as a variable; a failing last step contradicts it.
  generalize hf : (none : Option Failure) = failure? at h
  induction h with
  | done h => exact h
  | fail => cases hf
  | next _ _ _ ih => exact ih hf

/-- What taking a name off the stack and treating it keep is kept by treating all names. A property
can depend on the names that are in no place: the one that is treated, and those that failed. -/
theorem Drains.keeps {P : Worklist → List Name → Prop} {failure? : Option Failure}
    (hpop : ∀ w others name rest, P w others → w.stack = name :: rest →
      P { w with stack := rest } (name :: others))
    (htreat : ∀ w w' others name fault?, P w (name :: others) →
      treat d name w = (w', fault?) → P w' ((fault?.map fun _ => name).toList ++ others))
    (hd : Drains d w w' failure?) (others : List Name) (h : P w others) :
    P w' ((failure?.map (·.1)).toList ++ others) := by
  induction hd with
  | done => exact h
  | fail hs ht => exact htreat _ _ _ _ _ (hpop _ _ _ _ h hs) ht
  | next hs ht _ ih => exact ih (htreat _ _ _ _ _ (hpop _ _ _ _ h hs) ht)

/-- Treating all names has one outcome. -/
theorem Drains.unique {w₁ w₂ : Worklist} {f₁ f₂ : Option Failure} (h₁ : Drains d w w₁ f₁)
    (h₂ : Drains d w w₂ f₂) : w₁ = w₂ ∧ f₁ = f₂ := by
  -- The stack and the outcome of treating its top decide which rule the second derivation ends
  -- with; in all other cases the two equations clash.
  induction h₁ with
  | done h =>
    cases h₂ with
    | done => exact ⟨rfl, rfl⟩
    | fail h' => cases h.symm.trans h'
    | next h' => cases h.symm.trans h'
  | fail h ht =>
    cases h₂ with
    | done h' => cases h.symm.trans h'
    | fail h' ht' =>
      cases h.symm.trans h'
      cases ht.symm.trans ht'
      exact ⟨rfl, rfl⟩
    | next h' ht' =>
      cases h.symm.trans h'
      cases ht.symm.trans ht'
  | next h ht _ ih =>
    cases h₂ with
    | done h' => cases h.symm.trans h'
    | fail h' ht' =>
      cases h.symm.trans h'
      cases ht.symm.trans ht'
    | next h' ht' hd' =>
      cases h.symm.trans h'
      cases ht.symm.trans ht'
      exact ih hd'

section Tables

variable (t : Table) (o : Options)

theorem drains_resolve (w : Worklist) :
    ∃ failure?, Drains (drafts t o) w (w.resolve t o).1 failure? ∧
      failure?.map (·.2) = (w.resolve t o).2 := by
  -- One rule for each branch of `resolve`: nothing is left, a name fails, a name is treated.
  fun_induction resolve t o w with
  | case1 w h => exact ⟨none, .done h, rfl⟩
  | case2 w name rest h treated fault hf => exact ⟨_, .fail h (Prod.ext rfl hf), rfl⟩
  | case3 w name rest h treated hf ih =>
    obtain ⟨failure?, hd, he⟩ := ih
    exact ⟨failure?, .next h (Prod.ext rfl hf) hd, he⟩

/-- On the drafts of a table, treating all names is what `resolve` does. -/
theorem resolve_eq_iff_drains {t : Table} {o : Options} {fault? : Option Fault} :
    w.resolve t o = (w', fault?) ↔
      ∃ failure?, Drains (drafts t o) w w' failure? ∧ failure?.map (·.2) = fault? := by
  obtain ⟨failure₀, hd₀, he₀⟩ := drains_resolve t o w
  constructor
  · intro h
    rw [h] at hd₀ he₀
    exact ⟨failure₀, hd₀, he₀⟩
  · rintro ⟨failure?, hd, rfl⟩
    obtain ⟨hw, rfl⟩ := hd₀.unique hd
    exact Prod.ext hw he₀.symm

end Tables

/-! ### Steps and runs -/

/-- What is done to a worklist from outside. -/
inductive Step where
  /-- To ask for a name. -/
  | request (name : Text) (requester : Option Text)
  /-- To treat all names. -/
  | resolve

/-- What a step makes of a worklist, and the failure that it ends with, if it does. -/
inductive Step.Takes (d : Drafts) : Step → Worklist → Worklist → Option Failure → Prop where
  | request (name : Text) (requester : Option Text) (w : Worklist) :
      Step.Takes d (.request name requester) w (w.request (.text name) requester) none
  | resolve {w w' : Worklist} {failure? : Option Failure} (h : Drains d w w' failure?) :
      Step.Takes d .resolve w w' failure?

/-- The steps of a list lead from one worklist to another, with these failures on the way. A
failure does not end the run. -/
inductive Runs (d : Drafts) (w₀ : Worklist) : List Step → Worklist → List Failure → Prop where
  | nil : Runs d w₀ [] w₀ []
  | snoc {steps : List Step} {step : Step} {w w' : Worklist} {failures : List Failure}
      {failure? : Option Failure} (hr : Runs d w₀ steps w failures)
      (ht : step.Takes d w w' failure?) :
      Runs d w₀ (steps ++ [step]) w' (failures ++ failure?.toList)

theorem failedNames_perm (failures : List Failure) (failure? : Option Failure) :
    ((failure?.map (·.1)).toList ++ failures.map (·.1)).Perm
      ((failures ++ failure?.toList).map (·.1)) := by
  rw [List.map_append]
  cases failure? <;> exact List.perm_append_comm

/-- The last step of a run, and the run before it. -/
theorem Runs.of_snoc {w₀ : Worklist} {steps : List Step} {step : Step} {failures : List Failure}
    (h : Runs d w₀ (steps ++ [step]) w' failures) :
    ∃ w failures₁ failure?, Runs d w₀ steps w failures₁ ∧ step.Takes d w w' failure? ∧
      failures = failures₁ ++ failure?.toList := by
  generalize hs : steps ++ [step] = all at h
  cases h with
  | nil => simp at hs
  | snoc hr ht =>
    obtain ⟨rfl, he⟩ := List.append_inj' hs rfl
    cases he
    exact ⟨_, _, _, hr, ht, rfl⟩

end DeclSchema.Worklist
