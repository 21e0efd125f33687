import DeclSchema.Proofs.Worklist.Closure

/-!
# What a run depends on

Two runs may treat their names in orders that have nothing to do with each other. Still they end
alike if they start from the same names, in whatever order and however often each is given, and if
their drafts agree on everything that is needed: since what a run makes is a least closure, it does
not depend on the way there.

## Main definitions

* `Drafts.AgreeOn`: drafts that agree on a set which holds all that is needed

## Main results

* `get?_definitions_eq_some_iff`, `mem_missing_iff_needed`: the outcome of a run in terms of what is
  needed
* `Drafts.AgreeOn.fails_iff`, `Drafts.AgreeOn.get?_eq`, `Drafts.AgreeOn.mem_missing_iff`: two runs
  end alike
-/

namespace DeclSchema.Worklist

variable {d d' : Drafts} {seeds seeds' : List Text} {w₀ w₀' w w' : Worklist}

/-! ### The outcome of a run -/

section Outcome

variable (h : Traces d seeds w []) (hs : w.stack = [])

include h hs

theorem get?_definitions_eq_some_iff {u : Text} {schema : Schema} :
    w.definitions.get? u = some schema ↔
      Needed d seeds u ∧ ∃ draft, d u = some draft ∧ draft.outcome = .ok schema := by
  constructor
  · intro hget
    have hk : u ∈ w.definitions.keys := by
      rw [← Entries.isSome_get?_iff, hget]
      rfl
    refine ⟨(mem_requested_iff_needed h hs).1 ((mem_keys_iff h hs).1 hk).1, ?_⟩
    exact h.made u schema hget
  · rintro ⟨hu, draft, hd, ho⟩
    obtain ⟨schema', ho', hget⟩ :=
      get?_definitions h hs ((mem_requested_iff_needed h hs).2 hu) hd
    cases ho.symm.trans ho'
    exact hget

theorem mem_missing_iff_needed {n : Name} :
    n ∈ w.missing ↔ ∃ u, n = .text u ∧ Needed d seeds u ∧ d u = none := by
  simp only [mem_missing_iff h hs, mem_requested_iff_needed h hs]

end Outcome

/-! ### Drafts that agree -/

/-- All that `seeds` lead to is in a set on which the other drafts are the same. -/
structure Drafts.AgreeOn (d d' : Drafts) (seeds : List Text) (s : Set Text) : Prop where
  closed : IsClosed d seeds s
  eq : ∀ n ∈ s, d' n = d n

namespace Drafts.AgreeOn

variable {s : Set Text}

theorem refs_eq (h : AgreeOn d d' seeds s) {n : Text} (hn : n ∈ s) : d'.refs n = d.refs n := by
  rw [refs, refs, h.eq n hn]

theorem symm (h : AgreeOn d d' seeds s) (hs : ∀ u, u ∈ seeds' ↔ u ∈ seeds) :
    AgreeOn d' d seeds' s where
  closed := by
    refine ⟨fun n hn => h.closed.seed n ((hs n).1 hn), fun n hn m hm => ?_⟩
    rw [h.refs_eq hn] at hm
    exact h.closed.ref n hn m hm
  eq n hn := (h.eq n hn).symm

theorem needed (h : AgreeOn d d' seeds s) (hs : ∀ u ∈ seeds, u ∈ seeds') {n : Text}
    (hn : Needed d seeds n) : Needed d' seeds' n := by
  -- What leads to the name is in the set, so both drafts ask for the same there.
  induction hn with
  | seed hn => exact .seed (hs _ hn)
  | ref hn hm ih =>
    rw [← h.refs_eq (hn.mem_of_isClosed h.closed)] at hm
    exact .ref ih hm

theorem needed_iff (h : AgreeOn d d' seeds s) (hs : ∀ u, u ∈ seeds' ↔ u ∈ seeds) {n : Text} :
    Needed d' seeds' n ↔ Needed d seeds n := by
  constructor
  · exact (h.symm hs).needed fun u => (hs u).1
  · exact h.needed fun u => (hs u).2

theorem eq_of_needed (h : AgreeOn d d' seeds s) {n : Text} (hn : Needed d seeds n) :
    d' n = d n :=
  h.eq n (hn.mem_of_isClosed h.closed)

section Runs

variable (h : AgreeOn d d' seeds s) (hs : ∀ u, u ∈ seeds' ↔ u ∈ seeds)

include h hs

/-- One run fails if and only if the other one does. -/
theorem fails_iff {failure? failure?' : Option Failure} (h₀ : Traces d seeds w₀ [])
    (h₀' : Traces d' seeds' w₀' []) (hw : Drains d w₀ w failure?)
    (hw' : Drains d' w₀' w' failure?') : failure?' ≠ none ↔ failure? ≠ none := by
  rw [h₀.drains_fails_iff hw, h₀'.drains_fails_iff hw']
  constructor
  · rintro ⟨u, draft, fault, hu, hd, ho⟩
    rw [h.needed_iff hs] at hu
    rw [h.eq_of_needed hu] at hd
    exact ⟨u, draft, fault, hu, hd, ho⟩
  · rintro ⟨u, draft, fault, hu, hd, ho⟩
    rw [← h.eq_of_needed hu] at hd
    exact ⟨u, draft, fault, (h.needed_iff hs).2 hu, hd, ho⟩

variable (hw : Traces d seeds w []) (hstack : w.stack = []) (hw' : Traces d' seeds' w' [])
  (hstack' : w'.stack = [])

include hw hstack hw' hstack'

/-- Both runs make the same definitions. -/
theorem get?_eq (u : Text) : w'.definitions.get? u = w.definitions.get? u := by
  -- Both sides are read off what is needed, where neither order of the steps occurs any more.
  refine Option.ext fun schema => ?_
  rw [get?_definitions_eq_some_iff hw hstack, get?_definitions_eq_some_iff hw' hstack',
    h.needed_iff hs]
  exact and_congr_right fun hu => by rw [h.eq_of_needed hu]

/-- The same names are missing after both runs. -/
theorem mem_missing_iff (n : Name) : n ∈ w'.missing ↔ n ∈ w.missing := by
  rw [mem_missing_iff_needed hw hstack, mem_missing_iff_needed hw' hstack']
  refine exists_congr fun u => and_congr_right fun _ => ?_
  rw [h.needed_iff hs]
  exact and_congr_right fun hu => by rw [h.eq_of_needed hu]

end Runs

end Drafts.AgreeOn

/-! ### Starting -/

theorem requestAll_texts (us : List Text) (w : Worklist) :
    (w.requestAll (us.map .text)).2 = none := by
  induction us generalizing w with
  | nil => rfl
  | cons u rest ih => exact ih _

/-- Where the names to start from are texts, only the check of the options can fail at the start. -/
theorem start_snd_eq {o : Options} {root : Text} {names : List Text}
    (ho : o.StartsFrom root names) :
    (start o).2 = match o.check with | .ok _ => none | .error fault => some fault := by
  unfold start
  rw [ho.seeds_eq]
  cases o.check with
  | ok _ => exact requestAll_texts _ _
  | error fault => rfl

end DeclSchema.Worklist
