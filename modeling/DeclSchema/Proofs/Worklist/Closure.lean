import DeclSchema.Proofs.Options.Seeds
import DeclSchema.Proofs.Worklist.Account
import Mathlib.Order.Bounds.Defs

/-!
# What a worklist makes is a least closure

A worklist treats its names as a stack and passes over what was asked for before, so the order of
its steps depends on everything. What it makes in the end does not: the requested names are the
least set that has the names to start from and is closed under the drafts, and every definition is
the one that its draft gives alone.

Soundness is an invariant of the run: nothing is requested that is not needed. Completeness is one
too: what is requested and neither pending nor failed has had its draft followed.

## Main definitions

* `Drafts.refs`: the names that the draft of a name asks for
* `IsClosed`, `Needed`: closed sets of names, and the least of them
* `Traces`: the invariant of a run for given names to start from

## Main results

* `isLeast_needed`: the needed names are the least closed set
* `Traces.runs`: every run keeps the invariant
* `resolved_isLeast_closure`: the outcome of a run without failures, and when there is one
-/

namespace DeclSchema.Worklist

/-- The names that the draft of a name asks for. -/
def Drafts.refs (d : Drafts) (name : Text) : List Text :=
  ((d name).map fun draft => askedNames draft.events).getD []

/-- A set of names has the `seeds` and everything that the drafts of its members ask for. -/
structure IsClosed (d : Drafts) (seeds : List Text) (s : Set Text) : Prop where
  seed : ∀ n ∈ seeds, n ∈ s
  ref : ∀ n ∈ s, ∀ m ∈ d.refs n, m ∈ s

/-- The names that `seeds` lead to. -/
inductive Needed (d : Drafts) (seeds : List Text) : Text → Prop where
  | seed {n : Text} (h : n ∈ seeds) : Needed d seeds n
  | ref {n m : Text} (hn : Needed d seeds n) (hm : m ∈ d.refs n) : Needed d seeds m

variable {d : Drafts} {seeds : List Text} {w w' : Worklist} {others : List Name}

/-! ### Needed names -/

theorem isClosed_needed : IsClosed d seeds {n | Needed d seeds n} where
  seed _ h := .seed h
  ref _ hn _ hm := .ref hn hm

theorem Needed.mem_of_isClosed {n : Text} {s : Set Text} (h : Needed d seeds n)
    (hs : IsClosed d seeds s) : n ∈ s := by
  -- Induction on the way that leads to the name from those to start from.
  induction h with
  | seed h => exact hs.seed _ h
  | ref _ hm ih => exact hs.ref _ ih _ hm

/-- The needed names are the least closed set. -/
theorem isLeast_needed : IsLeast {s | IsClosed d seeds s} {n | Needed d seeds n} :=
  ⟨isClosed_needed, fun _ hs _ hn => Needed.mem_of_isClosed hn hs⟩

theorem Needed.mono {n : Text} {more : List Text} (h : Needed d seeds n) (hs : seeds ⊆ more) :
    Needed d more n := by
  induction h with
  | seed h => exact .seed (hs h)
  | ref _ hm ih => exact .ref ih hm

theorem refs_of_eq_some {u : Text} {draft : Draft} (h : d u = some draft) :
    d.refs u = askedNames draft.events := by
  rw [Drafts.refs, h]
  rfl

theorem refs_of_eq_none {u : Text} (h : d u = none) : d.refs u = [] := by
  rw [Drafts.refs, h]
  rfl

/-! ### The invariant of a run -/

/-- A worklist in a run that started from `seeds`. The `others` are the names whose definition is
in the making or failed. -/
structure Traces (d : Drafts) (seeds : List Text) (w : Worklist) (others : List Name) : Prop where
  accounts : Accounts w others
  needed : ∀ n ∈ w.requested, ∃ u, n = .text u ∧ Needed d seeds u
  seeded : ∀ u ∈ seeds, .text u ∈ w.requested
  followed : ∀ u, .text u ∈ w.requested → .text u ∉ w.stack → .text u ∉ others →
    ∀ m ∈ d.refs u, .text m ∈ w.requested
  made : ∀ u schema, w.definitions.get? u = some schema →
    ∃ draft, d u = some draft ∧ draft.outcome = .ok schema
  undeclared : ∀ u, .text u ∈ w.missing → d u = none

namespace Traces

theorem mem_requested (h : Traces d seeds w others) {n : Name} (hn : n ∈ others) :
    n ∈ w.requested :=
  h.accounts.mem_requested_iff.2 (List.mem_append_right _ hn)

theorem report (h : Traces d seeds w others) (notice : Notice) :
    Traces d seeds (w.report notice) others :=
  ⟨⟨h.accounts.nodup, h.accounts.count⟩, h.needed, h.seeded, h.followed, h.made, h.undeclared⟩

theorem pop (h : Traces d seeds w others) {name : Name} {rest : List Name}
    (hs : w.stack = name :: rest) : Traces d seeds { w with stack := rest } (name :: others) where
  accounts := h.accounts.pop hs
  needed := h.needed
  seeded := h.seeded
  followed u hu hrest hother := by
    -- The name that was popped is one of the others now, so that nothing is said of it.
    simp only [List.mem_cons, not_or] at hother
    refine h.followed u hu ?_ hother.2
    rw [hs]
    simp only [List.mem_cons, not_or]
    exact ⟨hother.1, hrest⟩
  made := h.made
  undeclared := h.undeclared

/-- Where only pending names are new, the requested names that are not pending were followed
before. -/
theorem followed_of_extends (h : Traces d seeds w others)
    (hrequested : ∀ n ∈ w.requested, n ∈ w'.requested)
    (hstack : ∀ n, n ∈ w'.stack ↔ n ∈ w.stack ∨ n ∈ w'.requested ∧ n ∉ w.requested) :
    ∀ u, .text u ∈ w'.requested → .text u ∉ w'.stack → .text u ∉ others →
      ∀ m ∈ d.refs u, .text m ∈ w'.requested := by
  intro u hu hpending hother m hm
  rw [hstack, not_or, not_and, Classical.not_not] at hpending
  have hold : .text u ∈ w.requested := hpending.2 hu
  exact hrequested _ (h.followed u hold hpending.1 hother m hm)

/-- Following the draft of a requested name keeps the invariant: what is new is needed, and
pending. -/
theorem noteAll {u : Text} {draft : Draft} (h : Traces d seeds w others) (hd : d u = some draft)
    (hu : .text u ∈ w.requested) (scope : Text) :
    Traces d seeds (w.noteAll scope draft.events) others where
  accounts := h.accounts.noteAll _ _
  needed n hn := by
    rcases mem_requested_noteAll.1 hn with hn | ⟨m, hm, rfl⟩
    · exact h.needed n hn
    -- A name that is new is asked for by the draft of a name that is needed.
    · obtain ⟨_, hv, hneeded⟩ := h.needed _ hu
      cases hv
      rw [← refs_of_eq_some hd] at hm
      exact ⟨m, rfl, .ref hneeded hm⟩
  seeded v hv := mem_requested_noteAll.2 (Or.inl (h.seeded v hv))
  followed := by
    -- What is new is pending, so there is nothing to follow yet.
    refine h.followed_of_extends (fun n hn => mem_requested_noteAll.2 (Or.inl hn)) fun n => ?_
    rw [mem_stack_noteAll, mem_requested_noteAll, or_and_right, and_not_self_iff, false_or]
  made v schema hv := by
    rw [noteAll_definitions] at hv
    exact h.made v schema hv
  undeclared v hv := by
    rw [noteAll_missing] at hv
    exact h.undeclared v hv

/-- The definition of a name whose draft was followed. -/
theorem put {u : Text} {draft : Draft} {schema : Schema} (h : Traces d seeds w (.text u :: others))
    (hd : d u = some draft) (ho : draft.outcome = .ok schema)
    (hrefs : ∀ m ∈ d.refs u, .text m ∈ w.requested) :
    Traces d seeds { w with definitions := w.definitions.put u schema } others where
  accounts := h.accounts.put schema
  needed := h.needed
  seeded := h.seeded
  followed v hv hstack hother := by
    -- The name of the definition is none of the others any more, and its draft was followed.
    by_cases hvu : v = u
    · exact hvu ▸ hrefs
    · exact h.followed v hv hstack (by simp [hvu, hother])
  made v s hv := by
    by_cases hvu : v = u
    · subst hvu
      rw [Entries.get?_put_self] at hv
      cases hv
      exact ⟨draft, hd, ho⟩
    · rw [Entries.get?_put_of_ne hvu] at hv
      exact h.made v s hv
  undeclared := h.undeclared

theorem miss {name : Name} (h : Traces d seeds w (name :: others))
    (hd : ∀ u, name = .text u → d u = none) : Traces d seeds (w.miss name) others where
  accounts := h.accounts.miss
  needed := h.needed
  seeded := h.seeded
  followed u hu hstack hother m hm := by
    by_cases hun : .text u = name
    · -- A name without a draft asks for nothing.
      rw [refs_of_eq_none (hd u hun.symm)] at hm
      cases hm
    · exact h.followed u hu hstack (by simp [hun, hother]) m hm
  made := h.made
  undeclared u hu := by
    rcases List.mem_append.1 hu with hu | hu
    · exact h.undeclared u hu
    · exact hd u (List.mem_singleton.1 hu).symm

theorem treat {name : Name} {fault? : Option Fault} (h : Traces d seeds w (name :: others))
    (ht : treat d name w = (w', fault?)) :
    Traces d seeds w' ((fault?.map fun _ => name).toList ++ others) := by
  have hname : name ∈ w.requested := h.mem_requested List.mem_cons_self
  obtain ⟨u, draft, schema, rfl, hd, ho, rfl, rfl⟩ | ⟨u, draft, fault, rfl, hd, -, rfl, rfl⟩ |
    ⟨hd, rfl, rfl⟩ := treat_cases ht
  · -- The draft is followed first, then its definition is put.
    have hn := (h.report (.resolving u)).noteAll hd hname u
    have hrefs : ∀ m ∈ d.refs u,
        .text m ∈ ((w.report (.resolving u)).noteAll u draft.events).requested := by
      intro m hm
      rw [refs_of_eq_some hd] at hm
      exact mem_requested_noteAll.2 (Or.inr ⟨m, hm, rfl⟩)
    have hp := hn.put hd ho hrefs
    rw [noteAll_definitions] at hp
    exact hp
  · exact (h.report (.resolving u)).noteAll hd hname u
  · exact h.miss hd

theorem drains {failure? : Option Failure} (h : Traces d seeds w others)
    (hd : Drains d w w' failure?) :
    Traces d seeds w' ((failure?.map (·.1)).toList ++ others) := by
  refine Drains.keeps ?_ ?_ hd others h
  · intro w others name rest h hs
    exact h.pop hs
  · intro w w' others name fault? h ht
    exact h.treat ht

theorem empty : Traces d [] Worklist.empty [] where
  accounts := .empty
  needed _ hn := absurd hn List.not_mem_nil
  seeded _ hu := absurd hu List.not_mem_nil
  followed _ hu := absurd hu List.not_mem_nil
  made _ _ hu := by cases hu
  undeclared _ hu := absurd hu List.not_mem_nil

/-- A name that is asked for from outside is one more name to start from. -/
theorem request (h : Traces d seeds w others) (u : Text) (requester : Option Text) :
    Traces d (seeds ++ [u]) (w.request (.text u) requester) others where
  accounts := h.accounts.request _ _
  needed n hn := by
    rcases mem_requested_request.1 hn with hn | rfl
    · obtain ⟨v, rfl, hv⟩ := h.needed n hn
      exact ⟨v, rfl, hv.mono (List.subset_append_left _ _)⟩
    · exact ⟨u, rfl, .seed (by simp)⟩
  seeded v hv := by
    rcases List.mem_append.1 hv with hv | hv
    · exact mem_requested_request.2 (Or.inl (h.seeded v hv))
    · exact mem_requested_request.2 (Or.inr (by rw [List.mem_singleton.1 hv]))
  followed := by
    -- What is new is pending, so there is nothing to follow yet.
    refine h.followed_of_extends (fun n hn => mem_requested_request.2 (Or.inl hn)) fun n => ?_
    rw [mem_stack_request, mem_requested_request, or_and_right, and_not_self_iff, false_or]
  made v schema hv := by
    rw [request_definitions] at hv
    exact h.made v schema hv
  undeclared v hv := by
    rw [request_missing] at hv
    exact h.undeclared v hv

/-- The order and the repetitions of the names to start from do not matter. -/
theorem of_mem_iff {more : List Text} (h : Traces d seeds w others)
    (hs : ∀ u, u ∈ seeds ↔ u ∈ more) : Traces d more w others where
  accounts := h.accounts
  needed n hn := by
    obtain ⟨u, rfl, hu⟩ := h.needed n hn
    exact ⟨u, rfl, hu.mono fun v => (hs v).1⟩
  seeded u hu := h.seeded u ((hs u).2 hu)
  followed := h.followed
  made := h.made
  undeclared := h.undeclared

theorem requestAll (h : Traces d seeds w others) (us : List Text) :
    Traces d (seeds ++ us) (w.requestAll (us.map .text)).1 others := by
  induction us generalizing seeds w with
  | nil =>
    rw [List.append_nil]
    exact h
  | cons u rest ih =>
    rw [List.append_cons]
    exact ih (h.request u none)

/-- A run starts from the root and the other names of the options. -/
theorem start {o : Options} {root : Text} {names : List Text} {w₀ : Worklist}
    (ho : o.StartsFrom root names) (h₀ : Worklist.start o = (w₀, none)) :
    Traces d (root :: names) w₀ [] := by
  unfold Worklist.start at h₀
  rw [ho.seeds_eq] at h₀
  cases hc : o.check with
  | error fault =>
    rw [hc] at h₀
    cases h₀
  | ok _ =>
    rw [hc] at h₀
    have hall := (empty (d := d)).requestAll (if root ∈ names then names else root :: names)
    have hw : (Worklist.empty.requestAll
        ((if root ∈ names then names else root :: names).map .text)).1 = w₀ := congrArg Prod.fst h₀
    rw [hw] at hall
    -- The root is added only where it is not among the other names already.
    refine hall.of_mem_iff fun u => ?_
    by_cases hr : root ∈ names
    · simp [hr]
      rintro rfl
      exact hr
    · simp [hr]

/-- The order of the others does not matter. -/
theorem perm {names : List Name} (h : Traces d seeds w others) (hp : others.Perm names) :
    Traces d seeds w names where
  accounts := h.accounts.perm hp
  needed := h.needed
  seeded := h.seeded
  followed u hu hstack hother := h.followed u hu hstack fun ho => hother (hp.mem_iff.1 ho)
  made := h.made
  undeclared := h.undeclared

end Traces

/-- The name that a step asks for. -/
def Step.asked? : Step → Option Text
  | request name _ => some name
  | resolve => none

/-- The names that the steps of a run ask for. -/
def asked (steps : List Step) : List Text :=
  steps.filterMap Step.asked?

/-- Every run keeps the invariant, with the names that it asked for among those to start from and
the names that failed among the others. -/
theorem Traces.runs {w₀ : Worklist} {steps : List Step} {failures : List Failure}
    (h : Traces d seeds w₀ []) (hr : Runs d w₀ steps w failures) :
    Traces d (seeds ++ asked steps) w (failures.map (·.1)) := by
  -- Induction on the run: a request adds a name to start from, treating all adds a failed name.
  induction hr with
  | nil => exact h.of_mem_iff (by simp [asked])
  | snoc _ ht ih =>
    cases ht with
    | request name requester =>
      refine ((ih.request name requester).of_mem_iff fun u => ?_).perm (by simp)
      simp [asked, Step.asked?]
    | resolve hd =>
      refine ((ih.drains hd).of_mem_iff fun u => ?_).perm (failedNames_perm _ _)
      simp [asked, Step.asked?]

/-! ### The outcome of a run -/

section Outcome

variable (h : Traces d seeds w []) (hs : w.stack = [])

include h hs

/-- What is requested in the end is a closed set. -/
theorem isClosed_requested : IsClosed d seeds {u | .text u ∈ w.requested} where
  seed := h.seeded
  ref u hu := h.followed u hu (by simp [hs]) List.not_mem_nil

theorem mem_requested_iff_needed {u : Text} : .text u ∈ w.requested ↔ Needed d seeds u := by
  constructor
  · intro hu
    obtain ⟨_, hv, hneeded⟩ := h.needed _ hu
    cases hv
    exact hneeded
  · -- The requested names are closed, and the needed ones are the least closed set.
    intro hu
    exact hu.mem_of_isClosed (isClosed_requested h hs)

/-- A requested name has a definition or is missing in the end. -/
theorem mem_keys_or_mem_missing {u : Text} (hu : .text u ∈ w.requested) :
    u ∈ w.definitions.keys ∨ .text u ∈ w.missing := by
  have := h.accounts.mem_requested_iff.1 hu
  simpa [held, pending, hs, defined] using this

theorem mem_keys_iff {u : Text} :
    u ∈ w.definitions.keys ↔ .text u ∈ w.requested ∧ d u ≠ none := by
  constructor
  · intro hu
    obtain ⟨schema, hget⟩ := Option.isSome_iff_exists.1 (Entries.isSome_get?_iff.2 hu)
    obtain ⟨draft, hd, -⟩ := h.made u schema hget
    refine ⟨h.accounts.mem_requested_iff.2 ?_, by simp [hd]⟩
    simp [held, text_mem_defined.2 hu]
  · rintro ⟨hu, hd⟩
    rcases mem_keys_or_mem_missing h hs hu with hk | hm
    · exact hk
    · exact absurd (h.undeclared u hm) hd

theorem mem_missing_iff {n : Name} :
    n ∈ w.missing ↔ ∃ u, n = .text u ∧ .text u ∈ w.requested ∧ d u = none := by
  constructor
  · intro hn
    have hrequested : n ∈ w.requested := h.accounts.mem_requested_iff.2 (by simp [held, hn])
    obtain ⟨u, rfl, -⟩ := h.needed n hrequested
    exact ⟨u, rfl, hrequested, h.undeclared u hn⟩
  · rintro ⟨u, rfl, hu, hd⟩
    rcases mem_keys_or_mem_missing h hs hu with hk | hm
    · exact absurd hd ((mem_keys_iff h hs).1 hk).2
    · exact hm

/-- The definition of a requested name is the one that its draft gives alone. -/
theorem get?_definitions {u : Text} {draft : Draft} (hu : .text u ∈ w.requested)
    (hd : d u = some draft) :
    ∃ schema, draft.outcome = .ok schema ∧ w.definitions.get? u = some schema := by
  have hk := (mem_keys_iff h hs).2 ⟨hu, by simp [hd]⟩
  obtain ⟨schema, hget⟩ := Option.isSome_iff_exists.1 (Entries.isSome_get?_iff.2 hk)
  obtain ⟨draft', hd', ho⟩ := h.made u schema hget
  cases hd.symm.trans hd'
  exact ⟨schema, ho, hget⟩

end Outcome

/-- A name fails because its draft does. -/
theorem Drains.exists_draft {name : Name} {fault : Fault} (h : Drains d w w' (some (name, fault))) :
    ∃ u draft, name = .text u ∧ d u = some draft ∧ draft.outcome = .error fault := by
  generalize hf : some (name, fault) = failure? at h
  induction h with
  | done => cases hf
  | fail _ ht =>
    -- Of the three things that treating a name can do, only the second ends with a fault.
    cases hf
    obtain ⟨_, _, _, -, -, -, he, -⟩ | ⟨u, draft, _, hu, hd, ho, he, -⟩ | ⟨-, he, -⟩ :=
      treat_cases ht
    · cases he
    · cases he
      exact ⟨u, draft, hu, hd, ho⟩
    · cases he
  | next _ _ _ ih => exact ih hf

/-- Treating all names fails if and only if the draft of a needed name does. -/
theorem Traces.drains_fails_iff {failure? : Option Failure} (h : Traces d seeds w [])
    (hd : Drains d w w' failure?) :
    failure? ≠ none ↔
      ∃ u draft fault, Needed d seeds u ∧ d u = some draft ∧ draft.outcome = .error fault := by
  have hafter := h.drains hd
  constructor
  · -- The failed name is requested, so it is needed.
    intro hf
    obtain ⟨⟨name, fault⟩, rfl⟩ := Option.ne_none_iff_exists'.1 hf
    obtain ⟨u, draft, rfl, hdraft, ho⟩ := hd.exists_draft
    obtain ⟨_, hu, hneeded⟩ := hafter.needed (.text u) (hafter.mem_requested (by simp))
    cases hu
    exact ⟨u, draft, fault, hneeded, hdraft, ho⟩
  · rintro ⟨u, draft, fault, hneeded, hdraft, ho⟩ rfl
    -- Nothing is left after a run without a failure, so the name has a definition.
    have hu := (mem_requested_iff_needed hafter hd.stack_eq_nil).2 hneeded
    obtain ⟨schema, hok, -⟩ := get?_definitions hafter hd.stack_eq_nil hu hdraft
    cases ho.symm.trans hok

/-! ### Worklists over a table -/

section Tables

variable {t : Table} {o : Options}

theorem drafts_eq_none_iff {u : Text} : drafts t o u = none ↔ u ∉ t.names := by
  rw [drafts, Option.map_eq_none_iff]
  exact Entries.get?_eq_none_iff

theorem drafts_of_get? {u : Text} {declared : Declaration} (h : t.get? u = some declared) :
    drafts t o u = some (Schema.ofDeclaration ⟨t, o, u⟩ declared) := by
  rw [drafts, h]
  rfl

/-- A worklist in which all that `seeds` lead to is made: the requested names are the least closed
set, those that are declared have the definition that their declaration gives alone, and the others
are missing. -/
structure Completes (t : Table) (o : Options) (seeds : List Text) (w : Worklist) : Prop where
  isLeast : IsLeast {s | IsClosed (drafts t o) seeds s} {u | .text u ∈ w.requested}
  text : ∀ n ∈ w.requested, ∃ u, n = .text u
  keys : ∀ u, u ∈ w.definitions.keys ↔ .text u ∈ w.requested ∧ u ∈ t.names
  missing : ∀ n, n ∈ w.missing ↔ ∃ u, n = .text u ∧ .text u ∈ w.requested ∧ u ∉ t.names
  definitions : ∀ u declared, .text u ∈ w.requested → t.get? u = some declared →
    ∃ schema, (Schema.ofDeclaration ⟨t, o, u⟩ declared).outcome = .ok schema ∧
      w.definitions.get? u = some schema

theorem completes_of_traces (h : Traces (drafts t o) seeds w []) (hs : w.stack = []) :
    Completes t o seeds w where
  isLeast := by
    have : {u | .text u ∈ w.requested} = {u | Needed (drafts t o) seeds u} :=
      Set.ext fun u => mem_requested_iff_needed h hs
    rw [this]
    exact isLeast_needed
  text n hn := by
    obtain ⟨u, rfl, -⟩ := h.needed n hn
    exact ⟨u, rfl⟩
  keys u := by
    rw [mem_keys_iff h hs, ne_eq, drafts_eq_none_iff, Classical.not_not]
  missing n := by
    simp only [mem_missing_iff h hs, drafts_eq_none_iff]
  definitions u declared hu hget := get?_definitions h hs hu (drafts_of_get? hget)

variable {root : Text} {names : List Text} {w₀ : Worklist}

/-- **A run makes the least closure.** Whatever is asked for and in whatever order, a run without
failures that ends with treating all names makes all that the names to start from and the names
that it asked for lead to; an enum asks for nothing and has its members as constants. The first
treatment of all names fails if and only if the declaration of a name fails alone that the names to
start from lead to. -/
theorem resolved_isLeast_closure (ho : o.StartsFrom root names)
    (h₀ : Worklist.start o = (w₀, none)) :
    (∀ steps w, Runs (drafts t o) w₀ (steps ++ [.resolve]) w [] →
      Completes t o (root :: names ++ asked steps) w ∧
      ∀ u name text members, t.get? u = some (.enumeration name text members) →
        (drafts t o).refs u = [] ∧ (.text u ∈ w.requested →
          w.definitions.get? u = some (.constants (.ofString "string") (members.map .text)))) ∧
    ((w₀.resolve t o).2 ≠ none ↔
      ∃ u declared fault, Needed (drafts t o) (root :: names) u ∧ t.get? u = some declared ∧
        (Schema.ofDeclaration ⟨t, o, u⟩ declared).outcome = .error fault) := by
  have hstart : Traces (drafts t o) (root :: names) w₀ [] := .start ho h₀
  refine ⟨fun steps w hr => ?_, ?_⟩
  · have hw := hstart.runs hr
    -- The last step of the run treats all names and does not fail, so nothing is pending.
    obtain ⟨w₁, failures, failure?, -, ht, hf⟩ := hr.of_snoc
    obtain ⟨-, hnone⟩ := List.append_eq_nil_iff.1 hf.symm
    cases Option.toList_eq_nil_iff.1 hnone
    have hs : w.stack = [] := by
      cases ht with
      | resolve hd => exact hd.stack_eq_nil
    -- Treating all names asks for nothing from outside.
    have hw : Traces (drafts t o) (root :: names ++ asked steps) w [] :=
      hw.of_mem_iff fun u => by simp [asked, Step.asked?]
    have hall := completes_of_traces hw hs
    refine ⟨hall, fun u name text members hget => ⟨?_, fun hu => ?_⟩⟩
    · exact refs_of_eq_some (drafts_of_get? hget)
    · obtain ⟨schema, hok, hdefined⟩ := hall.definitions u _ hu hget
      cases hok
      exact hdefined
  · obtain ⟨failure?, hd, he⟩ := drains_resolve t o w₀
    rw [← he, ne_eq, Option.map_eq_none_iff, ← ne_eq, hstart.drains_fails_iff hd]
    constructor
    · rintro ⟨u, draft, fault, hu, hdraft, hfault⟩
      obtain ⟨declared, hget, rfl⟩ := Option.map_eq_some_iff.1 hdraft
      exact ⟨u, declared, fault, hu, hget, hfault⟩
    · rintro ⟨u, declared, fault, hu, hget, hfault⟩
      exact ⟨u, _, fault, hu, drafts_of_get? hget, hfault⟩

/-- An interface that refers to itself, to an alias of an undeclared name, and an enum. -/
def sampleTable : Table :=
  .ofDeclarations
    [.interface (.ofString "R") [] [] []
      [.property [] (.plain (.ofString "r")) (some (.reference [] (.ofString "R") [])) false false,
       .property [] (.plain (.ofString "a")) (some (.reference [] (.ofString "A") [])) true false],
     .typeAlias (.ofString "A") [] [] (some (.array [] (some (.reference [] (.ofString "G") [])))),
     .enumeration (.ofString "E") [] [.ofString "X", .ofString "Y"]]

/-- The closure of a cyclic declaration, with a missing name and an enum that is asked for after a
first treatment of all names. -/
theorem completes_sampleTable :
    ∃ w, Runs (drafts sampleTable (.rootedAt (.ofString "R")))
        (Worklist.start (.rootedAt (.ofString "R"))).1
        [.resolve, .request (.ofString "E") none, .resolve] w [] ∧
      w.missing = [.text (.ofString "G")] ∧
      w.definitions.keys = [.ofString "R", .ofString "A", .ofString "E"] ∧
      Completes sampleTable (.rootedAt (.ofString "R")) [.ofString "R", .ofString "E"] w := by
  have hr : Runs (drafts sampleTable (.rootedAt (.ofString "R")))
      (Worklist.start (.rootedAt (.ofString "R"))).1
      ([.resolve, .request (.ofString "E") none] ++ [.resolve]) _ [] :=
    .snoc (.snoc (.snoc .nil (.resolve (.next rfl rfl (.next rfl rfl (.next rfl rfl (.done rfl))))))
      (.request _ _ _)) (.resolve (.next rfl rfl (.done rfl)))
  refine ⟨_, hr, rfl, rfl, ?_⟩
  exact ((resolved_isLeast_closure (Options.startsFrom_rootedAt _) (Prod.ext rfl rfl)).1 _ _ hr).1

end Tables

end DeclSchema.Worklist
