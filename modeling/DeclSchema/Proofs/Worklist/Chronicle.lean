import DeclSchema.Proofs.Worklist.Account
import DeclSchema.Proofs.Worklist.Termination
import Mathlib.Data.List.Pairwise

/-!
# A worklist only grows, and reports each name once

What a worklist has found out about a name is final: a definition is put behind the others and a
missing name behind the other missing ones, and neither is touched again. For a dictionary this is
no matter of course, since a key that is put twice keeps its place and loses its value. It holds
here because the name that is treated is in none of the places, which is what the account says.

The journal tells the same story. A name is in it once as requested, namely when it was put on the
stack, and at most once as treated, namely when it was taken from the stack: then either its
definition is made, or it is missing. A definition that fails has been reported already, and its
name never comes back to the stack.

## Main definitions

* `Notice.requested?`, `Notice.resolving?`, `Notice.undeclared?`: the name that a notice is about
* `Grows`: definitions and missing names are added behind the old ones
* `Chronicle`: the journal has the requested, the treated and the missing names, in order

## Main results

* `Step.Takes.grows`: a step from outside takes nothing back, even if it fails
* `Chronicle.life`: the journal of every life is a chronicle
* `grows_and_reports_once`: both for every run
-/

namespace DeclSchema

namespace Notice

/-- The name that is asked for for the first time. -/
def requested? : Notice → Option Name
  | requested name _ => some name
  | _ => none

/-- The name whose definition is made from here on. -/
def resolving? : Notice → Option Name
  | resolving name => some (.text name)
  | _ => none

/-- The name that is found missing. -/
def undeclared? : Notice → Option Name
  | undeclared name => some name
  | _ => none

/-- The name that was taken from the stack, whatever became of it. -/
def treated? : Notice → Option Name
  | resolving name => some (.text name)
  | undeclared name => some name
  | _ => none

/-- A name is reported as treated when its definition is made, and when it is missing. -/
theorem countP_treated (p : Name → Bool) (journal : List Notice) :
    (journal.filterMap treated?).countP p =
      (journal.filterMap resolving?).countP p + (journal.filterMap undeclared?).countP p := by
  induction journal with
  | nil => rfl
  | cons notice rest ih =>
    cases notice with
    | resolving name =>
      simp only [List.filterMap_cons, treated?, resolving?, undeclared?, List.countP_cons, ih]
      omega
    | undeclared name =>
      simp only [List.filterMap_cons, treated?, resolving?, undeclared?, List.countP_cons, ih]
      omega
    | _ => exact ih

end Notice

namespace Worklist

variable {d : Drafts} {w₀ w w₁ w' : Worklist} {wanted taken others : List Name}

/-! ### Nothing is taken back -/

/-- Definitions and missing names stand where they stood before. -/
structure Grows (w w' : Worklist) : Prop where
  definitions : w.definitions <+: w'.definitions
  missing : w.missing <+: w'.missing

namespace Grows

theorem refl (w : Worklist) : w.Grows w :=
  ⟨List.prefix_refl _, List.prefix_refl _⟩

theorem trans (h : w.Grows w₁) (h' : w₁.Grows w') : w.Grows w' :=
  ⟨h.definitions.trans h'.definitions, h.missing.trans h'.missing⟩

end Grows

theorem request_grows (name : Name) (requester : Option Text) (w : Worklist) :
    w.Grows (w.request name requester) := by
  constructor
  · simp only [request_definitions, List.prefix_refl]
  · simp only [request_missing, List.prefix_refl]

/-- What is treated is none of the names that are defined, so its definition replaces none. -/
theorem treat_grows {name : Name} {fault? : Option Fault} (h : Accounts w (name :: others))
    (ht : treat d name w = (w', fault?)) : w.Grows w' := by
  obtain ⟨u, draft, schema, rfl, -, -, -, rfl⟩ | ⟨u, draft, fault, rfl, -, -, -, rfl⟩ |
    ⟨-, -, rfl⟩ := treat_cases ht
  -- A name that is taken is pending, and no pending name is defined.
  · have hnew : u ∉ w.definitions.keys := h.notMem_keys List.mem_cons_self
    constructor
    · show w.definitions <+: w.definitions.put u schema
      rw [Entries.put_of_notMem hnew]
      exact List.prefix_append _ _
    · show w.missing <+: ((w.report (.resolving u)).noteAll u draft.events).missing
      rw [noteAll_missing]
      exact List.prefix_refl _
  · constructor
    · rw [noteAll_definitions]
      exact List.prefix_refl _
    · rw [noteAll_missing]
      exact List.prefix_refl _
  · exact ⟨List.prefix_refl _, List.prefix_append _ _⟩

theorem Drains.grows {failure? : Option Failure} (h : Accounts w others)
    (hd : Drains d w w' failure?) : w.Grows w' := by
  -- The account goes along, since it is what keeps a definition from being overwritten.
  have hboth := Drains.keeps (P := fun later names => Accounts later names ∧ w.Grows later)
    ?_ ?_ hd others ⟨h, .refl w⟩
  · exact hboth.2
  · rintro w₁ names name rest ⟨hw₁, hgrows⟩ hs
    exact ⟨hw₁.pop hs, hgrows.definitions, hgrows.missing⟩
  · rintro w₁ w₂ names name fault? ⟨hw₁, hgrows⟩ ht
    exact ⟨hw₁.treat ht, hgrows.trans (treat_grows hw₁ ht)⟩

theorem Step.Takes.grows {step : Step} {failure? : Option Failure} (h : Accounts w others)
    (ht : step.Takes d w w' failure?) : w.Grows w' := by
  cases ht with
  | request name requester => exact request_grows _ _ _
  | resolve hd => exact hd.grows h

/-! ### The journal as a chronicle -/

theorem filterMap_report {α : Type} (f : Notice → Option α) (w : Worklist) (n : Notice) :
    (w.report n).journal.filterMap f = w.journal.filterMap f ++ (f n).toList := by
  rw [report, List.filterMap_append]
  cases hn : f n <;> simp [hn]

/-- The journal reports the requested names, the names that were taken from the stack, and the
missing ones among these, each once and in order. -/
structure Chronicle (w : Worklist) (taken : List Name) : Prop where
  requested : w.journal.filterMap Notice.requested? = w.requested
  treated : w.journal.filterMap Notice.treated? = taken
  undeclared : w.journal.filterMap Notice.undeclared? = w.missing

namespace Chronicle

theorem empty : Chronicle Worklist.empty [] :=
  ⟨rfl, rfl, rfl⟩

theorem request (h : Chronicle w taken) (name : Name) (requester : Option Text) :
    Chronicle (w.request name requester) taken := by
  unfold Worklist.request
  split
  · exact h
  · -- A new name has its notice, which says nothing about names that were treated.
    constructor
    · simp [Notice.requested?, h.requested]
    · simp [Notice.treated?, h.treated]
    · simp [Notice.undeclared?, h.undeclared]

/-- A notice that changes no list of the worklist may still tell that a name was treated. -/
theorem report (h : Chronicle w taken) {n : Notice} (hrequested : n.requested? = none)
    (hundeclared : n.undeclared? = none) :
    Chronicle (w.report n) (taken ++ n.treated?.toList) := by
  constructor
  · rw [filterMap_report, hrequested, h.requested]
    exact List.append_nil _
  · rw [filterMap_report, h.treated]
  · rw [filterMap_report, hundeclared, h.undeclared]
    exact List.append_nil _

theorem schemaless (h : Chronicle w taken) (scope sort text : Text) :
    Chronicle (w.report (.schemaless scope sort text)) taken := by
  have hreport := h.report (n := .schemaless scope sort text) rfl rfl
  rwa [show (Notice.schemaless scope sort text).treated? = none from rfl, Option.toList_none,
    List.append_nil] at hreport

theorem noteAll (h : Chronicle w taken) (scope : Text) (events : List Schema.Event) :
    Chronicle (w.noteAll scope events) taken := by
  induction events generalizing w with
  | nil => exact h
  | cons e rest ih =>
    apply ih
    cases e with
    | asked name => exact h.request _ _
    | schemaless sort text => exact h.schemaless _ _ _

theorem resolving (h : Chronicle w taken) (u : Text) :
    Chronicle (w.report (.resolving u)) (taken ++ [.text u]) :=
  h.report rfl rfl

theorem miss (h : Chronicle w taken) (name : Name) : Chronicle (w.miss name) (taken ++ [name]) := by
  constructor
  · simp [Worklist.miss, Worklist.report, Notice.requested?, h.requested]
  · simp [Worklist.miss, Worklist.report, Notice.treated?, h.treated]
  · simp [Worklist.miss, Worklist.report, Notice.undeclared?, h.undeclared]

/-- The name that is treated is reported in any case, before its definition can fail. -/
theorem treat {name : Name} {fault? : Option Fault} (h : Chronicle w taken)
    (ht : treat d name w = (w', fault?)) : Chronicle w' (taken ++ [name]) := by
  obtain ⟨u, draft, schema, rfl, -, -, -, rfl⟩ | ⟨u, draft, fault, rfl, -, -, -, rfl⟩ |
    ⟨-, -, rfl⟩ := treat_cases ht
  · have hnoted := (h.resolving u).noteAll u draft.events
    exact ⟨hnoted.requested, hnoted.treated, hnoted.undeclared⟩
  · exact (h.resolving u).noteAll u draft.events
  · exact h.miss name

theorem requestAll (h : Chronicle w taken) (vs : List Json) :
    Chronicle (w.requestAll vs).1 taken := by
  induction vs generalizing w with
  | nil => exact h
  | cons v rest ih =>
    unfold Worklist.requestAll
    split
    · exact ih (h.request _ _)
    · exact h

theorem start (o : Options) : Chronicle (start o).1 [] := by
  unfold Worklist.start
  split
  · exact empty.requestAll _
  · exact empty

theorem life (h₀ : Chronicle w₀ []) (h : Life d w₀ wanted taken w) : Chronicle w taken := by
  induction h with
  | start => exact h₀
  | request _ name requester ih => exact ih.request name requester
  | @round _ _ w _ _ rest _ _ _ ht ih =>
    -- Taking the name from the stack leaves the journal as it is.
    have hpop : Chronicle { w with stack := rest } _ := ⟨ih.requested, ih.treated, ih.undeclared⟩
    exact hpop.treat ht

end Chronicle

/-! ### How often a name occurs -/

namespace Parts

/-- The only requested name that stands for the same as a given one is this one. -/
theorem eq_of_same (h : Parts w taken) {m n : Name} (hm : m ∈ w.requested) (hn : n ∈ w.requested)
    (hs : m.same n = true) : m = n := by
  by_contra hne
  have hsymm : Std.Symm fun m n : Name => m.same n = false :=
    ⟨fun m n hmn => by rwa [Name.same_comm]⟩
  have := h.apart.forall hm hn hne
  rw [this] at hs
  cases hs

theorem nodup_requested (h : Parts w taken) : w.requested.Nodup := by
  refine h.apart.imp ?_
  rintro m n hmn rfl
  rw [Name.same_self] at hmn
  cases hmn

/-- Among requested names, to stand for the same is to be the same. -/
theorem countP_same (h : Parts w taken) {n : Name} {names : List Name} (hn : n ∈ w.requested)
    (hnames : names ⊆ w.requested) : names.countP n.same = names.count n := by
  rw [List.count]
  refine List.countP_congr ?_
  intro m hm
  constructor
  · intro hs
    rw [h.eq_of_same hn (hnames hm) hs]
    exact beq_self_eq_true m
  · intro he
    rw [beq_iff_eq.1 he]
    exact Name.same_self n

/-- No name was taken twice. -/
theorem nodup_taken (h : Parts w taken) : taken.Nodup :=
  (List.nodup_append.1 (h.perm.nodup_iff.2 h.nodup_requested)).1

end Parts

/-- **A worklist only grows, and reports each name once.** After every run, whatever failed in it, a
further step puts definitions and missing names behind those that there are, which stay as they are,
and it forgets no requested name. In the journal of the run, each requested name is asked for for
the first time once, and at most once it is either reported that its definition is made or that it
is missing; the names that are reported as missing are the missing ones, in order. -/
theorem grows_and_reports_once {o : Options} {steps : List Step} {failures : List Failure}
    (h₀ : Worklist.start o = (w₀, none)) (h : Runs d w₀ steps w failures) :
    (∀ step w' failure?, Step.Takes d step w w' failure? →
      w.definitions <+: w'.definitions ∧ w.missing <+: w'.missing ∧
        w.requested ⊆ w'.requested) ∧
    (∀ n ∈ w.requested,
      (w.journal.filterMap Notice.requested?).countP n.same = 1 ∧
      (w.journal.filterMap Notice.resolving?).countP n.same +
        (w.journal.filterMap Notice.undeclared?).countP n.same ≤ 1) ∧
    w.journal.filterMap Notice.undeclared? = w.missing := by
  obtain ⟨taken, hlife⟩ := Life.runs h
  have hparts : Parts w taken := by
    have := Parts.start o
    rw [h₀] at this
    exact this.life hlife
  have hchronicle : Chronicle w taken := by
    have := Chronicle.start o
    rw [h₀] at this
    exact this.life hlife
  refine ⟨?_, ?_, hchronicle.undeclared⟩
  · intro step w' failure? ht
    have haccounts : Accounts w (failures.map (·.1)) := by
      have := Accounts.start o
      rw [h₀] at this
      exact this.runs h
    have hgrows := ht.grows haccounts
    exact ⟨hgrows.definitions, hgrows.missing, ht.extends.requested.subset⟩
  · intro n hn
    constructor
    · rw [hchronicle.requested, hparts.countP_same hn (List.Subset.refl _)]
      have hpos : 0 < w.requested.count n := List.count_pos_iff.2 hn
      have hle : w.requested.count n ≤ 1 := List.nodup_iff_count.1 hparts.nodup_requested n
      omega
    · rw [← Notice.countP_treated, hchronicle.treated, hparts.countP_same hn hparts.taken_subset]
      exact List.nodup_iff_count.1 hparts.nodup_taken n

/-- A name fails in the middle of the first treatment, is asked for again and is not treated again;
a name that is missing is reported as such once. -/
theorem grows_and_reports_once_crossTable :
    ∃ w failure, Runs (drafts crossTable (.rootedAt (.ofString "R")))
        (start (.rootedAt (.ofString "R"))).1
        [.resolve, .request (.ofString "S") none, .resolve] w [failure] ∧
      w.definitions.keys = [.ofString "R"] ∧
      w.missing = [.text (.ofString "E"), .text (.ofString "G")] ∧
      w.journal.filterMap Notice.undeclared? = w.missing ∧
      ∀ n ∈ w.requested, (w.journal.filterMap Notice.requested?).countP n.same = 1 ∧
        (w.journal.filterMap Notice.resolving?).countP n.same +
          (w.journal.filterMap Notice.undeclared?).countP n.same ≤ 1 := by
  have hfailed : Runs (drafts crossTable (.rootedAt (.ofString "R")))
      (start (.rootedAt (.ofString "R"))).1 [.resolve] _ [(.text (.ofString "S"), _)] :=
    .snoc .nil (.resolve (.next rfl rfl (.fail rfl rfl)))
  have hr := (hfailed.snoc (.request (.ofString "S") none _)).snoc
    (.resolve (.next rfl rfl (.next rfl rfl (.done rfl))))
  obtain ⟨-, hnames, hmissing⟩ := grows_and_reports_once (Prod.ext rfl rfl) hr
  exact ⟨_, _, hr, rfl, rfl, hmissing, hnames⟩

end Worklist

end DeclSchema
