import DeclSchema.Proofs.Worklist.Run

/-!
# What is reported stays reported

The journal of a worklist and its list of requested names are only written at their ends. So what
was reported while a definition was made can be found there ever after: a name that it asks for is
requested, and a form without a schema has its warning in the journal.

## Main definitions

* `Extends`: a later worklist has everything that was reported
* `Noted`: what an event of a definition leaves behind
* `Records`: every definition left behind what its draft reports

## Main results

* `Drains.extends`, `Records.drains`: treating all names keeps what was reported, and records the
  definitions that it makes
-/

namespace DeclSchema.Worklist

variable {d : Drafts} {w w₁ w' : Worklist}

/-- Names are requested and notices are reported, and none is taken back. -/
structure Extends (w w' : Worklist) : Prop where
  requested : w.requested <+: w'.requested
  journal : w.journal <+: w'.journal

namespace Extends

theorem refl (w : Worklist) : w.Extends w :=
  ⟨List.prefix_refl _, List.prefix_refl _⟩

theorem trans (h : w.Extends w₁) (h' : w₁.Extends w') : w.Extends w' :=
  ⟨h.requested.trans h'.requested, h.journal.trans h'.journal⟩

end Extends

theorem pop_extends (rest : List Name) (w : Worklist) : w.Extends { w with stack := rest } :=
  ⟨List.prefix_refl _, List.prefix_refl _⟩

theorem report_extends (n : Notice) (w : Worklist) : w.Extends (w.report n) :=
  ⟨List.prefix_refl _, List.prefix_append _ _⟩

theorem request_extends (name : Name) (requester : Option Text) (w : Worklist) :
    w.Extends (w.request name requester) := by
  unfold request
  split
  · exact .refl w
  · exact ⟨List.prefix_append _ _, List.prefix_append _ _⟩

theorem note_extends (scope : Text) (w : Worklist) (e : Schema.Event) :
    w.Extends (note scope w e) := by
  cases e with
  | asked name => exact request_extends _ _ _
  | schemaless sort text => exact report_extends _ _

theorem noteAll_extends (scope : Text) (events : List Schema.Event) (w : Worklist) :
    w.Extends (w.noteAll scope events) := by
  induction events generalizing w with
  | nil => exact .refl w
  | cons e rest ih => exact (note_extends scope w e).trans (ih _)

theorem treat_extends {name : Name} {fault? : Option Fault} (h : treat d name w = (w', fault?)) :
    w.Extends w' := by
  obtain ⟨u, draft, schema, -, -, -, -, rfl⟩ | ⟨u, draft, fault, -, -, -, -, rfl⟩ |
    ⟨-, -, rfl⟩ := treat_cases h
  · -- Putting the definition touches neither list.
    have := (report_extends (.resolving u) w).trans (noteAll_extends u draft.events _)
    exact ⟨this.requested, this.journal⟩
  · exact (report_extends (.resolving u) w).trans (noteAll_extends u draft.events _)
  · exact ⟨List.prefix_refl _, List.prefix_append _ _⟩

theorem Drains.extends {failure? : Option Failure} (h : Drains d w w' failure?) :
    w.Extends w' := by
  refine Drains.keeps (P := fun later _ => w.Extends later) ?_ ?_ h [] (.refl w)
  · intro w₁ _ _ rest h _
    exact h.trans (pop_extends rest w₁)
  · intro w₁ w₂ _ _ _ h ht
    exact h.trans (treat_extends ht)

theorem Step.Takes.extends {step : Step} {failure? : Option Failure}
    (h : step.Takes d w w' failure?) : w.Extends w' := by
  cases h with
  | request => exact request_extends _ _ _
  | resolve hd => exact hd.extends

/-! ### What a definition leaves behind -/

/-- What an event in the definition of `scope` leaves behind in a worklist. -/
def Noted (scope : Text) (w : Worklist) : Schema.Event → Prop
  | .asked name => .text name ∈ w.requested
  | .schemaless sort text => .schemaless scope sort text ∈ w.journal

theorem Noted.of_extends {scope : Text} {e : Schema.Event} (h : Noted scope w e)
    (hw : w.Extends w') : Noted scope w' e := by
  cases e with
  | asked name => exact hw.requested.subset h
  | schemaless sort text => exact hw.journal.subset h

theorem noted_note (scope : Text) (w : Worklist) (e : Schema.Event) :
    Noted scope (note scope w e) e := by
  cases e with
  | asked name => exact mem_requested_request.2 (Or.inr rfl)
  | schemaless sort text => exact List.mem_append_right _ (List.mem_singleton.2 rfl)

theorem noted_noteAll {scope : Text} {events : List Schema.Event} {e : Schema.Event}
    (he : e ∈ events) (w : Worklist) : Noted scope (w.noteAll scope events) e := by
  induction events generalizing w with
  | nil => cases he
  | cons e' rest ih =>
    rcases List.mem_cons.1 he with rfl | he
    · -- What the first event leaves behind is still there after the other ones.
      exact (noted_note scope w e).of_extends (noteAll_extends scope rest _)
    · exact ih he _

/-- Every definition is that of its draft, and what the draft reports can be found. -/
def Records (d : Drafts) (w : Worklist) : Prop :=
  ∀ u schema, (u, schema) ∈ w.definitions →
    ∃ draft, d u = some draft ∧ draft.outcome = .ok schema ∧ ∀ e ∈ draft.events, Noted u w e

namespace Records

theorem of_definitions_eq (h : Records d w) (hd : w'.definitions = w.definitions)
    (hw : w.Extends w') : Records d w' := by
  intro u schema hu
  rw [hd] at hu
  obtain ⟨draft, hdraft, ho, hn⟩ := h u schema hu
  exact ⟨draft, hdraft, ho, fun e he => (hn e he).of_extends hw⟩

theorem pop (h : Records d w) (rest : List Name) : Records d { w with stack := rest } :=
  h.of_definitions_eq rfl (pop_extends rest w)

theorem empty : Records d Worklist.empty := by
  intro u schema hu
  cases hu

theorem requestAll (h : Records d w) (vs : List Json) : Records d (w.requestAll vs).1 := by
  induction vs generalizing w with
  | nil => exact h
  | cons v rest ih =>
    unfold Worklist.requestAll
    split
    · exact ih (h.of_definitions_eq (request_definitions _ _ _) (request_extends _ _ _))
    · exact h

theorem start (o : Options) : Records d (Worklist.start o).1 := by
  unfold Worklist.start
  split
  · exact empty.requestAll _
  · exact empty

theorem treat {name : Name} {fault? : Option Fault} (h : Records d w)
    (ht : treat d name w = (w', fault?)) : Records d w' := by
  have hw := treat_extends ht
  obtain ⟨u, draft, schema, -, hd, ho, -, rfl⟩ | ⟨u, draft, fault, -, -, -, -, rfl⟩ |
    ⟨-, -, rfl⟩ := treat_cases ht
  · intro v s hv
    -- A definition is the new one, or it was there before and what it left behind still is.
    rcases Entries.mem_put hv with hv | hv
    · cases hv
      exact ⟨draft, hd, ho, fun e he => noted_noteAll he (w.report (.resolving u))⟩
    · obtain ⟨draft', hd', ho', hn⟩ := h v s hv
      exact ⟨draft', hd', ho', fun e he => (hn e he).of_extends hw⟩
  · exact h.of_definitions_eq noteAll_definitions hw
  · exact h.of_definitions_eq rfl hw

theorem drains {failure? : Option Failure} (h : Records d w) (hd : Drains d w w' failure?) :
    Records d w' := by
  refine Drains.keeps (P := fun later _ => Records d later) ?_ ?_ hd [] h
  · intro w₁ _ _ rest h _
    exact h.pop rest
  · intro w₁ w₂ _ _ _ h ht
    exact h.treat ht

end Records

end DeclSchema.Worklist
