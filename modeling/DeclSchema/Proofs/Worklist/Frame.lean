import DeclSchema.Proofs.Worklist.Closure

/-!
# The bottom of the stack

A run takes names from the top of the stack and pushes new ones there, so the names at the bottom
wait until everything above them is treated, what is discovered on the way included. They are not
without effect while they wait: they are requested, and asking for them pushes nothing. But that
hangs on the list of requested names alone, and this list is the same whether the waiting names are
on the stack or set aside.

## Main definitions

* `above`: a worklist with names put below all others
* `withPending`: a worklist of which only some names are pending
* `resolveInTurn`: the upper part of the stack is treated before the lower part is put back

## Main results

* `treat_above`: treating a name neither sees nor moves what lies at the bottom
* `drains_above_iff`: treating all names treats those above before those at the bottom
* `resolve_eq_inTurn`: so does `resolve`, and the names at the bottom wait that long
-/

namespace DeclSchema.Worklist

variable {d : Drafts} {w w' w₁ : Worklist} {failure? : Option Failure}

/-- The worklist with names below all that are on its stack. -/
def above (bottom : List Name) (w : Worklist) : Worklist :=
  { w with stack := w.stack ++ bottom }

/-- The worklist of which only these names are pending, the last one to be treated first. The others
are still requested. -/
def withPending (names : List Name) (w : Worklist) : Worklist :=
  { w with stack := names.reverse }

theorem withPending_above (upper lower : List Name) (w : Worklist) :
    (w.withPending upper).above lower.reverse = w.withPending (lower ++ upper) := by
  rw [withPending, withPending, above, List.reverse_append]

theorem withPending_pending (w : Worklist) : w.withPending w.pending = w := by
  rw [withPending, pending, List.reverse_reverse]

/-! ### Treating one name -/

variable (bottom : List Name)

theorem request_above (name : Name) (requester : Option Text) (w : Worklist) :
    (w.above bottom).request name requester = (w.request name requester).above bottom := by
  -- Whether the name is new is read off the requested names, which the bottom has no part in.
  have hsame : (w.above bottom).isRequested name = w.isRequested name := rfl
  rw [request, request, hsame]
  split <;> rfl

theorem note_above (scope : Text) (w : Worklist) (e : Schema.Event) :
    note scope (w.above bottom) e = (note scope w e).above bottom := by
  cases e with
  | asked name => exact request_above bottom _ _ w
  | schemaless sort text => rfl

theorem noteAll_above (scope : Text) (events : List Schema.Event) (w : Worklist) :
    (w.above bottom).noteAll scope events = (w.noteAll scope events).above bottom := by
  induction events generalizing w with
  | nil => rfl
  | cons e rest ih =>
    change (note scope (w.above bottom) e).noteAll scope rest = _
    rw [note_above, ih]
    rfl

theorem define_above (name : Text) (draft : Draft) (w : Worklist) :
    define name draft (w.above bottom) =
      ((define name draft w).1.above bottom, (define name draft w).2) := by
  have hnoted : ((w.above bottom).report (.resolving name)).noteAll name draft.events =
      ((w.report (.resolving name)).noteAll name draft.events).above bottom :=
    noteAll_above bottom name draft.events (w.report (.resolving name))
  rw [define, define, hnoted]
  cases draft.outcome <;> rfl

/-- Treating a name neither sees nor moves what lies at the bottom of the stack. -/
theorem treat_above (d : Drafts) (name : Name) (w : Worklist) :
    treat d name (w.above bottom) = ((treat d name w).1.above bottom, (treat d name w).2) := by
  rw [treat, treat]
  cases draft? d name with
  | some p => exact define_above bottom p.1 p.2 w
  | none => rfl

/-! ### Treating all names -/

section Drains

variable {bottom} {name : Name} {rest : List Name}

/-- To take a name from the top is to take it above the bottom. -/
theorem treat_top (bottom : List Name) (d : Drafts) (hs : w.stack = name :: rest) :
    (w.above bottom).stack = name :: (rest ++ bottom) ∧
      treat d name { w.above bottom with stack := rest ++ bottom } =
        ((treat d name { w with stack := rest }).1.above bottom,
          (treat d name { w with stack := rest }).2) := by
  refine ⟨?_, treat_above bottom d name { w with stack := rest }⟩
  rw [above, hs, List.cons_append]

/-- A name that fails fails above any bottom, which is left as it is. -/
theorem Drains.above_of_failure {failure : Failure} (h : Drains d w w' (some failure)) :
    Drains d (w.above bottom) (w'.above bottom) (some failure) := by
  generalize hf : some failure = failure? at h
  induction h with
  | done => cases hf
  | fail hs ht =>
    obtain ⟨hs', ht'⟩ := treat_top bottom d hs
    exact .fail hs' (by rw [ht', ht])
  | next hs ht _ ih =>
    obtain ⟨hs', ht'⟩ := treat_top bottom d hs
    exact .next hs' (by rw [ht', ht]) (ih hf)

/-- When everything above the bottom is treated, the bottom is next. -/
theorem Drains.above_of_done (h : Drains d w w₁ none)
    (hbottom : Drains d (w₁.above bottom) w' failure?) :
    Drains d (w.above bottom) w' failure? := by
  -- The induction needs the outcome as a variable; a failing last step contradicts it.
  generalize hf : (none : Option Failure) = outcome at h
  induction h with
  | done => exact hbottom
  | fail => cases hf
  | next hs ht _ ih =>
    obtain ⟨hs', ht'⟩ := treat_top bottom d hs
    exact .next hs' (by rw [ht', ht]) (ih hbottom hf)

/-- Treating all names first treats those above the bottom, and then the bottom unless one of them
failed. -/
theorem drains_above_iff :
    Drains d (w.above bottom) w' failure? ↔
      (∃ w₁ failure, Drains d w w₁ (some failure) ∧ w' = w₁.above bottom ∧
        failure? = some failure) ∨
      ∃ w₁, Drains d w w₁ none ∧ Drains d (w₁.above bottom) w' failure? := by
  constructor
  · -- Induction on the run of the whole. Once nothing is above the bottom, the rest of the run is
    -- that of the bottom.
    intro h
    generalize hw : w.above bottom = whole at h
    induction h generalizing w with
    | done hs =>
      subst hw
      obtain ⟨hstack, -⟩ := List.append_eq_nil_iff.1 hs
      exact .inr ⟨w, .done hstack, .done hs⟩
    | fail hs ht =>
      subst hw
      cases hstack : w.stack with
      | nil => exact .inr ⟨w, .done hstack, .fail hs ht⟩
      | cons name rest =>
        obtain ⟨hs', ht'⟩ := treat_top bottom d hstack
        cases hs.symm.trans hs'
        obtain ⟨rfl, hfault⟩ := Prod.mk.inj (ht'.symm.trans ht)
        exact .inl ⟨_, _, .fail hstack (Prod.ext rfl hfault), rfl, rfl⟩
    | next hs ht hd ih =>
      subst hw
      cases hstack : w.stack with
      | nil => exact .inr ⟨w, .done hstack, .next hs ht hd⟩
      | cons name rest =>
        obtain ⟨hs', ht'⟩ := treat_top bottom d hstack
        cases hs.symm.trans hs'
        obtain ⟨hwhole, hnone⟩ := Prod.mk.inj (ht'.symm.trans ht)
        obtain ⟨w₁, failure, hd₁, hw', hf⟩ | ⟨w₁, hd₁, hd₂⟩ := ih hwhole
        · exact .inl ⟨w₁, failure, .next hstack (Prod.ext rfl hnone) hd₁, hw', hf⟩
        · exact .inr ⟨w₁, .next hstack (Prod.ext rfl hnone) hd₁, hd₂⟩
  · rintro (⟨w₁, failure, hd, rfl, rfl⟩ | ⟨w₁, hd, hbottom⟩)
    · exact hd.above_of_failure
    · exact hd.above_of_done hbottom

end Drains

/-! ### Treating a stack in turn -/

section Tables

variable (t : Table) (o : Options)

/-- Treats the names of the upper part of the stack while those of the lower part are set aside,
puts these back, and treats them too unless a name failed. -/
def resolveInTurn (lower upper : List Name) (w : Worklist) : Worklist × Option Fault :=
  let first := (w.withPending upper).resolve t o
  let whole := first.1.above lower.reverse
  match first.2 with
  | some fault => (whole, some fault)
  | none => whole.resolve t o

variable {t o} {lower upper : List Name}

theorem resolve_withPending_append :
    (w.withPending (lower ++ upper)).resolve t o = w.resolveInTurn t o lower upper := by
  obtain ⟨failure?, hd, he⟩ := drains_resolve t o (w.withPending upper)
  rw [← withPending_above, resolveInTurn, ← he]
  cases failure? with
  | some failure => exact resolve_eq_iff_drains.2 ⟨_, hd.above_of_failure, rfl⟩
  | none =>
    obtain ⟨failure?, hbottom, he⟩ :=
      drains_resolve t o (((w.withPending upper).resolve t o).1.above lower.reverse)
    exact resolve_eq_iff_drains.2 ⟨_, hd.above_of_done hbottom, he⟩

/-- Names that are set aside are neither pending nor settled, like those that failed. -/
theorem Accounts.withPending {others : List Name} (h : Accounts w others)
    (hp : w.pending = lower ++ upper) : Accounts (w.withPending upper) (lower ++ others) := by
  have hstack : w.stack = upper.reverse ++ lower.reverse := by
    rw [← List.reverse_append, ← hp, pending, List.reverse_reverse]
  refine ⟨h.nodup, fun n => ?_⟩
  have hcount := h.count n
  simp only [hstack, List.count_append, List.count_reverse] at hcount
  simp only [Worklist.withPending, defined, List.count_append, List.count_reverse] at hcount ⊢
  omega

/-- **Worklists are stacks.** In every state that a run can reach, whatever failed in it, treating
all names comes to the same as treating the upper part of the stack alone and then, unless a name of
it failed, putting the lower part back and treating this: the same fault, and the same definitions,
missing names, requested names and journal, in the same order. By the time the lower part is put
back, everything else that was ever requested is defined or missing, but for what failed before, and
no name of the lower part is. -/
theorem resolve_eq_inTurn {w₀ : Worklist} {steps : List Step} {failures : List Failure}
    (h₀ : start o = (w₀, none)) (hr : Runs (drafts t o) w₀ steps w failures)
    (hp : w.pending = lower ++ upper) :
    w.resolve t o = w.resolveInTurn t o lower upper ∧
    ∀ w₁, (w.withPending upper).resolve t o = (w₁, none) →
      w₁.pending = [] ∧
      (∀ n, n ∈ w₁.requested ↔
        n ∈ lower ∨ n ∈ w₁.defined ∨ n ∈ w₁.missing ∨ n ∈ failures.map (·.1)) ∧
      ∀ n ∈ lower, n ∉ w₁.defined ∧ n ∉ w₁.missing := by
  constructor
  · rw [← resolve_withPending_append, ← hp, withPending_pending]
  · intro w₁ hw₁
    obtain ⟨failure?, hd, he⟩ := resolve_eq_iff_drains.1 hw₁
    cases Option.map_eq_none_iff.1 he
    have hw : Accounts w (failures.map (·.1)) := by
      have := Accounts.start o
      rw [h₀] at this
      exact this.runs hr
    have haccounts : Accounts w₁ (lower ++ failures.map (·.1)) := (hw.withPending hp).drains hd
    have hnil : w₁.pending = [] := by rw [pending, hd.stack_eq_nil, List.reverse_nil]
    refine ⟨hnil, fun n => ?_, fun n hn => ?_⟩
    · rw [haccounts.mem_requested_iff]
      simp only [held, hnil, List.nil_append, List.mem_append]
      rw [or_left_comm, or_assoc]
    · -- A name is in one place only, and the lower part is in none of these two.
      have hheld : n ∉ w₁.held := by
        intro hmem
        have hdisjoint := (List.nodup_append.1 haccounts.nodup_held_append).2.2
        exact hdisjoint n hmem n (List.mem_append_left _ hn) rfl
      simpa [held, hnil] using hheld

/-- An alias waits below an interface that refers to it. So the interface is defined first, and that
it asks for the alias moves nothing. -/
theorem resolve_eq_inTurn_sampleTable :
    ∃ w w₁, Runs (drafts sampleTable (.rootedAt (.ofString "A")))
        (start (.rootedAt (.ofString "A"))).1 [.request (.ofString "R") none] w [] ∧
      w.pending = [.text (.ofString "A")] ++ [.text (.ofString "R")] ∧
      (w.withPending [.text (.ofString "R")]).resolve sampleTable (.rootedAt (.ofString "A")) =
        (w₁, none) ∧
      w₁.definitions.keys = [.ofString "R"] ∧
      w.resolve sampleTable (.rootedAt (.ofString "A")) =
        w.resolveInTurn sampleTable (.rootedAt (.ofString "A")) [.text (.ofString "A")]
          [.text (.ofString "R")] ∧
      Name.text (.ofString "A") ∉ w₁.defined := by
  let w := (start (.rootedAt (.ofString "A"))).1.request (.text (.ofString "R")) none
  have hr : Runs (drafts sampleTable (.rootedAt (.ofString "A")))
      (start (.rootedAt (.ofString "A"))).1 ([] ++ [.request (.ofString "R") none]) w [] :=
    .snoc .nil (.request _ _ _)
  have hd : Drains (drafts sampleTable (.rootedAt (.ofString "A")))
      (w.withPending [.text (.ofString "R")]) _ none := .next rfl rfl (.done rfl)
  have hw₁ := resolve_eq_iff_drains.2 ⟨none, hd, rfl⟩
  obtain ⟨heq, hbottom⟩ := resolve_eq_inTurn (Prod.ext rfl rfl) hr
    (show w.pending = [.text (.ofString "A")] ++ [.text (.ofString "R")] from rfl)
  exact ⟨w, _, hr, rfl, hw₁, rfl, heq, ((hbottom _ hw₁).2.2 _ List.mem_cons_self).1⟩

end Tables

end DeclSchema.Worklist
