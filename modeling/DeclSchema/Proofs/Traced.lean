import DeclSchema.Traced

/-!
# Postconditions of computations with events

A computation with events has two kinds of properties. One kind is about its end: if it ends with a
value, then the value goes together with what was reported on the way. The other kind is about the
way alone: what is reported has a property, or is a beginning of a list, even if a fault comes
later. Both are read off a sequence of computations part by part.

## Main definitions

* `Traced.Ensures`: what a value at the end goes together with
* `Traced.Emits`: what all events have in common
* `Traced.Reports`: what is reported, as far as the computation gets
* `Traced.ending`: a computation without its value

## Main results

* `Traced.forM_outcome_eq_error_iff`: a row of computations fails as the first one of them that does
* `Traced.reports_forM`: a row of computations reports what they report, one after the other
-/

namespace DeclSchema.Traced

variable {ε α β : Type}

/-- If the computation ends with a value, its events and the value meet a postcondition. -/
def Ensures (x : Traced ε α) (post : List ε → α → Prop) : Prop :=
  ∀ a, x.outcome = .ok a → post x.events a

/-- All events have a property, whatever the end. -/
def Emits (x : Traced ε α) (p : ε → Prop) : Prop :=
  ∀ e ∈ x.events, p e

/-- A sequence that ends with a value has one at the end of its first part. -/
theorem exists_of_bind_outcome_eq_ok {x : Traced ε α} {f : α → Traced ε β} {b : β}
    (h : (x >>= f).outcome = .ok b) : ∃ a, x.outcome = .ok a ∧ (f a).outcome = .ok b := by
  cases ha : x.outcome with
  | ok a =>
    rw [bind_ok ha] at h
    exact ⟨a, rfl, h⟩
  | error e =>
    rw [bind_error ha] at h
    cases h

/-- The second part of a sequence matters only where its first part ends with a value. -/
theorem bind_congr_of_ok {x : Traced ε α} {f g : α → Traced ε β}
    (h : ∀ a, x.outcome = .ok a → f a = g a) : x >>= f = x >>= g := by
  cases ha : x.outcome with
  | ok a => rw [bind_ok ha, bind_ok ha, h a ha]
  | error e => rw [bind_error ha, bind_error ha]

section Ensures

variable {post : List ε → α → Prop}

theorem Ensures.imp {x : Traced ε α} {weaker : List ε → α → Prop} (h : x.Ensures post)
    (hp : ∀ es a, post es a → weaker es a) : x.Ensures weaker := by
  intro a ha
  exact hp _ _ (h a ha)

theorem ensures_pure {a : α} : (pure a : Traced ε α).Ensures post ↔ post [] a := by
  constructor
  · intro h
    exact h a rfl
  · rintro h _ ⟨⟩
    exact h

theorem ensures_fail (f : Fault) : (fail f : Traced ε α).Ensures post := by
  rintro _ ⟨⟩

/-- The postcondition of a sequence, with the events of its first part put in front. -/
theorem ensures_bind {x : Traced ε α} {f : α → Traced ε β} {post : List ε → β → Prop} :
    (x >>= f).Ensures post ↔
      ∀ a, x.outcome = .ok a → (f a).Ensures fun es b => post (x.events ++ es) b := by
  constructor
  · intro h a ha b hb
    have := h b
    rw [bind_ok ha] at this
    exact this hb
  · -- A sequence that ends with a value has one at the end of its first part.
    intro h b hb
    cases ha : x.outcome with
    | ok a =>
      rw [bind_ok ha] at hb ⊢
      exact h a ha b hb
    | error e =>
      rw [bind_error ha] at hb
      cases hb

/-- A sequence whose postconditions do not speak about the events. -/
theorem Ensures.bind {x : Traced ε α} {f : α → Traced ε β} {p : α → Prop} {q : β → Prop}
    (hx : x.Ensures fun _ => p) (hf : ∀ a, p a → (f a).Ensures fun _ => q) :
    (x >>= f).Ensures fun _ => q :=
  ensures_bind.2 fun a ha => hf a (hx a ha)

theorem ensures_mapM {f : β → Traced ε α} {bs : List β} {p : α → Prop}
    (h : ∀ b ∈ bs, (f b).Ensures fun _ => p) : (bs.mapM f).Ensures fun _ as => ∀ a ∈ as, p a := by
  induction bs with
  | nil =>
    rw [List.mapM_nil]
    exact ensures_pure.2 nofun
  | cons b rest ih =>
    rw [List.mapM_cons]
    refine (h b (List.mem_cons_self ..)).bind fun a ha => ?_
    refine (ih fun b hb => h b (List.mem_cons_of_mem _ hb)).bind fun as has => ?_
    exact ensures_pure.2 (List.forall_mem_cons.2 ⟨ha, has⟩)

end Ensures

/-! ### What is reported on the way -/

section Reports

variable {es fs : List ε}

/-- The computation reports a list of events, as far as it gets. -/
def Reports (x : Traced ε α) (es : List ε) : Prop :=
  x.events <+: es ∧ ∀ a, x.outcome = .ok a → x.events = es

theorem reports_pure (a : α) : (pure a : Traced ε α).Reports [] :=
  ⟨List.prefix_rfl, fun _ _ => rfl⟩

/-- A failure gets nowhere. -/
theorem reports_fail (f : Fault) (es : List ε) : (fail f : Traced ε α).Reports es :=
  ⟨List.nil_prefix, nofun⟩

theorem reports_ofExcept (x : Except Fault α) : (ofExcept x : Traced ε α).Reports [] :=
  ⟨List.prefix_rfl, fun _ _ => rfl⟩

theorem reports_emit (e : ε) : (emit e).Reports [e] :=
  ⟨List.prefix_rfl, fun _ _ => rfl⟩

theorem Reports.bind {x : Traced ε α} {f : α → Traced ε β} (hx : x.Reports es)
    (hf : ∀ a, x.outcome = .ok a → (f a).Reports fs) : (x >>= f).Reports (es ++ fs) := by
  obtain ⟨hbegins, hall⟩ := hx
  cases ha : x.outcome with
  | ok a =>
    obtain ⟨hbegins', hall'⟩ := hf a ha
    rw [bind_ok ha, hall a ha]
    refine ⟨(List.prefix_append_right_inj es).2 hbegins', fun b hb => ?_⟩
    change es ++ (f a).events = es ++ fs
    rw [hall' b hb]
  | error e =>
    rw [bind_error ha]
    exact ⟨hbegins.trans (List.prefix_append ..), nofun⟩

/-- A first part that reports nothing. -/
theorem Reports.after {x : Traced ε α} {f : α → Traced ε β} (hx : x.Reports [])
    (hf : ∀ a, x.outcome = .ok a → (f a).Reports es) : (x >>= f).Reports es :=
  hx.bind hf

/-- If all that is to be reported has a property, then so has what is reported. -/
theorem Reports.emits {x : Traced ε α} {p : ε → Prop} (hx : x.Reports es) (h : ∀ e ∈ es, p e) :
    x.Emits p :=
  fun e he => h e (hx.1.subset he)

/-- The postcondition of a sequence whose first part reports nothing. -/
theorem ensures_after {x : Traced ε α} {f : α → Traced ε β} {post : List ε → β → Prop}
    (hx : x.Reports []) (hf : ∀ a, x.outcome = .ok a → (f a).Ensures post) :
    (x >>= f).Ensures post := by
  refine ensures_bind.2 fun a ha => ?_
  rw [hx.2 a ha]
  exact hf a ha

end Reports

/-! ### Computations without their values -/

section Ending

/-- The computation without its value. -/
def ending (x : Traced ε α) : Traced ε Unit :=
  (fun _ => ()) <$> x

@[simp] theorem ending_pure (a : α) : (pure a : Traced ε α).ending = pure () :=
  map_pure _ a

@[simp] theorem ending_fail (f : Fault) : (fail f : Traced ε α).ending = fail f :=
  rfl

theorem ending_bind (x : Traced ε α) (f : α → Traced ε β) :
    (x >>= f).ending = x >>= fun a => (f a).ending :=
  map_bind ..

/-- A sequence whose second part does not use the value of the first one. -/
theorem ending_bind_of {x : Traced ε α} {f : α → Traced ε β} {y : Traced ε Unit}
    (h : ∀ a, (f a).ending = y) : (x >>= f).ending = x.ending >>= fun _ => y := by
  rw [ending_bind, ending, bind_map_left]
  exact bind_congr h

/-- What is made of the value in the end does not matter. -/
theorem ending_bind_pure (x : Traced ε α) (f : α → β) :
    (x >>= fun a => pure (f a)).ending = x.ending := by
  rw [bind_pure_comp, ending, ending, Functor.map_map]

@[simp] theorem ending_unit (x : Traced ε Unit) : x.ending = x :=
  id_map x

@[simp] theorem ending_events (x : Traced ε α) : x.ending.events = x.events := by
  rw [ending, map_eq_pure_bind]
  cases h : x.outcome with
  | ok a => rw [bind_ok h]; exact List.append_nil _
  | error e => rw [bind_error h]

theorem ending_outcome_eq_error_iff {x : Traced ε α} {f : Fault} :
    x.ending.outcome = .error f ↔ x.outcome = .error f := by
  rw [ending, map_eq_pure_bind]
  cases h : x.outcome with
  | ok a => rw [bind_ok h]; exact ⟨nofun, nofun⟩
  | error e => rw [bind_error h]; simp

theorem ending_outcome_eq_ok_iff {x : Traced ε α} :
    x.ending.outcome = .ok () ↔ ∃ a, x.outcome = .ok a := by
  rw [ending, map_eq_pure_bind]
  cases h : x.outcome with
  | ok a => rw [bind_ok h]; exact ⟨fun _ => ⟨a, rfl⟩, fun _ => rfl⟩
  | error e => rw [bind_error h]; simp

theorem reports_ending_iff {x : Traced ε α} {es : List ε} :
    x.ending.Reports es ↔ x.Reports es := by
  rw [Reports, Reports, ending_events]
  refine and_congr_right fun _ => ⟨fun h a ha => ?_, fun h _ ha => ?_⟩
  · exact h () (ending_outcome_eq_ok_iff.2 ⟨a, ha⟩)
  · obtain ⟨a, ha⟩ := ending_outcome_eq_ok_iff.1 ha
    exact h a ha

end Ending

/-! ### Rows of computations -/

section Row

variable {f : β → Traced ε Unit} {bs : List β}

theorem forM_outcome_eq_ok_iff :
    (forM bs f).outcome = .ok () ↔ ∀ b ∈ bs, (f b).outcome = .ok () := by
  induction bs with
  | nil => exact ⟨fun _ => nofun, fun _ => rfl⟩
  | cons b rest ih =>
    rw [List.forM_cons, List.forall_mem_cons, ← ih]
    constructor
    · intro h
      obtain ⟨_, hb, hrest⟩ := exists_of_bind_outcome_eq_ok h
      exact ⟨hb, hrest⟩
    · rintro ⟨hb, hrest⟩
      rw [bind_ok hb]
      exact hrest

/-- A row of computations fails as the first one of them that fails. -/
theorem forM_outcome_eq_error_iff {e : Fault} :
    (forM bs f).outcome = .error e ↔
      ∃ front b back, bs = front ++ b :: back ∧ (∀ a ∈ front, (f a).outcome = .ok ()) ∧
        (f b).outcome = .error e := by
  constructor
  · induction bs with
    | nil => nofun
    | cons b rest ih =>
      intro h
      rw [List.forM_cons] at h
      cases hb : (f b).outcome with
      | ok u =>
        rw [bind_ok hb] at h
        obtain ⟨front, b', back, rfl, hfront, hb'⟩ := ih h
        exact ⟨b :: front, b', back, rfl, List.forall_mem_cons.2 ⟨hb, hfront⟩, hb'⟩
      | error fault =>
        rw [bind_error hb] at h
        exact ⟨[], b, rest, rfl, nofun, hb.trans h⟩
  -- What comes behind the first failure is not run.
  · rintro ⟨front, b, back, rfl, hfront, hb⟩
    rw [List.forM_append, bind_ok (forM_outcome_eq_ok_iff.2 hfront), List.forM_cons,
      bind_error hb]

theorem reports_forM {g : β → List ε} (h : ∀ b, (f b).Reports (g b)) :
    (forM bs f).Reports (bs.flatMap g) := by
  induction bs with
  | nil => exact reports_pure ()
  | cons b rest ih =>
    rw [List.forM_cons, List.flatMap_cons]
    exact (h b).bind fun _ _ => ih

end Row

end DeclSchema.Traced
