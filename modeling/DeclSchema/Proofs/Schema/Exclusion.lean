import DeclSchema.Proofs.Schema.Cases
import Mathlib.Data.List.Basic

/-!
# Excluding more

Two options name what is left out of a schema: members of unions, and bases of interfaces. If other
options leave out more, then less of a declaration is visited, at any depth. So nothing is reported
that was not reported before, and no new fault arises but one: a union may lose its last member. If
the policy is to accept that, a schema that could be made can still be made.

Nothing is said of the schemas themselves. They differ wherever something is left out.

## Main definitions

* `Traced.Bounds`: a computation bounds another one, which reports nothing else and succeeds too
* `Options.ExcludesMore`: options that agree but for leaving out more

## Main results

* `Schema.ofDeclaration_bounds`: a definition bounds the one that leaves out more
-/

namespace DeclSchema

/-! ### Bounds -/

namespace Traced

variable {ε α β γ δ : Type} {p : Prop}

/-- If the first computation ends with a value, then the other one reports nothing but what the
first one reports, and under the proviso `p` it ends with a value too. -/
def Bounds (p : Prop) (x : Traced ε α) (y : Traced ε β) : Prop :=
  ∀ a, x.outcome = .ok a → y.events ⊆ x.events ∧ (p → ∃ b, y.outcome = .ok b)

theorem Bounds.refl (x : Traced ε α) : x.Bounds p x :=
  fun a ha => ⟨List.Subset.refl _, fun _ => ⟨a, ha⟩⟩

theorem bounds_pure (x : Traced ε α) (b : β) : x.Bounds p (pure b : Traced ε β) :=
  fun _ _ => ⟨List.nil_subset _, fun _ => ⟨b, rfl⟩⟩

theorem bounds_fail (f : Fault) (y : Traced ε β) : (fail f : Traced ε α).Bounds p y :=
  nofun

/-- A sequence bounds another one part by part. -/
theorem Bounds.bind {x : Traced ε α} {y : Traced ε β} {f : α → Traced ε γ} {g : β → Traced ε δ}
    (h : x.Bounds p y)
    (hf : ∀ a b, x.outcome = .ok a → y.outcome = .ok b → (f a).Bounds p (g b)) :
    (x >>= f).Bounds p (y >>= g) := by
  intro c hc
  obtain ⟨a, ha, hfa⟩ := exists_of_bind_outcome_eq_ok hc
  obtain ⟨hevents, hok⟩ := h a ha
  rw [bind_ok ha]
  cases hb : y.outcome with
  | ok b =>
    obtain ⟨hmore, hthen⟩ := hf a b ha hb c hfa
    rw [bind_ok hb]
    refine ⟨?_, hthen⟩
    exact List.append_subset.2 ⟨List.Subset.trans hevents (List.subset_append_left _ _),
      List.Subset.trans hmore (List.subset_append_right _ _)⟩
  | error fault =>
    -- What is reported before the fault was reported by the first part.
    rw [bind_error hb]
    refine ⟨List.Subset.trans hevents (List.subset_append_left _ _), fun hp => ?_⟩
    obtain ⟨b, hb'⟩ := hok hp
    cases hb.symm.trans hb'

/-- A first part that the other computation does without makes no difference. -/
theorem Bounds.after {x : Traced ε α} {f : α → Traced ε γ} {y : Traced ε β}
    (h : ∀ a, x.outcome = .ok a → (f a).Bounds p y) : (x >>= f).Bounds p y := by
  intro c hc
  obtain ⟨a, ha, hfa⟩ := exists_of_bind_outcome_eq_ok hc
  obtain ⟨hevents, hok⟩ := h a ha c hfa
  rw [bind_ok ha]
  exact ⟨List.Subset.trans hevents (List.subset_append_right _ _), hok⟩

/-- What is made of the first value makes no difference. -/
theorem Bounds.map_left {x : Traced ε α} {y : Traced ε β} (h : x.Bounds p y) (g : α → γ) :
    (x >>= fun a => pure (g a)).Bounds p y := by
  intro c hc
  obtain ⟨a, ha, -⟩ := exists_of_bind_outcome_eq_ok hc
  obtain ⟨hevents, hok⟩ := h a ha
  rw [bind_ok ha]
  exact ⟨List.Subset.trans hevents (List.subset_append_left _ _), hok⟩

end Traced

/-! ### Options that exclude more -/

namespace Options

/-- The other options are the same, but for leaving out more members of unions and more bases. -/
structure ExcludesMore (o o' : Options) : Prop where
  own : ∀ key, key ≠ .excludedUnionMembers → key ≠ .markerBases → o'.own? key = o.own? key
  displaced : o'.displaced = o.displaced
  members : ∃ texts texts', o.excludedTexts = .ok texts ∧ o'.excludedTexts = .ok texts' ∧
    texts ⊆ texts'
  bases : ∃ texts texts', o.markerTexts = .ok texts ∧ o'.markerTexts = .ok texts' ∧
    texts ⊆ texts'

/-- Empty unions are accepted, as any value or as none. -/
def AcceptsEmptyUnions (o : Options) : Prop :=
  o.unionPolicy? = some .anything ∨ o.unionPolicy? = some .nothing

namespace ExcludesMore

variable {o o' : Options} (h : o.ExcludesMore o')

include h

theorem get_eq {key : Key} (hmembers : key ≠ .excludedUnionMembers) (hbases : key ≠ .markerBases) :
    o'.get key = o.get key := by
  rw [get, get, h.own key hmembers hbases]

theorem listed_eq {key : Key} (hmembers : key ≠ .excludedUnionMembers)
    (hbases : key ≠ .markerBases) : o'.listed key = o.listed key := by
  rw [listed, listed, h.own key hmembers hbases]

theorem unionPolicy?_eq : o'.unionPolicy? = o.unionPolicy? := by
  rw [unionPolicy?, unionPolicy?, h.get_eq (by decide) (by decide)]

theorem check_eq : o'.check = o.check := by
  rw [check, check, h.displaced, h.unionPolicy?_eq, h.get_eq (by decide) (by decide)]

theorem seeds_eq : o'.seeds = o.seeds := by
  rw [seeds, seeds, h.listed_eq (by decide) (by decide), h.get_eq (by decide) (by decide)]

theorem isKindScope_eq (scope : Text) : o'.isKindScope scope = o.isKindScope scope := by
  rw [isKindScope, isKindScope, h.listed_eq (by decide) (by decide)]

theorem isKeyScope_eq (scope : Text) : o'.isKeyScope scope = o.isKeyScope scope := by
  rw [isKeyScope, isKeyScope, h.listed_eq (by decide) (by decide)]

theorem isValueOf_eq (name : Text) : o'.isValueOf name = o.isValueOf name := by
  rw [isValueOf, isValueOf, h.get_eq (by decide) (by decide)]

theorem exceeds_eq (depth : Int) : o'.exceeds depth = o.exceeds depth := by
  rw [exceeds, exceeds, h.get_eq (by decide) (by decide)]

end ExcludesMore

end Options

/-! ### Schemas -/

namespace Schema

open Traced (Bounds bounds_pure bounds_fail)
open Options (ExcludesMore AcceptsEmptyUnions)

variable {t : Table} {o o' : Options}

section Forms

variable (h : o.ExcludesMore o') (scope : Text)

include h

-- Only unions and interfaces look at what is left out. All other forms are treated alike.

theorem within_eq (depth : Int) : within ⟨t, o', scope⟩ depth = within ⟨t, o, scope⟩ depth := by
  rw [within, within, h.exceeds_eq, h.get_eq (by decide) (by decide)]

theorem ofQualified_eq (text space member : Text) :
    ofQualified ⟨t, o', scope⟩ text space member = ofQualified ⟨t, o, scope⟩ text space member := by
  rw [ofQualified, ofQualified, h.isKindScope_eq]

theorem ofReference_eq_of_more (name : Text) (arguments : List TypeExpr) :
    ofReference ⟨t, o', scope⟩ name arguments = ofReference ⟨t, o, scope⟩ name arguments := by
  rw [ofReference, ofReference, h.isValueOf_eq]
  rfl

theorem Leaf.eq_of_more {type : TypeExpr} {x : Context → Traced Event Schema} (hx : Leaf type x) :
    x ⟨t, o', scope⟩ = x ⟨t, o, scope⟩ := by
  cases hx with
  | qualified text space member => exact ofQualified_eq h scope text space member
  | reference text name arguments => exact ofReference_eq_of_more h scope name arguments
  | _ => rfl

theorem keyOf_eq (key : MemberName) : keyOf ⟨t, o', scope⟩ key = keyOf ⟨t, o, scope⟩ key := by
  cases key with
  | plain text => rfl
  | kindKey space member => rw [keyOf, keyOf, h.isKeyScope_eq]
  | computed text => rfl

theorem ofBase_eq (depth : Int) (base : Heritage) :
    ofBase ⟨t, o', scope⟩ depth base = ofBase ⟨t, o, scope⟩ depth base := by
  rw [ofBase, ofBase, within_eq h]

/-- Of the bases, those are visited that are no markers, in both cases. -/
theorem ofBases_bounds (depth : Int) (heritage : List Heritage) :
    (ofBases ⟨t, o, scope⟩ depth heritage).Bounds o.AcceptsEmptyUnions
      (ofBases ⟨t, o', scope⟩ depth heritage) := by
  obtain ⟨texts, texts', htexts, htexts', hsubset⟩ := h.bases
  have hbase : ofBase ⟨t, o', scope⟩ depth = ofBase ⟨t, o, scope⟩ depth :=
    funext fun base => ofBase_eq h scope depth base
  rw [ofBases, ofBases, hbase]
  refine Bounds.bind (fun _ _ => ⟨List.Subset.refl _, fun _ => ⟨texts', htexts'⟩⟩) ?_
  intro markers markers' hmarkers hmarkers'
  cases htexts.symm.trans hmarkers
  cases htexts'.symm.trans hmarkers'
  -- Induction on the bases: a marker of the first options is one of the others too.
  induction heritage with
  | nil => exact .refl _
  | cons base rest ih =>
    rw [List.filter_cons, List.filter_cons]
    by_cases hless : base.text ∈ texts
    · have hmore := hsubset hless
      simpa only [hless, hmore, not_true_eq_false, decide_false, Bool.false_eq_true, if_false]
        using ih
    · simp only [hless, not_false_eq_true, decide_true, if_true, List.mapM_cons]
      by_cases hmore : base.text ∈ texts'
      · simp only [hmore, not_true_eq_false, decide_false, Bool.false_eq_true, if_false]
        exact Bounds.after fun _ _ => ih.map_left _
      · simp only [hmore, not_false_eq_true, decide_true, if_true, List.mapM_cons]
        refine Bounds.bind (.refl _) fun _ _ _ _ => ?_
        exact Bounds.bind ih fun _ _ _ _ => bounds_pure _ _

/-- A union that has lost all its members has a schema if empty unions are accepted. -/
theorem ofAlternatives_bounds (text : Text) (members : List TypeExpr)
    (alternatives alternatives' : List Schema) :
    (ofAlternatives ⟨t, o, scope⟩ text members alternatives).Bounds o.AcceptsEmptyUnions
      (ofAlternatives ⟨t, o', scope⟩ text members alternatives') := by
  intro schema _
  unfold ofAlternatives
  split
  · exact ⟨List.nil_subset _, fun _ => ⟨_, rfl⟩⟩
  · simp only [h.unionPolicy?_eq]
    split
    · exact ⟨List.nil_subset _, fun _ => ⟨_, rfl⟩⟩
    · exact ⟨List.nil_subset _, fun _ => ⟨_, rfl⟩⟩
    · next hanything hnothing =>
      refine ⟨List.nil_subset _, fun haccepts => ?_⟩
      obtain haccepts | haccepts := haccepts
      · exact absurd haccepts hanything
      · exact absurd haccepts hnothing

end Forms

-- A part that is left out by the first options is left out by the others too, so that wherever both
-- visit a part, they visit the same one.

theorem cases_bounds (h : o.ExcludesMore o') (scope : Text) : Cases
    (fun type => ∀ depth, (ofType ⟨t, o, scope⟩ depth type).Bounds o.AcceptsEmptyUnions
      (ofType ⟨t, o', scope⟩ depth type))
    (fun type? => ∀ depth, (ofOptional ⟨t, o, scope⟩ depth type?).Bounds o.AcceptsEmptyUnions
      (ofOptional ⟨t, o', scope⟩ depth type?))
    (fun types => ∀ depth excluded excluded', excluded ⊆ excluded' →
      (ofUnionMembers ⟨t, o, scope⟩ depth excluded types).Bounds o.AcceptsEmptyUnions
        (ofUnionMembers ⟨t, o', scope⟩ depth excluded' types))
    (fun members => ∀ depth, (ofMembers ⟨t, o, scope⟩ depth members).Bounds o.AcceptsEmptyUnions
      (ofMembers ⟨t, o', scope⟩ depth members)) where
  leaf hx depth := by
    rw [hx.ofType_eq, hx.ofType_eq, within_eq h, hx.eq_of_more h]
    exact .refl _
  array ih depth := by
    rw [ofType, ofType, within_eq h]
    refine Bounds.bind (.refl _) fun _ _ _ _ => ?_
    exact Bounds.bind (ih (depth + 1)) fun _ _ _ _ => bounds_pure _ _
  union ih depth := by
    obtain ⟨texts, texts', htexts, htexts', hsubset⟩ := h.members
    rw [ofType, ofType, within_eq h]
    refine Bounds.bind (.refl _) fun _ _ _ _ => ?_
    refine Bounds.bind (fun _ _ => ⟨List.Subset.refl _, fun _ => ⟨texts', htexts'⟩⟩) ?_
    intro excluded excluded' hexcluded hexcluded'
    cases htexts.symm.trans hexcluded
    cases htexts'.symm.trans hexcluded'
    refine Bounds.bind (ih (depth + 1) texts texts' hsubset) fun _ _ _ _ => ?_
    exact ofAlternatives_bounds h scope _ _ _ _
  object ih depth := by
    rw [ofType, ofType, within_eq h]
    refine Bounds.bind (.refl _) fun _ _ _ _ => ?_
    exact Bounds.bind (ih (depth + 1)) fun _ _ _ _ => bounds_pure _ _
  parenthesized ih depth := by
    rw [ofType, ofType, within_eq h]
    exact Bounds.bind (.refl _) fun _ _ _ _ => ih (depth + 1)
  interface ih depth := by
    rw [ofType, ofType, within_eq h]
    refine Bounds.bind (.refl _) fun _ _ _ _ => Bounds.bind (ih (depth + 1)) fun _ _ _ _ => ?_
    exact Bounds.bind (ofBases_bounds h scope (depth + 1) _) fun _ _ _ _ => bounds_pure _ _
  present ih depth := by
    rw [ofOptional, ofOptional]
    exact ih depth
  absent depth := by
    rw [ofOptional, ofOptional, within_eq h]
    exact .refl _
  noMember depth excluded excluded' _ := by
    rw [ofUnionMembers, ofUnionMembers]
    exact bounds_pure _ _
  alternative ih ihrest depth excluded excluded' hsubset := by
    have hrest := ihrest depth excluded excluded' hsubset
    rw [ofUnionMembers, ofUnionMembers]
    split
    · next hless =>
      rw [if_pos (hsubset hless)]
      exact hrest
    · split
      · -- The member is visited by the first options only.
        exact Bounds.after fun _ _ => hrest.map_left _
      · refine Bounds.bind (ih depth) fun _ _ _ _ => ?_
        exact Bounds.bind hrest fun _ _ _ _ => bounds_pure _ _
  noProperty depth := by
    rw [ofMembers, ofMembers]
    exact bounds_pure _ _
  property ih ihrest depth := by
    rw [ofMembers, ofMembers, keyOf_eq h]
    refine Bounds.bind (.refl _) fun _ _ _ _ => Bounds.bind (ih depth) fun _ _ _ _ => ?_
    exact Bounds.bind (ihrest depth) fun _ _ _ _ => bounds_pure _ _
  refused hrefused _ depth := by
    rw [ofMembers_refused hrefused]
    exact bounds_fail _ _

/-- A definition bounds the one that leaves out more. -/
theorem ofDeclaration_bounds (h : o.ExcludesMore o') (scope : Text) (declared : Declaration) :
    (ofDeclaration ⟨t, o, scope⟩ declared).Bounds o.AcceptsEmptyUnions
      (ofDeclaration ⟨t, o', scope⟩ declared) := by
  cases declared with
  | interface name text typeParameters heritage members => exact (cases_bounds h scope).type _ 0
  | typeAlias name text typeParameters type => exact (cases_bounds h scope).part type 0
  | enumeration name text members => exact .refl _
  | bare name text => exact .refl _

end Schema

end DeclSchema
