import DeclSchema.Proofs.Schema.Cases
import Mathlib.Data.List.Basic

/-!
# Laws of schemas

What holds of every schema of a type is proved by going through all forms of types. A law says of
each way of putting schemas together that it keeps a property; then every schema of a type has the
property, and so has every definition. The property may speak about the events that were reported
while the schema was made.

## Main definitions

* `Schema.Law`: a property that all ways of putting schemas together keep

## Main results

* `Schema.Law.ofType_ensures`, `Schema.Law.ofDeclaration_ensures`: schemas and definitions keep
  every law
-/

namespace DeclSchema.Schema

/-- A property of schemas and of the events before them that parts hand over to the whole. -/
structure Law (P : List Event → Schema → Prop) : Prop where
  mono {es fs : List Event} {s : Schema} : P es s → es ⊆ fs → P fs s
  reference (e : Event) : P [e] (.reference e.target)
  simple (type : Text) {es : List Event} : P es (.simple type)
  constants (type : Text) (values : List LiteralValue) {es : List Event} :
    P es (.constants type values)
  array {es : List Event} {s : Schema} : P es s → P es (.array s)
  oneOf {es : List Event} {alternatives : List Schema} :
    (∀ s ∈ alternatives, P es s) → P es (.oneOf alternatives)
  allOf {es : List Event} {parts : List Schema} : (∀ s ∈ parts, P es s) → P es (.allOf parts)
  ofProperties {es : List Event} {ps : List Property} :
    (∀ p ∈ ps, P es p.schema) → P es (ofProperties ps)

namespace Law

variable {P : List Event → Schema → Prop} (hP : Law P)

include hP

theorem of_withBases {es : List Event} {s : Schema} {bases : List Schema}
    (hb : ∀ b ∈ bases, P es b) (hs : P es s) : P es (withBases bases s) := by
  unfold withBases
  split
  · exact hs
  · -- The own schema is the last part.
    refine hP.allOf fun part hpart => ?_
    rcases List.mem_append.1 hpart with hpart | hpart
    · exact hb part hpart
    · rw [List.mem_singleton.1 hpart]
      exact hs

/-- What is reported before a schema is made does no harm. -/
theorem bind_ensures {α : Type} {x : Traced Event α} {f : α → Traced Event Schema}
    (h : ∀ a, x.outcome = .ok a → (f a).Ensures P) : (x >>= f).Ensures P :=
  Traced.ensures_bind.2 fun a ha =>
    (h a ha).imp fun _ _ hp => hP.mono hp (List.subset_append_right _ _)

/-- The schemas of leaves keep every law. -/
theorem plain {es : List Event} {s : Schema} (h : Plain es s) : P es s := by
  cases h with
  | reference e => exact hP.reference e
  | simple type => exact hP.simple type
  | constants type values => exact hP.constants type values

variable (c : Context)

theorem ofBases_ensures (depth : Int) (heritage : List Heritage) :
    (ofBases c depth heritage).Ensures fun es bases => ∀ b ∈ bases, P es b := by
  refine (ofBases_references c depth heritage).imp fun es bases hbases b hb => ?_
  obtain ⟨e, he, rfl⟩ := List.mem_map.1 (hbases ▸ hb)
  exact hP.mono (hP.reference e) (List.cons_subset.2 ⟨he, List.nil_subset _⟩)

theorem ofAlternatives_ensures (text : Text) (members : List TypeExpr) {es : List Event}
    {alternatives : List Schema} (h : ∀ s ∈ alternatives, P es s) :
    (ofAlternatives c text members alternatives).Ensures fun fs s => P (es ++ fs) s := by
  refine (ofAlternatives_made c text members alternatives).imp ?_
  rintro _ _ ⟨rfl, rfl | ⟨-, rfl⟩⟩
  · exact hP.oneOf fun s hs => hP.mono (h s hs) (List.subset_append_left _ _)
  · exact hP.simple _

-- The events of a part are among those of the whole, so a part that has the property still has it
-- inside.

theorem cases_ensures : Cases
    (fun type => ∀ depth, (ofType c depth type).Ensures P)
    (fun type? => ∀ depth, (ofOptional c depth type?).Ensures P)
    (fun types => ∀ depth excluded,
      (ofUnionMembers c depth excluded types).Ensures fun es ss => ∀ s ∈ ss, P es s)
    (fun members => ∀ depth,
      (ofMembers c depth members).Ensures fun es ps => ∀ p ∈ ps, P es p.schema) where
  leaf h depth := by
    rw [h.ofType_eq]
    exact hP.bind_ensures fun _ _ => (h.plain c).imp fun _ _ => hP.plain
  array h depth := by
    rw [ofType]
    refine hP.bind_ensures fun _ _ => Traced.ensures_bind.2 fun s hs => Traced.ensures_pure.2 ?_
    exact hP.array (hP.mono (h (depth + 1) s hs) (by simp))
  union h depth := by
    rw [ofType]
    exact hP.bind_ensures fun _ _ => hP.bind_ensures fun excluded _ =>
      Traced.ensures_bind.2 fun ss hss =>
        hP.ofAlternatives_ensures c _ _ (h (depth + 1) excluded ss hss)
  object h depth := by
    rw [ofType]
    refine hP.bind_ensures fun _ _ => Traced.ensures_bind.2 fun ps hps => Traced.ensures_pure.2 ?_
    exact hP.ofProperties fun p hp => hP.mono (h (depth + 1) ps hps p hp) (by simp)
  parenthesized h depth := by
    rw [ofType]
    exact hP.bind_ensures fun _ _ => h (depth + 1)
  interface h depth := by
    rw [ofType]
    refine hP.bind_ensures fun _ _ => Traced.ensures_bind.2 fun own hown =>
      Traced.ensures_bind.2 fun bases hbases => Traced.ensures_pure.2 (hP.of_withBases ?_ ?_)
    · -- The bases come after the own members in the events, and before them in the schema.
      intro b hb
      exact hP.mono (hP.ofBases_ensures c (depth + 1) _ bases hbases b hb) (by simp)
    · exact hP.ofProperties fun p hp => hP.mono (h (depth + 1) own hown p hp) (by simp)
  present h depth := by
    rw [ofOptional]
    exact h depth
  absent depth := by
    rw [ofOptional]
    exact hP.bind_ensures fun _ _ => Traced.ensures_fail _
  noMember depth excluded := by
    rw [ofUnionMembers]
    exact Traced.ensures_pure.2 (List.forall_mem_nil _)
  alternative h hrest depth excluded := by
    rw [ofUnionMembers]
    split
    · -- A member that is left out reports nothing.
      exact hrest depth excluded
    · refine Traced.ensures_bind.2 fun s hs => Traced.ensures_bind.2 fun ss hss =>
        Traced.ensures_pure.2 (List.forall_mem_cons.2 ⟨?_, fun a ha => ?_⟩)
      · exact hP.mono (h depth s hs) (by simp)
      · exact hP.mono (hrest depth excluded ss hss a ha) (by simp)
  noProperty depth := by
    rw [ofMembers]
    exact Traced.ensures_pure.2 (List.forall_mem_nil _)
  property h hrest depth := by
    rw [ofMembers]
    refine Traced.ensures_bind.2 fun name _ => Traced.ensures_bind.2 fun s hs =>
      Traced.ensures_bind.2 fun ps hps =>
        Traced.ensures_pure.2 (List.forall_mem_cons.2 ⟨?_, fun p hp => ?_⟩)
    · exact hP.mono (h depth s hs) (by simp)
    · exact hP.mono (hrest depth ps hps p hp) (by simp)
  refused h _ depth := by
    rw [ofMembers_refused h]
    exact Traced.ensures_fail _

/-- Every schema of a type keeps every law. -/
theorem ofType_ensures (depth : Int) (type : TypeExpr) : (ofType c depth type).Ensures P :=
  (hP.cases_ensures c).type type depth

/-- Every definition keeps every law. -/
theorem ofDeclaration_ensures (declared : Declaration) :
    (ofDeclaration c declared).Ensures P := by
  cases declared with
  | interface name text typeParameters heritage members => exact hP.ofType_ensures c 0 _
  | typeAlias name text typeParameters type => exact (hP.cases_ensures c).part type 0
  | enumeration name text members => exact Traced.ensures_pure.2 (hP.constants _ _)
  | bare name text => exact Traced.ensures_fail _

end Law

end DeclSchema.Schema
