import DeclSchema.Proofs.Entries
import DeclSchema.Proofs.Schema.Visit

/-!
# The shape of an object

The schema of an object shape has its properties in one order and its required names in another one,
and a name that comes again is treated differently by the two: among the properties the last member
of a name wins, while for being required any member that is not optional is enough. A plain name and
a key in a namespace may come to the same name, and then they are members of this one name.

This is said here about the members themselves: in which order their names stand, which member of a
name is the last one, and where the first member of a name is that is not optional.

## Main definitions

* `Schema.Resolves`: the name that a key stands for
* `Schema.Field`, `Schema.IsField`: a member with its name, its type and whether it is optional
* `Schema.IsShape`, `Schema.Shapes`: what the schema of an object shape has of its members
* `Schema.Part`: what a schema is made of

## Main results

* `Schema.isShape_of_translated`: the properties that are made of fields have their shape
* `Schema.ofType_shapes`: so have all object schemas inside the schema of a type
-/

namespace DeclSchema.Schema

variable (c : Context)

/-! ### Fields -/

/-- The name that a key stands for: a plain name, or the member of a namespace of keys. -/
inductive Resolves : MemberName → Text → Prop where
  | plain (text : Text) : Resolves (.plain text) text
  | kindKey {scope member : Text} (h : c.options.isKeyScope scope = .ok true) :
      Resolves (.kindKey scope member) member

/-- A property of an object shape whose key is resolved. -/
structure Field where
  name : Text
  type : TypeExpr
  optional : Bool

/-- A member is a property with a type and a key that stands for a name. -/
inductive IsField : Member → Field → Prop where
  | intro {text : Text} {key : MemberName} {type : TypeExpr} {optional readonly : Bool}
      {name : Text}
      (h : Resolves c key name) :
      IsField (.property text key (some type) optional readonly) ⟨name, type, optional⟩

/-- The names of fields, in order. -/
def namesOf (fields : List Field) : List Text :=
  fields.map (·.name)

/-- The names of the fields that are not optional, in order. -/
def namesNeeded (fields : List Field) : List Text :=
  namesOf (fields.filter fun f => !f.optional)

/-- What the schema of an object shape has of its fields, whose types are at a depth. -/
structure IsShape (depth : Int) (fields : List Field) (properties : Entries Schema)
    (required : List Text) : Prop where
  /-- The keys are the names of the fields. -/
  mem_keys (name : Text) : name ∈ properties.keys ↔ ∃ f ∈ fields, f.name = name
  nodup_keys : properties.keys.Nodup
  /-- They stand in the order of the first fields of these names. -/
  keys_order : properties.keys.Pairwise fun m n =>
    (namesOf fields).idxOf m < (namesOf fields).idxOf n
  /-- A name has the schema of the last field of this name. -/
  schema_of_last (name : Text) (s : Schema) : (name, s) ∈ properties →
    ∃ front f back, fields = front ++ f :: back ∧ f.name = name ∧ (∀ g ∈ back, g.name ≠ name) ∧
      (ofType c depth f.type).outcome = .ok s
  /-- The required names are those of which a field is not optional. -/
  mem_required (name : Text) :
    name ∈ required ↔ ∃ f ∈ fields, f.name = name ∧ f.optional = false
  nodup_required : required.Nodup
  required_subset : required ⊆ properties.keys
  /-- They stand in the order of the first fields of these names that are not optional. -/
  required_order : required.Pairwise fun m n =>
    (namesNeeded fields).idxOf m < (namesNeeded fields).idxOf n

/-- All members are fields, and properties and required names are what these have. -/
def Shapes (depth : Int) (members : List Member) (properties : Entries Schema)
    (required : List Text) : Prop :=
  ∃ fields, List.Forall₂ (IsField c) members fields ∧ IsShape c depth fields properties required

/-! ### Properties that are made of fields -/

/-- A property is made of a field: it has the schema of its type. -/
structure Translated (depth : Int) (f : Field) (p : Property) : Prop where
  name : p.name = f.name
  optional : p.optional = f.optional
  schema : (ofType c depth f.type).outcome = .ok p.schema

section Translated

variable {c} {depth : Int} {fields : List Field} {ps : List Property}

theorem names_of_translated (h : List.Forall₂ (Translated c depth) fields ps) :
    ps.map (·.name) = namesOf fields := by
  induction h with
  | nil => rfl
  | cons hp _ ih => exact congrArg₂ List.cons hp.name ih

theorem needed_of_translated (h : List.Forall₂ (Translated c depth) fields ps) :
    (ps.filter fun p => !p.optional).map (·.name) = namesNeeded fields := by
  induction h with
  | nil => rfl
  | cons hp _ ih =>
    rw [namesNeeded, List.filter_cons, List.filter_cons, hp.optional]
    split
    · exact congrArg₂ List.cons hp.name ih
    · exact ih

/-- Where the list of properties is split, so is the list of fields. -/
theorem exists_split_of_translated {front back : List Property} {p : Property}
    (h : List.Forall₂ (Translated c depth) fields (front ++ p :: back)) :
    ∃ front' f back', fields = front' ++ f :: back' ∧ Translated c depth f p ∧
      namesOf back' = back.map (·.name) := by
  induction front generalizing fields with
  | nil =>
    cases h with
    | cons hp hback => exact ⟨[], _, _, rfl, hp, (names_of_translated hback).symm⟩
  | cons q front ih =>
    cases h with
    | @cons g _ _ _ _ hrest =>
      obtain ⟨front', f, back', rfl, hp, hback⟩ := ih hrest
      exact ⟨g :: front', f, back', rfl, hp, hback⟩

theorem mem_namesNeeded {name : Text} :
    name ∈ namesNeeded fields ↔ ∃ f ∈ fields, f.name = name ∧ f.optional = false := by
  rw [namesNeeded, namesOf, List.mem_map]
  constructor
  · rintro ⟨f, hf, he⟩
    obtain ⟨hf, hneeded⟩ := List.mem_filter.1 hf
    exact ⟨f, hf, he, by simpa using hneeded⟩
  · rintro ⟨f, hf, he, hneeded⟩
    exact ⟨f, List.mem_filter.2 ⟨hf, by simpa using hneeded⟩, he⟩

/-- Properties that are made of fields have their shape. -/
theorem isShape_of_translated (h : List.Forall₂ (Translated c depth) fields ps) :
    IsShape c depth fields (Entries.ofList (ps.map fun p => (p.name, p.schema)))
      ((ps.filter fun p => !p.optional).map (·.name)).eraseDups := by
  have hkeys : (Entries.ofList (ps.map fun p => (p.name, p.schema))).keys =
      (namesOf fields).eraseDups := by
    rw [Entries.keys_ofList, Entries.keys, List.map_map, ← names_of_translated h]
    rfl
  rw [needed_of_translated h]
  refine ⟨?_, ?_, ?_, ?_, ?_, ?_, ?_, ?_⟩
  · intro name
    rw [hkeys, List.mem_eraseDups, namesOf, List.mem_map]
  · rw [hkeys]
    exact nodup_eraseDups _
  · rw [hkeys]
    exact pairwise_idxOf_eraseDups _
  · intro name s hs
    obtain ⟨front, back, hsplit, hlast⟩ := Entries.exists_last_of_mem_ofList hs
    -- The last pair of the name is that of the last property, which is made of the last field.
    obtain ⟨front', rest, rfl, rfl, hrest⟩ := List.map_eq_append_iff.1 hsplit
    obtain ⟨p, back', rfl, hp, rfl⟩ := List.map_eq_cons_iff.1 hrest
    cases hp
    obtain ⟨ffront, f, fback, rfl, hf, hnames⟩ := exists_split_of_translated h
    refine ⟨ffront, f, fback, rfl, hf.name.symm, ?_, hf.schema⟩
    intro g hg he
    have hmem : g.name ∈ back'.map (·.name) := by
      rw [← hnames]
      exact List.mem_map.2 ⟨g, hg, rfl⟩
    obtain ⟨q, hq, hqname⟩ := List.mem_map.1 hmem
    exact hlast _ (List.mem_map.2 ⟨q, hq, rfl⟩) (hqname.trans he)
  · intro name
    rw [List.mem_eraseDups, mem_namesNeeded]
  · exact nodup_eraseDups _
  · intro name hname
    rw [List.mem_eraseDups, mem_namesNeeded] at hname
    obtain ⟨f, hf, he, -⟩ := hname
    rw [hkeys, List.mem_eraseDups]
    exact List.mem_map.2 ⟨f, hf, he⟩
  · exact pairwise_idxOf_eraseDups _

/-- A key that is not refused stands for the name that is read. -/
theorem resolves_of_keyOf {key : MemberName} {name : Text} (h : (keyOf c key).outcome = .ok name) :
    Resolves c key name := by
  cases key with
  | plain text =>
    cases h
    exact .plain _
  | kindKey scope member =>
    rw [keyOf] at h
    obtain ⟨isKey, hkey, h⟩ := Traced.exists_of_bind_outcome_eq_ok h
    cases isKey with
    | true =>
      cases h
      exact .kindKey hkey
    | false => cases h
  | computed text => cases h

/-- Members that are not refused are fields, and their properties are made of these. -/
theorem exists_fields {members : List Member} (h : (ofMembers c depth members).outcome = .ok ps) :
    ∃ fields, List.Forall₂ (IsField c) members fields ∧
      List.Forall₂ (Translated c depth) fields ps := by
  induction members generalizing ps with
  | nil =>
    rw [ofMembers] at h
    cases h
    exact ⟨[], .nil, .nil⟩
  | cons member rest ih =>
    cases hproperty : propertyType? member with
    | none =>
      rw [ofMembers_refused hproperty] at h
      cases h
    | some type =>
      obtain ⟨text, key, optional, readonly, rfl⟩ := eq_property_of_type hproperty
      rw [ofMembers] at h
      obtain ⟨name, hname, h⟩ := Traced.exists_of_bind_outcome_eq_ok h
      obtain ⟨s, hs, h⟩ := Traced.exists_of_bind_outcome_eq_ok h
      obtain ⟨qs, hqs, h⟩ := Traced.exists_of_bind_outcome_eq_ok h
      cases h
      obtain ⟨fields, hfields, hmade⟩ := ih hqs
      exact ⟨⟨name, type, optional⟩ :: fields, .cons (.intro (resolves_of_keyOf hname)) hfields,
        .cons ⟨rfl, rfl, hs⟩ hmade⟩

/-- What members that are not refused give has their shape. -/
theorem shapes_of_ofMembers {members : List Member}
    (h : (ofMembers c depth members).outcome = .ok ps) :
    ∃ properties required, ofProperties ps = .object properties required ∧
      Shapes c depth members properties required := by
  obtain ⟨fields, hfields, hmade⟩ := exists_fields h
  exact ⟨_, _, rfl, fields, hfields, isShape_of_translated hmade⟩

end Translated

/-! ### The parts of a schema -/

/-- The schema `s` is the schema itself or stands anywhere inside it. -/
inductive Part (s : Schema) : Schema → Prop where
  | self : Part s s
  | array {items : Schema} (h : Part s items) : Part s (.array items)
  | oneOf {alternatives : List Schema} {t : Schema} (ht : t ∈ alternatives) (h : Part s t) :
      Part s (.oneOf alternatives)
  | object {properties : Entries Schema} {required : List Text} {name : Text} {t : Schema}
      (ht : (name, t) ∈ properties) (h : Part s t) : Part s (.object properties required)
  | allOf {parts : List Schema} {t : Schema} (ht : t ∈ parts) (h : Part s t) : Part s (.allOf parts)

/-- Every object schema inside a schema has a property. -/
def Objects (q : Entries Schema → List Text → Prop) (s : Schema) : Prop :=
  ∀ properties required, Part (.object properties required) s → q properties required

namespace Objects

variable {q r : Entries Schema → List Text → Prop}

theorem imp {s : Schema} (h : Objects q s) (hqr : ∀ ps rs, q ps rs → r ps rs) : Objects r s :=
  fun ps rs hp => hqr ps rs (h ps rs hp)

theorem reference (name : Text) : Objects q (.reference name) :=
  nofun

theorem simple (type : Text) : Objects q (.simple type) :=
  nofun

theorem constants (type : Text) (values : List LiteralValue) : Objects q (.constants type values) :=
  nofun

theorem array {items : Schema} (h : Objects q items) : Objects q (.array items) := by
  intro ps rs hp
  cases hp with
  | array hp => exact h ps rs hp

theorem oneOf {alternatives : List Schema} (h : ∀ s ∈ alternatives, Objects q s) :
    Objects q (.oneOf alternatives) := by
  intro ps rs hp
  cases hp with
  | oneOf ht hp => exact h _ ht ps rs hp

theorem object {properties : Entries Schema} {required : List Text} (hq : q properties required)
    (h : ∀ p ∈ properties, Objects q p.2) : Objects q (.object properties required) := by
  intro ps rs hp
  cases hp with
  | self => exact hq
  | object ht hp => exact h _ ht ps rs hp

theorem allOf {parts : List Schema} (h : ∀ s ∈ parts, Objects q s) : Objects q (.allOf parts) := by
  intro ps rs hp
  cases hp with
  | allOf ht hp => exact h _ ht ps rs hp

theorem withBases {bases : List Schema} {own : Schema} (hb : ∀ b ∈ bases, Objects q b)
    (hs : Objects q own) : Objects q (withBases bases own) := by
  unfold Schema.withBases
  split
  · exact hs
  · refine .allOf fun s hmem => ?_
    rcases List.mem_append.1 hmem with hmem | hmem
    · exact hb s hmem
    · rw [List.mem_singleton.1 hmem]
      exact hs

/-- The schemas of leaves hold no object schemas. -/
theorem of_plain {es : List Event} {s : Schema} (h : Plain es s) : Objects q s := by
  cases h with
  | reference e => exact .reference _
  | simple type => exact .simple _
  | constants type values => exact .constants _ _

theorem of_ofBases (depth : Int) (heritage : List Heritage) :
    (ofBases c depth heritage).Ensures fun _ bases => ∀ b ∈ bases, Objects q b := by
  refine (ofBases_references c depth heritage).imp fun es bases hbases b hb => ?_
  obtain ⟨e, -, rfl⟩ := List.mem_map.1 (hbases ▸ hb)
  exact .reference _

theorem of_ofAlternatives (text : Text) (members : List TypeExpr) {alternatives : List Schema}
    (h : ∀ s ∈ alternatives, Objects q s) :
    (ofAlternatives c text members alternatives).Ensures fun _ => Objects q := by
  refine (ofAlternatives_made c text members alternatives).imp ?_
  rintro _ _ ⟨-, rfl | ⟨-, rfl⟩⟩
  · exact .oneOf h
  · exact .simple _

end Objects

/-! ### Every object schema has the shape of visited members -/

/-- The members of a visited object shape. -/
def Sight.members? : Sight → Option (List Member)
  | .type (.object _ members) => some members
  | .type (.declared (.interface _ _ _ _ members)) => some members
  | _ => none

/-- Properties and required names have the shape of members that are visited on a walk that starts
at a depth; the types of the members are one step further than the node that has them. -/
def ShapedBy (start : Int) (vs : List Visit) (properties : Entries Schema) (required : List Text) :
    Prop :=
  ∃ v ∈ vs, ∃ members, v.sight.members? = some members ∧
    Shapes c (start + v.steps + 1) members properties required

section Visited

variable {c} {start : Int} {vs ws : List Visit}

theorem ShapedBy.of_subset (hvs : vs ⊆ ws) (properties : Entries Schema) (required : List Text)
    (h : ShapedBy c start vs properties required) : ShapedBy c start ws properties required := by
  obtain ⟨v, hv, members, hmembers, hshape⟩ := h
  exact ⟨v, hvs hv, members, hmembers, hshape⟩

/-- What has the shape of members whose own types hold no other object schemas than visited ones. -/
theorem objects_ofProperties {v : Visit} {members : List Member} {ps : List Property}
    (hv : v.sight.members? = some members) (hmem : v ∈ vs)
    (hps : (ofMembers c (start + v.steps + 1) members).outcome = .ok ps)
    (h : ∀ p ∈ ps, Objects (ShapedBy c start vs) p.schema) :
    Objects (ShapedBy c start vs) (ofProperties ps) := by
  obtain ⟨properties, required, he, hshape⟩ := shapes_of_ofMembers hps
  refine .object ?_ ?_
  · obtain ⟨rfl, rfl⟩ := Schema.object.inj he
    exact ⟨v, hmem, members, hv, hshape⟩
  · intro p hp
    obtain ⟨q, hq, rfl⟩ := List.mem_map.1 (Entries.mem_ofList hp)
    exact h q hq

variable (c) (start)

-- A node at `n` steps from the start is at the depth `start + n`, and what is visited below a node
-- is visited on the whole walk.

theorem cases_objects : Cases
    (fun type => ∀ n : Nat, (ofType c (start + n) type).Ensures fun _ =>
      Objects (ShapedBy c start (visitsFrom (skips c.options) n type)))
    (fun type? => ∀ n : Nat, (ofOptional c (start + n) type?).Ensures fun _ =>
      Objects (ShapedBy c start (visitsOfPart (skips c.options) n type?)))
    (fun types => ∀ (n : Nat) (excluded : List Text), c.options.excludedTexts = .ok excluded →
      (ofUnionMembers c (start + n) excluded types).Ensures fun _ ss => ∀ s ∈ ss,
        Objects (ShapedBy c start (visitsOfAlternatives (skips c.options) n types)) s)
    (fun members => ∀ n : Nat, (ofMembers c (start + n + 1) members).Ensures fun _ ps => ∀ p ∈ ps,
      Objects (ShapedBy c start (visitsOfMembers (skips c.options) n members)) p.schema) where
  leaf h n := by
    rw [h.ofType_eq]
    exact Traced.ensures_bind.2 fun _ _ => (h.plain c).imp fun _ _ => .of_plain
  array h n := by
    rw [ofType, visitsFrom]
    refine Traced.ensures_bind.2 fun _ _ => Traced.ensures_bind.2 fun s hs =>
      Traced.ensures_pure.2 (.array ?_)
    rw [depth_step] at hs
    exact (h (n + 1) s hs).imp (.of_subset (List.subset_cons_self _ _))
  union h n := by
    rw [ofType, visitsFrom]
    refine Traced.ensures_bind.2 fun _ _ => Traced.ensures_bind.2 fun excluded hex =>
      Traced.ensures_bind.2 fun ss hss => Objects.of_ofAlternatives c _ _ fun s hs => ?_
    rw [depth_step] at hss
    exact (h (n + 1) excluded hex ss hss s hs).imp (.of_subset (List.subset_cons_self _ _))
  object h n := by
    rw [ofType, visitsFrom]
    refine Traced.ensures_bind.2 fun _ _ => Traced.ensures_bind.2 fun ps hps =>
      Traced.ensures_pure.2 ?_
    refine objects_ofProperties (v := ⟨n, .type (.object _ _)⟩) rfl List.mem_cons_self hps
      fun p hp => ?_
    exact (h n ps hps p hp).imp (.of_subset (List.subset_cons_self _ _))
  parenthesized h n := by
    rw [ofType, visitsFrom, depth_step]
    refine Traced.ensures_bind.2 fun _ _ s hs => ?_
    exact (h (n + 1) s hs).imp (.of_subset (List.subset_cons_self _ _))
  interface h n := by
    rw [ofType, visitsFrom]
    refine Traced.ensures_bind.2 fun _ _ => Traced.ensures_bind.2 fun ps hps =>
      Traced.ensures_bind.2 fun bases hbases => Traced.ensures_pure.2 (.withBases ?_ ?_)
    · exact Objects.of_ofBases c _ _ bases hbases
    · refine objects_ofProperties (v := ⟨n, .type (.declared (.interface _ _ _ _ _))⟩) rfl
        List.mem_cons_self hps fun p hp => ?_
      -- The bases are visited too, but after the members.
      refine (h n ps hps p hp).imp (.of_subset ?_)
      exact List.Subset.trans (List.subset_append_left _ _) (List.subset_cons_self _ _)
  present h n := by
    rw [ofOptional, visitsOfPart]
    exact h n
  absent n := by
    rw [ofOptional]
    exact Traced.ensures_bind.2 fun _ _ => Traced.ensures_fail _
  noMember n excluded _ := by
    rw [ofUnionMembers]
    exact Traced.ensures_pure.2 (List.forall_mem_nil _)
  alternative h hrest n excluded hex := by
    rw [ofUnionMembers, visitsOfAlternatives, skips_members hex]
    split
    · exact hrest n excluded hex
    · refine Traced.ensures_bind.2 fun s hs => Traced.ensures_bind.2 fun ss hss =>
        Traced.ensures_pure.2 (List.forall_mem_cons.2 ⟨?_, fun t ht => ?_⟩)
      · exact (h n s hs).imp (.of_subset (List.subset_append_left _ _))
      · exact (hrest n excluded hex ss hss t ht).imp (.of_subset (List.subset_append_right _ _))
  noProperty n := by
    rw [ofMembers]
    exact Traced.ensures_pure.2 (List.forall_mem_nil _)
  property h hrest n := by
    rw [ofMembers, visitsOfMembers]
    refine Traced.ensures_bind.2 fun name _ => Traced.ensures_bind.2 fun s hs =>
      Traced.ensures_bind.2 fun ps hps =>
        Traced.ensures_pure.2 (List.forall_mem_cons.2 ⟨?_, fun p hp => ?_⟩)
    · rw [depth_step] at hs
      refine (h (n + 1) s hs).imp (.of_subset ?_)
      exact List.Subset.trans (List.subset_append_left _ _) (List.subset_cons_self _ _)
    · refine (hrest n ps hps p hp).imp (.of_subset ?_)
      exact List.Subset.trans (List.subset_append_right _ _) (List.subset_cons_self _ _)
  refused h _ n := by
    rw [ofMembers_refused h]
    exact Traced.ensures_fail _

/-- Every object schema inside the schema of a type has the shape of visited members. -/
theorem ofType_objects (n : Nat) (type : TypeExpr) :
    (ofType c (start + n) type).Ensures fun _ =>
      Objects (ShapedBy c start (visitsFrom (skips c.options) n type)) :=
  (cases_objects c start).type type n

end Visited

/-- **The shape of an object.** If the schema of an object type is made, it is an object schema with
the shape of the members; that of an interface is the same, behind those of its bases if there are
any. And every object schema that stands anywhere inside the schema of any type has the shape of the
members of an object type or an interface in it: the keys are the distinct names of the members, in
the order in which they come first, each with the schema of the last member of this name, and the
required ones are those of which a member is not optional, in the order in which the first such
members stand. -/
theorem ofType_shapes (depth : Int) {type : TypeExpr} {s : Schema}
    (h : (ofType c depth type).outcome = .ok s) :
    (∀ text members, type = .object text members →
      ∃ properties required, s = .object properties required ∧
        Shapes c (depth + 1) members properties required) ∧
    (∀ name text typeParameters heritage members,
      type = .declared (.interface name text typeParameters heritage members) →
      ∃ properties required,
        (s = .object properties required ∨
          ∃ bases, s = .allOf (bases ++ [.object properties required])) ∧
        Shapes c (depth + 1) members properties required) ∧
    ∀ properties required, Part (.object properties required) s →
      ∃ v ∈ visits c.options type, ∃ members, v.sight.members? = some members ∧
        Shapes c (depth + v.steps + 1) members properties required := by
  refine ⟨?_, ?_, ?_⟩
  · rintro text members rfl
    rw [ofType] at h
    obtain ⟨_, -, h⟩ := Traced.exists_of_bind_outcome_eq_ok h
    obtain ⟨ps, hps, h⟩ := Traced.exists_of_bind_outcome_eq_ok h
    obtain ⟨properties, required, he, hshape⟩ := shapes_of_ofMembers hps
    cases h
    exact ⟨properties, required, he, hshape⟩
  · rintro name text typeParameters heritage members rfl
    rw [ofType] at h
    obtain ⟨_, -, h⟩ := Traced.exists_of_bind_outcome_eq_ok h
    obtain ⟨ps, hps, h⟩ := Traced.exists_of_bind_outcome_eq_ok h
    obtain ⟨bases, -, h⟩ := Traced.exists_of_bind_outcome_eq_ok h
    obtain ⟨properties, required, he, hshape⟩ := shapes_of_ofMembers hps
    cases h
    refine ⟨properties, required, ?_, hshape⟩
    rw [he, withBases]
    split
    · exact Or.inl rfl
    · exact Or.inr ⟨bases, rfl⟩
  -- Any object schema inside has come from an object type or an interface that is visited.
  · have hobjects := ofType_objects c depth 0 type s
    rw [Int.ofNat_zero, Int.add_zero] at hobjects
    exact hobjects h

/-- Two names come twice each, once optional and once not; one of them is first that of a key in a
namespace, and the other one last that of an object type. -/
def sampleMembers : List Member :=
  [.property [] (.kindKey (.ofString "SyntaxKind") (.ofString "a"))
      (some (.keyword [] (.ofString "string"))) true false,
    .property [] (.plain (.ofString "b")) (some (.keyword [] (.ofString "number"))) false false,
    .property [] (.plain (.ofString "a")) (some (.keyword [] (.ofString "any"))) false true,
    .property [] (.plain (.ofString "b")) (some (.object []
      [.property [] (.plain (.ofString "c")) (some (.keyword [] (.ofString "string"))) false false,
        .property [] (.plain (.ofString "c")) (some (.keyword [] (.ofString "number"))) true false]))
      true false]

/-- The name that is required first stands second among the properties. -/
theorem ofType_shapes_sampleMembers :
    let c : Context := ⟨.empty, .defaults, .ofString "T"⟩
    let inner : Entries Schema := [(.ofString "c", .simple (.ofString "number"))]
    let properties : Entries Schema :=
      [(.ofString "a", .simple (.ofString "any")),
        (.ofString "b", .object inner [.ofString "c"])]
    (ofType c 0 (.object [] sampleMembers)).outcome =
        .ok (.object properties [.ofString "b", .ofString "a"]) ∧
      Shapes c 1 sampleMembers properties [.ofString "b", .ofString "a"] ∧
      ∃ v ∈ visits .defaults (.object [] sampleMembers), ∃ members,
        v.sight.members? = some members ∧
          Shapes c (0 + v.steps + 1) members inner [.ofString "c"] := by
  intro c inner properties
  have h : (ofType c 0 (.object [] sampleMembers)).outcome =
      .ok (.object properties [.ofString "b", .ofString "a"]) := rfl
  obtain ⟨hobject, -, hinside⟩ := ofType_shapes c 0 h
  refine ⟨h, ?_, ?_⟩
  · obtain ⟨ps, rs, he, hshape⟩ := hobject _ _ rfl
    obtain ⟨rfl, rfl⟩ := Schema.object.inj he
    exact hshape
  · have hmem : (Text.ofString "b", Schema.object inner [.ofString "c"]) ∈ properties :=
      List.mem_cons_of_mem _ List.mem_cons_self
    exact hinside inner _ (.object hmem .self)

end DeclSchema.Schema
