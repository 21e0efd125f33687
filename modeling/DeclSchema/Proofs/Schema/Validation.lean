import DeclSchema.Proofs.Entries
import DeclSchema.Schema.OfType

/-!
# Validation

Which values a schema allows. A schema is an object of keywords, and a value is valid under it if it
is valid under each of them. A keyword about arrays or objects says nothing about other values, so
that a schema of objects needs its type among the keywords too.

Values are compared as they are. A schema fragment lists only texts and truth values, for which
there is no other notion of equality.

## Main definitions

* `Json.Validates`: whether a value is valid under a schema

## Main results

* `Schema.validates_simple`, `Schema.validates_constants`, `Schema.validates_array`,
  `Schema.validates_ofProperties`: what the fragments of a schema allow
* `Json.validatesOne_iff_of_disjoint`: of disjoint alternatives, one is valid if any is
-/

namespace DeclSchema

namespace Json

/-- The type of a value, as the schema language calls it. -/
def typeName : Json → Text
  | null => .ofString "null"
  | truth _ => .ofString "boolean"
  | integer _ | real _ => .ofString "number"
  | text _ => .ofString "string"
  | array _ => .ofString "array"
  | object _ => .ofString "object"

/-- Whether a value is of a type; every value is of the type `any`. -/
def IsOfType (type : Text) (v : Json) : Prop :=
  type = .ofString "any" ∨ type = v.typeName

mutual

/-- Whether a value is valid under a schema, which is an object of keywords. -/
def Validates (schema v : Json) : Prop :=
  match schema with
  | object keywords => ValidatesAll keywords v
  | _ => False
termination_by structural schema

/-- Whether a value is valid under every keyword. An unknown keyword allows every value. -/
def ValidatesAll (keywords : List (Text × Json)) (v : Json) : Prop :=
  match keywords with
  | [] => True
  | (key, s) :: rest =>
    (if key = .ofString "type" then
      match s with
      | text type => v.IsOfType type
      | _ => False
    else if key = .ofString "enum" then
      match s with
      | array values => v ∈ values
      | _ => False
    else if key = .ofString "items" then
      ∀ items, v = array items → ∀ x ∈ items, Validates s x
    else if key = .ofString "properties" then
      match s with
      | object properties => ∀ fields, v = object fields → ValidatesFields properties fields
      | _ => False
    else if key = .ofString "required" then
      match s with
      | array names =>
        ∀ fields : Entries Json, v = object fields → ∀ name, text name ∈ names → name ∈ fields.keys
      | _ => False
    else if key = .ofString "oneOf" then
      match s with
      | array alternatives => ValidatesOne alternatives v
      | _ => False
    else True) ∧ ValidatesAll rest v
termination_by structural keywords

/-- Whether the fields that have a schema, as far as they are there, are valid under it. -/
def ValidatesFields (properties : List (Text × Json)) (fields : Entries Json) : Prop :=
  match properties with
  | [] => True
  | (name, s) :: rest =>
    (∀ x, fields.get? name = some x → Validates s x) ∧ ValidatesFields rest fields
termination_by structural properties

/-- Whether a value is valid under exactly one of some schemas. -/
def ValidatesOne (alternatives : List Json) (v : Json) : Prop :=
  match alternatives with
  | [] => False
  | s :: rest => Validates s v ∧ ValidatesNone rest v ∨ ¬ Validates s v ∧ ValidatesOne rest v
termination_by structural alternatives

def ValidatesNone (alternatives : List Json) (v : Json) : Prop :=
  match alternatives with
  | [] => True
  | s :: rest => ¬ Validates s v ∧ ValidatesNone rest v
termination_by structural alternatives

end

variable {s v : Json} {rest : List (Text × Json)}

/-! ### Keywords -/

-- The keywords are literals, so that each equation holds by evaluating the comparisons.

theorem validates_object : Validates (object rest) v ↔ ValidatesAll rest v :=
  Iff.rfl

theorem validatesAll_nil : ValidatesAll [] v ↔ True :=
  Iff.rfl

theorem validatesAll_type {type : Text} :
    ValidatesAll ((.ofString "type", text type) :: rest) v ↔
      v.IsOfType type ∧ ValidatesAll rest v :=
  Iff.rfl

theorem validatesAll_enum {values : List Json} :
    ValidatesAll ((.ofString "enum", array values) :: rest) v ↔
      v ∈ values ∧ ValidatesAll rest v :=
  Iff.rfl

theorem validatesAll_items :
    ValidatesAll ((.ofString "items", s) :: rest) v ↔
      (∀ items, v = array items → ∀ x ∈ items, Validates s x) ∧ ValidatesAll rest v :=
  Iff.rfl

theorem validatesFields_iff {properties : List (Text × Json)} {fields : Entries Json} :
    ValidatesFields properties fields ↔
      ∀ p ∈ properties, ∀ x, fields.get? p.1 = some x → Validates p.2 x := by
  induction properties with
  | nil => exact iff_of_true trivial nofun
  | cons p rest ih =>
    rw [List.forall_mem_cons, ← ih]
    rfl

theorem validatesAll_properties {properties : List (Text × Json)} :
    ValidatesAll ((.ofString "properties", object properties) :: rest) v ↔
      (∀ fields : Entries Json, v = object fields →
        ∀ p ∈ properties, ∀ x, fields.get? p.1 = some x → Validates p.2 x) ∧
      ValidatesAll rest v := by
  simp only [← validatesFields_iff]
  rfl

theorem validatesAll_required {names : List Json} :
    ValidatesAll ((.ofString "required", array names) :: rest) v ↔
      (∀ fields : Entries Json, v = object fields →
        ∀ name, text name ∈ names → name ∈ fields.keys) ∧
      ValidatesAll rest v :=
  Iff.rfl

theorem validatesAll_oneOf {alternatives : List Json} :
    ValidatesAll ((.ofString "oneOf", array alternatives) :: rest) v ↔
      ValidatesOne alternatives v ∧ ValidatesAll rest v :=
  Iff.rfl

/-! ### Exactly one alternative -/

theorem validatesNone_iff {alternatives : List Json} :
    ValidatesNone alternatives v ↔ ∀ s ∈ alternatives, ¬ Validates s v := by
  induction alternatives with
  | nil => exact iff_of_true trivial nofun
  | cons s rest ih =>
    rw [List.forall_mem_cons, ← ih]
    rfl

/-- Where no value is valid under two of the alternatives, exactly one is valid if any is. -/
theorem validatesOne_iff_of_disjoint {alternatives : List Json}
    (h : alternatives.Pairwise fun s s' => ¬ (Validates s v ∧ Validates s' v)) :
    ValidatesOne alternatives v ↔ ∃ s ∈ alternatives, Validates s v := by
  induction alternatives with
  | nil => exact iff_of_false id nofun
  | cons s rest ih =>
    obtain ⟨hs, hrest⟩ := List.pairwise_cons.1 h
    refine (or_congr (and_congr_right' validatesNone_iff) (and_congr_right' (ih hrest))).trans ?_
    constructor
    · rintro (⟨hv, -⟩ | ⟨-, s', hs', hv⟩)
      · exact ⟨s, List.mem_cons_self, hv⟩
      · exact ⟨s', List.mem_cons_of_mem _ hs', hv⟩
    · rintro ⟨s', hs', hv⟩
      rcases List.mem_cons.1 hs' with rfl | hs'
      · exact Or.inl ⟨hv, fun s' hs' hv' => hs s' hs' ⟨hv, hv'⟩⟩
      · exact Or.inr ⟨fun hv' => hs s' hs' ⟨hv', hv⟩, s', hs', hv⟩

end Json

namespace Schema

open Json (Validates)

variable {v : Json}

theorem toJsonList_eq (schemas : List Schema) : toJsonList schemas = schemas.map toJson := by
  induction schemas with
  | nil => rfl
  | cons s rest ih =>
    rw [toJsonList, ih]
    rfl

theorem toJsonFields_eq (properties : List (Text × Schema)) :
    toJsonFields properties = properties.map fun p => (p.1, p.2.toJson) := by
  induction properties with
  | nil => rfl
  | cons p rest ih =>
    rw [toJsonFields, ih]
    rfl

/-! ### What a fragment allows -/

theorem isOfType_array : v.IsOfType (.ofString "array") ↔ ∃ items, v = .array items := by
  cases v <;> simp [Json.IsOfType, Json.typeName] <;> decide

theorem isOfType_object : v.IsOfType (.ofString "object") ↔ ∃ fields, v = .object fields := by
  cases v <;> simp [Json.IsOfType, Json.typeName] <;> decide

theorem validates_simple {type : Text} : Validates (simple type).toJson v ↔ v.IsOfType type := by
  rw [toJson, fields, Json.validates_object, Json.validatesAll_type, Json.validatesAll_nil,
    and_true]

theorem validates_constants {type : Text} {values : List LiteralValue} :
    Validates (constants type values).toJson v ↔
      v.IsOfType type ∧ ∃ value ∈ values, v = value.toJson := by
  rw [toJson, fields, Json.validates_object, Json.validatesAll_type, Json.validatesAll_enum,
    Json.validatesAll_nil, and_true, List.mem_map]
  simp only [eq_comm]

theorem validates_array {s : Schema} :
    Validates (array s).toJson v ↔
      ∃ items, v = .array items ∧ ∀ x ∈ items, Validates s.toJson x := by
  rw [toJson, fields, Json.validates_object, Json.validatesAll_type, Json.validatesAll_items,
    Json.validatesAll_nil, and_true, isOfType_array]
  constructor
  · rintro ⟨⟨items, rfl⟩, h⟩
    exact ⟨items, rfl, h items rfl⟩
  · rintro ⟨items, rfl, h⟩
    refine ⟨⟨items, rfl⟩, ?_⟩
    rintro _ ⟨⟩
    exact h

theorem validates_oneOf_of_disjoint {alternatives : List Schema}
    (h : alternatives.Pairwise fun s s' => ¬ (Validates s.toJson v ∧ Validates s'.toJson v)) :
    Validates (oneOf alternatives).toJson v ↔ ∃ s ∈ alternatives, Validates s.toJson v := by
  rw [toJson, fields, Json.validates_object, Json.validatesAll_oneOf, Json.validatesAll_nil,
    and_true, toJsonList_eq, Json.validatesOne_iff_of_disjoint (List.pairwise_map.2 h)]
  constructor
  · rintro ⟨_, hmem, hv⟩
    obtain ⟨s, hs, rfl⟩ := List.mem_map.1 hmem
    exact ⟨s, hs, hv⟩
  · rintro ⟨s, hs, hv⟩
    exact ⟨_, List.mem_map.2 ⟨s, hs, rfl⟩, hv⟩

/-- An object shape with distinct properties allows the objects in which every property that is not
optional is there, and every property that is there is valid. -/
theorem validates_ofProperties {ps : List Property} (h : (ps.map (·.name)).Nodup) :
    Validates (ofProperties ps).toJson v ↔
      ∃ fields : Entries Json, v = .object fields ∧ ∀ p ∈ ps,
        (p.optional = false → p.name ∈ fields.keys) ∧
        ∀ x, fields.get? p.name = some x → Validates p.schema.toJson x := by
  -- Distinct names are put one behind the other.
  have hproperties : Entries.ofList (ps.map fun p => (p.name, p.schema)) =
      ps.map fun p => (p.name, p.schema) := by
    have hkeys : (Entries.keys (ps.map fun p => (p.name, p.schema))).Nodup := by
      rwa [Entries.keys, List.map_map]
    exact Entries.putAll_of_disjoint hkeys (by simp)
  rw [toJson, ofProperties, fields, Json.validates_object, Json.validatesAll_type,
    Json.validatesAll_properties, Json.validatesAll_required, Json.validatesAll_nil, and_true,
    isOfType_object, hproperties, toJsonFields_eq]
  constructor
  · rintro ⟨⟨fields, rfl⟩, hvalid, hrequired⟩
    refine ⟨fields, rfl, fun p hp => ⟨fun ho => hrequired fields rfl _ ?_, ?_⟩⟩
    · simp only [List.mem_map, List.mem_eraseDups, List.mem_filter]
      exact ⟨p.name, ⟨p, ⟨hp, by rw [ho]; rfl⟩, rfl⟩, rfl⟩
    · refine hvalid fields rfl (p.name, p.schema.toJson) ?_
      exact List.mem_map.2 ⟨_, List.mem_map.2 ⟨p, hp, rfl⟩, rfl⟩
  · rintro ⟨fields, rfl, h⟩
    refine ⟨⟨fields, rfl⟩, ?_, ?_⟩
    · rintro _ ⟨⟩ q hq
      obtain ⟨q', hq', rfl⟩ := List.mem_map.1 hq
      obtain ⟨p, hp, rfl⟩ := List.mem_map.1 hq'
      exact (h p hp).2
    · rintro _ ⟨⟩ name hname
      simp only [List.mem_map, List.mem_eraseDups, List.mem_filter] at hname
      obtain ⟨_, ⟨p, ⟨hp, ho⟩, rfl⟩, ⟨⟩⟩ := hname
      exact (h p hp).1 (by simpa using ho)

end Schema

end DeclSchema
