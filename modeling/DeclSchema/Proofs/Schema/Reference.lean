import DeclSchema.Proofs.Schema.Law

/-!
# References

A schema refers to definitions by their names. Nothing is referred to unnoticed: whatever a schema
of a type refers to is a name that was asked for on the way, or the raw text of a form without a
schema that was reported on the way.

References are read off schemas and off JSON values alike, and writing a schema as a JSON value
keeps them in their order. A property may be called `$ref`, but then its value is an object and no
address.

## Main definitions

* `Schema.references`, `Json.references`: the names that are referred to, in order
* `Schema.Cites`: some event is about every reference

## Main results

* `Schema.references_toJson`: a schema refers to the same names as its JSON value
* `Schema.law_cites`: what a schema refers to was reported while it was made
-/

namespace DeclSchema

namespace Json

/-- The name that a field refers to: the field `$ref` holds the address of its definition. -/
def target? (key : Text) : Json → Option Text
  | text t => if key = .ofString "$ref" then (Schema.address []).isPrefixOf? t else none
  | _ => none

mutual

/-- The names that a value refers to, anywhere in it. -/
def references : Json → List Text
  | array items => referencesOfItems items
  | object fields => referencesOfFields fields
  | _ => []

/-- The names that the items of a list refer to. -/
def referencesOfItems : List Json → List Text
  | [] => []
  | v :: rest => v.references ++ referencesOfItems rest

/-- The names that fields refer to. -/
def referencesOfFields : List (Text × Json) → List Text
  | [] => []
  | (key, v) :: rest => (target? key v).toList ++ v.references ++ referencesOfFields rest

end

@[simp] theorem references_text (t : Text) : (text t).references = [] := by
  simp only [references]

@[simp] theorem references_object (fields : List (Text × Json)) :
    (object fields).references = referencesOfFields fields := by
  simp only [references]

@[simp] theorem target?_object (key : Text) (fields : List (Text × Json)) :
    target? key (object fields) = none :=
  rfl

@[simp] theorem target?_array (key : Text) (items : List Json) :
    target? key (array items) = none :=
  rfl

theorem target?_of_ne {key : Text} (h : key ≠ .ofString "$ref") (v : Json) :
    target? key v = none := by
  cases v with
  | text t => rw [target?, if_neg h]
  | _ => rfl

@[simp] theorem target?_type (v : Json) : target? (.ofString "type") v = none :=
  target?_of_ne (by decide) v

@[simp] theorem target?_address (name : Text) :
    target? (.ofString "$ref") (.text (Schema.address name)) = some name := by
  rw [target?, if_pos rfl, List.isPrefixOf?_eq_some_iff_append_eq]
  rfl

@[simp] theorem referencesOfFields_append (fs gs : List (Text × Json)) :
    referencesOfFields (fs ++ gs) = referencesOfFields fs ++ referencesOfFields gs := by
  induction fs with
  | nil => simp [referencesOfFields]
  | cons p rest ih => simp [referencesOfFields, ih]

theorem mem_referencesOfFields {fields : List (Text × Json)} {n : Text} :
    n ∈ referencesOfFields fields ↔
      ∃ p ∈ fields, target? p.1 p.2 = some n ∨ n ∈ p.2.references := by
  induction fields with
  | nil => simp [referencesOfFields]
  | cons p rest ih =>
    rw [referencesOfFields, List.mem_append, List.mem_append, ih, Option.mem_toList]
    simp

/-- Values without objects and lists refer to nothing. -/
theorem referencesOfItems_eq_nil {items : List Json} (h : ∀ v ∈ items, v.references = []) :
    referencesOfItems items = [] := by
  induction items with
  | nil => simp only [referencesOfItems]
  | cons v rest ih =>
    rw [referencesOfItems, h v List.mem_cons_self, ih fun u hu => h u (List.mem_cons_of_mem _ hu),
      List.nil_append]

end Json

namespace Schema

/-! ### The references of a schema -/

mutual

/-- The names that a schema refers to. -/
def references : Schema → List Text
  | reference name => [name]
  | simple _ => []
  | constants _ _ => []
  | array items => items.references
  | oneOf alternatives => referencesOfAll alternatives
  | object properties _ => referencesOfProperties properties
  | allOf parts => referencesOfAll parts

/-- The names that the schemas of a list refer to. -/
def referencesOfAll : List Schema → List Text
  | [] => []
  | s :: rest => s.references ++ referencesOfAll rest

/-- The names that named schemas refer to. -/
def referencesOfProperties : List (Text × Schema) → List Text
  | [] => []
  | (_, s) :: rest => s.references ++ referencesOfProperties rest

end

theorem mem_referencesOfAll {schemas : List Schema} {n : Text} :
    n ∈ referencesOfAll schemas ↔ ∃ s ∈ schemas, n ∈ s.references := by
  induction schemas with
  | nil => simp [referencesOfAll]
  | cons s rest ih => simp [referencesOfAll, ih]

theorem mem_referencesOfProperties {properties : List (Text × Schema)} {n : Text} :
    n ∈ referencesOfProperties properties ↔ ∃ p ∈ properties, n ∈ p.2.references := by
  induction properties with
  | nil => simp [referencesOfProperties]
  | cons p rest ih => simp [referencesOfProperties, ih]

theorem references_toJson_literals (values : List LiteralValue) :
    Json.referencesOfItems (values.map (·.toJson)) = [] := by
  refine Json.referencesOfItems_eq_nil fun v hv => ?_
  obtain ⟨value, -, rfl⟩ := List.mem_map.1 hv
  cases value <;> simp only [LiteralValue.toJson, Json.references]

theorem references_texts (ts : List Text) : Json.referencesOfItems (ts.map .text) = [] := by
  refine Json.referencesOfItems_eq_nil fun v hv => ?_
  obtain ⟨t, -, rfl⟩ := List.mem_map.1 hv
  exact Json.references_text t

-- Induction on the schema, along its fields, its list of parts and its list of properties.

mutual

theorem referencesOfFields_fields :
    ∀ s : Schema, Json.referencesOfFields s.fields = s.references
  | reference name => by
    rw [fields, references]
    simp [Json.referencesOfFields]
  | simple type => by
    rw [fields, references]
    simp [Json.referencesOfFields]
  | constants type values => by
    rw [fields, references]
    simp [Json.referencesOfFields, Json.references, references_toJson_literals]
  | array items => by
    rw [fields, references, ← referencesOfFields_fields items]
    simp [Json.referencesOfFields]
  | oneOf alternatives => by
    rw [fields, references, ← referencesOfItems_toJsonList alternatives]
    simp [Json.referencesOfFields, Json.references]
  | object properties required => by
    rw [fields, references, ← referencesOfFields_toJsonFields properties]
    simp [Json.referencesOfFields, Json.references, references_texts]
  | allOf parts => by
    rw [fields, references, ← referencesOfItems_toJsonList parts]
    simp [Json.referencesOfFields, Json.references]

theorem referencesOfItems_toJsonList :
    ∀ schemas : List Schema, Json.referencesOfItems (toJsonList schemas) = referencesOfAll schemas
  | [] => by simp only [toJsonList, Json.referencesOfItems, referencesOfAll]
  | s :: rest => by
    rw [toJsonList, Json.referencesOfItems, referencesOfAll, Json.references_object,
      referencesOfFields_fields s, referencesOfItems_toJsonList rest]

theorem referencesOfFields_toJsonFields :
    ∀ properties : List (Text × Schema),
      Json.referencesOfFields (toJsonFields properties) = referencesOfProperties properties
  | [] => by simp only [toJsonFields, Json.referencesOfFields, referencesOfProperties]
  | (name, s) :: rest => by
    rw [toJsonFields, Json.referencesOfFields, referencesOfProperties, Json.target?_object,
      Json.references_object, referencesOfFields_fields s, referencesOfFields_toJsonFields rest]
    rfl

end

/-- A schema refers to the same names as its JSON value. -/
theorem references_toJson (s : Schema) : s.toJson.references = s.references := by
  rw [toJson, Json.references_object, referencesOfFields_fields]

/-! ### References of a schema that is made -/

/-- Some event is about every reference of a schema. -/
def Cites (events : List Event) (s : Schema) : Prop :=
  ∀ n ∈ s.references, n ∈ events.map Event.target

variable {es fs : List Event} {s : Schema}

theorem Cites.mono (h : Cites es s) (hs : es ⊆ fs) : Cites fs s :=
  fun n hn => List.map_subset _ hs (h n hn)

theorem cites_simple (type : Text) : Cites es (.simple type) := by
  intro n hn
  rw [references] at hn
  cases hn

theorem cites_constants (type : Text) (values : List LiteralValue) :
    Cites es (.constants type values) := by
  intro n hn
  rw [references] at hn
  cases hn

theorem cites_reference {e : Event} : Cites [e] (.reference e.target) := by
  intro n hn
  rw [references] at hn
  exact hn

theorem Cites.array (h : Cites es s) : Cites es (.array s) := by
  intro n hn
  rw [references] at hn
  exact h n hn

theorem cites_oneOf {alternatives : List Schema} (h : ∀ s ∈ alternatives, Cites es s) :
    Cites es (.oneOf alternatives) := by
  intro n hn
  rw [references, mem_referencesOfAll] at hn
  obtain ⟨s, hs, hn⟩ := hn
  exact h s hs n hn

theorem cites_allOf {parts : List Schema} (h : ∀ s ∈ parts, Cites es s) :
    Cites es (.allOf parts) := by
  intro n hn
  rw [references, mem_referencesOfAll] at hn
  obtain ⟨s, hs, hn⟩ := hn
  exact h s hs n hn

theorem cites_ofProperties {ps : List Property} (h : ∀ p ∈ ps, Cites es p.schema) :
    Cites es (ofProperties ps) := by
  intro n hn
  rw [ofProperties, references, mem_referencesOfProperties] at hn
  obtain ⟨q, hq, hn⟩ := hn
  obtain ⟨p, hp, rfl⟩ := List.mem_map.1 (Entries.mem_ofList hq)
  exact h p hp n hn

/-- Whatever a schema refers to was reported while it was made. -/
theorem law_cites : Law Cites where
  mono h hs := h.mono hs
  reference _ := cites_reference
  simple type := cites_simple type
  constants type values := cites_constants type values
  array h := h.array
  oneOf := cites_oneOf
  allOf := cites_allOf
  ofProperties := cites_ofProperties

end Schema

end DeclSchema
