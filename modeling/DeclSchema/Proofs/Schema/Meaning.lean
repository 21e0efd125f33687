import DeclSchema.Proofs.Schema.Cases
import DeclSchema.Proofs.Schema.Validation
import Mathlib.Data.List.Forall2

/-!
# What a type means

A type that refers to no other declaration has a meaning of its own: the values that inhabit it. Its
schema has a meaning too, by validation. The two are the same, with one proviso. The members of a
union may overlap, but `oneOf` allows exactly one of its alternatives; so the meanings agree where
no value inhabits two members of a union.

## Main definitions

* `TypeExpr.Inhabits`: the values of a type without references
* `TypeExpr.IsSelfContained`: the types that are made of predefined words, literals, unions, arrays
  and object shapes with plain properties
* `TypeExpr.unions`: the unions in a type
* `AreExclusive`: whether the members of every union exclude each other

## Main results

* `Schema.validates_ofType_iff`: a value is valid under the schema of a type if and only if it
  inhabits the type
-/

namespace DeclSchema

/-! ### Types without references -/

/-- The predefined words that a value inhabits, besides those that every value does. -/
def Json.predefined : Json → List Text
  | null => ["undefined"].map .ofString
  | truth _ => ["boolean"].map .ofString
  | integer _ | real _ => ["number", "bigint"].map .ofString
  | text _ => ["string"].map .ofString
  | array _ | object _ => []

/-- Whether a value inhabits a predefined word. -/
def Json.IsOfWord (word : Text) (v : Json) : Prop :=
  word ∈ ["any", "unknown"].map Text.ofString ∨ word ∈ v.predefined

mutual

/-- Whether a value inhabits a type. A form with references, or without a schema, has no values. -/
def TypeExpr.Inhabits (type : TypeExpr) (v : Json) : Prop :=
  match type with
  | .keyword _ word => v.IsOfWord word
  | .literal _ _ value => v = value.toJson
  | .parenthesized _ (some inner) => inner.Inhabits v
  | .array _ (some element) => ∃ items, v = .array items ∧ ∀ x ∈ items, element.Inhabits x
  | .union _ members => inhabitsSome members v
  | .object _ members => ∃ fields : Entries Json, v = .object fields ∧ inhabitsShape members fields
  | _ => False
termination_by structural type

/-- Whether a value inhabits a member of a union. -/
def inhabitsSome (types : List TypeExpr) (v : Json) : Prop :=
  match types with
  | [] => False
  | type :: rest => type.Inhabits v ∨ inhabitsSome rest v
termination_by structural types

/-- Whether every property that is not optional is among the fields, and every property that is
among them has a value of its type. -/
def inhabitsShape (members : List Member) (fields : Entries Json) : Prop :=
  match members with
  | [] => True
  | .property _ (.plain name) (some type) optional _ :: rest =>
    (optional = false → name ∈ fields.keys) ∧
      (∀ x, fields.get? name = some x → type.Inhabits x) ∧ inhabitsShape rest fields
  | _ => False
termination_by structural members

end

/-- The predefined words that have a schema. -/
def schemaWords : List Text :=
  ["string", "number", "bigint", "boolean", "any", "unknown", "undefined"].map .ofString

/-- Whether a literal type is a string, a truth value or `null`. -/
def LiteralValue.HasKind (kind : Text) : LiteralValue → Prop
  | text _ => kind = .ofString "string"
  | truth _ => kind = .ofString "boolean"
  | null => kind = .ofString "null"

/-- The name of a property with a plain name. -/
def Member.plainName? : Member → Option Text
  | .property _ (.plain name) _ _ _ => some name
  | _ => none

mutual

/-- Whether a type is made of predefined words, literals, unions, arrays and object shapes with
distinct plain properties. -/
def TypeExpr.IsSelfContained (type : TypeExpr) : Prop :=
  match type with
  | .keyword _ word => word ∈ schemaWords
  | .literal _ kind value => value.HasKind kind
  | .parenthesized _ (some inner) => inner.IsSelfContained
  | .array _ (some element) => element.IsSelfContained
  | .union _ members => members ≠ [] ∧ areSelfContained members
  | .object _ members => (members.filterMap (·.plainName?)).Nodup ∧ isSelfContainedShape members
  | _ => False
termination_by structural type

def areSelfContained (types : List TypeExpr) : Prop :=
  match types with
  | [] => True
  | type :: rest => type.IsSelfContained ∧ areSelfContained rest
termination_by structural types

def isSelfContainedShape (members : List Member) : Prop :=
  match members with
  | [] => True
  | .property _ (.plain _) (some type) _ _ :: rest =>
    type.IsSelfContained ∧ isSelfContainedShape rest
  | _ => False
termination_by structural members

end

/-! ### Unions -/

mutual

/-- The members of each union in a type. -/
def TypeExpr.unions (type : TypeExpr) : List (List TypeExpr) :=
  match type with
  | .parenthesized _ (some inner) => inner.unions
  | .array _ (some element) => element.unions
  | .union _ members => members :: unionsOf members
  | .object _ members => unionsOfShape members
  | _ => []
termination_by structural type

def unionsOf (types : List TypeExpr) : List (List TypeExpr) :=
  match types with
  | [] => []
  | type :: rest => type.unions ++ unionsOf rest
termination_by structural types

def unionsOfShape (members : List Member) : List (List TypeExpr) :=
  match members with
  | .property _ _ (some type) _ _ :: rest => type.unions ++ unionsOfShape rest
  | _ => []
termination_by structural members

end

/-- Whether no value inhabits two members of one of the unions. -/
def AreExclusive (unions : List (List TypeExpr)) : Prop :=
  ∀ members ∈ unions, members.Pairwise fun s t => ∀ v, ¬ (s.Inhabits v ∧ t.Inhabits v)

/-- Whether no member of one of the unions has one of the texts. -/
def AreWithout (texts : List Text) (unions : List (List TypeExpr)) : Prop :=
  ∀ members ∈ unions, ∀ member ∈ members, member.text ∉ texts

theorem AreExclusive.left {us us' : List (List TypeExpr)} (h : AreExclusive (us ++ us')) :
    AreExclusive us :=
  fun members hm => h members (List.mem_append_left _ hm)

theorem AreExclusive.right {us us' : List (List TypeExpr)} (h : AreExclusive (us ++ us')) :
    AreExclusive us' :=
  fun members hm => h members (List.mem_append_right _ hm)

theorem AreWithout.left {texts : List Text} {us us' : List (List TypeExpr)}
    (h : AreWithout texts (us ++ us')) : AreWithout texts us :=
  fun members hm => h members (List.mem_append_left _ hm)

theorem AreWithout.right {texts : List Text} {us us' : List (List TypeExpr)}
    (h : AreWithout texts (us ++ us')) : AreWithout texts us' :=
  fun members hm => h members (List.mem_append_right _ hm)

namespace Schema

open Json (Validates)

variable {v : Json}

/-- The values that are valid under a schema are those of a type. -/
def Means (s : Schema) (type : TypeExpr) : Prop :=
  ∀ v, Validates s.toJson v ↔ type.Inhabits v

/-! ### The parts of a type -/

theorem inhabitsSome_iff {types : List TypeExpr} :
    inhabitsSome types v ↔ ∃ type ∈ types, type.Inhabits v := by
  induction types with
  | nil => simp [inhabitsSome]
  | cons type rest ih => simp [inhabitsSome, ih]

theorem exists_validates_iff {alternatives : List Schema} {types : List TypeExpr}
    (h : List.Forall₂ Means alternatives types) :
    (∃ s ∈ alternatives, Validates s.toJson v) ↔ ∃ type ∈ types, type.Inhabits v := by
  induction h with
  | nil => simp
  | cons hs _ ih =>
    rw [List.exists_mem_cons_iff, List.exists_mem_cons_iff, ih]
    exact or_congr_left (hs v)

/-- The alternatives of exclusive members are disjoint, and mean the union of the members. -/
theorem means_oneOf {alternatives : List Schema} {types : List TypeExpr} {text : Text}
    (h : List.Forall₂ Means alternatives types)
    (hd : types.Pairwise fun s t => ∀ v, ¬ (s.Inhabits v ∧ t.Inhabits v)) :
    Means (.oneOf alternatives) (.union text types) := by
  intro v
  have hdisjoint : alternatives.Pairwise fun s s' =>
      ¬ (Validates s.toJson v ∧ Validates s'.toJson v) := by
    -- Induction on the two lists: a value that is valid twice inhabits two members.
    induction h with
    | nil => exact List.Pairwise.nil
    | cons hs hrest ih =>
      obtain ⟨ht, hts⟩ := List.pairwise_cons.1 hd
      refine List.pairwise_cons.2 ⟨?_, ih hts⟩
      rintro s' hs' ⟨hv, hv'⟩
      obtain ⟨t', ht', hin⟩ := (exists_validates_iff hrest).1 ⟨s', hs', hv'⟩
      exact ht t' ht' v ⟨(hs v).1 hv, hin⟩
  rw [validates_oneOf_of_disjoint hdisjoint, exists_validates_iff h, TypeExpr.Inhabits,
    inhabitsSome_iff]

/-- A property has the name, the mark and the meaning of a member. -/
inductive MeansMember : Property → Member → Prop where
  | property {name text : Text} {s : Schema} {type : TypeExpr} {optional : Bool} (ro : Bool)
      (h : Means s type) :
      MeansMember ⟨name, s, optional⟩ (.property text (.plain name) (some type) optional ro)

theorem inhabitsShape_iff {ps : List Property} {members : List Member} {fields : Entries Json}
    (h : List.Forall₂ MeansMember ps members) :
    inhabitsShape members fields ↔ ∀ p ∈ ps,
      (p.optional = false → p.name ∈ fields.keys) ∧
      ∀ x, fields.get? p.name = some x → Validates p.schema.toJson x := by
  induction h with
  | nil => simp [inhabitsShape]
  | cons hp _ ih =>
    cases hp with
    | property ro hmeans =>
      rw [inhabitsShape, List.forall_mem_cons, ih, and_assoc]
      simp only [hmeans _]

theorem names_eq {ps : List Property} {members : List Member}
    (h : List.Forall₂ MeansMember ps members) :
    ps.map (·.name) = members.filterMap (·.plainName?) := by
  induction h with
  | nil => rfl
  | cons hp _ ih =>
    cases hp with
    | property ro hmeans => rw [List.map_cons, ih, List.filterMap_cons]; rfl

theorem means_ofProperties {ps : List Property} {members : List Member} {text : Text}
    (h : List.Forall₂ MeansMember ps members)
    (hn : (members.filterMap (·.plainName?)).Nodup) :
    Means (ofProperties ps) (.object text members) := by
  intro v
  rw [validates_ofProperties (names_eq h ▸ hn), TypeExpr.Inhabits]
  simp only [inhabitsShape_iff h]

theorem means_array {s : Schema} {type : TypeExpr} {text : Text} (h : Means s type) :
    Means (.array s) (.array text (some type)) := by
  intro v
  rw [validates_array, TypeExpr.Inhabits]
  simp only [h _]

/-- The type of a predefined word has the values of the word. -/
theorem isOfType_iff_isOfWord {word type : Text} (h : (word, type) ∈ keywordTypes) :
    v.IsOfType type ↔ v.IsOfWord word := by
  simp only [keywordTypes, List.map_cons, List.map_nil, List.mem_cons, List.not_mem_nil, or_false,
    Prod.mk.injEq] at h
  rcases h with ⟨rfl, rfl⟩ | ⟨rfl, rfl⟩ | ⟨rfl, rfl⟩ | ⟨rfl, rfl⟩ | ⟨rfl, rfl⟩ | ⟨rfl, rfl⟩ |
    ⟨rfl, rfl⟩ <;> cases v <;>
    simp only [Json.IsOfType, Json.typeName, Json.IsOfWord, Json.predefined] <;> decide

theorem exists_lookup_of_mem {word : Text} (h : word ∈ schemaWords) :
    ∃ type, keywordTypes.lookup word = some type ∧ (word, type) ∈ keywordTypes := by
  revert word
  decide

theorem ofKeyword_means {text word : Text} (h : word ∈ schemaWords) :
    (ofKeyword text word).Ensures fun _ s => Means s (.keyword text word) := by
  obtain ⟨type, hlookup, hmem⟩ := exists_lookup_of_mem h
  rw [ofKeyword, hlookup]
  refine Traced.ensures_pure.2 fun v => ?_
  rw [validates_simple, isOfType_iff_isOfWord hmem, TypeExpr.Inhabits]

/-- A constant of the type of the constant. -/
theorem means_constants {text kind : Text} {value : LiteralValue}
    (h : value.toJson.IsOfType kind) :
    Means (.constants kind [value]) (.literal text kind value) := by
  intro v
  rw [validates_constants, TypeExpr.Inhabits]
  constructor
  · rintro ⟨-, value', hmem, rfl⟩
    rw [List.mem_singleton.1 hmem]
  · rintro rfl
    exact ⟨h, value, List.mem_singleton.2 rfl, rfl⟩

theorem ofLiteral_means {text kind : Text} {value : LiteralValue} (h : value.HasKind kind) :
    (ofLiteral text kind value).Ensures fun _ s => Means s (.literal text kind value) := by
  cases value with
  | text t =>
    obtain rfl : kind = _ := h
    rw [ofLiteral, if_neg (by decide), if_pos (by decide)]
    exact Traced.ensures_pure.2 (means_constants (Or.inr rfl))
  | truth b =>
    obtain rfl : kind = _ := h
    rw [ofLiteral, if_neg (by decide), if_pos (by decide)]
    exact Traced.ensures_pure.2 (means_constants (Or.inr rfl))
  | null =>
    obtain rfl : kind = _ := h
    rw [ofLiteral, if_pos rfl]
    refine Traced.ensures_pure.2 fun v => ?_
    rw [validates_simple, TypeExpr.Inhabits]
    cases v <;> simp [Json.IsOfType, Json.typeName, LiteralValue.toJson] <;> decide

/-! ### Types -/

variable (c : Context)

/-- What is done before a schema is made does not matter for what it means. -/
theorem means_bind {α : Type} {x : Traced Event α} {f : α → Traced Event Schema}
    {type : TypeExpr} (h : ∀ a, x.outcome = .ok a → (f a).Ensures fun _ s => Means s type) :
    (x >>= f).Ensures fun _ s => Means s type :=
  Traced.ensures_bind.2 h

/-- The conditions on a list of unions: their members exclude each other, and none is left out. -/
structure AreWhole (c : Context) (unions : List (List TypeExpr)) : Prop where
  exclusive : AreExclusive unions
  without : ∀ excluded, c.options.excludedTexts = .ok excluded → AreWithout excluded unions

variable {c}

theorem AreWhole.left {us us' : List (List TypeExpr)} (h : AreWhole c (us ++ us')) :
    AreWhole c us :=
  ⟨h.exclusive.left, fun excluded he => (h.without excluded he).left⟩

theorem AreWhole.right {us us' : List (List TypeExpr)} (h : AreWhole c (us ++ us')) :
    AreWhole c us' :=
  ⟨h.exclusive.right, fun excluded he => (h.without excluded he).right⟩

variable (c)

theorem Leaf.means {type : TypeExpr} {x : Context → Traced Event Schema} (hx : Leaf type x)
    (hc : type.IsSelfContained) : (x c).Ensures fun _ s => Means s type := by
  cases hx with
  | keyword text word =>
    rw [TypeExpr.IsSelfContained] at hc
    exact ofKeyword_means hc
  | literal text kind value =>
    rw [TypeExpr.IsSelfContained] at hc
    exact ofLiteral_means hc
  | _ => simp [TypeExpr.IsSelfContained] at hc

-- Each form of schema means what the form of type means, if the parts do. A part is there and is
-- self-contained where the whole is.

theorem cases_means : Cases
    (fun type => ∀ depth, type.IsSelfContained → AreWhole c type.unions →
      (ofType c depth type).Ensures fun _ s => Means s type)
    (fun type? => ∀ depth, ∀ type ∈ type?, type.IsSelfContained → AreWhole c type.unions →
      (ofOptional c depth type?).Ensures fun _ s => Means s type)
    (fun types => ∀ depth excluded, areSelfContained types →
      (∀ type ∈ types, type.text ∉ excluded) → AreWhole c (unionsOf types) →
      (ofUnionMembers c depth excluded types).Ensures fun _ ss => List.Forall₂ Means ss types)
    (fun members => ∀ depth, isSelfContainedShape members → AreWhole c (unionsOfShape members) →
      (ofMembers c depth members).Ensures fun _ ps => List.Forall₂ MeansMember ps members) where
  leaf hx depth hc _ := by
    rw [hx.ofType_eq]
    exact means_bind fun _ _ => hx.means c hc
  array {_ element} ih depth hc hw := by
    cases element with
    | none => simp [TypeExpr.IsSelfContained] at hc
    | some element =>
      rw [TypeExpr.IsSelfContained] at hc
      rw [TypeExpr.unions] at hw
      rw [ofType]
      refine means_bind fun _ _ => Traced.ensures_bind.2 fun s hs => Traced.ensures_pure.2 ?_
      exact means_array (ih (depth + 1) element rfl hc hw s hs)
  union {_ types} ih depth hc hw := by
    rw [TypeExpr.IsSelfContained] at hc
    rw [TypeExpr.unions] at hw
    rw [ofType]
    refine means_bind fun _ _ => means_bind fun excluded he =>
      Traced.ensures_bind.2 fun ss hss => ?_
    have hkept : ∀ type ∈ types, type.text ∉ excluded :=
      hw.without excluded he types List.mem_cons_self
    have hunions : AreWhole c ([types] ++ unionsOf types) := hw
    have hmeans : List.Forall₂ Means ss types :=
      ih (depth + 1) excluded hc.2 hkept hunions.right ss hss
    -- All members have an alternative, so there is one.
    have hne : ss.isEmpty = false := by
      cases hmeans with
      | nil => exact absurd rfl hc.1
      | cons _ _ => rfl
    rw [ofAlternatives, hne]
    exact Traced.ensures_pure.2 (means_oneOf hmeans (hw.exclusive types List.mem_cons_self))
  object ih depth hc hw := by
    rw [TypeExpr.IsSelfContained] at hc
    rw [TypeExpr.unions] at hw
    rw [ofType]
    refine means_bind fun _ _ => Traced.ensures_bind.2 fun ps hps => Traced.ensures_pure.2 ?_
    exact means_ofProperties (ih (depth + 1) hc.2 hw ps hps) hc.1
  parenthesized {_ inner} ih depth hc hw := by
    cases inner with
    | none => simp [TypeExpr.IsSelfContained] at hc
    | some inner =>
      rw [TypeExpr.IsSelfContained] at hc
      rw [TypeExpr.unions] at hw
      rw [ofType]
      refine means_bind fun _ _ => (ih (depth + 1) inner rfl hc hw).imp fun _ s hs v => ?_
      rw [hs v, TypeExpr.Inhabits]
  interface _ depth hc _ := by
    simp [TypeExpr.IsSelfContained] at hc
  present ih depth type htype hc hw := by
    cases htype
    rw [ofOptional]
    exact ih depth hc hw
  absent _ _ htype := nomatch htype
  noMember depth excluded _ _ _ := by
    rw [ofUnionMembers]
    exact Traced.ensures_pure.2 .nil
  alternative ih ihrest depth excluded hc hkept hw := by
    rw [areSelfContained] at hc
    rw [unionsOf] at hw
    obtain ⟨htype, hrest⟩ := List.forall_mem_cons.1 hkept
    rw [ofUnionMembers, if_neg htype]
    exact Traced.ensures_bind.2 fun s hs => Traced.ensures_bind.2 fun ss hss =>
      Traced.ensures_pure.2 (.cons (ih depth hc.1 hw.left s hs)
        (ihrest depth excluded hc.2 hrest hw.right ss hss))
  noProperty depth _ _ := by
    rw [ofMembers]
    exact Traced.ensures_pure.2 .nil
  property {_ key _ _ readonly _} ih ihrest depth hc hw := by
    cases key with
    | plain name =>
      rw [isSelfContainedShape] at hc
      rw [unionsOfShape] at hw
      rw [ofMembers, keyOf]
      refine Traced.ensures_bind.2 fun name' hname => Traced.ensures_bind.2 fun s hs =>
        Traced.ensures_bind.2 fun ps hps => Traced.ensures_pure.2 ?_
      cases hname
      exact .cons (.property readonly (ih depth hc.1 hw.left s hs))
        (ihrest depth hc.2 hw.right ps hps)
    | _ => simp [isSelfContainedShape] at hc
  refused hrefused _ depth _ _ := by
    rw [ofMembers_refused hrefused]
    exact Traced.ensures_fail _

/-- **A type and its schema have the same values.** For a type without references whose unions are
exclusive and lose no member to the options, whenever it has a schema, a value is valid under the
schema if and only if it inhabits the type. -/
theorem validates_ofType_iff {depth : Int} {type : TypeExpr} {s : Schema} (hc : type.IsSelfContained)
    (hexclusive : AreExclusive type.unions)
    (hwithout : ∀ excluded, c.options.excludedTexts = .ok excluded →
      AreWithout excluded type.unions)
    (hs : (ofType c depth type).outcome = .ok s) (v : Json) :
    Validates s.toJson v ↔ type.Inhabits v :=
  (cases_means c).type type depth hc ⟨hexclusive, hwithout⟩ s hs v

/-- An optional array of a union in parentheses, and a union of literals. -/
def sampleShape : TypeExpr :=
  .object [] [
    .property [] (.plain (.ofString "a")) (some (.array [] (some (.parenthesized [] (some
      (.union [] [.keyword [] (.ofString "string"), .literal [] (.ofString "null") .null]))))))
      true false,
    .property [] (.plain (.ofString "b")) (some (.union []
      [.literal [] (.ofString "string") (.text (.ofString "x")),
       .literal [] (.ofString "boolean") (.truth true)])) false false]

theorem sampleShape_exclusive : AreExclusive sampleShape.unions := by
  intro members hm
  have hm : members ∈ [_, _] := hm
  -- There are two unions, and each value decides which member it can inhabit.
  rcases List.mem_pair.1 hm with rfl | rfl <;>
    refine List.pairwise_pair.2 fun v hv => ?_
  · cases v <;> simp [TypeExpr.Inhabits, Json.IsOfWord, Json.predefined, LiteralValue.toJson] at hv
    revert hv
    decide
  · simp [TypeExpr.Inhabits, LiteralValue.toJson] at hv
    cases hv.1.symm.trans hv.2

theorem sampleShape_isSelfContained : sampleShape.IsSelfContained := by
  simp only [sampleShape, TypeExpr.IsSelfContained, isSelfContainedShape, areSelfContained,
    LiteralValue.HasKind]
  decide

/-- The first property may be absent, and the second one may not. -/
theorem validates_sampleShape :
    ∃ s, (ofType ⟨.empty, .defaults, []⟩ 0 sampleShape).outcome = .ok s ∧
      Validates s.toJson (.object [(.ofString "b", .truth true)]) ∧
      ¬ Validates s.toJson (.object [(.ofString "a", .array [.null])]) := by
  have hwithout (excluded : List Text)
      (he : Options.defaults.excludedTexts = .ok excluded) :
      AreWithout excluded sampleShape.unions := by
    cases he
    unfold AreWithout
    decide
  -- Both answers are read off the meaning of the type.
  have hiff := validates_ofType_iff ⟨.empty, .defaults, []⟩ sampleShape_isSelfContained
    sampleShape_exclusive hwithout (rfl : (ofType _ 0 sampleShape).outcome = .ok _)
  refine ⟨_, rfl, (hiff _).2 ?_, fun h => ?_⟩
  · refine ⟨_, rfl, ?_⟩
    simp [inhabitsShape, TypeExpr.Inhabits, inhabitsSome, LiteralValue.toJson, Entries.get?]
    decide
  · obtain ⟨_, ⟨⟩, h⟩ := (hiff _).1 h
    exact absurd (h.2.2.1 rfl) (by decide)

end Schema

end DeclSchema
