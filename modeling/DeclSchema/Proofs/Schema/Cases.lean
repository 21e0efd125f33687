import DeclSchema.Proofs.Traced
import DeclSchema.Schema.OfType

/-!
# The cases of a type

A type is a leaf, whose schema is made without those of other types, or it is an array, a union, an
object shape, an interface or a type in parentheses. What holds of all types is proved by these
cases, and with it what holds of the parts of nodes, of the members of unions and of the members of
object shapes. Only a property with a type has a part among the members; any other one is refused.

What a schema may be is much the same in all these cases. A leaf gives a reference to what it
reports, or reports nothing. The bases of an interface are references to what they report, and the
alternatives of a union report nothing by themselves.

## Main definitions

* `Schema.Leaf`: a type without parts, with the computation that makes its schema
* `Schema.Plain`: what the schemas of leaves are
* `Schema.refusal`: the fault of a member that is refused
* `Schema.Cases`: the cases of an induction over types

## Main results

* `Schema.Leaf.ofType_eq`, `Schema.ofMembers_refused`: leaves, and members that are refused
* `Schema.Leaf.plain`, `Schema.ofBases_references`: schemas of leaves and of bases
* `Schema.Cases.type`: what holds in all cases holds of every type
-/

namespace DeclSchema.Schema

/-- The name that the reference refers to that an event is about. -/
def Event.target : Event → Text
  | asked name => name
  | schemaless _ text => text

/-! ### Leaves -/

/-- The schema of a type is made without those of other types, by a computation that depends on the
context. -/
inductive Leaf : TypeExpr → (Context → Traced Event Schema) → Prop where
  | literal (text kind : Text) (value : LiteralValue) :
    Leaf (.literal text kind value) fun _ => ofLiteral text kind value
  | heritage (base : Heritage) : Leaf (.heritage base) fun _ => ofHeritage base
  | qualified (text scope member : Text) :
    Leaf (.qualified text scope member) fun c => ofQualified c text scope member
  | reference (text name : Text) (arguments : List TypeExpr) :
    Leaf (.reference text name arguments) fun c => ofReference c name arguments
  | keyword (text word : Text) : Leaf (.keyword text word) fun _ => ofKeyword text word
  | unsupported (text sort : Text) :
    Leaf (.unsupported text sort) fun _ => placeholder (sortShown sort) text
  | bare (text : Text) : Leaf (.bare text) fun _ => placeholder (.ofString "TypeNode") text
  | enumeration (name text : Text) (members : List Text) :
    Leaf (.declared (.enumeration name text members)) fun _ =>
      placeholder (.ofString "EnumDeclaration") text
  | typeAlias (name text : Text) (typeParameters : List Text) (type : Option TypeExpr) :
    Leaf (.declared (.typeAlias name text typeParameters type)) fun _ =>
      placeholder (.ofString "TypeAliasDeclaration") text
  | declaration (name text : Text) :
    Leaf (.declared (.bare name text)) fun _ => placeholder (.ofString "Declaration") text

/-- What the schemas of leaves are: a reference to what is reported, or a simple schema or constants
without a report. -/
inductive Plain : List Event → Schema → Prop where
  | reference (e : Event) : Plain [e] (.reference e.target)
  | simple (type : Text) : Plain [] (.simple type)
  | constants (type : Text) (values : List LiteralValue) : Plain [] (.constants type values)

section Plain

variable (c : Context)

theorem ask_plain (name : Text) :
    (ask name).Ensures fun es s => ∃ e, es = [e] ∧ s = .reference e.target :=
  Traced.ensures_bind.2 fun _ _ => Traced.ensures_pure.2 ⟨.asked name, rfl, rfl⟩

theorem placeholder_plain (sort text : Text) :
    (placeholder sort text).Ensures fun es s => ∃ e, es = [e] ∧ s = .reference e.target :=
  Traced.ensures_bind.2 fun _ _ => Traced.ensures_pure.2 ⟨.schemaless sort text, rfl, rfl⟩

theorem plain_of_reference {x : Traced Event Schema}
    (h : x.Ensures fun es s => ∃ e, es = [e] ∧ s = .reference e.target) : x.Ensures Plain := by
  refine h.imp ?_
  rintro _ _ ⟨e, rfl, rfl⟩
  exact .reference e

/-- An entry of an `extends` clause is a reference to what it reports. -/
theorem ofHeritage_plain (base : Heritage) :
    (ofHeritage base).Ensures fun es s => ∃ e, es = [e] ∧ s = .reference e.target := by
  unfold ofHeritage
  split
  · exact ask_plain _
  · exact placeholder_plain _ _

theorem ofLiteral_plain (text kind : Text) (value : LiteralValue) :
    (ofLiteral text kind value).Ensures Plain := by
  unfold ofLiteral
  split
  · exact Traced.ensures_pure.2 (.simple _)
  · split
    · exact Traced.ensures_pure.2 (.constants _ _)
    · exact Traced.ensures_fail _

theorem ofQualified_plain (text scope member : Text) :
    (ofQualified c text scope member).Ensures Plain := by
  refine Traced.ensures_bind.2 fun isKind _ => ?_
  split
  · exact Traced.ensures_pure.2 (.constants _ _)
  · exact Traced.ensures_fail _

theorem ofCollection_plain (name : Text) (arguments : List TypeExpr) :
    (ofCollection c name arguments).Ensures Plain := by
  unfold ofCollection
  split
  · split
    · exact Traced.ensures_pure.2 (.constants _ _)
    · exact Traced.ensures_fail _
    · exact Traced.ensures_fail _
  · exact Traced.ensures_fail _

theorem ofReference_plain (name : Text) (arguments : List TypeExpr) :
    (ofReference c name arguments).Ensures Plain := by
  unfold ofReference
  split
  · exact ofCollection_plain c name arguments
  · exact plain_of_reference (ask_plain name)

theorem ofKeyword_plain (text word : Text) : (ofKeyword text word).Ensures Plain := by
  unfold ofKeyword
  split
  · exact Traced.ensures_pure.2 (.simple _)
  · exact plain_of_reference (placeholder_plain _ _)

end Plain

namespace Leaf

variable {type : TypeExpr} {x : Context → Traced Event Schema}

/-- At a leaf the depth comes first. -/
theorem ofType_eq (h : Leaf type x) (c : Context) (depth : Int) :
    ofType c depth type = within c depth >>= fun _ => x c := by
  cases h <;> rw [ofType]

theorem plain (h : Leaf type x) (c : Context) : (x c).Ensures Plain := by
  cases h with
  | literal text kind value => exact ofLiteral_plain text kind value
  | heritage base => exact plain_of_reference (ofHeritage_plain base)
  | qualified text scope member => exact ofQualified_plain c text scope member
  | reference text name arguments => exact ofReference_plain c name arguments
  | keyword text word => exact ofKeyword_plain text word
  | unsupported | bare | enumeration | typeAlias | declaration =>
    exact plain_of_reference (placeholder_plain _ _)

end Leaf

/-! ### Bases and unions -/

section Parts

variable (c : Context)

theorem within_reports (depth : Int) : (within c depth).Reports [] := by
  refine (Traced.reports_ofExcept _).after fun exceeded _ => ?_
  split
  · exact Traced.reports_fail _ _
  · exact Traced.reports_pure _

/-- The bases of an interface are references to what they report, in the same order. -/
theorem ofBases_references (depth : Int) (heritage : List Heritage) :
    (ofBases c depth heritage).Ensures fun es bases =>
      bases = es.map fun e => .reference e.target := by
  refine Traced.ensures_after (Traced.reports_ofExcept _) fun markers _ => ?_
  -- Induction on the bases that are no markers.
  generalize heritage.filter (fun base => base.text ∉ markers) = kept
  induction kept with
  | nil =>
    rw [List.mapM_nil]
    exact Traced.ensures_pure.2 rfl
  | cons base rest ih =>
    rw [List.mapM_cons]
    refine Traced.ensures_bind.2 fun s hs => Traced.ensures_bind.2 fun ss hss =>
      Traced.ensures_pure.2 ?_
    obtain ⟨e, he, rfl⟩ := Traced.ensures_after (within_reports c depth)
      (fun _ _ => ofHeritage_plain base) s hs
    rw [ih ss hss, List.append_nil, show (ofBase c depth base).events = [e] from he]
    rfl

/-- The alternatives of a union report nothing, and are allowed for unless nothing is left. -/
theorem ofAlternatives_made (text : Text) (members : List TypeExpr) (alternatives : List Schema) :
    (ofAlternatives c text members alternatives).Ensures fun es s =>
      es = [] ∧ (s = .oneOf alternatives ∨
        alternatives = [] ∧ s = .simple (.ofString "any")) := by
  unfold ofAlternatives
  split
  · exact Traced.ensures_pure.2 ⟨rfl, .inl rfl⟩
  · next hnone =>
    simp only [Bool.or_eq_true, Bool.not_eq_eq_eq_not, Bool.not_true, not_or, Bool.not_eq_false,
      List.isEmpty_iff] at hnone
    rw [hnone.1]
    split
    · exact Traced.ensures_pure.2 ⟨rfl, .inr ⟨rfl, rfl⟩⟩
    · exact Traced.ensures_pure.2 ⟨rfl, .inl rfl⟩
    · exact Traced.ensures_fail _

end Parts

/-! ### Members that are refused -/

/-- The type of a property. -/
def propertyType? : Member → Option TypeExpr
  | .property _ _ type _ _ => type
  | _ => none

theorem eq_property_of_type {member : Member} {type : TypeExpr}
    (h : propertyType? member = some type) :
    ∃ text key optional readonly, member = .property text key (some type) optional readonly := by
  cases member with
  | property text key type? optional readonly =>
    obtain rfl : type? = some type := h
    exact ⟨text, key, optional, readonly, rfl⟩
  | _ => cases h

/-- The fault of a member that is no property with a type. -/
def refusal (scope : Text) : Member → Fault
  | .property text .. => .untypedMember scope text
  | member => .unexpectedMember scope member.text

theorem ofMembers_refused {member : Member} (h : propertyType? member = none) (c : Context)
    (depth : Int) (rest : List Member) :
    ofMembers c depth (member :: rest) = .fail (refusal c.scope member) := by
  cases member with
  | property text key type? optional readonly =>
    obtain rfl : type? = none := h
    rw [ofMembers]
    rfl
  | _ =>
    rw [ofMembers]
    · rfl
    all_goals nofun

/-! ### Induction -/

/-- The cases of an induction over types, the parts of nodes, the members of unions, and the members
of object shapes. -/
structure Cases (ofType : TypeExpr → Prop) (ofPart : Option TypeExpr → Prop)
    (ofUnion : List TypeExpr → Prop) (ofShape : List Member → Prop) : Prop where
  leaf {type : TypeExpr} {x : Context → Traced Event Schema} (h : Leaf type x) : ofType type
  array {text : Text} {element : Option TypeExpr} (h : ofPart element) :
    ofType (.array text element)
  union {text : Text} {members : List TypeExpr} (h : ofUnion members) :
    ofType (.union text members)
  object {text : Text} {members : List Member} (h : ofShape members) :
    ofType (.object text members)
  parenthesized {text : Text} {inner : Option TypeExpr} (h : ofPart inner) :
    ofType (.parenthesized text inner)
  interface {name text : Text} {typeParameters : List Text} {heritage : List Heritage}
    {members : List Member} (h : ofShape members) :
    ofType (.declared (.interface name text typeParameters heritage members))
  present {type : TypeExpr} (h : ofType type) : ofPart (some type)
  absent : ofPart none
  noMember : ofUnion []
  alternative {type : TypeExpr} {rest : List TypeExpr} (h : ofType type) (hrest : ofUnion rest) :
    ofUnion (type :: rest)
  noProperty : ofShape []
  property {text : Text} {key : MemberName} {type : TypeExpr} {optional readonly : Bool}
    {rest : List Member} (h : ofType type) (hrest : ofShape rest) :
    ofShape (.property text key (some type) optional readonly :: rest)
  refused {member : Member} {rest : List Member} (h : propertyType? member = none)
    (hrest : ofShape rest) : ofShape (member :: rest)

namespace Cases

variable {ofType : TypeExpr → Prop} {ofPart : Option TypeExpr → Prop}
  {ofUnion : List TypeExpr → Prop} {ofShape : List Member → Prop}

mutual

theorem type (cases : Cases ofType ofPart ofUnion ofShape) : ∀ type : TypeExpr, ofType type
  | .array _ element => cases.array (cases.part element)
  | .union _ members => cases.union (cases.alternatives members)
  | .literal text kind value => cases.leaf (.literal text kind value)
  | .reference text name arguments => cases.leaf (.reference text name arguments)
  | .qualified text scope member => cases.leaf (.qualified text scope member)
  | .heritage base => cases.leaf (.heritage base)
  | .parenthesized _ inner => cases.parenthesized (cases.part inner)
  | .keyword text word => cases.leaf (.keyword text word)
  | .unsupported text sort => cases.leaf (.unsupported text sort)
  | .object _ members => cases.object (cases.shape members)
  | .bare text => cases.leaf (.bare text)
  | .declared (.interface _ _ _ _ members) => cases.interface (cases.shape members)
  | .declared (.enumeration name text members) => cases.leaf (.enumeration name text members)
  | .declared (.typeAlias name text typeParameters type) =>
    cases.leaf (.typeAlias name text typeParameters type)
  | .declared (.bare name text) => cases.leaf (.declaration name text)

theorem part (cases : Cases ofType ofPart ofUnion ofShape) :
    ∀ type? : Option TypeExpr, ofPart type?
  | some type => cases.present (cases.type type)
  | none => cases.absent

theorem alternatives (cases : Cases ofType ofPart ofUnion ofShape) :
    ∀ types : List TypeExpr, ofUnion types
  | [] => cases.noMember
  | type :: rest => cases.alternative (cases.type type) (cases.alternatives rest)

theorem shape (cases : Cases ofType ofPart ofUnion ofShape) :
    ∀ members : List Member, ofShape members
  | [] => cases.noProperty
  | .property _ _ (some type) _ _ :: rest => cases.property (cases.type type) (cases.shape rest)
  | .property _ _ none _ _ :: rest => cases.refused rfl (cases.shape rest)
  | .index .. :: rest => cases.refused rfl (cases.shape rest)
  | .method .. :: rest => cases.refused rfl (cases.shape rest)
  | .call .. :: rest => cases.refused rfl (cases.shape rest)
  | .bare _ :: rest => cases.refused rfl (cases.shape rest)

end

end Cases

end DeclSchema.Schema
