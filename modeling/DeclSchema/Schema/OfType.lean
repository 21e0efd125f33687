import DeclSchema.Options
import DeclSchema.Schema
import DeclSchema.Table
import DeclSchema.Traced

/-!
# Schemas of types

The schema of a type expression. A named type becomes a reference to its definition, which is asked
for by an event; so the schema of one declaration never contains that of another one. A form without
a schema becomes a reference to its own raw text, and an event reports it.

The nodes of a type are visited from the outside to the inside and from left to right, and the depth
is compared with the limit at each of them, before anything else is done there.

## Main definitions

* `Schema.Event`, `Schema.Context`: what is reported, and what the schema of a type depends on
* `Schema.ofType`: the schema of a type expression
* `Schema.ofDeclaration`: the definition of a declared name
-/

namespace DeclSchema.Schema

/-- What is reported while a schema is made. -/
inductive Event where
  | asked (name : Text)
  /-- A type expression has no schema of its own. -/
  | schemaless (sort text : Text)
deriving DecidableEq

/-- What the schema of a type depends on. The scope is the name of the declaration around the type,
for messages. -/
structure Context where
  table : Table
  options : Options
  scope : Text

structure Property where
  name : Text
  schema : Schema
  optional : Bool

/-- The predefined words that have a schema, with its type. -/
def keywordTypes : List (Text × Text) :=
  [("string", "string"), ("number", "number"), ("bigint", "number"), ("boolean", "boolean"),
    ("any", "any"), ("unknown", "any"), ("undefined", "null")].map
      fun p => (.ofString p.1, .ofString p.2)

/-- The kinds of literals that are constants of the type of the same name. -/
def constantKinds : List Text :=
  ["boolean", "string", "number"].map .ofString

/-- The schema of an object shape. A property name stands where it appears first and has the schema
of its last appearance; a name is required where a property of that name is not optional. -/
def ofProperties (ps : List Property) : Schema :=
  .object (Entries.ofList (ps.map fun p => (p.name, p.schema)))
    ((ps.filter fun p => !p.optional).map (·.name)).eraseDups

/-- The schema of an object shape with bases. -/
def withBases (bases : List Schema) (own : Schema) : Schema :=
  if bases.isEmpty then own else .allOf (bases ++ [own])

variable (c : Context)

/-- The depth must be within the limit. -/
def within (depth : Int) : Traced Event Unit := do
  if ← .ofExcept (c.options.exceeds depth) then
    .fail (.tooDeep c.scope (c.options.get .maxDepth).shown)

/-- A reference to a definition that is asked for. -/
def ask (name : Text) : Traced Event Schema := do
  .emit (.asked name)
  return .reference name

/-- A reference to a raw text, in the place of a schema. -/
def placeholder (sort text : Text) : Traced Event Schema := do
  .emit (.schemaless sort text)
  return .reference text

def ofLiteral (text kind : Text) (value : LiteralValue) : Traced Event Schema :=
  if kind = .ofString "null" then pure (.simple kind)
  else if kind ∈ constantKinds then pure (.constants kind [value])
  else .fail (.unsupportedLiteral kind text)

def ofQualified (text scope member : Text) : Traced Event Schema := do
  if ← .ofExcept (c.options.isKindScope scope) then
    return .constants (.ofString "string") [.text member]
  else .fail (.foreignMember text)

/-- The schema of the form that collects the string values of an interface. -/
def ofCollection (name : Text) : List TypeExpr → Traced Event Schema
  | [argument] =>
    match c.table.get? argument.text with
    | some (.interface ..) =>
      pure (.constants (.ofString "string") (c.table.valuesOf argument.text))
    | some _ => .fail (.valueOfNoInterface name argument.text)
    | none => .fail (.valueOfUnknown name argument.text)
  | _ => .fail (.valueOfArity name)

def ofReference (name : Text) (arguments : List TypeExpr) : Traced Event Schema :=
  if c.options.isValueOf name then ofCollection c name arguments else ask name

def ofKeyword (text word : Text) : Traced Event Schema :=
  match keywordTypes.lookup word with
  | some type => pure (.simple type)
  | none => placeholder (word ++ .ofString " keyword") text

/-- The schema of an entry of an `extends` clause without type arguments is that of its name. -/
def ofHeritage (base : Heritage) : Traced Event Schema :=
  if base.arguments.isEmpty then ask base.name
  else placeholder (.ofString "ExpressionWithTypeArguments") base.text

/-- The schema of an entry of an `extends` clause at a depth. -/
def ofBase (depth : Int) (base : Heritage) : Traced Event Schema := do
  within c depth
  ofHeritage base

/-- The schemas of the entries of an `extends` clause, without the markers. -/
def ofBases (depth : Int) (heritage : List Heritage) : Traced Event (List Schema) := do
  let markers ← .ofExcept c.options.markerTexts
  (heritage.filter fun base => base.text ∉ markers).mapM (ofBase c depth)

def keyOf : MemberName → Traced Event Text
  | .plain text => pure text
  | .kindKey scope member => do
    if ← .ofExcept (c.options.isKeyScope scope) then return member
    else .fail (.computedKey c.scope (MemberName.kindKey scope member).shown)
  | .computed text => .fail (.computedKey c.scope text)

/-- The schema of a union whose alternatives are given: all members may be excluded. -/
def ofAlternatives (text : Text) (members : List TypeExpr) (alternatives : List Schema) :
    Traced Event Schema :=
  if !alternatives.isEmpty || members.isEmpty then pure (.oneOf alternatives)
  else
    match c.options.unionPolicy? with
    | some .anything => pure (.simple (.ofString "any"))
    | some .nothing => pure (.oneOf [])
    | _ => .fail (.emptyUnion c.scope text)

/-- The name of the sort of a form that has none of its own. -/
def sortShown (sort : Text) : Text :=
  if sort.isEmpty then .ofString "UnsupportedType" else sort

mutual

/-- The schema of a type expression at a depth. -/
def ofType (depth : Int) (type : TypeExpr) : Traced Event Schema := do
  within c depth
  match type with
  | .array _ element => return .array (← ofOptional (depth + 1) element)
  | .union text members => do
    let excluded ← .ofExcept c.options.excludedTexts
    let alternatives ← ofUnionMembers (depth + 1) excluded members
    ofAlternatives c text members alternatives
  | .literal text kind value => ofLiteral text kind value
  | .heritage base => ofHeritage base
  | .qualified text scope member => ofQualified c text scope member
  | .reference _ name arguments => ofReference c name arguments
  | .object _ members => return ofProperties (← ofMembers (depth + 1) members)
  | .parenthesized _ inner => ofOptional (depth + 1) inner
  | .keyword text word => ofKeyword text word
  | .unsupported text sort => placeholder (sortShown sort) text
  | .bare text => placeholder (.ofString "TypeNode") text
  | .declared (.interface _ _ _ heritage members) => do
    -- The bases stand first in the schema, but the members are visited before them.
    let own ← ofMembers (depth + 1) members
    let bases ← ofBases c (depth + 1) heritage
    return withBases bases (ofProperties own)
  | .declared (.enumeration _ text _) => placeholder (.ofString "EnumDeclaration") text
  | .declared (.typeAlias _ text _ _) => placeholder (.ofString "TypeAliasDeclaration") text
  | .declared (.bare _ text) => placeholder (.ofString "Declaration") text

/-- The schema of a part of a node, which must be there. -/
def ofOptional (depth : Int) : Option TypeExpr → Traced Event Schema
  | some type => ofType depth type
  | none => do
    within c depth
    .fail .absentNode

/-- The schemas of the members of a union, without the excluded ones. -/
def ofUnionMembers (depth : Int) (excluded : List Text) : List TypeExpr → Traced Event (List Schema)
  | [] => pure []
  | type :: rest =>
    if type.text ∈ excluded then ofUnionMembers depth excluded rest
    else do
      let alternative ← ofType depth type
      return alternative :: (← ofUnionMembers depth excluded rest)

/-- The properties of an object shape. -/
def ofMembers (depth : Int) : List Member → Traced Event (List Property)
  | [] => pure []
  | .property _ key (some type) optional _ :: rest => do
    let name ← keyOf c key
    let schema ← ofType depth type
    return ⟨name, schema, optional⟩ :: (← ofMembers depth rest)
  | .property text _ none _ _ :: _ => .fail (.untypedMember c.scope text)
  | member :: _ => .fail (.unexpectedMember c.scope member.text)

end

/-- The definition of a declared name. -/
def ofDeclaration : Declaration → Traced Event Schema
  | .interface name text typeParameters heritage members =>
    ofType c 0 (.declared (.interface name text typeParameters heritage members))
  | .typeAlias _ _ _ type => ofOptional c 0 type
  | .enumeration _ _ members =>
    pure (.constants (.ofString "string") (members.map .text))
  | .bare .. => .fail (.unexpectedDeclaration (.ofString "Declaration") (.text c.scope))

end DeclSchema.Schema
