import DeclSchema.Fault

/-!
# Options

The options of a run. Their values are JSON values that are taken as they are: whether a value is of
a usable sort is found out where it is used. Only the policy for empty unions is checked beforehand.

An object of options has options as its keys, and a few keys more have a meaning in it: a value can
take the place of the check or of the listing, which then cannot be carried out, and an object can
take the place of everything that is set. After that an option that lists something may be unset,
while any other one has its default.

## Main definitions

* `Options.Key`, `Options`: the options
* `Options.Slot`, `Options.put`: what the keys of an object of options stand for
* `Options.check`: the check of the policy
* `Options.ofObject`, `Options.ofFields`: options from a JSON object, where other keys are ignored
  or refused
* `Options.seeds`, `Options.excludedTexts`, `Options.markerTexts`, `Options.isKindScope`,
  `Options.isKeyScope`, `Options.exceeds`, `Options.indentation`: the options as they are used
-/

namespace DeclSchema

/-- The names of the options. -/
inductive Options.Key where
  | rootNames
  | rootName
  | schemaUri
  | excludedUnionMembers
  | markerBases
  | kindNamespaces
  | kindKeyNamespaces
  | valueOfName
  | emptyUnion
  | maxDepth
  | indent
deriving DecidableEq

/-- What can be done with options as a whole. -/
inductive Options.Duty where
  | check
  | listing
deriving DecidableEq

/-- The values of all options. -/
structure Options where
  /-- The value that is set, if there is one. -/
  own? : Options.Key → Option Json
  /-- The duties whose place a value has taken. -/
  displaced : List Options.Duty

namespace Options

namespace Key

/-- All options, in the order in which they are listed. -/
def all : List Key :=
  [rootNames, rootName, schemaUri, excludedUnionMembers, markerBases, kindNamespaces,
    kindKeyNamespaces, valueOfName, emptyUnion, maxDepth, indent]

def label : Key → String
  | rootNames => "root_names"
  | rootName => "root_name"
  | schemaUri => "schema_uri"
  | excludedUnionMembers => "excluded_union_members"
  | markerBases => "marker_bases"
  | kindNamespaces => "kind_namespaces"
  | kindKeyNamespaces => "kind_key_namespaces"
  | valueOfName => "value_of_name"
  | emptyUnion => "empty_union"
  | maxDepth => "max_depth"
  | indent => "indent"

def ofText? (t : Text) : Option Key :=
  all.find? fun k => Text.ofString k.label = t

/-- Whether the value of an option lists something. -/
def isListing : Key → Bool
  | rootNames | excludedUnionMembers | markerBases | kindNamespaces | kindKeyNamespaces => true
  | _ => false

end Key

namespace Duty

def all : List Duty :=
  [check, listing]

def label : Duty → String
  | check => "validate"
  | listing => "to_dict"

def ofText? (t : Text) : Option Duty :=
  all.find? fun d => Text.ofString d.label = t

end Duty

/-! ### Values of options -/

def list (ts : List String) : Json :=
  .array (ts.map fun t => .text (.ofString t))

/-- The value of an option that is not set. -/
def default : Key → Json
  | .rootNames => list ["Program", "BaseNode", "BaseToken", "PunctuatorTokenToText"]
  | .rootName => .text (.ofString "Program")
  | .schemaUri => .text (.ofString "http://json-schema.org/schema#")
  | .excludedUnionMembers => list ["RegExp", "RegExpLiteral", "BigIntLiteral"]
  | .markerBases => list ["NodeOrTokenData", "BaseNode", "BaseToken"]
  | .kindNamespaces => list ["AST_NODE_TYPES", "AST_TOKEN_TYPES"]
  | .kindKeyNamespaces => list ["SyntaxKind"]
  | .valueOfName => .text (.ofString "ValueOf")
  | .emptyUnion => .text (.ofString "error")
  | .maxDepth => .integer 200
  | .indent => .integer 2

/-- The options at the start, which have their defaults. -/
def defaults : Options :=
  ⟨fun k => some (default k), []⟩

instance : Inhabited Options :=
  ⟨defaults⟩

/-- The value of an option, which is the default if none is set. -/
def get (o : Options) (key : Key) : Json :=
  (o.own? key).getD (default key)

/-- The value of an option that lists something, which must be set. -/
def listed (o : Options) (key : Key) : Except Fault Json :=
  match o.own? key with
  | some value => .ok value
  | none => .error .unsetOption

def has (o : Options) (key : Key) : Bool :=
  !key.isListing || (o.own? key).isSome

def set (key : Key) (value : Json) (o : Options) : Options :=
  { o with own? := fun k => if k = key then some value else o.own? k }

@[simp] theorem get_set_self (key : Key) (value : Json) (o : Options) :
    (o.set key value).get key = value := by
  simp [set, get]

theorem get_set_of_ne {k key : Key} (h : k ≠ key) (value : Json) (o : Options) :
    (o.set key value).get k = o.get k := by
  simp [set, get, h]

/-- All options as the fields of a JSON object. -/
def fields (o : Options) : List (Text × Json) :=
  Key.all.map fun k => (.ofString k.label, o.get k)

/-! ### Keys of an object of options -/

/-- What a key of an object of options stands for. -/
inductive Slot where
  /-- For an option. -/
  | option (key : Key)
  /-- For what can be done with the options. -/
  | duty (duty : Duty)
  /-- For everything that is set. -/
  | whole
  /-- For the sort of the options, which no value can be. -/
  | sort
  /-- For those who hold the options, who cannot be set. -/
  | holders
deriving DecidableEq

/-- What a text stands for as a key of an object of options, if it stands for anything. -/
def Slot.ofText? (t : Text) : Option Slot :=
  if t = .ofString "__dict__" then some whole
  else if t = .ofString "__class__" then some sort
  else if t = .ofString "__weakref__" then some holders
  else
    match Key.ofText? t, Duty.ofText? t with
    | some key, _ => some (option key)
    | none, some d => some (duty d)
    | none, none => none

/-- The options of which only those are set that fields name. -/
def ofWhole (fields : List (Text × Json)) : Options where
  own? key := Entries.get? (.ofString key.label) fields
  displaced := Duty.all.filter fun d => (Entries.get? (.ofString d.label) fields).isSome

/-- Puts a value into a slot. -/
def put (o : Options) : Slot → Json → Except Fault Options
  | .option key, value => .ok (o.set key value)
  | .duty d, _ => .ok { o with displaced := d :: o.displaced }
  | .whole, .object fields => .ok (ofWhole fields)
  | .whole, _ => .error .mistypedOption
  | .sort, _ => .error .mistypedOption
  | .holders, _ => .error .fixedOption

/-- Puts the value of a field into the slot that its key stands for, if there is one. -/
def putField (o : Options) (field : Text × Json) : Except Fault Options :=
  match Slot.ofText? field.1 with
  | some slot => o.put slot field.2
  | none => .ok o

/-- Puts the values of fields into their slots, in order. -/
def putFields (fields : List (Text × Json)) (o : Options) : Except Fault Options :=
  fields.foldlM putField o

/-- Puts the value of a field into its slot, unless it is for an option of which there is no
value. -/
def renew (o : Options) (field : Text × Json) : Except Fault Options :=
  match Slot.ofText? field.1 with
  | some (.option key) => .ok (if o.has key then o.set key field.2 else o)
  | _ => o.putField field

/-! ### Reading options -/

/-- What becomes of a union of which every member is excluded. -/
inductive UnionPolicy where
  /-- It is a fault. -/
  | refuse
  /-- It stands for any value. -/
  | anything
  /-- It stands for no value. -/
  | nothing
deriving DecidableEq

/-- The policy that the options name. -/
def unionPolicy? (o : Options) : Option UnionPolicy :=
  match o.get .emptyUnion with
  | .text t =>
    if t = .ofString "error" then some .refuse
    else if t = .ofString "any" then some .anything
    else if t = .ofString "empty" then some .nothing
    else none
  | _ => none

/-- The options must name a policy. The check cannot be carried out if a value is in its place. -/
def check (o : Options) : Except Fault Unit :=
  if .check ∈ o.displaced then .error .mistypedOption
  else
    match o.unionPolicy? with
    | some _ => .ok ()
    | none => .error (.unknownPolicy (o.get .emptyUnion).quoted)

/-- The options that a JSON object sets. A field whose key stands for nothing is ignored. -/
def ofObject : Json → Except Fault Options
  | .object fields => do
    let o ← fields.foldlM renew defaults
    o.check
    return o
  | _ => .error .optionsNoObject

/-- The options that a JSON object sets, where every field must be an option. -/
def ofFields : Json → Except Fault Options
  | .object fields =>
    if fields.all fun field => (Key.ofText? field.1).isSome then do
      let o ← defaults.putFields fields
      o.check
      return o
    else .error .mistypedOption
  | _ => .error .mistypedOption

/-- All options as a JSON object. They cannot be listed if a value is in the place of the listing or
if one of them is unset. -/
def listing (o : Options) : Except Fault Json :=
  if .listing ∈ o.displaced then .error .mistypedOption
  else if Key.all.all o.has then .ok (.object o.fields)
  else .error .unsetOption

/-! ### Using options -/

/-- The items that an option lists: of a text its characters, of an object its keys. -/
def items : Json → Except Fault (List Json)
  | .text t => .ok (t.map fun p => .text [p])
  | .array items => .ok items
  | .object fields => .ok (fields.map fun f => .text f.1)
  | _ => .error .mistypedOption

/-- The texts in the set that an option lists; lists and objects are no members of a set. -/
def textSet (v : Json) : Except Fault (List Text) := do
  let members ← items v
  if members.all fun m => (Name.ofJson? m).isSome then
    return members.filterMap fun
      | .text t => some t
      | _ => none
  else .error .mistypedOption

/-- Whether a text is in a collection: a part of a text, an item of a list or a key of an object. -/
def contains (t : Text) : Json → Except Fault Bool
  | .text whole => .ok (t.occursIn whole)
  | .array items => .ok (items.any (Json.same (.text t)))
  | .object fields => .ok (fields.any fun f => f.1 = t)
  | _ => .error .mistypedOption

/-- The values to start from: the root first, unless it is among the others. -/
def seeds (o : Options) : Except Fault (List Json) := do
  let names ← items (← o.listed .rootNames)
  let root := o.get .rootName
  -- Values are compared and not yet taken for names: a list may be among them.
  return if names.any (Json.same root) then names else root :: names

/-- The texts of the union members that are left out. -/
def excludedTexts (o : Options) : Except Fault (List Text) := do
  textSet (← o.listed .excludedUnionMembers)

/-- The texts of the bases that are not part of the result. -/
def markerTexts (o : Options) : Except Fault (List Text) := do
  textSet (← o.listed .markerBases)

/-- Whether the members of a namespace are kind constants. -/
def isKindScope (o : Options) (scope : Text) : Except Fault Bool := do
  contains scope (← o.listed .kindNamespaces)

/-- Whether the members of a namespace may be keys of properties. -/
def isKeyScope (o : Options) (scope : Text) : Except Fault Bool := do
  contains scope (← o.listed .kindKeyNamespaces)

/-- Whether a name is that of the form that collects values. -/
def isValueOf (o : Options) (name : Text) : Bool :=
  (o.get .valueOfName).same (.text name)

def exceeds (o : Options) (depth : Int) : Except Fault Bool :=
  match o.get .maxDepth with
  | .integer n => .ok (n < depth)
  | .truth b => .ok (Json.ofTruth b < depth)
  | .real x => .ok (x.ltInt depth)
  | _ => .error .mistypedOption

/-- The unit of indentation that a number of blanks gives. The number must fit into 64 bits, and the
blanks must fit into memory. -/
def blanks (n : Int) : Except Fault (Option Text) :=
  if n < -0x8000000000000000 || 0x8000000000000000 ≤ n then .error .oversizedOption
  else if 0x100000000 ≤ n then .error .vastOption
  else .ok (some (.ofChars (List.replicate n.toNat ' ')))

/-- The unit of indentation, if lines are indented. -/
def indentation (o : Options) : Except Fault (Option Text) :=
  match o.get .indent with
  | .null => .ok none
  | .integer n => blanks n
  | .truth b => blanks (Json.ofTruth b)
  | .text t => .ok (some t)
  | _ => .error .mistypedOption

end Options

end DeclSchema
