import DeclSchema.Declaration
import DeclSchema.Json

/-!
# Schemas

The schema fragments that definitions are made of.

## Main definitions

* `Schema`: the fragments
* `Schema.toJson`: a fragment as a JSON value
-/

namespace DeclSchema

/-- A value of a literal type as a JSON value. -/
def LiteralValue.toJson : LiteralValue → Json
  | text t => .text t
  | truth b => .truth b
  | null => .null

/-- A schema fragment. -/
inductive Schema where
  /-- The definition of a name. -/
  | reference (name : Text)
  /-- All values of a type. -/
  | simple (type : Text)
  /-- Some values of a type. -/
  | constants (type : Text) (values : List LiteralValue)
  /-- Arrays of values of one fragment. -/
  | array (items : Schema)
  /-- The values of exactly one of the alternatives. -/
  | oneOf (alternatives : List Schema)
  /-- Objects with given properties. -/
  | object (properties : List (Text × Schema)) (required : List Text)
  /-- The values of all parts. -/
  | allOf (parts : List Schema)
deriving Inhabited

namespace Schema

/-- Where a document holds the definition of a name. -/
def address (name : Text) : Text :=
  .ofString "#/definitions/" ++ name

mutual

/-- A fragment as the fields of a JSON object. -/
def fields : Schema → List (Text × Json)
  | reference name => [(.ofString "$ref", .text (address name))]
  | simple type => [(.ofString "type", .text type)]
  | constants type values =>
    [(.ofString "type", .text type), (.ofString "enum", .array (values.map (·.toJson)))]
  | array items =>
    [(.ofString "type", .text (.ofString "array")), (.ofString "items", .object items.fields)]
  | oneOf alternatives => [(.ofString "oneOf", .array (toJsonList alternatives))]
  | object properties required =>
    [(.ofString "type", .text (.ofString "object")),
      (.ofString "properties", .object (toJsonFields properties)),
      (.ofString "required", .array (required.map .text))]
  | allOf parts => [(.ofString "allOf", .array (toJsonList parts))]

def toJsonList : List Schema → List Json
  | [] => []
  | s :: rest => .object s.fields :: toJsonList rest

/-- Named fragments as the fields of a JSON object. -/
def toJsonFields : List (Text × Schema) → List (Text × Json)
  | [] => []
  | (name, s) :: rest => (name, .object s.fields) :: toJsonFields rest

end

def toJson (s : Schema) : Json :=
  .object s.fields

end Schema

end DeclSchema
