import DeclSchema.Options

/-!
# Documents

A schema document is an envelope around the definitions: the address of the schema language, the
definitions in ascending order of their names, and the fields of the root definition, which is taken
out of the others. A field of the root replaces a part of the envelope that has the same key.

## Main definitions

* `Document.envelope`: the two fields of the envelope
* `Document.assemble`: the document of a map of definitions
-/

namespace DeclSchema.Document

def schemaKey : Text :=
  .ofString "$schema"

def definitionsKey : Text :=
  .ofString "definitions"

/-- The name of the root, which must be one. -/
def rootName (o : Options) : Except Fault Name :=
  match Name.ofJson? (o.get .rootName) with
  | some name => .ok name
  | none => .error .mistypedOption

/-- The definition of a name; only a text has one, and `null` is none. -/
def definition? (definitions : Entries Json) : Name → Option Json
  | .text name =>
    match definitions.get? name with
    | some .null => none
    | found => found
  | _ => none

/-- All definitions but that of the root. -/
def others (root : Name) (definitions : Entries Json) : Entries Json :=
  match root with
  | .text name => definitions.remove name
  | _ => definitions

/-- The fields of the envelope around definitions. -/
def envelope (o : Options) (definitions : Entries Json) : Entries Json :=
  [(schemaKey, o.get .schemaUri), (definitionsKey, .object definitions.sorted)]

/-- The fields of the document of a map of definitions. -/
def assemble (o : Options) (definitions : Entries Json) : Except Fault (Entries Json) := do
  let root ← rootName o
  match definition? definitions root with
  | some (.object fields) =>
    return (envelope o (others root definitions)).putAll fields
  | some _ => .error .rootNoObject
  | none => .error (.missingRoot root)

end DeclSchema.Document
