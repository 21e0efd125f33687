import DeclSchema.Declaration.Source
import DeclSchema.Document
import DeclSchema.Json.Writer
import DeclSchema.Worklist

/-!
# Generation

From a declaration source to the text of a schema document: the declarations are read, the
definitions that the options ask for are made, and the document is put together and written.

## Main definitions

* `Generation`: what a run gives, with what it reports
* `Generation.run`: the run for a source
* `Generation.text`: the document as a text
-/

namespace DeclSchema

/-- What a run gives. -/
structure Generation where
  journal : List Notice
  /-- The names that are not declared. -/
  missing : List Name
  /-- The document, or the fault that ended the run. -/
  document : Except Fault Json

namespace Generation

/-- The document of the definitions of a worklist. -/
def documentOf (o : Options) (w : Worklist) : Except Fault Json := do
  let definitions := w.definitions.map fun p => (p.1, p.2.toJson)
  return .object (← Document.assemble o definitions)

/-- The run that starts from a worklist. -/
def ofWorklist (t : Table) (o : Options) (w : Worklist) : Generation :=
  let resolved := w.resolve t o
  let w := resolved.1
  match resolved.2 with
  | some fault => ⟨w.journal, w.missing, .error fault⟩
  | none =>
    let w := w.report (.resolved w.definitions.length w.missing.length)
    ⟨w.journal, w.missing, documentOf o w⟩

/-- The run for a table of declarations. -/
def ofTable (t : Table) (o : Options) : Generation :=
  let started := Worklist.start o
  match started.2 with
  | some fault => ⟨started.1.journal, [], .error fault⟩
  | none => ofWorklist t o started.1

/-- The run for a source. -/
def run (source : List Char) (o : Options) : Generation :=
  match Declaration.ofSource source with
  | .error fault => ⟨[], [], .error fault⟩
  | .ok ds =>
    let t := Table.ofDeclarations ds
    let g := ofTable t o
    { g with journal := .indexed t.names.length :: g.journal }

def text (o : Options) (g : Generation) : Except Fault Text := do
  let document ← g.document
  let unit? ← o.indentation
  return Json.write ⟨false, unit?⟩ document ++ .ofString "\n"

end Generation

end DeclSchema
