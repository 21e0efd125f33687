import DeclSchema.Declaration.OfTree
import DeclSchema.Grammar.Reading

/-!
# Declaration files

The declarations of a declaration file, in the order of the source. Statements that declare neither
an interface nor an enum nor a type alias are read and dropped.
-/

namespace DeclSchema.Declaration

/-- The fault of a source that could be read up to the place where `rest` is left. -/
def invalidAt (source rest : List Char) : Fault :=
  let place := Place.of source rest
  .invalidSource place.line place.column (Place.excerpt source rest)

/-- The declarations of a source. -/
def ofSource (source : List Char) : Except Fault (List Declaration) := do
  match Grammar.read source with
  | .error rest => .error (invalidAt source rest)
  | .ok trees => return (← trees.mapM declarationsOf).flatten

end DeclSchema.Declaration
