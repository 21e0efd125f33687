import DeclSchema.Declaration
import DeclSchema.Entries
import DeclSchema.Fault
import DeclSchema.Remaining

/-!
# Declaration tables

Declarations by name. Of several declarations of one name the last one counts, in the place of the
first one.

The string values of an interface are collected over everything it extends: bases come first, in
the order of their mention, and each interface is visited once. The walk keeps an agenda of what is
to be visited and emitted, and ends because a visited interface is not visited again.

## Main definitions

* `Table`, `Table.get?`, `Table.names`: the tables
* `Table.ofDeclarations`: the table of the interfaces, enums and type aliases of a list
* `Table.valuesOf`: the string values of an interface
-/

namespace DeclSchema

/-- Declarations by name. -/
structure Table where
  entries : Entries Declaration
  /-- Every declaration stands under its own name. -/
  named : ∀ p ∈ entries, p.2.name = p.1

namespace Table

def empty : Table :=
  ⟨[], by simp⟩

/-- Adds a declaration under its name. -/
def insert (t : Table) (d : Declaration) : Table where
  entries := t.entries.put d.name d
  named p hp := by
    rcases Entries.mem_put hp with rfl | hp
    · rfl
    · exact t.named p hp

/-- The table of all declarations of a list. -/
def ofAll (ds : List Declaration) : Table :=
  ds.foldl insert empty

/-- Whether a declaration has a form that a definition can be made of. -/
def isDefining : Declaration → Bool
  | .bare .. => false
  | _ => true

/-- The table of the interfaces, enums and type aliases of a list. -/
def ofDeclarations (ds : List Declaration) : Table :=
  ofAll (ds.filter isDefining)

/-- The declaration of a name. -/
def get? (t : Table) (name : Text) : Option Declaration :=
  Entries.get? name t.entries

/-- The declared names, in order of first appearance. -/
def names (t : Table) : List Text :=
  Entries.keys t.entries

theorem name_of_get? {t : Table} {name : Text} {d : Declaration} (h : t.get? name = some d) :
    d.name = name :=
  t.named _ (Entries.mem_of_get? h)

theorem mem_names_of_get? {t : Table} {name : Text} {d : Declaration} (h : t.get? name = some d) :
    name ∈ t.names :=
  List.mem_map.2 ⟨_, Entries.mem_of_get? h, rfl⟩

/-! ### The string values of an interface -/

/-- The value of a property whose type is a string literal. -/
def memberValue? : Member → Option LiteralValue
  | .property _ _ (some (.literal _ kind value)) _ _ =>
    if kind = .ofString "string" then some value else none
  | _ => none

/-- A step of the walk. -/
inductive Errand where
  | visit (name : Text)
  | emit (values : List LiteralValue)

/-- The errands for an interface: its bases first, then its own values. -/
def errands (heritage : List Heritage) (members : List Member) : List Errand :=
  heritage.map (fun base => .visit base.name) ++ [.emit (members.filterMap memberValue?)]

/-- The number of declared names that are not visited. -/
def unvisited (t : Table) (visited : List Text) : Nat :=
  t.names.countP fun n => n ∉ visited

theorem unvisited_cons_lt {t : Table} {visited : List Text} {name : Text} (h : name ∈ t.names)
    (hv : name ∉ visited) : t.unvisited (name :: visited) < t.unvisited visited := by
  refine countP_lt_countP (fun n _ hn => ?_) h (by simp) (by simp [hv])
  simp_all

/-- The values that the errands of an agenda emit, where visited interfaces are passed over. -/
def collect (t : Table) (visited : List Text) : List Errand → List LiteralValue
  | [] => []
  | .emit values :: rest => values ++ collect t visited rest
  | .visit name :: rest =>
    match _h : t.get? name with
    | some (.interface _ _ _ heritage members) =>
      if _hv : name ∈ visited then collect t visited rest
      else collect t (name :: visited) (errands heritage members ++ rest)
    | _ => collect t visited rest
termination_by agenda => (t.unvisited visited, agenda.length)
-- A visit uses up a declared name; every other step only shortens the agenda.
decreasing_by
  · exact Prod.Lex.right _ (by simp)
  · exact Prod.Lex.right _ (by simp)
  · exact Prod.Lex.left _ _ (unvisited_cons_lt (mem_names_of_get? _h) _hv)
  · exact Prod.Lex.right _ (by simp)

/-- The string values of an interface, each at its first occurrence. -/
def valuesOf (t : Table) (name : Text) : List LiteralValue :=
  (t.collect [] [.visit name]).eraseDups

/-- The string values of a declared interface; nothing else has values. -/
def valuesOf? (t : Table) (name : Text) : Except Fault (List LiteralValue) :=
  match t.get? name with
  | some (.interface ..) => .ok (t.valuesOf name)
  | _ => .error .absentNode

end Table

end DeclSchema
