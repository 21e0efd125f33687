import DeclSchema.Json
import DeclSchema.Json.Shown

/-!
# Names

A definition is asked for by a name. A name is a text as a rule; since option values are taken as
they are, a constant or a number may stand in its place, and such a name is never declared. Lists
and objects are no names.

## Main definitions

* `Name`: the names
* `Name.ofJson?`, `Name.toJson`: names among JSON values
* `Name.same`: whether two values stand for one name
* `Name.shown`: a name in a message
-/

namespace DeclSchema

/-- A name, or a value in the place of one. -/
inductive Name where
  | text (t : Text)
  | null
  | truth (b : Bool)
  | integer (n : Int)
  | real (x : Binary64)
deriving DecidableEq

namespace Name

instance : Coe Text Name := ⟨text⟩

def toJson : Name → Json
  | text t => .text t
  | null => .null
  | truth b => .truth b
  | integer n => .integer n
  | real x => .real x

/-- The name that a JSON value is, if it is no list and no object. -/
def ofJson? : Json → Option Name
  | .text t => some (text t)
  | .null => some null
  | .truth b => some (truth b)
  | .integer n => some (integer n)
  | .real x => some (real x)
  | .array _ => none
  | .object _ => none

theorem ofJson?_toJson (n : Name) : ofJson? n.toJson = some n := by
  cases n <;> rfl

/-- Whether two values stand for one name: so do equal numbers. -/
def same (m n : Name) : Bool :=
  m.toJson.same n.toJson

theorem same_text {t : Text} {n : Name} : same (text t) n = true ↔ n = text t := by
  cases n with
  | text u => simpa [same, toJson, Json.same] using ⟨Eq.symm, Eq.symm⟩
  | _ => simp [same, toJson, Json.same]

theorem same_self (n : Name) : same n n = true := by
  cases n with
  | real x => cases x <;> simp [same, toJson, Json.same, Binary64.equal]
  | _ => simp [same, toJson, Json.same]

theorem same_comm (m n : Name) : same m n = same n m := by
  cases m <;> cases n <;> simp only [same, toJson, Json.same, Bool.beq_comm]
  -- Only two numbers remain whose equality is not one of values alone.
  case real.real x y => exact Binary64.equal_comm x y

def shown (n : Name) : Text :=
  n.toJson.shown

end Name

end DeclSchema
