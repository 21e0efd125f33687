import DeclSchema.Binary64
import DeclSchema.Entries

/-!
# JSON values

JSON values with ordered objects. Integers are unbounded, and a number with a fraction or an
exponent is a floating-point number.

## Main definitions

* `Json`: the values
* `Json.same`: equality of values, where a truth value equals the integer one or zero and numbers of
  both kinds are compared exactly
-/

namespace DeclSchema

/-- A JSON value. -/
inductive Json where
  | null
  | truth (b : Bool)
  | integer (n : Int)
  | real (x : Binary64)
  | text (t : Text)
  | array (items : List Json)
  | object (fields : List (Text × Json))
deriving Inhabited

namespace Json

instance : Coe Text Json := ⟨text⟩

/-- The value of a field, if the value is an object that has it. -/
def field? (key : Text) : Json → Option Json
  | object fields => Entries.get? key fields
  | _ => none

/-- The number that a truth value counts as. -/
def ofTruth (b : Bool) : Int :=
  if b then 1 else 0

mutual

/-- Whether two values are equal; the order of fields does not matter. -/
def same : Json → Json → Bool
  | null, null => true
  | truth a, truth b => a == b
  | truth a, integer n => ofTruth a == n
  | truth a, real x => x.eqInt (ofTruth a)
  | integer m, truth b => m == ofTruth b
  | integer m, integer n => m == n
  | integer m, real x => x.eqInt m
  | real x, truth b => x.eqInt (ofTruth b)
  | real x, integer n => x.eqInt n
  | real x, real y => x.equal y
  | text a, text b => a == b
  | array xs, array ys => sameItems xs ys
  | object fs, object gs => fs.length == gs.length && sameFields fs gs
  | _, _ => false

/-- Whether two lists of values are equal item by item. -/
def sameItems : List Json → List Json → Bool
  | [], [] => true
  | x :: xs, y :: ys => same x y && sameItems xs ys
  | _, _ => false

/-- Whether every field has an equal one among `others`. -/
def sameFields : List (Text × Json) → List (Text × Json) → Bool
  | [], _ => true
  | (k, v) :: rest, others =>
    (match Entries.get? k others with
      | some w => same v w
      | none => false) && sameFields rest others

end

theorem same_text_text (a b : Text) : same (text a) (text b) = (a == b) := by
  simp only [same]

end Json

end DeclSchema
