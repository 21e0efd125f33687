import DeclSchema.Options

/-!
# Names to start from

The options name a root and a list of further names, and a run starts from all of them. In a list
that names the root too, the root stands where it is; otherwise it comes first.

## Main definitions

* `Options.StartsFrom`: the root and the further names, where all of them are texts
* `Options.startingFrom`: options with other names to start from
* `Options.rootedAt`: the options for a root alone

## Main results

* `Options.StartsFrom.seeds_eq`: the names to start from, in order
-/

namespace DeclSchema.Options

/-- The root and the other names to start from are texts. -/
structure StartsFrom (o : Options) (root : Text) (names : List Text) : Prop where
  root : o.get .rootName = .text root
  names : o.own? .rootNames = some (.array (names.map .text))

theorem StartsFrom.seeds_eq {o : Options} {root : Text} {names : List Text}
    (h : o.StartsFrom root names) :
    o.seeds = .ok ((if root ∈ names then names else root :: names).map .text) := by
  -- Among texts, to be the same value is to be equal.
  have hany : (names.map Json.text).any (Json.same (.text root)) = decide (root ∈ names) := by
    rw [List.any_map, Bool.eq_iff_iff, List.any_eq_true, decide_eq_true_iff]
    simp [Json.same_text_text]
  simp only [seeds, listed, h.names, h.root]
  change Except.ok (if (names.map Json.text).any (Json.same (.text root)) = true then
    names.map Json.text else .text root :: names.map .text) = _
  rw [hany]
  by_cases hr : root ∈ names <;> simp [hr]

/-- The same options with other names to start from besides the root. -/
def startingFrom (names : List Text) (o : Options) : Options :=
  o.set .rootNames (.array (names.map .text))

theorem StartsFrom.startingFrom {o : Options} {root : Text} {names : List Text}
    (h : o.StartsFrom root names) (others : List Text) :
    (o.startingFrom others).StartsFrom root others where
  root := by rw [Options.startingFrom, get_set_of_ne (by decide), h.root]
  names := by simp [Options.startingFrom, set]

/-- The default options, but for a root that is the only name to start from. -/
def rootedAt (root : Text) : Options :=
  (defaults.set .rootName (.text root)).set .rootNames (.array [])

theorem startsFrom_rootedAt (root : Text) : (rootedAt root).StartsFrom root [] where
  root := by rw [rootedAt, get_set_of_ne (by decide), get_set_self]
  names := by simp [rootedAt, set]

end DeclSchema.Options
