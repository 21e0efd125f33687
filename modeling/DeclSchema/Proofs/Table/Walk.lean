import DeclSchema.Proofs.FirstOccurrence
import DeclSchema.Proofs.Table.Lookup
import Mathlib.Data.List.Perm.Subperm
import Mathlib.Logic.Relation

/-!
# The walk over the bases of an interface

The values of an interface are collected on a walk over everything that it extends. The walk enters
an interface at the first mention and passes over it ever after, wherever in the graph of `extends`
clauses it comes across it: at a second path to a common base, or at the end of a cycle. So each
interface that can be reached is entered exactly once.

That nothing is missed is seen from the agenda. When an interface is entered, all its bases come on
the agenda, and what is on the agenda is visited sooner or later; it does not matter which of several
interfaces with a common base brings it on.

## Main definitions

* `Table.Extends`, `Table.Reaches`: the graph of the interfaces of a table
* `Table.Walks`: the walk, with the interfaces that it enters and the values that it emits

## Main results

* `Table.exists_walks`, `Table.Walks.unique`: there is one walk, and it emits what is collected
* `Table.mem_valuesOf_iff_reaches`: the interfaces that are reached are entered once each, and their
  values are the values of the interface that the walk starts at
-/

namespace DeclSchema.Table

variable {t : Table} {visited : List Text} {agenda : List Errand} {names : List Text}
  {values : List LiteralValue}

/-! ### The graph of interfaces -/

/-- The bases and the members of the interface of a name. -/
def interface? (t : Table) (name : Text) : Option (List Heritage × List Member) :=
  match t.get? name with
  | some (.interface _ _ _ heritage members) => some (heritage, members)
  | _ => none

/-- A name is that of a declared interface. -/
def IsInterface (t : Table) (name : Text) : Prop :=
  (t.interface? name).isSome

instance (t : Table) (name : Text) : Decidable (t.IsInterface name) :=
  inferInstanceAs (Decidable ((t.interface? name).isSome = true))

/-- The string values of the properties of an interface itself. -/
def ownValues (t : Table) (name : Text) : List LiteralValue :=
  match t.interface? name with
  | some (_, members) => members.filterMap memberValue?
  | none => []

/-- An interface has another one among its bases. -/
def Extends (t : Table) (name base : Text) : Prop :=
  ∃ heritage members, t.interface? name = some (heritage, members) ∧
    base ∈ heritage.map Heritage.name ∧ t.IsInterface base

/-- An interface is another one, or a base of a base, and so on. -/
def Reaches (t : Table) : Text → Text → Prop :=
  Relation.ReflTransGen t.Extends

theorem interface?_eq_some_iff {name : Text} {heritage : List Heritage} {members : List Member} :
    t.interface? name = some (heritage, members) ↔
      ∃ n text parameters, t.get? name = some (.interface n text parameters heritage members) := by
  unfold interface?
  split
  · next hget => simp [hget]
  · next hne => simpa using fun n text parameters hget => hne n text parameters _ _ hget

theorem isInterface_iff {name : Text} :
    t.IsInterface name ↔ ∃ heritage members, t.interface? name = some (heritage, members) := by
  simp [IsInterface, Option.isSome_iff_exists]

/-- A property of the interface itself has a string literal as its type. -/
def Assigns (t : Table) (name : Text) (value : LiteralValue) : Prop :=
  ∃ heritage members text key raw optional readonly,
    t.interface? name = some (heritage, members) ∧
    .property text key (some (.literal raw (.ofString "string") value)) optional readonly ∈ members

theorem memberValue?_eq_some_iff {member : Member} {value : LiteralValue} :
    memberValue? member = some value ↔
      ∃ text key raw optional readonly, member =
        .property text key (some (.literal raw (.ofString "string") value)) optional readonly := by
  constructor
  · intro h
    unfold memberValue? at h
    split at h
    · split at h
      · next hkind =>
        cases h
        exact ⟨_, _, _, _, _, by rw [hkind]⟩
      · cases h
    · cases h
  · rintro ⟨text, key, raw, optional, readonly, rfl⟩
    rw [memberValue?, if_pos rfl]

theorem mem_ownValues_iff {name : Text} {value : LiteralValue} :
    value ∈ t.ownValues name ↔ t.Assigns name value := by
  unfold ownValues
  constructor
  · intro h
    split at h
    · next heritage members hname =>
      obtain ⟨member, hmember, hvalue⟩ := List.mem_filterMap.1 h
      obtain ⟨text, key, raw, optional, readonly, rfl⟩ := memberValue?_eq_some_iff.1 hvalue
      exact ⟨heritage, members, text, key, raw, optional, readonly, hname, hmember⟩
    · cases h
  · rintro ⟨heritage, members, text, key, raw, optional, readonly, hname, hmember⟩
    rw [hname]
    refine List.mem_filterMap.2 ⟨_, hmember, memberValue?_eq_some_iff.2 ?_⟩
    exact ⟨text, key, raw, optional, readonly, rfl⟩

theorem mem_names_of_isInterface {name : Text} (h : t.IsInterface name) : name ∈ t.names := by
  obtain ⟨heritage, members, hname⟩ := isInterface_iff.1 h
  obtain ⟨n, text, parameters, hget⟩ := interface?_eq_some_iff.1 hname
  exact mem_names_of_get? hget

/-- What an interface reaches are interfaces. -/
theorem Reaches.isInterface {name n : Text} (h : t.Reaches name n) (hi : t.IsInterface name) :
    t.IsInterface n := by
  induction h with
  | refl => exact hi
  | tail _ hextends _ =>
    obtain ⟨-, -, -, -, hbase⟩ := hextends
    exact hbase

/-! ### The walk -/

section Errands

variable {heritage : List Heritage} {members : List Member} {rest : List Errand}

theorem visit_mem_errands_append {m : Text} :
    .visit m ∈ errands heritage members ++ rest ↔
      m ∈ heritage.map Heritage.name ∨ .visit m ∈ rest := by
  simp [errands]

theorem emit_mem_errands_append {own : List LiteralValue} :
    .emit own ∈ errands heritage members ++ rest ↔
      own = members.filterMap memberValue? ∨ .emit own ∈ rest := by
  simp [errands]

end Errands

/-- The walk through an agenda, where some interfaces were visited before. It enters interfaces,
each of which puts its errands in front of the agenda, and emits values. -/
inductive Walks (t : Table) : List Text → List Errand → List Text → List LiteralValue → Prop where
  | done {visited : List Text} : Walks t visited [] [] []
  | emit {visited : List Text} {rest : List Errand} {names : List Text}
      {own values : List LiteralValue} (h : Walks t visited rest names values) :
      Walks t visited (.emit own :: rest) names (own ++ values)
  | enter {visited : List Text} {name : Text} {heritage : List Heritage} {members : List Member}
      {rest : List Errand} {names : List Text} {values : List LiteralValue}
      (hname : t.interface? name = some (heritage, members)) (hnew : name ∉ visited)
      (h : Walks t (name :: visited) (errands heritage members ++ rest) names values) :
      Walks t visited (.visit name :: rest) (name :: names) values
  /-- No interface, or one that was visited before. -/
  | pass {visited : List Text} {name : Text} {rest : List Errand} {names : List Text}
      {values : List LiteralValue} (hold : t.IsInterface name → name ∈ visited)
      (h : Walks t visited rest names values) :
      Walks t visited (.visit name :: rest) names values

/-- What is collected is what a walk emits. -/
theorem exists_walks (t : Table) (visited : List Text) (agenda : List Errand) :
    ∃ names, t.Walks visited agenda names (t.collect visited agenda) := by
  -- One rule for each branch of `collect`, but for the two in which a name is passed over.
  induction visited, agenda using collect.induct t with
  | case1 visited =>
    rw [collect]
    exact ⟨[], .done⟩
  | case2 visited own rest ih =>
    obtain ⟨names, h⟩ := ih
    rw [collect]
    exact ⟨names, .emit h⟩
  | case3 visited name rest n text parameters heritage members hget hv ih =>
    obtain ⟨names, h⟩ := ih
    rw [collect_visit, hget]
    simp only [if_pos hv]
    exact ⟨names, .pass (fun _ => hv) h⟩
  | case4 visited name rest n text parameters heritage members hget hv ih =>
    obtain ⟨names, h⟩ := ih
    rw [collect_visit, hget]
    simp only [if_neg hv]
    exact ⟨name :: names, .enter (interface?_eq_some_iff.2 ⟨n, text, parameters, hget⟩) hv h⟩
  | case5 visited name rest hne ih =>
    obtain ⟨names, h⟩ := ih
    rw [collect_visit]
    split
    · next hget => exact absurd hget (hne _ _ _ _ _)
    · refine ⟨names, .pass (fun hi => ?_) h⟩
      obtain ⟨heritage, members, hname⟩ := isInterface_iff.1 hi
      obtain ⟨n, text, parameters, hget⟩ := interface?_eq_some_iff.1 hname
      exact absurd hget (hne _ _ _ _ _)

namespace Walks

/-- An agenda is walked through in one way. -/
theorem unique {names' : List Text} {values' : List LiteralValue}
    (h : t.Walks visited agenda names values) (h' : t.Walks visited agenda names' values') :
    names = names' ∧ values = values' := by
  -- The first errand and the visited names decide which rule the second walk starts with.
  induction h generalizing names' values' with
  | done =>
    cases h'
    exact ⟨rfl, rfl⟩
  | emit _ ih =>
    cases h' with
    | emit h' =>
      obtain ⟨rfl, rfl⟩ := ih h'
      exact ⟨rfl, rfl⟩
  | enter hname hnew _ ih =>
    cases h' with
    | enter hname' _ h' =>
      cases hname.symm.trans hname'
      obtain ⟨rfl, rfl⟩ := ih h'
      exact ⟨rfl, rfl⟩
    | pass hold => exact absurd (hold (isInterface_iff.2 ⟨_, _, hname⟩)) hnew
  | pass hold _ ih =>
    cases h' with
    | enter hname hnew => exact absurd (hold (isInterface_iff.2 ⟨_, _, hname⟩)) hnew
    | pass _ h' => exact ih h'

/-! ### What a walk enters -/

/-- A name that is entered is new, and no name is entered twice. -/
theorem nodup (h : t.Walks visited agenda names values) :
    names.Nodup ∧ ∀ n ∈ names, n ∉ visited := by
  induction h with
  | done => exact ⟨List.nodup_nil, nofun⟩
  | emit _ ih => exact ih
  | enter _ hnew _ ih =>
    -- What is entered later is new even when this name is counted as visited.
    obtain ⟨hnodup, hdisjoint⟩ := ih
    refine ⟨List.nodup_cons.2 ⟨fun hn => hdisjoint _ hn List.mem_cons_self, hnodup⟩, ?_⟩
    refine List.forall_mem_cons.2 ⟨hnew, fun n hn hv => ?_⟩
    exact hdisjoint n hn (List.mem_cons_of_mem _ hv)
  | pass _ _ ih => exact ih

/-- What is entered is reached from a visit on the agenda. -/
theorem reaches (h : t.Walks visited agenda names values) :
    ∀ n ∈ names, ∃ m, .visit m ∈ agenda ∧ t.IsInterface m ∧ t.Reaches m n := by
  induction h with
  | done => nofun
  | emit _ ih =>
    intro n hn
    obtain ⟨m, hm, hreaches⟩ := ih n hn
    exact ⟨m, List.mem_cons_of_mem _ hm, hreaches⟩
  | @enter visited name heritage members rest names values hname hnew _ ih =>
    have hi : t.IsInterface name := isInterface_iff.2 ⟨_, _, hname⟩
    refine List.forall_mem_cons.2 ⟨⟨name, List.mem_cons_self, hi, .refl⟩, fun n hn => ?_⟩
    obtain ⟨m, hm, hmi, hreaches⟩ := ih n hn
    rcases visit_mem_errands_append.1 hm with hbase | hm
    · -- It is reached by way of a base of the interface that is entered.
      exact ⟨name, List.mem_cons_self, hi, .head ⟨heritage, members, hname, hbase, hmi⟩ hreaches⟩
    · exact ⟨m, List.mem_cons_of_mem _ hm, hmi, hreaches⟩
  | pass _ _ ih =>
    intro n hn
    obtain ⟨m, hm, hreaches⟩ := ih n hn
    exact ⟨m, List.mem_cons_of_mem _ hm, hreaches⟩

/-- Every interface on the agenda is visited in the end. -/
theorem mem_of_visit (h : t.Walks visited agenda names values) :
    ∀ m, .visit m ∈ agenda → t.IsInterface m → m ∈ visited ∨ m ∈ names := by
  induction h with
  | done => nofun
  | emit _ ih =>
    intro m hm hi
    rcases List.mem_cons.1 hm with hm | hm
    · cases hm
    · exact ih m hm hi
  | enter _ _ _ ih =>
    intro m hm hi
    rcases List.mem_cons.1 hm with hm | hm
    · cases hm
      -- The interface is entered now; those of its bases are on the agenda from here on.
      exact .inr List.mem_cons_self
    · rcases ih m (visit_mem_errands_append.2 (.inr hm)) hi with hv | hn
      · rcases List.mem_cons.1 hv with rfl | hv
        · exact .inr List.mem_cons_self
        · exact .inl hv
      · exact .inr (List.mem_cons_of_mem _ hn)
  | pass hold _ ih =>
    intro m hm hi
    rcases List.mem_cons.1 hm with hm | hm
    · cases hm
      exact .inl (hold hi)
    · exact ih m hm hi

/-- The bases of what is entered are visited in the end. -/
theorem mem_of_extends (h : t.Walks visited agenda names values) :
    ∀ n ∈ names, ∀ m, t.Extends n m → m ∈ visited ∨ m ∈ names := by
  induction h with
  | done => nofun
  | emit _ ih => exact ih
  | @enter visited name heritage members rest names values hname hnew h ih =>
    -- The name that is entered here counts as visited for the rest of the walk.
    have hback : ∀ m, m ∈ name :: visited ∨ m ∈ names → m ∈ visited ∨ m ∈ name :: names := by
      simp only [List.mem_cons]
      rintro m ((rfl | hv) | hn)
      · exact .inr (.inl rfl)
      · exact .inl hv
      · exact .inr (.inr hn)
    refine List.forall_mem_cons.2 ⟨fun m hm => ?_, fun n hn m hm => hback m (ih n hn m hm)⟩
    obtain ⟨heritage', members', hname', hbase, hi⟩ := hm
    cases hname.symm.trans hname'
    exact hback m (h.mem_of_visit m (visit_mem_errands_append.2 (.inl hbase)) hi)
  | pass _ _ ih => exact ih

/-! ### What a walk emits -/

theorem mem_values_iff (h : t.Walks visited agenda names values) {v : LiteralValue} :
    v ∈ values ↔ (∃ own, .emit own ∈ agenda ∧ v ∈ own) ∨ ∃ n ∈ names, v ∈ t.ownValues n := by
  induction h with
  | done => simp
  | emit _ ih => simp [ih, or_assoc]
  | @enter visited name heritage members rest names values hname _ _ ih =>
    have hown : t.ownValues name = members.filterMap memberValue? := by
      rw [ownValues, hname]
    -- The own values of what is entered are emitted by the last of its errands.
    rw [ih]
    simp only [emit_mem_errands_append, List.mem_cons, or_and_right, exists_or, exists_eq_left,
      reduceCtorEq, false_or, ← hown]
    exact or_assoc.trans or_left_comm
  | pass _ _ ih => simp [ih]

end Walks

/-- **Every reachable interface is entered once.** The walk from an interface, whatever its table,
enters exactly the interfaces that are reached along `extends` clauses, each of them once, so it ends
after as many visits as there are declarations at most. The values of the interface have no
repetitions, and they are exactly those that a property of a reachable interface assigns. -/
theorem mem_valuesOf_iff_reaches {name : Text} (h : t.IsInterface name) :
    (∃ names, t.Walks [] [.visit name] names (t.collect [] [.visit name]) ∧
      names.Nodup ∧ (∀ n, n ∈ names ↔ t.Reaches name n) ∧ names.length ≤ t.names.length) ∧
    t.valuesOf? name = .ok (t.valuesOf name) ∧
    (t.valuesOf name).Nodup ∧
    ∀ value, value ∈ t.valuesOf name ↔ ∃ n, t.Reaches name n ∧ t.Assigns n value := by
  obtain ⟨names, hwalk⟩ := t.exists_walks [] [.visit name]
  have hmem : ∀ n, n ∈ names ↔ t.Reaches name n := by
    intro n
    constructor
    · intro hn
      obtain ⟨m, hm, -, hreaches⟩ := hwalk.reaches n hn
      cases List.mem_singleton.1 hm
      exact hreaches
    · -- The names that are entered are closed under `extends` clauses.
      intro hn
      induction hn with
      | refl => exact (hwalk.mem_of_visit name List.mem_cons_self h).resolve_left List.not_mem_nil
      | tail _ hextends ih =>
        exact (hwalk.mem_of_extends _ ih _ hextends).resolve_left List.not_mem_nil
  have hdeclared : names ⊆ t.names := by
    intro n hn
    exact mem_names_of_isInterface (((hmem n).1 hn).isInterface h)
  have hvalues : t.valuesOf? name = .ok (t.valuesOf name) := by
    obtain ⟨heritage, members, hname⟩ := isInterface_iff.1 h
    obtain ⟨n, text, parameters, hget⟩ := interface?_eq_some_iff.1 hname
    rw [valuesOf?, hget]
  refine ⟨⟨names, hwalk, hwalk.nodup.1, hmem, ?_⟩, hvalues, nodup_eraseDups _, fun value => ?_⟩
  · exact (List.subperm_of_subset hwalk.nodup.1 hdeclared).length_le
  · rw [valuesOf, List.mem_eraseDups, hwalk.mem_values_iff]
    simp [hmem, mem_ownValues_iff]

/-- An interface with one property, whose type is a string literal. -/
def sampleInterface (name : String) (bases : List String) (value : String) : Declaration :=
  .interface (.ofString name) [] [] (bases.map fun base => .mk [] (.ofString base) [])
    [.property [] (.plain (.ofString "kind"))
      (some (.literal [] (.ofString "string") (.text (.ofString value)))) false false]

/-- An interface with two bases, which have a base in common that extends itself. One of the two
extends the first interface again. An alias and an undeclared name are among the bases. -/
def cyclicTable : Table :=
  .ofDeclarations
    [sampleInterface "A" ["B", "C", "G"] "a", sampleInterface "B" ["D"] "b",
      sampleInterface "C" ["A", "D", "E"] "b", sampleInterface "D" ["D"] "d",
      .typeAlias (.ofString "E") [] [] none]

/-- The walk comes back to its start and to a common base, and enters four interfaces. -/
theorem mem_valuesOf_cyclicTable :
    cyclicTable.IsInterface (.ofString "A") ∧
    (∃ names, cyclicTable.Walks [] [.visit (.ofString "A")] names
        (cyclicTable.collect [] [.visit (.ofString "A")]) ∧
      names = [.ofString "A", .ofString "B", .ofString "D", .ofString "C"] ∧
      ∀ n, n ∈ names ↔ cyclicTable.Reaches (.ofString "A") n) ∧
    (cyclicTable.valuesOf (.ofString "A")).Nodup ∧
    cyclicTable.valuesOf (.ofString "A") =
      [.text (.ofString "d"), .text (.ofString "b"), .text (.ofString "a")] := by
  have hi : cyclicTable.IsInterface (.ofString "A") := by decide
  have hwalk : cyclicTable.Walks [] [.visit (.ofString "A")]
      [.ofString "A", .ofString "B", .ofString "D", .ofString "C"]
      ([.text (.ofString "d")] ++ ([.text (.ofString "b")] ++ ([.text (.ofString "b")] ++
        ([.text (.ofString "a")] ++ [])))) :=
    .enter rfl (by decide) <| .enter rfl (by decide) <| .enter rfl (by decide) <|
      .pass (by decide) <| .emit <| .emit <| .enter rfl (by decide) <| .pass (by decide) <|
      .pass (by decide) <| .pass (by decide) <| .emit <| .pass (by decide) <| .emit .done
  obtain ⟨⟨names, hall, -, hmem, -⟩, -, hnodup, -⟩ := mem_valuesOf_iff_reaches hi
  obtain ⟨rfl, hvalues⟩ := hall.unique hwalk
  refine ⟨hi, ⟨_, hall, rfl, hmem⟩, hnodup, ?_⟩
  rw [valuesOf, hvalues]
  decide

end DeclSchema.Table
