import DeclSchema.Table
import Mathlib.Data.Set.Defs

/-!
# Looking up declarations

A table only depends on the declarations of each name: the last one that defines something counts.
So a list may be reordered as long as the declarations of one name keep their order, and
declarations may be inserted anywhere, and all other names are looked up as before.

What is looked up is looked up by name, and the walk over the bases of an interface only follows
names that stand in `extends` clauses. So two tables that agree on a set of names that is closed
under such clauses give the same values to every interface in it.

## Main definitions

* `Declaration.Reorders`, `Declaration.Inserts`: what may be done with a list of declarations
* `Table.AgreesOn`: tables with the same declarations of given names

## Main results

* `Table.get?_ofDeclarations`: the last defining declaration of a name counts
* `Table.AgreesOn.valuesOf_eq`: the values of an interface depend on the names that it leads to
-/

namespace DeclSchema

namespace Declaration

/-- The declarations of a name in a list, in order. -/
def ofName (name : Text) (ds : List Declaration) : List Declaration :=
  ds.filter fun d => d.name = name

/-- The same declarations in another order, where those of one name keep theirs. -/
structure Reorders (ds ds' : List Declaration) : Prop where
  perm : ds.Perm ds'
  ofName_eq (name : Text) : ofName name ds' = ofName name ds

/-- The same declarations in the same order, with others inserted anywhere. The names of these are
in the set `inserted`. -/
inductive Inserts (inserted : Set Text) : List Declaration → List Declaration → Prop where
  | nil : Inserts inserted [] []
  | keep (d : Declaration) {ds ds' : List Declaration} (h : Inserts inserted ds ds') :
      Inserts inserted (d :: ds) (d :: ds')
  | insert {d : Declaration} (hd : d.name ∈ inserted) {ds ds' : List Declaration}
      (h : Inserts inserted ds ds') : Inserts inserted ds (d :: ds')

theorem ofName_cons_self (d : Declaration) (ds : List Declaration) :
    ofName d.name (d :: ds) = d :: ofName d.name ds :=
  List.filter_cons_of_pos (decide_eq_true rfl)

theorem ofName_cons_of_ne {d : Declaration} {name : Text} (h : d.name ≠ name)
    (ds : List Declaration) : ofName name (d :: ds) = ofName name ds :=
  List.filter_cons_of_neg fun hd => h (of_decide_eq_true hd)

theorem ofName_append (name : Text) (ds es : List Declaration) :
    ofName name (ds ++ es) = ofName name ds ++ ofName name es :=
  List.filter_append _ _

theorem ofName_eq_nil {name : Text} {ds : List Declaration} (h : ∀ d ∈ ds, d.name ≠ name) :
    ofName name ds = [] :=
  List.filter_eq_nil_iff.2 fun d hd he => h d hd (of_decide_eq_true he)

/-- Two parts of a list without a common name may change places. -/
theorem Reorders.swap {ds es : List Declaration} (h : ∀ d ∈ ds, ∀ e ∈ es, d.name ≠ e.name) :
    Reorders (ds ++ es) (es ++ ds) where
  perm := List.perm_append_comm
  ofName_eq name := by
    rw [ofName_append, ofName_append]
    -- Only one of the parts has declarations of the name.
    by_cases hds : ∃ d ∈ ds, d.name = name
    · obtain ⟨d, hd, rfl⟩ := hds
      rw [ofName_eq_nil fun e he => (h d hd e he).symm, List.nil_append, List.append_nil]
    · rw [ofName_eq_nil fun d hd he => hds ⟨d, hd, he⟩, List.nil_append, List.append_nil]

theorem Inserts.refl (inserted : Set Text) (ds : List Declaration) : Inserts inserted ds ds := by
  induction ds with
  | nil => exact .nil
  | cons d rest ih => exact .keep d ih

/-- Inserting declarations changes nothing for a name that none of them has. -/
theorem Inserts.ofName_eq {inserted : Set Text} {ds ds' : List Declaration} {name : Text}
    (h : Inserts inserted ds ds') (hn : name ∉ inserted) : ofName name ds' = ofName name ds := by
  induction h with
  | nil => rfl
  | keep d _ ih =>
    by_cases hd : d.name = name
    · subst hd
      rw [ofName_cons_self, ofName_cons_self, ih]
    · rw [ofName_cons_of_ne hd, ofName_cons_of_ne hd, ih]
  | @insert d hd ds ds' _ ih =>
    have hne : d.name ≠ name := by
      rintro rfl
      exact hn hd
    rw [ofName_cons_of_ne hne, ih]

end Declaration

namespace Table

open Declaration (ofName)

/-! ### Last declarations -/

theorem get?_insert (t : Table) (d : Declaration) (name : Text) :
    (t.insert d).get? name = if d.name = name then some d else t.get? name := by
  split
  · next h =>
    subst h
    exact Entries.get?_put_self _ _ _
  · next h => exact Entries.get?_put_of_ne (Ne.symm h) _ _

theorem get?_foldl_insert (ds : List Declaration) (t : Table) (name : Text) :
    (ds.foldl insert t).get? name = (ofName name ds).getLast?.or (t.get? name) := by
  -- Induction on the declarations; what is inserted later wins over the table so far.
  induction ds generalizing t with
  | nil => rfl
  | cons d rest ih =>
    rw [List.foldl_cons, ih, get?_insert]
    by_cases hd : d.name = name
    · subst hd
      rw [if_pos rfl, Declaration.ofName_cons_self, List.getLast?_cons]
      cases (ofName d.name rest).getLast? <;> rfl
    · rw [if_neg hd, Declaration.ofName_cons_of_ne hd]

/-- The last defining declaration of a name counts. -/
theorem get?_ofDeclarations (ds : List Declaration) (name : Text) :
    (ofDeclarations ds).get? name = ((ofName name ds).filter isDefining).getLast? := by
  rw [ofDeclarations, ofAll, get?_foldl_insert]
  have hcomm : ofName name (ds.filter isDefining) = (ofName name ds).filter isDefining := by
    rw [ofName, ofName, List.filter_filter, List.filter_filter]
    simp only [Bool.and_comm]
  rw [hcomm]
  exact Option.or_none

theorem mem_of_get?_ofDeclarations {ds : List Declaration} {name : Text} {d : Declaration}
    (h : (ofDeclarations ds).get? name = some d) : d ∈ ds := by
  rw [get?_ofDeclarations] at h
  obtain ⟨hd, -⟩ := List.mem_filter.1 (List.mem_of_getLast? h)
  exact (List.mem_filter.1 hd).1

/-! ### Tables that agree -/

/-- Two tables have the same declarations of the names of a set, and what these declarations extend
has its name in the set too. -/
structure AgreesOn (s : Set Text) (t t' : Table) : Prop where
  get?_eq : ∀ n ∈ s, t'.get? n = t.get? n
  bases : ∀ n ∈ s, ∀ name text typeParameters heritage members,
    t.get? n = some (.interface name text typeParameters heritage members) →
      ∀ base ∈ heritage, base.name ∈ s

/-- An agenda only visits interfaces with names of a set. -/
def Errand.VisitsIn (s : Set Text) (agenda : List Errand) : Prop :=
  ∀ n, .visit n ∈ agenda → n ∈ s

theorem Errand.visitsIn_errands {s : Set Text} {heritage : List Heritage} {members : List Member}
    {rest : List Errand} (hb : ∀ base ∈ heritage, base.name ∈ s)
    (hr : Errand.VisitsIn s rest) : Errand.VisitsIn s (errands heritage members ++ rest) := by
  intro n hn
  rcases List.mem_append.1 hn with hn | hn
  · rw [errands, List.mem_append, List.mem_singleton] at hn
    rcases hn with hn | hn
    · obtain ⟨base, hbase, he⟩ := List.mem_map.1 hn
      cases he
      exact hb base hbase
    · cases hn
  · exact hr n hn

variable {s : Set Text} {t t' : Table}

/-- A visit, with the declaration looked up first. -/
theorem collect_visit (t : Table) (visited : List Text) (name : Text) (rest : List Errand) :
    t.collect visited (.visit name :: rest) =
      match t.get? name with
      | some (.interface _ _ _ heritage members) =>
        if name ∈ visited then t.collect visited rest
        else t.collect (name :: visited) (errands heritage members ++ rest)
      | _ => t.collect visited rest := by
  rw [collect]
  split
  · next hget => simp only [hget, dite_eq_ite]
  · next hne =>
    split
    · next hget => exact absurd hget (hne _ _ _ _ _)
    · rfl

/-- The walk looks up nothing but what it visits. -/
theorem AgreesOn.collect_eq (h : AgreesOn s t t') (visited : List Text) (agenda : List Errand)
    (ha : Errand.VisitsIn s agenda) : t'.collect visited agenda = t.collect visited agenda := by
  -- Induction along the walk through `t`; the agenda stays within the set, which is closed.
  induction visited, agenda using collect.induct t with
  | case1 visited => rw [collect, collect]
  | case2 visited values rest ih =>
    rw [collect, collect, ih fun n hn => ha n (List.mem_cons_of_mem _ hn)]
  | case3 visited name rest n text typeParameters heritage members hget hv ih =>
    -- The interface was visited before.
    have hs : name ∈ s := ha name List.mem_cons_self
    rw [collect_visit, collect_visit, h.get?_eq name hs, hget]
    simp only [if_pos hv]
    exact ih fun n hn => ha n (List.mem_cons_of_mem _ hn)
  | case4 visited name rest n text typeParameters heritage members hget hv ih =>
    -- The interface is new, and its bases come on the agenda.
    have hs : name ∈ s := ha name List.mem_cons_self
    rw [collect_visit, collect_visit, h.get?_eq name hs, hget]
    simp only [if_neg hv]
    refine ih (Errand.visitsIn_errands ?_ fun n hn => ha n (List.mem_cons_of_mem _ hn))
    exact h.bases name hs _ _ _ _ _ hget
  | case5 visited name rest hne ih =>
    -- The name is not that of an interface, in neither table.
    have hs : name ∈ s := ha name List.mem_cons_self
    rw [collect_visit, collect_visit, h.get?_eq name hs]
    have hrest := ih fun n hn => ha n (List.mem_cons_of_mem _ hn)
    split
    · next hget => exact absurd hget (hne _ _ _ _ _)
    · exact hrest

theorem AgreesOn.valuesOf_eq (h : AgreesOn s t t') {name : Text} (hn : name ∈ s) :
    t'.valuesOf name = t.valuesOf name := by
  rw [valuesOf, valuesOf, h.collect_eq [] [.visit name]]
  intro n hmem
  -- At the start there is one name to visit.
  cases List.mem_singleton.1 hmem
  exact hn

end Table

end DeclSchema
