import DeclSchema.Proofs.Generation.Document
import DeclSchema.Proofs.Schema.Agreement
import DeclSchema.Proofs.Schema.Mention
import DeclSchema.Proofs.Worklist.Agreement

/-!
# Rearranging the declarations

A document depends neither on the order in which a file declares things nor on the order in which
the options list the names to start from, and declarations that nothing mentions do no harm. What
matters is the order of the declarations of one name, of which the last one counts.

The two runs of such a pair treat their names in unrelated orders. They are compared by what is
needed: both tables agree on the names to start from and on all names that the declarations mention,
and a run never leaves these.

## Main definitions

* `relevant`: the names to start from, and the names that a list of declarations mentions

## Main results

* `agreesOn_relevant`, `agreeOn_relevant`: the tables and the drafts agree on the relevant names
* `ofTable_rearranged`: the document after rearranging
-/

namespace DeclSchema.Generation

open Worklist (drafts Drains Traces)

/-- The names to start from, and the names that the declarations of a list mention. -/
def relevant (o : Options) (seeds : List Text) (ds : List Declaration) : Set Text :=
  {n | n ∈ seeds ∨ n ∈ Declaration.namesIn o ds}

variable {o : Options} {seeds : List Text} {ds ds₁ ds' : List Declaration}

/-! ### What the two runs have in common -/

theorem within_relevant {d : Declaration} (hd : d ∈ ds) :
    Mention.Within o (relevant o seeds ds) d.mentions := by
  intro m hm n hn
  exact Or.inr (List.mem_flatMap.2 ⟨d, hd, List.mem_flatMap.2 ⟨m, hm, hn⟩⟩)

theorem ofName_eq_of_rearranged (hr : Declaration.Reorders ds ds₁)
    (hi : Declaration.Inserts {n | n ∉ relevant o seeds ds} ds₁ ds') {n : Text}
    (hn : n ∈ relevant o seeds ds) : Declaration.ofName n ds' = Declaration.ofName n ds := by
  rw [hi.ofName_eq (fun h => h hn), hr.ofName_eq]

/-- The tables agree on the relevant names. -/
theorem agreesOn_relevant (hr : Declaration.Reorders ds ds₁)
    (hi : Declaration.Inserts {n | n ∉ relevant o seeds ds} ds₁ ds') :
    (Table.ofDeclarations ds).AgreesOn (relevant o seeds ds) (Table.ofDeclarations ds') where
  get?_eq n hn := by
    rw [Table.get?_ofDeclarations, Table.get?_ofDeclarations, ofName_eq_of_rearranged hr hi hn]
  bases n _ name text typeParameters heritage members hget base hb := by
    have hwithin : Mention.Within o (relevant o seeds ds) _ :=
      within_relevant (Table.mem_of_get?_ofDeclarations hget)
    rw [Declaration.mentions] at hwithin
    exact hwithin.left.base_name_mem hb

/-- So do the drafts, and they ask for relevant names only. -/
theorem agreeOn_relevant (hr : Declaration.Reorders ds ds₁)
    (hi : Declaration.Inserts {n | n ∉ relevant o seeds ds} ds₁ ds') (v : Json) :
    (drafts (Table.ofDeclarations ds) o).AgreeOn
      (drafts (Table.ofDeclarations ds') (o.set .rootNames v)) seeds (relevant o seeds ds) where
  closed := by
    refine ⟨fun n hn => Or.inl hn, fun n _ m hm => ?_⟩
    -- What a draft asks for is mentioned in its declaration, and this is one of the list.
    cases hget : (Table.ofDeclarations ds).get? n with
    | none =>
      rw [Worklist.refs_of_eq_none (by rw [drafts, hget]; rfl)] at hm
      cases hm
    | some declared =>
      rw [Worklist.refs_of_eq_some (Worklist.drafts_of_get? hget), Worklist.mem_askedNames] at hm
      have hwithin : Mention.Within o (relevant o seeds ds) declared.mentions :=
        within_relevant (Table.mem_of_get?_ofDeclarations hget)
      have hasks := Schema.ofDeclaration_asks (s := relevant o seeds ds)
        ⟨Table.ofDeclarations ds, o, n⟩ fun m hm => hwithin m hm _ (m.name_mem_names o)
      exact hasks _ hm
  eq n hn := by
    have hagree := agreesOn_relevant hr hi
    rw [drafts, drafts, hagree.get?_eq n hn]
    cases hget : (Table.ofDeclarations ds).get? n with
    | none => rfl
    | some declared =>
      rw [Option.map_some, Option.map_some, Option.some_inj]
      rw [Options.set_rootNames_eq]
      exact Schema.ofDeclaration_eq o _ _ n hagree
        (within_relevant (Table.mem_of_get?_ofDeclarations hget))

/-! ### The two documents -/

variable {root : Text} {names names' : List Text}

/-- A run for options that pass the check treats all names from the start on. -/
theorem ofTable_of_check (t : Table) (ho : o.StartsFrom root names) (hc : o.check = .ok ()) :
    ∃ w₀ w failure?, Traces (drafts t o) (root :: names) w₀ [] ∧
      Drains (drafts t o) w₀ w failure? ∧ (ofTable t o).missing = w.missing ∧
      (ofTable t o).document =
        match failure? with
        | none => documentOf o w
        | some failure => .error failure.2 := by
  have hfault := Worklist.start_snd_eq ho
  rw [hc] at hfault
  obtain ⟨failure?, hdrains, hresolve⟩ :=
    Worklist.drains_resolve t o (Worklist.start o).1
  -- A start without a fault is followed by a run that treats what is pending.
  have hstart : Worklist.start o = ((Worklist.start o).1, none) := Prod.ext rfl hfault
  refine ⟨_, _, failure?, .start ho hstart, hdrains, ?_⟩
  rw [ofTable_of_start hstart]
  cases failure? with
  | none =>
    rw [ofWorklist_of_resolve (Prod.ext rfl hresolve.symm)]
    exact ⟨rfl, rfl⟩
  | some failure =>
    rw [ofWorklist_of_resolve_fault (Prod.ext rfl hresolve.symm)]
    exact ⟨rfl, rfl⟩

theorem ofTable_of_check_fault (t : Table) {fault : Fault} (ho : o.StartsFrom root names)
    (hc : o.check = .error fault) : (ofTable t o).document = .error fault := by
  have hfault := Worklist.start_snd_eq ho
  rw [hc] at hfault
  rw [ofTable_of_start_fault (Prod.ext rfl hfault)]

/-- **Rearranging the declarations does not change the document.** Where the declarations are
reordered, with those of one name in their order, and others are inserted that are neither started
from nor mentioned, and where the names to start from are given in another order or repeated, both
runs fail, or both give the same document and the same missing names. -/
theorem ofTable_rearranged (ho : o.StartsFrom root names)
    (hnames : ∀ n, n ∈ root :: names' ↔ n ∈ root :: names) (hr : Declaration.Reorders ds ds₁)
    (hi : Declaration.Inserts {n | n ∉ relevant o (root :: names) ds} ds₁ ds') :
    (∃ fault fault', (ofTable (.ofDeclarations ds) o).document = .error fault ∧
      (ofTable (.ofDeclarations ds') (o.startingFrom names')).document = .error fault') ∨
    ∃ doc, (ofTable (.ofDeclarations ds) o).document = .ok doc ∧
      (ofTable (.ofDeclarations ds') (o.startingFrom names')).document = .ok doc ∧
      ∀ n, n ∈ (ofTable (.ofDeclarations ds') (o.startingFrom names')).missing ↔
        n ∈ (ofTable (.ofDeclarations ds) o).missing := by
  have ho' : (o.startingFrom names').StartsFrom root names' := ho.startingFrom names'
  -- The check of the options does not look at the names to start from.
  have hcheck : (o.startingFrom names').check = o.check := rfl
  cases hc : o.check with
  | error fault =>
    exact Or.inl ⟨fault, fault, ofTable_of_check_fault _ ho hc,
      ofTable_of_check_fault _ ho' (hcheck.trans hc)⟩
  | ok _ =>
    obtain ⟨w₀, w, failure?, h₀, hdrains, hmissing, hdoc⟩ :=
      ofTable_of_check (.ofDeclarations ds) ho hc
    obtain ⟨w₀', w', failure?', h₀', hdrains', hmissing', hdoc'⟩ :=
      ofTable_of_check (.ofDeclarations ds') ho' (hcheck.trans hc)
    have hagree := agreeOn_relevant hr hi (.array (names'.map .text))
    -- Of the four cases, one run fails and the other one does not in two, which cannot be.
    have hfails := hagree.fails_iff hnames h₀ h₀' hdrains hdrains'
    cases failure? with
    | some failure =>
      cases failure?' with
      | some failure' => exact Or.inl ⟨_, _, hdoc, hdoc'⟩
      | none => exact absurd rfl (hfails.2 nofun)
    | none =>
      cases failure?' with
      | some failure' => exact absurd rfl (hfails.1 nofun)
      | none =>
        have hw := h₀.drains hdrains
        have hw' := h₀'.drains hdrains'
        have hstack := hdrains.stack_eq_nil
        have hstack' := hdrains'.stack_eq_nil
        -- Both runs make the same definitions, and the document reads no names to start from.
        have hsame : documentOf (o.startingFrom names') w' = documentOf o w :=
          documentOf_eq_of_get?_eq hw.accounts.nodup_keys hw'.accounts.nodup_keys
            (hagree.get?_eq hnames hw hstack hw' hstack')
        rw [hdoc, hdoc', hmissing, hmissing', hsame]
        cases documentOf o w with
        | error fault => exact Or.inl ⟨fault, fault, rfl, rfl⟩
        | ok doc =>
          exact Or.inr ⟨doc, rfl, rfl, hagree.mem_missing_iff hnames hw hstack hw' hstack'⟩

/-- Interfaces that the string values of the root's property are collected from. -/
def sampleBases : List Declaration :=
  [.interface (.ofString "T") [] [] [.mk [] (.ofString "B") []]
    [.property [] (.plain (.ofString "t")) (some (.literal [] (.ofString "string")
      (.text (.ofString "t")))) false false],
   .interface (.ofString "B") [] [] []
    [.property [] (.plain (.ofString "b")) (some (.literal [] (.ofString "string")
      (.text (.ofString "b")))) false false]]

/-- A root that refers to an alias, which is declared twice, and collects string values. -/
def sampleRoot : List Declaration :=
  [.interface (.ofString "R") [] [] []
    [.property [] (.plain (.ofString "v")) (some (.reference [] (.ofString "ValueOf")
      [.reference (.ofString "T") (.ofString "T") []])) false false,
     .property [] (.plain (.ofString "a")) (some (.reference [] (.ofString "A") [])) false false],
   .typeAlias (.ofString "A") [] [] (some (.reference [] (.ofString "Old") [])),
   .typeAlias (.ofString "A") [] [] (some (.array [] (some (.reference [] (.ofString "G") []))))]

/-- A declaration that nothing mentions. -/
def sampleStray : Declaration :=
  .enumeration (.ofString "X") [] [.ofString "Y"]

theorem sampleStray_irrelevant :
    sampleStray.name ∈ {n | n ∉ relevant (.rootedAt (.ofString "R")) [.ofString "R"]
      (sampleRoot ++ sampleBases)} := by
  rintro (h | h)
  · revert h
    decide
  · revert h
    decide +kernel

/-- The bases come first, a stray declaration stands before both parts, and the root is named
twice. -/
theorem ofTable_rearranged_sample :
    ∃ doc, (ofTable (.ofDeclarations (sampleRoot ++ sampleBases))
        (.rootedAt (.ofString "R"))).document = .ok doc ∧
      (ofTable (.ofDeclarations (sampleStray :: sampleBases ++ sampleStray :: sampleRoot))
        ((Options.rootedAt (.ofString "R")).startingFrom
          [.ofString "R", .ofString "R"])).document = .ok doc ∧
      .text (.ofString "G") ∈
        (ofTable (.ofDeclarations (sampleStray :: sampleBases ++ sampleStray :: sampleRoot))
          ((Options.rootedAt (.ofString "R")).startingFrom
            [.ofString "R", .ofString "R"])).missing := by
  have hr : Declaration.Reorders (sampleRoot ++ sampleBases) (sampleBases ++ sampleRoot) :=
    .swap (by decide)
  have hi : Declaration.Inserts
      {n | n ∉ relevant (.rootedAt (.ofString "R")) [.ofString "R"] (sampleRoot ++ sampleBases)}
      (sampleBases ++ sampleRoot) (sampleStray :: sampleBases ++ sampleStray :: sampleRoot) :=
    .insert sampleStray_irrelevant (.keep _ (.keep _ (.insert sampleStray_irrelevant (.refl _ _))))
  have hnames : ∀ n : Text, n ∈ .ofString "R" :: [.ofString "R", .ofString "R"] ↔
      n ∈ .ofString "R" :: [] := by
    simp
  have hsucceeds : (ofTable (.ofDeclarations (sampleRoot ++ sampleBases))
      (.rootedAt (.ofString "R"))).document.toOption.isSome = true := by
    decide +kernel
  rcases ofTable_rearranged (Options.startsFrom_rootedAt _) hnames hr hi with
    ⟨fault, _, hfault, -⟩ | ⟨doc, hdoc, hdoc', hmissing⟩
  · rw [hfault] at hsucceeds
    cases hsucceeds
  · exact ⟨doc, hdoc, hdoc', (hmissing _).2 (by decide +kernel)⟩

end DeclSchema.Generation
