import DeclSchema.Generation
import DeclSchema.Proofs.Entries
import DeclSchema.Proofs.Worklist.Journal

/-!
# The document of a run

A run that succeeds treats all names and then puts its document together. The document exists if and
only if the root has a definition, and then it consists of the envelope around the other definitions
and the fields of the root: no schema has a field that would replace a part of the envelope.

## Main results

* `Schema.keys_fields_mem`: the fields that a schema can have
* `Document.assemble_eq_of_perm`: the order of the definitions does not matter
* `Generation.documentOf_eq_ok_iff`: when there is a document, and what it consists of
* `Generation.ofTable_document_eq_ok`, `Generation.run_document_eq_ok`: the parts of a run that
  succeeds
-/

namespace DeclSchema

namespace Schema

/-- The keys that the fields of a schema can have. -/
def keyLists : List (List Text) :=
  [["$ref"], ["type"], ["type", "enum"], ["type", "items"], ["oneOf"],
    ["type", "properties", "required"], ["allOf"]].map (·.map .ofString)

theorem keys_fields_mem (s : Schema) : Entries.keys s.fields ∈ keyLists := by
  cases s <;> simp [fields, keyLists, Entries.keys]

theorem keyLists_plain :
    ∀ ks ∈ keyLists, ks.Nodup ∧ Document.schemaKey ∉ ks ∧ Document.definitionsKey ∉ ks := by
  decide

end Schema

namespace Document

variable {o : Options}

theorem assemble_eq_ok_iff {definitions document : Entries Json} :
    assemble o definitions = .ok document ↔
      ∃ root fields, o.get .rootName = .text root ∧
        definitions.get? root = some (.object fields) ∧
        document = (envelope o (definitions.remove root)).putAll fields := by
  constructor
  · intro h
    unfold assemble rootName at h
    cases hname : Name.ofJson? (o.get .rootName) with
    | none =>
      rw [hname] at h
      cases h
    | some root =>
      rw [hname] at h
      -- The document exists in one of three cases, and in it the root is a text.
      dsimp only [bind, Except.bind] at h
      split at h
      · next fields hroot =>
        cases h
        unfold definition? at hroot
        split at hroot
        · next name =>
          split at hroot
          · cases hroot
          · refine ⟨name, fields, ?_, hroot, rfl⟩
            unfold Name.ofJson? at hname
            split at hname <;> cases hname
            assumption
        · cases hroot
      · cases h
      · cases h
  · rintro ⟨root, fields, hroot, hget, rfl⟩
    unfold assemble rootName
    rw [hroot]
    dsimp only [Name.ofJson?, bind, Except.bind]
    rw [definition?, hget]
    rfl

/-- The fields of a schema leave an envelope as it is. -/
theorem putAll_envelope (definitions : Entries Json) (s : Schema) :
    (envelope o definitions).putAll s.fields = envelope o definitions ++ s.fields := by
  obtain ⟨hn, hschema, hdefinitions⟩ := Schema.keyLists_plain _ s.keys_fields_mem
  refine Entries.putAll_of_disjoint hn fun key hk hmem => ?_
  -- The envelope has two keys, and a schema has neither of them.
  rcases List.mem_cons.1 hmem with rfl | hmem
  · exact hschema hk
  · rw [List.mem_singleton.1 hmem] at hk
    exact hdefinitions hk

/-! ### The order of the definitions -/

section Order

variable {definitions more : Entries Json} (hn : (Entries.keys definitions).Nodup)
  (hp : definitions.Perm more)

include hn hp

theorem definition?_eq_of_perm (root : Name) :
    definition? definitions root = definition? more root := by
  cases root with
  | text name => rw [definition?, definition?, Entries.get?_eq_of_perm hn hp]
  | _ => rfl

theorem envelope_eq_of_perm : envelope o definitions = envelope o more := by
  rw [envelope, envelope, Entries.sorted_eq_of_perm hn hp]

theorem envelope_others_eq_of_perm (root : Name) :
    envelope o (others root definitions) = envelope o (others root more) := by
  cases root with
  | text name =>
    exact envelope_eq_of_perm (Entries.nodup_keys_remove hn name) (Entries.remove_perm hp name)
  | _ => exact envelope_eq_of_perm hn hp

/-- The order in which the definitions were made does not matter. -/
theorem assemble_eq_of_perm : assemble o definitions = assemble o more := by
  unfold assemble
  simp only [definition?_eq_of_perm hn hp, envelope_others_eq_of_perm hn hp]

end Order

end Document

namespace Generation

variable {o : Options} {w : Worklist} {doc : Json}

/-- Definitions as JSON values. -/
def written (definitions : Entries Schema) : Entries Json :=
  definitions.map fun p => (p.1, p.2.toJson)

theorem documentOf_eq (o : Options) (w : Worklist) :
    documentOf o w = Json.object <$> Document.assemble o (written w.definitions) := by
  change (do return Json.object (← Document.assemble o (written w.definitions))) = _
  cases Document.assemble o (written w.definitions) <;> rfl

/-- Worklists with the same definitions give the same document. -/
theorem documentOf_eq_of_get?_eq {w' : Worklist} (hn : w.definitions.keys.Nodup)
    (hn' : w'.definitions.keys.Nodup) (h : ∀ u, w'.definitions.get? u = w.definitions.get? u) :
    documentOf o w' = documentOf o w := by
  -- The definitions may have been made in another order, but they are the same.
  have hp : w'.definitions.Perm w.definitions := Entries.perm_of_get?_eq hn' hn h
  have hkeys : Entries.keys (written w'.definitions) = w'.definitions.keys := by
    rw [Entries.keys, written, List.map_map]
    rfl
  have hwritten : (written w'.definitions).Perm (written w.definitions) := hp.map _
  rw [documentOf_eq, documentOf_eq, Document.assemble_eq_of_perm (hkeys ▸ hn') hwritten]

/-- There is a document if and only if the root has a definition. It is the envelope around the
other definitions, followed by the fields of the root. -/
theorem documentOf_eq_ok_iff :
    documentOf o w = .ok doc ↔
      ∃ root schema, o.get .rootName = .text root ∧ w.definitions.get? root = some schema ∧
        doc = .object
          (Document.envelope o (written (w.definitions.remove root)) ++ schema.fields) := by
  have hget (root : Text) : (written w.definitions).get? root =
      (w.definitions.get? root).map Schema.toJson := Entries.get?_map _ _ _
  have hothers (root : Text) : (written w.definitions).remove root =
      written (w.definitions.remove root) := Entries.remove_map _ _ _
  -- Definitions are written one by one, so writing them commutes with looking one up and leaving
  -- one out.
  rw [documentOf_eq]
  constructor
  · intro h
    cases ha : Document.assemble o (written w.definitions) with
    | error fault =>
      rw [ha] at h
      cases h
    | ok fields =>
      rw [ha] at h
      cases h
      obtain ⟨root, fields, hname, hfields, rfl⟩ := Document.assemble_eq_ok_iff.1 ha
      rw [hget] at hfields
      obtain ⟨schema, hschema, he⟩ := Option.map_eq_some_iff.1 hfields
      cases he
      exact ⟨root, schema, hname, hschema, by rw [hothers, Document.putAll_envelope]⟩
  · rintro ⟨root, schema, hname, hschema, rfl⟩
    have ha : Document.assemble o (written w.definitions) = .ok _ :=
      Document.assemble_eq_ok_iff.2 ⟨root, schema.fields, hname, by rw [hget, hschema]; rfl, rfl⟩
    rw [ha, hothers, Document.putAll_envelope]
    rfl

section Tables

variable {t : Table} {w₀ : Worklist}

theorem ofTable_of_start (h : Worklist.start o = (w₀, none)) :
    ofTable t o = ofWorklist t o w₀ := by
  simp only [ofTable, h]

theorem ofTable_of_start_fault {fault : Fault} (h : Worklist.start o = (w₀, some fault)) :
    ofTable t o = ⟨w₀.journal, [], .error fault⟩ := by
  simp only [ofTable, h]

theorem ofWorklist_of_resolve (h : w₀.resolve t o = (w, none)) :
    ofWorklist t o w₀ =
      ⟨w.journal ++ [.resolved w.definitions.length w.missing.length], w.missing,
        documentOf o w⟩ := by
  simp only [ofWorklist, h]
  rfl

theorem ofWorklist_of_resolve_fault {fault : Fault} (h : w₀.resolve t o = (w, some fault)) :
    ofWorklist t o w₀ = ⟨w.journal, w.missing, .error fault⟩ := by
  simp only [ofWorklist, h]

/-- When all names are treated, every definition is that of its draft. -/
theorem records_of_resolve (h₀ : Worklist.start o = (w₀, none))
    (h : w₀.resolve t o = (w, none)) : Worklist.Records (Worklist.drafts t o) w := by
  obtain ⟨failure?, hdrains, -⟩ := Worklist.resolve_eq_iff_drains.1 h
  have := Worklist.Records.start (d := Worklist.drafts t o) o
  rw [h₀] at this
  exact this.drains hdrains

/-- A run for a table that succeeds treats all names and then puts its document together. -/
theorem ofTable_document_eq_ok (h : (ofTable t o).document = .ok doc) :
    ∃ w₀ w, Worklist.start o = (w₀, none) ∧ w₀.resolve t o = (w, none) ∧
      documentOf o w = .ok doc ∧ ofTable t o =
        ⟨w.journal ++ [.resolved w.definitions.length w.missing.length], w.missing, .ok doc⟩ := by
  rcases hstart : Worklist.start o with ⟨w₀, _ | fault⟩
  · rw [ofTable_of_start hstart] at h ⊢
    rcases hresolve : w₀.resolve t o with ⟨w, _ | fault⟩
    · rw [ofWorklist_of_resolve hresolve] at h ⊢
      exact ⟨w₀, w, rfl, hresolve, h, by rw [← h]⟩
    · rw [ofWorklist_of_resolve_fault hresolve] at h
      cases h
  · rw [ofTable_of_start_fault hstart] at h
    cases h

end Tables

/-- A run for a source that succeeds is a run for the table of its declarations. -/
theorem run_document_eq_ok {source : List Char} (h : (run source o).document = .ok doc) :
    ∃ ds, Declaration.ofSource source = .ok ds ∧
      (ofTable (Table.ofDeclarations ds) o).document = .ok doc ∧
      (run source o).missing = (ofTable (Table.ofDeclarations ds) o).missing ∧
      (ofTable (Table.ofDeclarations ds) o).journal ⊆ (run source o).journal := by
  unfold run at h ⊢
  cases hs : Declaration.ofSource source with
  | error fault =>
    rw [hs] at h
    cases h
  | ok ds =>
    rw [hs] at h
    exact ⟨ds, rfl, h, rfl, List.subset_cons_self _ _⟩

end Generation

end DeclSchema
