import DeclSchema.Proofs.Generation.Document
import DeclSchema.Proofs.Options.Seeds
import DeclSchema.Proofs.Schema.Reference
import DeclSchema.Proofs.Worklist.Account
import DeclSchema.Proofs.Worklist.Journal

/-!
# The references of a document

A document holds the definitions that its references ask for. A reference without a definition in
the document is no accident: its name is missing, or it is the raw text of a form without a schema,
which was reported, or it is the root, whose definition is the document itself.

A reference arises while one definition is made and is answered by another one, so three parts of a
run meet here: what a schema refers to was reported, what was reported is requested or stands in the
journal, and what is requested is defined or missing in the end.

## Main definitions

* `Document.names`: the names that a document has definitions of

## Main results

* `references_accounted`: every reference of a document is accounted for
* `root_reference_undefined`: the root has no definition among those of the document
-/

namespace DeclSchema

/-- The names that a document has definitions of. -/
def Document.names (document : Json) : List Text :=
  match document.field? definitionsKey with
  | some (.object definitions) => Entries.keys definitions
  | _ => []

namespace Generation

open Worklist (drafts)

variable {t : Table} {o : Options} {w : Worklist} {doc : Json}

/-! ### References of the definitions -/

/-- A name is defined or missing, or it is the raw text of a form whose warning is in the
journal. -/
def Answered (w : Worklist) (n : Text) : Prop :=
  n ∈ w.definitions.keys ∨ .text n ∈ w.missing ∨ ∃ scope sort, .schemaless scope sort n ∈ w.journal

theorem answered_of_noted {u : Text} {e : Schema.Event} (ha : Worklist.Accounts w [])
    (hs : w.stack = []) (h : Worklist.Noted u w e) : Answered w e.target := by
  cases e with
  | asked name =>
    have hrequested : .text name ∈ w.requested := h
    -- Nothing is pending, and nothing failed.
    rw [ha.mem_requested_iff] at hrequested
    simp only [Worklist.held, Worklist.pending, hs, List.reverse_nil, List.nil_append,
      List.append_nil, List.mem_append, Worklist.text_mem_defined] at hrequested
    rcases hrequested with hk | hm
    · exact Or.inl hk
    · exact Or.inr (Or.inl hm)
  | schemaless sort text => exact Or.inr (Or.inr ⟨u, sort, h⟩)

theorem drafts_ensure_cites (t : Table) (o : Options) (u : Text) (draft : Worklist.Draft)
    (h : drafts t o u = some draft) : draft.Ensures Schema.Cites := by
  obtain ⟨declared, -, rfl⟩ := Option.map_eq_some_iff.1 h
  exact Schema.law_cites.ofDeclaration_ensures _ declared

/-- When all names are treated, every reference of a definition is answered. -/
theorem answered_of_resolve {w₀ : Worklist} (h₀ : Worklist.start o = (w₀, none))
    (h : w₀.resolve t o = (w, none)) {p : Text × Schema} (hp : p ∈ w.definitions) {n : Text}
    (hn : n ∈ p.2.references) : Answered w n := by
  obtain ⟨failure?, hdrains, hnone⟩ := Worklist.resolve_eq_iff_drains.1 h
  obtain rfl := Option.map_eq_none_iff.1 hnone
  have haccounts : Worklist.Accounts w [] := .resolve h₀ h
  obtain ⟨draft, hdraft, hok, hnoted⟩ := records_of_resolve h₀ h p.1 p.2 hp
  -- An event of the draft is about the reference, and what it left behind is still there.
  obtain ⟨e, he, rfl⟩ := List.mem_map.1 (drafts_ensure_cites t o p.1 draft hdraft p.2 hok n hn)
  exact answered_of_noted haccounts hdrains.stack_eq_nil (hnoted e he)

/-! ### References of a document -/

/-- The envelope refers to what its definitions refer to, and to what the value of the option
refers to that stands in it. -/
theorem mem_references_envelope {definitions : Entries Schema} {n : Text} :
    n ∈ Json.referencesOfFields (Document.envelope o (written definitions)) ↔
      n ∈ (o.get .schemaUri).references ∨ ∃ p ∈ definitions, n ∈ p.2.references := by
  have hschema : Json.target? Document.schemaKey (o.get .schemaUri) = none :=
    Json.target?_of_ne (by decide) _
  have hsorted : n ∈ Json.referencesOfFields (written definitions).sorted ↔
      ∃ p ∈ definitions, n ∈ p.2.references := by
    rw [Json.mem_referencesOfFields]
    constructor
    · rintro ⟨q, hq, hn⟩
      obtain ⟨p, hp, rfl⟩ := List.mem_map.1 ((Entries.sorted_perm _).mem_iff.1 hq)
      rcases hn with hn | hn
      · -- The value of the pair is an object, even where a definition is called `$ref`.
        cases hn
      · exact ⟨p, hp, Schema.references_toJson p.2 ▸ hn⟩
    · rintro ⟨p, hp, hn⟩
      have hwritten : (p.1, p.2.toJson) ∈ written definitions := List.mem_map.2 ⟨p, hp, rfl⟩
      refine ⟨(p.1, p.2.toJson), (Entries.sorted_perm _).mem_iff.2 hwritten, Or.inr ?_⟩
      rw [Schema.references_toJson]
      exact hn
  simp only [Document.envelope, Json.referencesOfFields, hschema, Json.target?_object,
    Json.references_object, Option.toList_none, List.nil_append, List.append_nil, List.mem_append,
    hsorted]

/-- A document refers to what the definitions refer to, whether they stand in the envelope or are
that of the root. -/
theorem exists_definition_of_mem_references {root n : Text} {schema : Schema}
    (hroot : w.definitions.get? root = some schema)
    (hn : n ∈ (Json.object
      (Document.envelope o (written (w.definitions.remove root)) ++ schema.fields)).references) :
    n ∈ (o.get .schemaUri).references ∨ ∃ p ∈ w.definitions, n ∈ p.2.references := by
  rw [Json.references_object, Json.referencesOfFields_append, List.mem_append,
    mem_references_envelope, Schema.referencesOfFields_fields] at hn
  rcases hn with (hn | ⟨p, hp, hn⟩) | hn
  · exact Or.inl hn
  · exact Or.inr ⟨p, List.mem_of_mem_filter hp, hn⟩
  · exact Or.inr ⟨_, Entries.mem_of_get? hroot, hn⟩

/-! ### Fields of a document -/

theorem names_document {definitions : Entries Schema} {schema : Schema} :
    Document.names (.object (Document.envelope o (written definitions) ++ schema.fields)) =
      Entries.keys (written definitions).sorted :=
  rfl

theorem mem_keys_sorted {definitions : Entries Schema} {n : Text} :
    n ∈ Entries.keys (written definitions).sorted ↔ n ∈ definitions.keys := by
  rw [Entries.keys, ((Entries.sorted_perm _).map _).mem_iff, written, List.map_map]
  rfl

/-- The fields of the root stand at the top of a document. -/
theorem field?_root {definitions : Entries Schema} {schema : Schema} {field : Text × Json}
    (h : field ∈ schema.fields) :
    Json.field? field.1 (.object (Document.envelope o (written definitions) ++ schema.fields)) =
      some field.2 := by
  obtain ⟨hn, hschema, hdefinitions⟩ := Schema.keyLists_plain _ schema.keys_fields_mem
  have hk : field.1 ∈ Entries.keys schema.fields := List.mem_map.2 ⟨field, h, rfl⟩
  have hget : Entries.get? field.1 schema.fields = some field.2 := Entries.get?_of_mem hn h
  have hs : Document.schemaKey ≠ field.1 := fun he => hschema (he ▸ hk)
  have hd : Document.definitionsKey ≠ field.1 := fun he => hdefinitions (he ▸ hk)
  simp only [Json.field?, Document.envelope, List.cons_append, List.nil_append, Entries.get?,
    if_neg hs, if_neg hd, hget]

/-! ### All references -/

/-- **Every reference is accounted for.** In the document of a run, the root's definition stands at
the top, and whatever is referred to has a definition among those of the document, or is the root,
or is missing, or is the raw text of a form whose warning is in the journal. Beyond these, only the
value of the option for the schema language can refer to anything, if it is no text. -/
theorem references_accounted {source : List Char} (h : (run source o).document = .ok doc) :
    ∃ ds root schema, Declaration.ofSource source = .ok ds ∧ o.get .rootName = .text root ∧
      (drafts (Table.ofDeclarations ds) o root).map (·.outcome) = some (.ok schema) ∧
      (∀ field ∈ schema.fields, doc.field? field.1 = some field.2) ∧
      ∀ n ∈ doc.references,
        n ∈ Document.names doc ∨ n = root ∨ .text n ∈ (run source o).missing ∨
          (∃ scope sort, .schemaless scope sort n ∈ (run source o).journal) ∨
          n ∈ (o.get .schemaUri).references := by
  obtain ⟨ds, hsource, htable, hmissing, hjournal⟩ := run_document_eq_ok h
  obtain ⟨w₀, w, hstart, hresolve, hdoc, hrun⟩ := ofTable_document_eq_ok htable
  rw [hmissing]
  rw [hrun] at hjournal ⊢
  obtain ⟨root, schema, hroot, hget, rfl⟩ := documentOf_eq_ok_iff.1 hdoc
  obtain ⟨draft, hdraft, hok, -⟩ :=
    records_of_resolve hstart hresolve root schema (Entries.mem_of_get? hget)
  refine ⟨ds, root, schema, hsource, hroot, by rw [hdraft, Option.map_some, hok],
    fun field hf => field?_root hf, fun n hn => ?_⟩
  rcases exists_definition_of_mem_references hget hn with hn | ⟨p, hp, hn⟩
  · exact Or.inr (Or.inr (Or.inr (Or.inr hn)))
  · rcases answered_of_resolve hstart hresolve hp hn with hk | hm | ⟨scope, sort, hj⟩
    · -- Of the defined names only the root is not among those of the document.
      by_cases hnr : n = root
      · exact Or.inr (Or.inl hnr)
      · refine Or.inl ?_
        rw [names_document, mem_keys_sorted]
        exact Entries.mem_keys_remove.2 ⟨hk, hnr⟩
    · exact Or.inr (Or.inr (Or.inl hm))
    · exact Or.inr (Or.inr (Or.inr (Or.inl
        ⟨scope, sort, hjournal (List.mem_append_left _ hj)⟩)))

/-- The document behind what is read off the outcome of a run. -/
theorem exists_document {outcome : Except Fault Json} {references names : List Text}
    (h : outcome.toOption.map (fun doc => (doc.references, Document.names doc)) =
      some (references, names)) :
    ∃ doc, outcome = .ok doc ∧ doc.references = references ∧ Document.names doc = names := by
  cases outcome with
  | error fault => cases h
  | ok doc =>
    cases h
    exact ⟨doc, rfl, rfl, rfl⟩

/-- A root that refers to a declared name, a missing name, itself, and a form without a schema. -/
def sampleSource : List Char :=
  "type R=A|G|R|keyof A;type A=R;".toList

theorem references_accounted_sample :
    ∃ doc, (run sampleSource (.rootedAt (.ofString "R"))).document = .ok doc ∧
      doc.references = ["R", "A", "G", "R", "keyof A"].map .ofString ∧
      Document.names doc = [.ofString "A"] ∧
      ∀ n ∈ doc.references,
        n ∈ Document.names doc ∨ n = .ofString "R" ∨
          .text n ∈ (run sampleSource (.rootedAt (.ofString "R"))).missing ∨
          ∃ scope sort, .schemaless scope sort n ∈
            (run sampleSource (.rootedAt (.ofString "R"))).journal := by
  have hread : (run sampleSource (.rootedAt (.ofString "R"))).document.toOption.map
      (fun doc => (doc.references, Document.names doc)) =
        some (["R", "A", "G", "R", "keyof A"].map .ofString, [.ofString "A"]) := by
    decide +kernel
  obtain ⟨doc, hdoc, hreferences, hnames⟩ := exists_document hread
  refine ⟨doc, hdoc, hreferences, hnames, fun n hn => ?_⟩
  obtain ⟨ds, root, schema, -, hroot, -, -, hall⟩ := references_accounted hdoc
  cases hroot
  rcases hall n hn with h | h | h | h | h
  · exact Or.inl h
  · exact Or.inr (Or.inl h)
  · exact Or.inr (Or.inr (Or.inl h))
  · exact Or.inr (Or.inr (Or.inr h))
  · -- The schema language is given as a text by default.
    change n ∈ (Json.text _).references at h
    rw [Json.references_text] at h
    cases h

/-- The root has no definition among those of its document, even where it refers to itself: then its
reference finds no definition, though nothing is missing and no form is without a schema. -/
theorem root_reference_undefined :
    ∃ doc, (run "type R=R[];".toList (.rootedAt (.ofString "R"))).document = .ok doc ∧
      .ofString "R" ∈ doc.references ∧ .ofString "R" ∉ Document.names doc ∧
      .text (.ofString "R") ∉ (run "type R=R[];".toList (.rootedAt (.ofString "R"))).missing ∧
      ∀ scope sort text, .schemaless scope sort text ∉
        (run "type R=R[];".toList (.rootedAt (.ofString "R"))).journal := by
  have hseen :
      (run "type R=R[];".toList (.rootedAt (.ofString "R"))).document.toOption.map
        (fun doc => (doc.references, Document.names doc)) = some ([.ofString "R"], []) ∧
      (run "type R=R[];".toList (.rootedAt (.ofString "R"))).missing = [] ∧
      (run "type R=R[];".toList (.rootedAt (.ofString "R"))).journal.all
        (fun notice => notice.level ≠ .warning) = true := by
    decide +kernel
  -- The run is evaluated once for all that is said about it.
  obtain ⟨hread, hmissing, hjournal⟩ := hseen
  obtain ⟨doc, hdoc, hreferences, hnames⟩ := exists_document hread
  refine ⟨doc, hdoc, ?_, ?_, ?_, fun scope sort text hmem => ?_⟩
  · rw [hreferences]
    exact List.mem_cons_self
  · rw [hnames]
    exact List.not_mem_nil
  · rw [hmissing]
    exact List.not_mem_nil
  · exact absurd (List.all_eq_true.1 hjournal _ hmem) (by simp [Notice.level])

end Generation

end DeclSchema
