import DeclSchema.Proofs.Generation.Document
import DeclSchema.Proofs.Options.Seeds
import DeclSchema.Proofs.Worklist.Account

/-!
# The envelope of a document

A document is assembled from a map of definitions by three operations that could disturb each other:
the root is taken out, the others are sorted, and the fields of the root are put over the envelope.
Together they come to this: the envelope stands first and the root behind it, and nothing depends on
the order in which the definitions were made.

A field of the root would replace a part of the envelope that has its key. Definitions that are made
from declarations have no such field: their own keys are those of the schema language, and all that
a declaration names stands further inside.

## Main definitions

* `Document.Envelops`: the document around the fields of a root

## Main results

* `Document.envelops_putAll`: putting the fields of the root over the envelope
* `Document.fields_toJson_plain`: a definition has no field with a key of the envelope
* `Document.envelope_unharmed`: what assembling gives, for any map and for those of a run
-/

namespace DeclSchema.Document

open Generation (written run)

variable {o : Options} {definitions others fields : Entries Json} {root : Text}

/-- The document of a root with `fields` beside `others`. The two keys of the envelope come first,
and a field of the root keeps its value; what the root does not replace is the address of the schema
language, and the others in strictly ascending order of their names. -/
structure Envelops (o : Options) (others fields document : Entries Json) : Prop where
  keys : document.keys =
    [schemaKey, definitionsKey] ++ fields.keys.filter fun key => key ∉ [schemaKey, definitionsKey]
  root : ∀ key ∈ fields.keys, document.get? key = fields.get? key
  schema : schemaKey ∉ fields.keys → document.get? schemaKey = some (o.get .schemaUri)
  definitions : definitionsKey ∉ fields.keys → ∃ ascending,
    document.get? definitionsKey = some (.object ascending) ∧ ascending.Perm others ∧
      ascending.Pairwise fun p q => p.1.le q.1 = true ∧ p.1 ≠ q.1

theorem envelops_putAll (hn : others.keys.Nodup) (hf : fields.keys.Nodup) :
    Envelops o others fields ((envelope o others).putAll fields) where
  keys := Entries.keys_putAll hf
  root _ hk := Entries.get?_putAll_of_mem hf hk
  schema hk := by
    rw [Entries.get?_putAll_of_notMem hk]
    exact if_pos rfl
  definitions hk := by
    refine ⟨others.sorted, ?_, Entries.sorted_perm _, Entries.pairwise_sorted_of_nodup hn⟩
    have hne : schemaKey ≠ definitionsKey := by decide
    rw [Entries.get?_putAll_of_notMem hk, envelope, Entries.get?, if_neg hne]
    exact if_pos rfl

/-- A map whose root is an object has a document, and the order of the map does not matter. -/
theorem exists_envelops (hroot : o.get .rootName = .text root) (hn : definitions.keys.Nodup)
    (hget : definitions.get? root = some (.object fields)) (hf : fields.keys.Nodup) :
    ∃ document, Envelops o (definitions.remove root) fields document ∧
      ∀ more, definitions.Perm more → assemble o more = .ok document := by
  refine ⟨_, envelops_putAll (Entries.nodup_keys_remove hn root) hf, fun more hp => ?_⟩
  rw [← assemble_eq_of_perm hn hp]
  exact assemble_eq_ok_iff.2 ⟨root, fields, hroot, hget, rfl⟩

/-! ### Definitions that are made from declarations -/

/-- A definition is an object without the keys of the envelope. -/
theorem fields_toJson_plain (s : Schema) :
    ∃ fields : Entries Json, s.toJson = .object fields ∧ fields.keys.Nodup ∧
      schemaKey ∉ fields.keys ∧ definitionsKey ∉ fields.keys :=
  ⟨s.fields, rfl, Schema.keyLists_plain _ s.keys_fields_mem⟩

theorem keys_written (definitions : Entries Schema) :
    Entries.keys (written definitions) = definitions.keys := by
  rw [Entries.keys, written, List.map_map]
  rfl

/-- The document of a run is the envelope around the definitions that the run made, and the root
replaces no part of it. -/
theorem run_envelops {source : List Char} {doc : Json} (h : (run source o).document = .ok doc) :
    ∃ ds w₀ w root schema, ∃ document : Entries Json, Declaration.ofSource source = .ok ds ∧
      Worklist.start o = (w₀, none) ∧ w₀.resolve (.ofDeclarations ds) o = (w, none) ∧
      o.get .rootName = .text root ∧ w.definitions.get? root = some schema ∧
      schemaKey ∉ Entries.keys schema.fields ∧ definitionsKey ∉ Entries.keys schema.fields ∧
      doc = .object document ∧
      Envelops o (written (w.definitions.remove root)) schema.fields document := by
  obtain ⟨ds, hsource, htable, -, -⟩ := Generation.run_document_eq_ok h
  obtain ⟨w₀, w, hstart, hresolve, hdoc, -⟩ := Generation.ofTable_document_eq_ok htable
  obtain ⟨root, schema, hroot, hget, rfl⟩ := Generation.documentOf_eq_ok_iff.1 hdoc
  obtain ⟨hf, hschema, hdefinitions⟩ := Schema.keyLists_plain _ schema.keys_fields_mem
  -- The names of the definitions are distinct, since each was treated once.
  have haccounts : Worklist.Accounts w [] := .resolve hstart hresolve
  have hothers : (Entries.keys (written (w.definitions.remove root))).Nodup := by
    rw [keys_written]
    exact Entries.nodup_keys_remove haccounts.nodup_keys root
  have henvelops := envelops_putAll (o := o) hothers hf
  rw [putAll_envelope] at henvelops
  exact ⟨ds, w₀, w, root, schema, _, hsource, hstart, hresolve, hroot, hget, hschema, hdefinitions,
    rfl, henvelops⟩

/-- **The envelope stands around every document.** Any map whose root is an object has a document,
which is the envelope followed by the root and does not depend on the order of the map. In a map
that a run makes from declarations no definition has a key of the envelope, whatever is declared;
so in the document of a source the root replaces neither the address of the schema language nor the
other definitions. -/
theorem envelope_unharmed (o : Options) :
    (∀ (definitions fields : Entries Json) (root : Text), o.get .rootName = .text root →
      definitions.keys.Nodup → definitions.get? root = some (.object fields) →
      fields.keys.Nodup →
      ∃ document, Envelops o (definitions.remove root) fields document ∧
        ∀ more, definitions.Perm more → assemble o more = .ok document) ∧
    (∀ ds w₀ w, Worklist.resolve (.ofDeclarations ds) o w₀ = (w, none) → ∀ p ∈ w.definitions,
      ∃ fields : Entries Json, p.2.toJson = .object fields ∧ fields.keys.Nodup ∧
        schemaKey ∉ fields.keys ∧ definitionsKey ∉ fields.keys) ∧
    ∀ source doc, (run source o).document = .ok doc →
      ∃ ds w₀ w root schema, ∃ document : Entries Json, Declaration.ofSource source = .ok ds ∧
        Worklist.start o = (w₀, none) ∧ w₀.resolve (.ofDeclarations ds) o = (w, none) ∧
        o.get .rootName = .text root ∧ w.definitions.get? root = some schema ∧
        schemaKey ∉ Entries.keys schema.fields ∧ definitionsKey ∉ Entries.keys schema.fields ∧
        doc = .object document ∧
        Envelops o (written (w.definitions.remove root)) schema.fields document := by
  refine ⟨?_, ?_, ?_⟩
  · intro definitions fields root hroot hn hget hf
    exact exists_envelops hroot hn hget hf
  · intro ds w₀ w _ p _
    exact fields_toJson_plain p.2
  · intro source doc h
    exact run_envelops h

/-- A map whose root has a key of the envelope and one of its own. -/
def sampleMap : Entries Json :=
  [(.ofString "b", .null),
   (.ofString "R", .object [(.ofString "z", .null), (definitionsKey, .truth true)]),
   (.ofString "a", .null)]

/-- An interface whose properties are called like the parts of the envelope. -/
def sampleInterface : List Char :=
  "type B=A;interface R\x7bdefinitions:B;$schema:'definitions'\x7d".toList

/-- A root of a map can replace the other definitions; that of a source cannot, though its
properties have the names. -/
theorem envelope_unharmed_sample :
    (∃ document, assemble (.rootedAt (.ofString "R")) sampleMap.reverse = .ok document ∧
      document.keys = [schemaKey, definitionsKey, .ofString "z"] ∧
      document.get? definitionsKey = some (.truth true)) ∧
    ∃ document ascending : Entries Json,
      (run sampleInterface (.rootedAt (.ofString "R"))).document = .ok (.object document) ∧
      document.get? schemaKey = some (Options.default .schemaUri) ∧
      document.get? definitionsKey = some (.object ascending) := by
  obtain ⟨hmap, -, hrun⟩ := envelope_unharmed (.rootedAt (.ofString "R"))
  refine ⟨?_, ?_⟩
  · obtain ⟨document, henvelops, hassemble⟩ :=
      hmap sampleMap [(.ofString "z", .null), (definitionsKey, .truth true)] (.ofString "R") rfl
        (by decide) rfl (by decide)
    refine ⟨document, hassemble _ (List.reverse_perm _).symm, ?_, ?_⟩
    · rw [henvelops.keys]
      decide
    · rw [henvelops.root definitionsKey (by decide)]
      rfl
  · have hsucceeds : (run sampleInterface (.rootedAt (.ofString "R"))).document.toOption.isSome =
        true := by
      decide +kernel
    cases hdoc : (run sampleInterface (.rootedAt (.ofString "R"))).document with
    | error fault =>
      rw [hdoc] at hsucceeds
      cases hsucceeds
    | ok doc =>
      obtain ⟨_, _, _, _, _, document, -, -, -, -, -, hschema, hdefinitions, rfl, henvelops⟩ :=
        hrun _ doc hdoc
      obtain ⟨ascending, hget, -, -⟩ := henvelops.definitions hdefinitions
      exact ⟨document, ascending, rfl, henvelops.schema hschema, hget⟩

end DeclSchema.Document
