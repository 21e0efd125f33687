import DeclSchema.Proofs.Generation.Document
import DeclSchema.Proofs.Json.RoundTrip
import DeclSchema.Proofs.Schema.Agreement
import DeclSchema.Proofs.Schema.Law
import DeclSchema.Proofs.Schema.Validation
import DeclSchema.Proofs.Worklist.Account
import DeclSchema.Storage.Publishing

/-!
# The text of a document

The text of a generated document is read back as this document, and passes the examination before it
is published. Whether a JSON value survives its text depends on what is in it: a document has no
numbers, and no two fields of one key in any of its objects. The indentation only adds blanks, and
nothing but the text depends on it, so all texts of a document are read alike.

## Main definitions

* `Json.IsIndent`: the values of the option for the indentation that only add blanks

## Main results

* `Schema.law_isPlain`: a schema that is made is a JSON value without numbers, with distinct keys
* `Generation.isPlain_document`: so is a document
* `Generation.run_set_indent`: a run does not depend on the indentation
* `Generation.text_reads_back`: the text of a document is read as the document
-/

namespace DeclSchema

/-! ### Plain schemas -/

namespace Schema

theorem isPlain_toJson {s : Schema} (h : ∀ field ∈ s.fields, field.2.IsPlain) :
    s.toJson.IsPlain := by
  rw [toJson, Json.IsPlain, Json.arePlainFields_iff]
  exact ⟨(keyLists_plain _ s.keys_fields_mem).1, h⟩

theorem isPlain_text (t : Text) : (Json.text t).IsPlain := by
  rw [Json.IsPlain]
  trivial

theorem isPlain_texts (ts : List Text) : (Json.array (ts.map .text)).IsPlain := by
  rw [Json.IsPlain, Json.arePlain_iff]
  intro v hv
  obtain ⟨t, -, rfl⟩ := List.mem_map.1 hv
  rw [Json.IsPlain]
  trivial

theorem isPlain_toJsonList {schemas : List Schema} (h : ∀ s ∈ schemas, s.toJson.IsPlain) :
    (Json.array (toJsonList schemas)).IsPlain := by
  rw [toJsonList_eq, Json.IsPlain, Json.arePlain_iff]
  intro v hv
  obtain ⟨s, hs, rfl⟩ := List.mem_map.1 hv
  exact h s hs

/-- A schema that is made is a value without numbers, and no object in it has a key twice. -/
theorem law_isPlain : Law fun _ s => s.toJson.IsPlain where
  mono h _ := h
  reference e := isPlain_toJson (by simp [fields, Json.IsPlain])
  simple type _ := isPlain_toJson (by simp [fields, Json.IsPlain])
  constants type values _ := by
    have hvalues : (Json.array (values.map (·.toJson))).IsPlain := by
      rw [Json.IsPlain, Json.arePlain_iff]
      intro v hv
      obtain ⟨value, -, rfl⟩ := List.mem_map.1 hv
      cases value <;> simp [LiteralValue.toJson, Json.IsPlain]
    exact isPlain_toJson (by simpa [fields, Json.IsPlain] using hvalues)
  array {_ s} h := by
    refine isPlain_toJson ?_
    rw [toJson] at h
    simpa [fields, h] using isPlain_text _
  oneOf h := isPlain_toJson (by simpa [fields] using isPlain_toJsonList h)
  allOf h := isPlain_toJson (by simpa [fields] using isPlain_toJsonList h)
  ofProperties {_ ps} h := by
    have hproperties : (Json.object (toJsonFields
        (Entries.ofList (ps.map fun p => (p.name, p.schema))))).IsPlain := by
      rw [toJsonFields_eq, Json.IsPlain, Json.arePlainFields_iff, Entries.keys, List.map_map]
      -- The last of several properties of one name counts, so no key is left twice.
      refine ⟨Entries.nodup_keys_ofList _, fun f hf => ?_⟩
      obtain ⟨q, hq, rfl⟩ := List.mem_map.1 hf
      obtain ⟨p, hp, rfl⟩ := List.mem_map.1 (Entries.mem_ofList hq)
      exact h p hp
    refine isPlain_toJson ?_
    simp [ofProperties, fields, isPlain_text, hproperties, isPlain_texts]

end Schema

/-! ### Plain documents -/

namespace Generation

open Worklist (drafts)

variable {o : Options} {t : Table} {w : Worklist} {doc : Json}

/-- The definitions of a run are plain. -/
theorem isPlain_definition {w₀ : Worklist} (h₀ : Worklist.start o = (w₀, none))
    (h : w₀.resolve t o = (w, none)) {p : Text × Schema} (hp : p ∈ w.definitions) :
    p.2.toJson.IsPlain := by
  obtain ⟨draft, hdraft, hok, -⟩ := records_of_resolve h₀ h p.1 p.2 hp
  obtain ⟨declared, -, rfl⟩ := Option.map_eq_some_iff.1 hdraft
  exact Schema.law_isPlain.ofDeclaration_ensures _ declared p.2 hok

/-- A document is a value without numbers, and no object in it has a key twice. -/
theorem isPlain_document {source : List Char} {uri : Text} (hschema : o.get .schemaUri = .text uri)
    (h : (run source o).document = .ok doc) : doc.IsPlain := by
  obtain ⟨ds, hsource, htable, -, -⟩ := run_document_eq_ok h
  obtain ⟨w₀, w, hstart, hresolve, hdoc, -⟩ := ofTable_document_eq_ok htable
  obtain ⟨root, schema, hroot, hget, rfl⟩ := documentOf_eq_ok_iff.1 hdoc
  have hplain (p : Text × Schema) (hp : p ∈ w.definitions) := isPlain_definition hstart hresolve hp
  have haccounts : Worklist.Accounts w [] := .resolve hstart hresolve
  have hothers : (Json.object (written (w.definitions.remove root)).sorted).IsPlain := by
    rw [Json.IsPlain, Json.arePlainFields_iff]
    have hkeys : (Entries.keys (written (w.definitions.remove root))).Nodup := by
      rw [Entries.keys, written, List.map_map]
      exact Entries.nodup_keys_remove haccounts.nodup_keys root
    refine ⟨((Entries.sorted_perm _).map _).nodup_iff.2 hkeys, fun f hf => ?_⟩
    obtain ⟨p, hp, rfl⟩ := List.mem_map.1 ((Entries.sorted_perm _).mem_iff.1 hf)
    exact hplain p (List.mem_filter.1 hp).1
  have hroot : schema.toJson.IsPlain := hplain _ (Entries.mem_of_get? hget)
  rw [Schema.toJson, Json.IsPlain, Json.arePlainFields_iff] at hroot
  obtain ⟨hn, hschemaKey, hdefinitionsKey⟩ := Schema.keyLists_plain _ schema.keys_fields_mem
  rw [Json.IsPlain, Json.arePlainFields_iff]
  refine ⟨?_, fun f hf => ?_⟩
  · -- The envelope has two keys, and the root has neither of them.
    rw [Entries.keys_append, List.nodup_append]
    have hkeys : [Document.schemaKey, Document.definitionsKey].Nodup := by
      decide
    refine ⟨hkeys, hn, ?_⟩
    rintro a ha b hb rfl
    rcases List.mem_cons.1 ha with rfl | ha
    · exact hschemaKey hb
    · rw [List.mem_singleton.1 ha] at hb
      exact hdefinitionsKey hb
  · rcases List.mem_append.1 hf with hf | hf
    · rcases List.mem_cons.1 hf with rfl | hf
      · rw [hschema]
        exact Schema.isPlain_text uri
      · rw [List.mem_singleton.1 hf]
        exact hothers
    · exact hroot.2 f hf

/-! ### The indentation -/

section Indent

variable (v : Json)

theorem drafts_set_indent (t : Table) (o : Options) :
    drafts t (o.set .indent v) = drafts t o := by
  funext u
  cases hget : t.get? u with
  | none => rw [drafts, drafts, hget]; rfl
  | some declared =>
    rw [drafts, drafts, hget, Option.map_some, Option.map_some, Options.set_indent_eq]
    -- The tables are the same one, so they agree on all names.
    have hagree : t.AgreesOn Set.univ t := ⟨fun _ _ => rfl, fun _ _ _ _ _ _ _ _ _ _ => trivial⟩
    exact congrArg some (Schema.ofDeclaration_eq o _ _ u hagree fun _ _ _ _ => trivial)

theorem resolve_set_indent (t : Table) (o : Options) (w : Worklist) :
    w.resolve t (o.set .indent v) = w.resolve t o := by
  obtain ⟨failure?, hdrains, hfault⟩ := Worklist.drains_resolve t o w
  rw [← drafts_set_indent v] at hdrains
  exact Worklist.resolve_eq_iff_drains.2 ⟨failure?, hdrains, hfault⟩

/-- A run does not depend on the indentation. -/
theorem run_set_indent (source : List Char) (o : Options) :
    run source (o.set .indent v) = run source o := by
  have hworklist (t : Table) (w : Worklist) :
      ofWorklist t (o.set .indent v) w = ofWorklist t o w := by
    rw [ofWorklist, ofWorklist, resolve_set_indent]
    rfl
  have htable (t : Table) : ofTable t (o.set .indent v) = ofTable t o := by
    rw [ofTable, ofTable]
    simp only [hworklist]
    rfl
  simp only [run, htable]

end Indent

end Generation

/-- A value of the option for the indentation that is a number of blanks, a truth value that counts
as one, a text of blanks, or nothing. -/
def Json.IsIndent : Json → Prop
  | .null => True
  | .truth _ => True
  | .integer _ => True
  | .text t => ∀ p ∈ t, Json.isBlank p.glyph = true
  | _ => False

theorem Options.isReadable_of_indentation {o : Options} (h : (o.get .indent).IsIndent)
    {unit? : Option Text} (hu : o.indentation = .ok unit?) :
    Json.Layout.IsReadable ⟨false, unit?⟩ where
  raw := rfl
  blank unit hunit p hp := by
    -- A number of blanks is a row of blanks; a text as the indentation is one by assumption.
    have hblanks {n : Int} (hu : Options.blanks n = .ok unit?) : Json.isBlank p.glyph = true := by
      unfold Options.blanks at hu
      split at hu
      · cases hu
      · split at hu
        · cases hu
        · cases hu
          cases hunit
          obtain ⟨c, hc, rfl⟩ := List.mem_map.1 hp
          rw [CodePoint.glyph_ofChar, List.eq_of_mem_replicate hc]
          rfl
    unfold Options.indentation at hu
    split at hu
    · cases hu
      cases hunit
    · exact hblanks hu
    · exact hblanks hu
    · next t ht =>
      cases hu
      cases hunit
      rw [ht] at h
      exact h p hp
    · cases hu

namespace Generation

theorem text_eq_ok {o : Options} {g : Generation} {content : Text} (h : g.text o = .ok content) :
    ∃ doc unit?, g.document = .ok doc ∧ o.indentation = .ok unit? ∧
      content = Json.write ⟨false, unit?⟩ doc ++ .ofString "\n" := by
  unfold text at h
  cases hdoc : g.document with
  | error fault =>
    rw [hdoc] at h
    cases h
  | ok doc =>
    cases hunit : o.indentation with
    | error fault =>
      rw [hdoc, hunit] at h
      cases h
    | ok unit? =>
      rw [hdoc, hunit] at h
      cases h
      exact ⟨doc, unit?, rfl, rfl, rfl⟩

variable {o : Options} {source : List Char} {content : Text}

/-- The text of a run is read as its document. -/
theorem read_text {uri : Text} (hschema : o.get .schemaUri = .text uri)
    (hindent : (o.get .indent).IsIndent) (h : (run source o).text o = .ok content) :
    ∃ doc, (run source o).document = .ok doc ∧ Json.read content = .ok doc := by
  obtain ⟨doc, unit?, hdoc, hunit, rfl⟩ := text_eq_ok h
  have hreadable : Json.Layout.IsReadable ⟨false, unit?⟩ :=
    Options.isReadable_of_indentation hindent hunit
  exact ⟨doc, hdoc, Json.read_write hreadable (isPlain_document hschema hdoc) (by decide)⟩

/-- A text that is read as the document of a run passes the examination. -/
theorem examine_eq_ok {doc : Json} (hdoc : (run source o).document = .ok doc)
    (hread : Json.read content = .ok doc) : Document.examine content = .ok () := by
  obtain ⟨ds, hsource, htable, -, -⟩ := run_document_eq_ok hdoc
  obtain ⟨w₀, w, -, -, hdoc, -⟩ := ofTable_document_eq_ok htable
  obtain ⟨root, schema, -, -, rfl⟩ := documentOf_eq_ok_iff.1 hdoc
  rw [Document.examine, hread]
  rfl

/-- **The text of a document is read as the document.** Where the address of the schema language is
a text and the indentation only adds blanks, whatever text a run gives is read as the document of the
run, with the fields of every object in their order, and it passes the examination. With any other
such indentation the text of the same source is read as the same document. -/
theorem text_reads_back {uri : Text} (hschema : o.get .schemaUri = .text uri)
    (hindent : (o.get .indent).IsIndent) (h : (run source o).text o = .ok content) :
    ∃ doc, (run source o).document = .ok doc ∧ Json.read content = .ok doc ∧
      Document.examine content = .ok () ∧
      ∀ v other, v.IsIndent → (run source (o.set .indent v)).text (o.set .indent v) = .ok other →
        Json.read other = .ok doc := by
  obtain ⟨doc, hdoc, hread⟩ := read_text hschema hindent h
  refine ⟨doc, hdoc, hread, examine_eq_ok hdoc hread, fun v other hv hother => ?_⟩
  have hschema' : (o.set .indent v).get .schemaUri = .text uri := by
    rw [Options.get_set_of_ne (by decide), hschema]
  have hindent' : ((o.set .indent v).get .indent).IsIndent := by
    rwa [Options.get_set_self]
  -- The second run is the first one, so it has the same document.
  obtain ⟨doc', hdoc', hread'⟩ := read_text hschema' hindent' hother
  rw [run_set_indent, hdoc] at hdoc'
  cases hdoc'
  exact hread'

/-- A root whose only property has a name with a quote, a line feed and two surrogates, and a type
without a schema. -/
def sampleOfEscapes : List Char :=
  "interface R\x7b'\\x22\\n\\uD83D\\uDE00': never[]\x7d".toList

/-- The same options without an indentation. -/
def sampleOnOneLine : Options :=
  (Options.rootedAt (.ofString "R")).set .indent .null

/-- The name of the property is read back from an indented text and from a text of one line. -/
theorem text_reads_back_sample :
    ∃ content other doc,
      (run sampleOfEscapes (.rootedAt (.ofString "R"))).text (.rootedAt (.ofString "R")) =
        .ok content ∧
      (run sampleOfEscapes sampleOnOneLine).text sampleOnOneLine = .ok other ∧ content ≠ other ∧
      Json.read content = .ok doc ∧ Json.read other = .ok doc ∧
      Document.examine content = .ok () := by
  have hne : ((run sampleOfEscapes (.rootedAt (.ofString "R"))).text
      (.rootedAt (.ofString "R"))).toOption ≠
        ((run sampleOfEscapes sampleOnOneLine).text sampleOnOneLine).toOption := by
    decide +kernel
  have hother : ((run sampleOfEscapes sampleOnOneLine).text sampleOnOneLine).toOption.isSome =
      true := by
    decide +kernel
  have hcontent : ((run sampleOfEscapes (.rootedAt (.ofString "R"))).text
      (.rootedAt (.ofString "R"))).toOption.isSome = true := by
    decide +kernel
  cases h : (run sampleOfEscapes (.rootedAt (.ofString "R"))).text (.rootedAt (.ofString "R")) with
  | error fault =>
    rw [h] at hcontent
    cases hcontent
  | ok content =>
    cases h' : (run sampleOfEscapes sampleOnOneLine).text sampleOnOneLine with
    | error fault =>
      rw [h'] at hother
      cases hother
    | ok other =>
      obtain ⟨doc, -, hread, hexamine, hothers⟩ :=
        text_reads_back (o := .rootedAt (.ofString "R")) rfl trivial h
      refine ⟨content, other, doc, rfl, rfl, ?_, hread, hothers .null other trivial h', hexamine⟩
      rintro rfl
      exact hne (by rw [h, h'])

end Generation

end DeclSchema
