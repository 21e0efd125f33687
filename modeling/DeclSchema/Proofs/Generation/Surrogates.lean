import DeclSchema.Proofs.Declaration.Whole
import DeclSchema.Proofs.Generation.Text
import DeclSchema.Proofs.Schema.Surrogates
import DeclSchema.Proofs.Storage.Publishing
import DeclSchema.Proofs.Table.Lookup

/-!
# Surrogates in a run

Every surrogate in the declarations of a source, and in the text of its document, has the number of
an escape in a string of the source: each escape is decoded by itself, so two escapes that spell a
surrogate each are not joined to one character. Where no escape spells a surrogate, the text has a
UTF-8 form, and can be published wherever any text can.

## Main definitions

* `Declaration.escapedNumbers`: the numbers of the escapes in the strings of a source

## Main results

* `Declaration.ofSource_surrogatesIn`: the surrogates of declarations are spelled by escapes
* `Generation.surrogatesIn_document`: so are those of a document
* `Generation.text_surrogates`: so are those of its text, which can be published if there are none
-/

namespace DeclSchema

open Grammar

namespace Declaration

/-- The numbers of the escapes in the strings of a source. -/
def escapedNumbers (source : List Char) : Set Nat :=
  {n | ∃ ts, read source = .ok ts ∧ ∃ k ∈ Tree.tokensOf ts, k.terminal = .string ∧
    n ∈ Escape.numbersOf k.lexeme}

/-- A string that is raw or spelled by a string of the source has only spelled surrogates. -/
theorem Spelled.surrogatesIn {source : List Char} {ts : List Tree} {t : Text}
    (h : Spelled (Tree.tokensOf ts) t) (hread : read source = .ok ts) :
    t.SurrogatesIn (escapedNumbers source) := by
  obtain ⟨cs, rfl⟩ | ⟨k, hk, hstring, hspelled⟩ := h
  · exact Text.surrogatesIn_ofChars cs
  · exact Escape.surrogatesIn_unquote hspelled fun n hn => ⟨ts, hread, k, hk, hstring, hn⟩

/-- The surrogates of the declarations of a source are spelled by its escapes. -/
theorem ofSource_surrogatesIn {source : List Char} {ds : List Declaration}
    (h : ofSource source = .ok ds) :
    ∀ d ∈ ds, (Node.declaration d).AllSurrogatesIn (escapedNumbers source) := by
  cases hread : read source with
  | error rest =>
    rw [ofSource, hread] at h
    cases h
  | ok ts =>
    have hyields := ofSource_yields hread
    rw [h] at hyields
    exact fun d hd => (hyields.1 d hd).imp fun n hn t ht => (hn.strings t ht).surrogatesIn hread

end Declaration

theorem Table.surrogatesIn_ofDeclarations {s : Set Nat} {ds : List Declaration}
    (h : ∀ d ∈ ds, (Node.declaration d).AllSurrogatesIn s) :
    (Table.ofDeclarations ds).SurrogatesIn s :=
  fun _ d hget => h d (mem_of_get?_ofDeclarations hget)

theorem Node.name_mem_names (d : Declaration) : d.name ∈ (Node.declaration d).names := by
  cases d <;> exact List.mem_cons_self ..

namespace Generation

variable {s : Set Nat} {o : Options} {t : Table} {w : Worklist} {doc : Json}
  {source : List Char} {uri content : Text}

/-- The names and the definitions of a run have the surrogates of the declarations. -/
theorem surrogatesIn_definition {w₀ : Worklist} (h₀ : Worklist.start o = (w₀, none))
    (h : w₀.resolve t o = (w, none)) (ht : t.SurrogatesIn s) {p : Text × Schema}
    (hp : p ∈ w.definitions) : p.1.SurrogatesIn s ∧ p.2.SurrogatesIn s := by
  obtain ⟨draft, hdraft, hok, -⟩ := records_of_resolve h₀ h p.1 p.2 hp
  obtain ⟨declared, hget, rfl⟩ := Option.map_eq_some_iff.1 hdraft
  have hdeclared : (Node.declaration declared).AllSurrogatesIn s := ht p.1 declared hget
  refine ⟨?_, Schema.ofDeclaration_surrogatesIn ht hdeclared p.2 hok⟩
  rw [← Table.name_of_get? hget]
  exact hdeclared.here.name (Node.name_mem_names declared)

/-- The surrogates of a document are those of the address of the schema language and those that the
escapes of the source spell. -/
theorem surrogatesIn_document (hschema : (o.get .schemaUri).SurrogatesIn s)
    (hs : Declaration.escapedNumbers source ⊆ s) (h : (run source o).document = .ok doc) :
    doc.SurrogatesIn s := by
  obtain ⟨ds, hsource, htable, -, -⟩ := run_document_eq_ok h
  obtain ⟨w₀, w, hstart, hresolve, hdoc, -⟩ := ofTable_document_eq_ok htable
  obtain ⟨root, schema, hroot, hget, rfl⟩ := documentOf_eq_ok_iff.1 hdoc
  have ht : (Table.ofDeclarations ds).SurrogatesIn s := by
    refine Table.surrogatesIn_ofDeclarations fun d hd => ?_
    refine (Declaration.ofSource_surrogatesIn hsource d hd).imp fun n hn t ht p hp hsurrogate => ?_
    exact hs (hn t ht p hp hsurrogate)
  have hdefinition (p : Text × Schema) (hp : p ∈ w.definitions) :=
    surrogatesIn_definition hstart hresolve ht hp
  have hothers : (Json.object (written (w.definitions.remove root)).sorted).SurrogatesIn s := by
    refine Json.surrogatesIn_object.2 fun f hf => ?_
    obtain ⟨p, hp, rfl⟩ := List.mem_map.1 ((Entries.sorted_perm _).mem_iff.1 hf)
    exact hdefinition p (List.mem_filter.1 hp).1
  -- The document is the envelope with the address and the other definitions, and the fields of the
  -- root.
  refine Json.surrogatesIn_object.2 (List.forall_mem_append.2 ⟨?_, ?_⟩)
  · refine List.forall_mem_cons.2 ⟨⟨Text.surrogatesIn_ofString _, hschema⟩, ?_⟩
    exact List.forall_mem_singleton.2 ⟨Text.surrogatesIn_ofString _, hothers⟩
  · exact Json.surrogatesIn_object.1 (hdefinition _ (Entries.mem_of_get? hget)).2

/-- An indentation that only adds blanks has no surrogates. -/
theorem surrogatesIn_layout {unit? : Option Text}
    (h : Json.Layout.IsReadable ⟨false, unit?⟩) : Json.Layout.SurrogatesIn s ⟨false, unit?⟩ := by
  intro unit hunit p hp hsurrogate
  have hblank := h.blank unit hunit p hp
  rw [CodePoint.glyph_of_isSurrogate hsurrogate] at hblank
  cases hblank

/-- The surrogates of a text are those of the address of the schema language and those that the
escapes of the source spell. -/
theorem surrogatesIn_text (hschema : (o.get .schemaUri).SurrogatesIn s)
    (hs : Declaration.escapedNumbers source ⊆ s) (hindent : (o.get .indent).IsIndent)
    (h : (run source o).text o = .ok content) : content.SurrogatesIn s := by
  obtain ⟨doc, unit?, hdoc, hunit, rfl⟩ := text_eq_ok h
  have hlayout := surrogatesIn_layout (s := s) (Options.isReadable_of_indentation hindent hunit)
  refine Text.surrogatesIn_append.2 ⟨?_, Text.surrogatesIn_ofString _⟩
  exact Json.surrogatesIn_write hlayout (surrogatesIn_document hschema hs hdoc)

/-- A text without surrogates that passes its examination is published wherever any text can be. -/
theorem publish_of_surrogatesIn (hcontent : content.SurrogatesIn ∅)
    (hexamine : Document.examine content = .ok ()) :
    ∃ bytes, content.utf8? = some bytes ∧ ∀ examine? ∈ [none, some Document.examine],
      ∀ (p : Path) (files : Storage) (other : Text), (files.publish none p other).fault? = none →
        (files.publish examine? p content).fault? = none ∧
        (files.publish examine? p content).storage.contents =
          Function.update files.contents (files.target p) (some bytes) := by
  obtain ⟨bytes, hbytes⟩ := Text.exists_utf8? hcontent
  refine ⟨bytes, hbytes, fun examine? hexamine? p files other hother => ?_⟩
  have hfault : (files.publish examine? p content).fault? = none := by
    refine Storage.fault?_publishWith_eq_none hother hbytes ?_
    obtain rfl | rfl : examine? = none ∨ examine? = some Document.examine := by
      simpa using hexamine?
    · exact nofun
    · rintro examine hmem files'
      obtain rfl := Option.some.inj hmem
      exact hexamine
  refine ⟨hfault, ?_⟩
  have hpublishes := Storage.publishes_publishWith
    (examine?.map fun examine _ => examine) p content files
  rw [Storage.publish] at hfault ⊢
  generalize files.publishWith (examine?.map fun examine _ => examine) p content = out
    at hpublishes hfault
  -- There is no fault, so of the three ways in which publishing ends only the last one is left.
  cases hpublishes with
  | unstaged => cases hfault
  | withdrawn => cases hfault
  | moved hs _ ht =>
    rw [hbytes] at ht
    cases ht
    exact hs

/-- **Only escapes spell surrogates.** Where the address of the schema language is a text without
surrogates and the indentation only adds blanks, every surrogate in a declaration of the source, and
in the text of its document, has the number of an escape in a string of the source. So if no escape
has the number of a surrogate, then no string of a declaration has a surrogate and the text has a
UTF-8 form; and this is what is stored, with an examination or without, wherever any text can be. -/
theorem text_surrogates (hschema : o.get .schemaUri = .text uri) (huri : uri.hasSurrogate = false)
    (hindent : (o.get .indent).IsIndent) (h : (run source o).text o = .ok content) :
    content.SurrogatesIn (Declaration.escapedNumbers source) ∧
    (∃ ds, Declaration.ofSource source = .ok ds ∧
      ∀ d ∈ ds, (Node.declaration d).AllSurrogatesIn (Declaration.escapedNumbers source)) ∧
    ((∀ n ∈ Declaration.escapedNumbers source, n < 0xD800 ∨ 0xE000 ≤ n) →
      content.hasSurrogate = false ∧
      (∃ ds, Declaration.ofSource source = .ok ds ∧ ∀ d ∈ ds,
        (Node.declaration d).Everywhere fun n => ∀ t ∈ n.strings, t.hasSurrogate = false) ∧
      ∃ bytes, content.utf8? = some bytes ∧ ∀ examine? ∈ [none, some Document.examine],
        ∀ (p : Path) (files : Storage) (other : Text), (files.publish none p other).fault? = none →
          (files.publish examine? p content).fault? = none ∧
          (files.publish examine? p content).storage.contents =
            Function.update files.contents (files.target p) (some bytes)) := by
  have hnone : uri.SurrogatesIn ∅ := Text.hasSurrogate_eq_false_iff.1 huri
  have hcontent : content.SurrogatesIn (Declaration.escapedNumbers source) := by
    refine surrogatesIn_text ?_ (Set.Subset.refl _) hindent h
    rw [hschema]
    exact Json.surrogatesIn_text.2 fun p hp hsurrogate => (hnone p hp hsurrogate).elim
  obtain ⟨doc, hdoc, hread⟩ := read_text hschema hindent h
  obtain ⟨ds, hsource, -⟩ := run_document_eq_ok hdoc
  have hds := Declaration.ofSource_surrogatesIn hsource
  refine ⟨hcontent, ⟨ds, hsource, hds⟩, fun hescapes => ?_⟩
  -- If no escape has the number of a surrogate, there is none that a text could have.
  have hclean {t : Text} (ht : t.SurrogatesIn (Declaration.escapedNumbers source)) :
      t.SurrogatesIn ∅ := by
    intro p hp hsurrogate
    have hrange : 0xD800 ≤ p.value ∧ p.value < 0xE000 := by
      simpa [CodePoint.isSurrogate] using hsurrogate
    have := hescapes _ (ht p hp hsurrogate)
    omega
  refine ⟨Text.hasSurrogate_eq_false_iff.2 (hclean hcontent), ⟨ds, hsource, fun d hd => ?_⟩, ?_⟩
  · exact (hds d hd).imp fun n hn t ht => Text.hasSurrogate_eq_false_iff.2 (hclean (hn t ht))
  · exact publish_of_surrogatesIn (hclean hcontent) (examine_eq_ok hdoc hread)

/-- A root with a property whose name and value are spelled with escapes, none of a surrogate. -/
def sampleOfPoints : List Char :=
  "interface R\x7b'\\u0061': '\\u\x7b1F600\x7d'\x7d".toList

/-- Whether no string of a source has an escape with the number of a surrogate. -/
def spellsNoSurrogate (source : List Char) : Bool :=
  match read source with
  | .ok ts => (Tree.tokensOf ts).all fun k =>
      (Escape.numbersOf k.lexeme).all fun n => n < 0xD800 || 0xE000 ≤ n
  | .error _ => false

/-- The text of the sample is stored in a directory without files. -/
theorem text_surrogates_sample :
    ∃ content bytes,
      (run sampleOfPoints (.rootedAt (.ofString "R"))).text (.rootedAt (.ofString "R")) =
        .ok content ∧
      content.hasSurrogate = false ∧ content.utf8? = some bytes ∧
      (Storage.publish (some Document.examine) (.ofText (.ofString "o.json")) content
        ⟨.directory [], []⟩).fault? = none := by
  have hspells : spellsNoSurrogate sampleOfPoints = true := by
    decide +kernel
  have hescapes : ∀ n ∈ Declaration.escapedNumbers sampleOfPoints, n < 0xD800 ∨ 0xE000 ≤ n := by
    rintro n ⟨ts, hread, k, hk, -, hn⟩
    simp only [spellsNoSurrogate, hread, List.all_eq_true, Bool.or_eq_true,
      decide_eq_true_eq] at hspells
    exact hspells k hk n hn
  have hpublished : (Storage.publish none (.ofText (.ofString "o.json")) []
      ⟨.directory [], []⟩).fault?.isNone = true := by cbv
  have hcontent : ((run sampleOfPoints (.rootedAt (.ofString "R"))).text
      (.rootedAt (.ofString "R"))).toOption.isSome = true := by
    decide +kernel
  cases h : (run sampleOfPoints (.rootedAt (.ofString "R"))).text (.rootedAt (.ofString "R")) with
  | error fault =>
    rw [h] at hcontent
    cases hcontent
  | ok content =>
    obtain ⟨-, -, hclean⟩ :=
      text_surrogates (o := .rootedAt (.ofString "R")) rfl (by decide) trivial h
    obtain ⟨hsurrogate, -, bytes, hbytes, hpublish⟩ := hclean hescapes
    refine ⟨content, bytes, rfl, hsurrogate, hbytes, ?_⟩
    exact (hpublish (some Document.examine) (by simp) _ _ []
      (Option.isNone_iff_eq_none.1 hpublished)).1

end Generation

end DeclSchema
