import DeclSchema.Proofs.Declaration.Nodes
import DeclSchema.Proofs.Json.Surrogates
import DeclSchema.Proofs.Schema.Cases
import DeclSchema.Proofs.Schema.Validation

/-!
# Surrogates in schemas

The texts of a schema are fixed words, texts of the nodes of the declaration that it is made of, and
string values that are collected from other declarations of the table. So all surrogates of a
definition are those of the declarations.

## Main definitions

* `Node.SurrogatesIn`, `Table.SurrogatesIn`: all surrogates have their numbers in a set
* `Schema.SurrogatesIn`: so have those of a schema

## Main results

* `Table.surrogatesIn_valuesOf`: the values of an interface
* `Schema.cases_surrogatesIn`, `Schema.ofDeclaration_surrogatesIn`: schemas and definitions
-/

namespace DeclSchema

variable {s : Set Nat}

/-! ### Declarations -/

/-- The texts of a node that are in none of its parts have their surrogates in a set. -/
def Node.SurrogatesIn (s : Set Nat) (n : Node) : Prop :=
  ∀ t ∈ n.strings, t.SurrogatesIn s

namespace Node.SurrogatesIn

variable {n : Node}

theorem text (h : n.SurrogatesIn s) : n.text.SurrogatesIn s :=
  h _ (List.mem_cons_self ..)

theorem name (h : n.SurrogatesIn s) {t : Text} (ht : t ∈ n.names) : t.SurrogatesIn s :=
  h _ (List.mem_cons_of_mem _ ht)

end Node.SurrogatesIn

/-- All nodes within a node have their surrogates in a set. -/
abbrev Node.AllSurrogatesIn (s : Set Nat) (n : Node) : Prop :=
  n.Everywhere (Node.SurrogatesIn s)

theorem Node.AllSurrogatesIn.types {types : List TypeExpr} {n : Node} (h : n.AllSurrogatesIn s)
    (hparts : n.parts = types.map .type) : ∀ T ∈ types, (Node.type T).AllSurrogatesIn s :=
  fun _ hT => h.part (hparts ▸ List.mem_map_of_mem hT)

/-- All declarations of a table have their surrogates in a set. -/
def Table.SurrogatesIn (s : Set Nat) (t : Table) : Prop :=
  ∀ name d, t.get? name = some d → (Node.declaration d).AllSurrogatesIn s

def LiteralValue.SurrogatesIn (s : Set Nat) (v : LiteralValue) : Prop :=
  ∀ t ∈ v.strings, t.SurrogatesIn s

theorem LiteralValue.SurrogatesIn.toJson {v : LiteralValue} (h : v.SurrogatesIn s) :
    v.toJson.SurrogatesIn s := by
  cases v with
  | text t => exact Json.surrogatesIn_text.2 (h t (List.mem_singleton_self t))
  | truth b => exact nofun
  | null => exact nofun

namespace Table

variable {t : Table}

theorem surrogatesIn_memberValue {m : Member} {v : LiteralValue}
    (hm : (Node.member m).AllSurrogatesIn s) (h : memberValue? m = some v) :
    v.SurrogatesIn s := by
  unfold memberValue? at h
  split at h
  · next text name literal kind value optional readonly =>
    split at h
    · cases h
      intro t ht
      have htype : (Node.type (.literal literal kind v)).AllSurrogatesIn s :=
        hm.part (List.mem_append_right _ (List.mem_singleton_self _))
      exact htype.here.name (List.mem_cons_of_mem _ ht)
    · cases h
  · cases h

/-- What a walk emits has the surrogates of its agenda and of the declarations that it visits. -/
theorem surrogatesIn_collect (ht : t.SurrogatesIn s) (visited : List Text) (agenda : List Errand)
    (h : ∀ values, .emit values ∈ agenda → ∀ v ∈ values, v.SurrogatesIn s) :
    ∀ v ∈ t.collect visited agenda, v.SurrogatesIn s := by
  induction visited, agenda using collect.induct t with
  | case1 visited =>
    rw [collect]
    exact nofun
  | case2 visited values rest ih =>
    rw [collect, List.forall_mem_append]
    exact ⟨h values (List.mem_cons_self ..),
      ih fun values hvalues => h values (List.mem_cons_of_mem _ hvalues)⟩
  | case3 visited name rest _ text parameters heritage members hget hv ih =>
    rw [collect, hget]
    simp only [hv, dite_true]
    exact ih fun values hvalues => h values (List.mem_cons_of_mem _ hvalues)
  | case4 visited name rest _ text parameters heritage members hget hv ih =>
    rw [collect, hget]
    simp only [hv, dite_false]
    refine ih fun values hvalues => ?_
    rcases List.mem_append.1 hvalues with hvalues | hvalues
    · -- The bases of the interface are only visited; its own values are emitted.
      rcases List.mem_append.1 hvalues with hvalues | hvalues
      · obtain ⟨base, -, hbase⟩ := List.mem_map.1 hvalues
        cases hbase
      · cases List.mem_singleton.1 hvalues
        intro v hv
        obtain ⟨m, hm, hvalue⟩ := List.mem_filterMap.1 hv
        refine surrogatesIn_memberValue ((ht name _ hget).part ?_) hvalue
        exact List.mem_append_right _ (List.mem_map_of_mem hm)
    · exact h values (List.mem_cons_of_mem _ hvalues)
  | case5 visited name rest hnone ih =>
    rw [collect]
    split
    · next heritage members hget => exact absurd hget (hnone _ _ _ _ _)
    · exact ih fun values hvalues => h values (List.mem_cons_of_mem _ hvalues)

/-- The values of an interface have their surrogates where the declarations have theirs. -/
theorem surrogatesIn_valuesOf (ht : t.SurrogatesIn s) (name : Text) :
    ∀ v ∈ t.valuesOf name, v.SurrogatesIn s := by
  intro v hv
  refine surrogatesIn_collect ht [] [.visit name] ?_ v (List.mem_eraseDups.1 hv)
  rintro values hvalues
  cases List.mem_singleton.1 hvalues

end Table

namespace Schema

/-! ### Schemas -/

/-- All surrogates of a schema have their numbers in a set. -/
def SurrogatesIn (s : Set Nat) (schema : Schema) : Prop :=
  schema.toJson.SurrogatesIn s

section Forms

theorem surrogatesIn_reference {name : Text} (h : name.SurrogatesIn s) :
    (reference name).SurrogatesIn s := by
  simp [SurrogatesIn, toJson, fields, address, h]

theorem surrogatesIn_simple {type : Text} (h : type.SurrogatesIn s) :
    (simple type).SurrogatesIn s := by
  simp [SurrogatesIn, toJson, fields, h]

theorem surrogatesIn_constants {type : Text} {values : List LiteralValue}
    (htype : type.SurrogatesIn s) (h : ∀ v ∈ values, v.SurrogatesIn s) :
    (constants type values).SurrogatesIn s := by
  have hvalues : ∀ v ∈ values, v.toJson.SurrogatesIn s := fun v hv => (h v hv).toJson
  simpa [SurrogatesIn, toJson, fields, htype] using hvalues

theorem surrogatesIn_array {items : Schema} (h : items.SurrogatesIn s) :
    (array items).SurrogatesIn s := by
  simpa [SurrogatesIn, toJson, fields] using h

theorem surrogatesIn_oneOf {alternatives : List Schema}
    (h : ∀ a ∈ alternatives, a.SurrogatesIn s) : (oneOf alternatives).SurrogatesIn s := by
  simpa [SurrogatesIn, toJson, fields, toJsonList_eq] using h

theorem surrogatesIn_allOf {parts : List Schema} (h : ∀ p ∈ parts, p.SurrogatesIn s) :
    (allOf parts).SurrogatesIn s := by
  simpa [SurrogatesIn, toJson, fields, toJsonList_eq] using h

theorem surrogatesIn_withBases {bases : List Schema} {own : Schema}
    (hbases : ∀ b ∈ bases, b.SurrogatesIn s) (hown : own.SurrogatesIn s) :
    (withBases bases own).SurrogatesIn s := by
  unfold withBases
  split
  · exact hown
  · exact surrogatesIn_allOf (List.forall_mem_append.2 ⟨hbases, List.forall_mem_singleton.2 hown⟩)

theorem surrogatesIn_ofProperties {ps : List Property}
    (h : ∀ p ∈ ps, p.name.SurrogatesIn s ∧ p.schema.SurrogatesIn s) :
    (ofProperties ps).SurrogatesIn s := by
  have hproperties : ∀ f ∈ Entries.ofList (ps.map fun p => (p.name, p.schema)),
      f.1.SurrogatesIn s ∧ f.2.toJson.SurrogatesIn s := by
    intro f hf
    obtain ⟨p, hp, rfl⟩ := List.mem_map.1 (Entries.mem_ofList hf)
    exact h p hp
  have hrequired : ∀ t ∈ ((ps.filter fun p => !p.optional).map (·.name)).eraseDups,
      t.SurrogatesIn s := by
    intro t ht
    obtain ⟨p, hp, rfl⟩ := List.mem_map.1 (List.mem_eraseDups.1 ht)
    exact (h p (List.mem_filter.1 hp).1).1
  rw [SurrogatesIn, toJson, ofProperties, fields, toJsonFields_eq]
  simp only [Json.surrogatesIn_object, Json.surrogatesIn_array, Json.surrogatesIn_text,
    List.forall_mem_cons, List.forall_mem_map, Text.surrogatesIn_ofString, true_and]
  exact ⟨hproperties, hrequired, List.forall_mem_nil _⟩

end Forms

/-! ### The schema of a type -/

section OfType

variable {c : Context}

theorem emit_ensures (e : Event) : (Traced.emit e).Ensures fun _ _ => True :=
  fun _ _ => trivial

theorem ofExcept_ensures {α : Type} (x : Except Fault α) :
    (Traced.ofExcept x : Traced Event α).Ensures fun _ _ => True :=
  fun _ _ => trivial

theorem within_ensures (c : Context) (depth : Int) : (within c depth).Ensures fun _ _ => True :=
  fun _ _ => trivial

theorem ask_surrogatesIn {name : Text} (h : name.SurrogatesIn s) :
    (ask name).Ensures fun _ => SurrogatesIn s :=
  (emit_ensures _).bind fun _ _ => Traced.ensures_pure.2 (surrogatesIn_reference h)

theorem placeholder_surrogatesIn (sort : Text) {text : Text} (h : text.SurrogatesIn s) :
    (placeholder sort text).Ensures fun _ => SurrogatesIn s :=
  (emit_ensures _).bind fun _ _ => Traced.ensures_pure.2 (surrogatesIn_reference h)

theorem ofLiteral_surrogatesIn (text : Text) {kind : Text} {value : LiteralValue}
    (hkind : kind.SurrogatesIn s) (hvalue : value.SurrogatesIn s) :
    (ofLiteral text kind value).Ensures fun _ => SurrogatesIn s := by
  unfold ofLiteral
  split
  · exact Traced.ensures_pure.2 (surrogatesIn_simple hkind)
  · split
    · exact Traced.ensures_pure.2
        (surrogatesIn_constants hkind (List.forall_mem_singleton.2 hvalue))
    · exact Traced.ensures_fail _

theorem ofQualified_surrogatesIn (c : Context) (text scope : Text) {member : Text}
    (h : member.SurrogatesIn s) :
    (ofQualified c text scope member).Ensures fun _ => SurrogatesIn s := by
  refine (ofExcept_ensures _).bind fun isKind _ => ?_
  split
  · refine Traced.ensures_pure.2 (surrogatesIn_constants (Text.surrogatesIn_ofString _) ?_)
    exact List.forall_mem_singleton.2 (List.forall_mem_singleton.2 h)
  · exact Traced.ensures_fail _

theorem ofCollection_surrogatesIn (hc : c.table.SurrogatesIn s) (name : Text)
    (arguments : List TypeExpr) :
    (ofCollection c name arguments).Ensures fun _ => SurrogatesIn s := by
  unfold ofCollection
  split
  · split
    · refine Traced.ensures_pure.2 (surrogatesIn_constants (Text.surrogatesIn_ofString _) ?_)
      exact Table.surrogatesIn_valuesOf hc _
    · exact Traced.ensures_fail _
    · exact Traced.ensures_fail _
  · exact Traced.ensures_fail _

theorem ofReference_surrogatesIn (hc : c.table.SurrogatesIn s) {name : Text}
    (h : name.SurrogatesIn s) (arguments : List TypeExpr) :
    (ofReference c name arguments).Ensures fun _ => SurrogatesIn s := by
  unfold ofReference
  split
  · exact ofCollection_surrogatesIn hc name arguments
  · exact ask_surrogatesIn h

theorem ofKeyword_surrogatesIn {text : Text} (h : text.SurrogatesIn s) (word : Text) :
    (ofKeyword text word).Ensures fun _ => SurrogatesIn s := by
  unfold ofKeyword
  split
  · next type hlookup =>
    -- The types of the predefined words are fixed words too.
    obtain ⟨pre, post, hmem, -⟩ := List.lookup_eq_some_iff.1 hlookup
    have htype : (word, type) ∈ keywordTypes := by
      rw [hmem]
      exact List.mem_append_right _ (List.mem_cons_self ..)
    obtain ⟨p, -, hp⟩ := List.mem_map.1 htype
    cases hp
    exact Traced.ensures_pure.2 (surrogatesIn_simple (Text.surrogatesIn_ofString _))
  · exact placeholder_surrogatesIn _ h

theorem ofHeritage_surrogatesIn {base : Heritage} (h : (Node.heritage base).SurrogatesIn s) :
    (ofHeritage base).Ensures fun _ => SurrogatesIn s := by
  unfold ofHeritage
  split
  · exact ask_surrogatesIn (h.name (List.mem_singleton_self _))
  · exact placeholder_surrogatesIn _ h.text

theorem ofBases_surrogatesIn (c : Context) (depth : Int) {heritage : List Heritage}
    (h : ∀ base ∈ heritage, (Node.heritage base).SurrogatesIn s) :
    (ofBases c depth heritage).Ensures fun _ bases => ∀ b ∈ bases, b.SurrogatesIn s := by
  refine (ofExcept_ensures _).bind fun markers _ => Traced.ensures_mapM fun base hbase => ?_
  exact (within_ensures c depth).bind fun _ _ =>
    ofHeritage_surrogatesIn (h base (List.mem_filter.1 hbase).1)

theorem keyOf_surrogatesIn (c : Context) {key : MemberName}
    (h : ∀ t ∈ key.strings, t.SurrogatesIn s) :
    (keyOf c key).Ensures fun _ => Text.SurrogatesIn s := by
  cases key with
  | plain text => exact Traced.ensures_pure.2 (h text (List.mem_singleton_self _))
  | kindKey scope member =>
    refine (ofExcept_ensures _).bind fun isKey _ => ?_
    split
    · exact Traced.ensures_pure.2 (h member (by simp [MemberName.strings]))
    · exact Traced.ensures_fail _
  | computed text => exact Traced.ensures_fail _

theorem ofAlternatives_surrogatesIn (c : Context) (text : Text) (members : List TypeExpr)
    {alternatives : List Schema} (h : ∀ a ∈ alternatives, a.SurrogatesIn s) :
    (ofAlternatives c text members alternatives).Ensures fun _ => SurrogatesIn s := by
  refine (ofAlternatives_made c text members alternatives).imp ?_
  rintro _ _ ⟨-, rfl | ⟨-, rfl⟩⟩
  · exact surrogatesIn_oneOf h
  · exact surrogatesIn_simple (Text.surrogatesIn_ofString _)

theorem Leaf.surrogatesIn (hc : c.table.SurrogatesIn s) {type : TypeExpr}
    {x : Context → Traced Event Schema} (hx : Leaf type x)
    (h : (Node.type type).AllSurrogatesIn s) : (x c).Ensures fun _ => SurrogatesIn s := by
  cases hx with
  | literal text kind value =>
    refine ofLiteral_surrogatesIn text ?_ fun t ht => ?_
    · exact h.here.name (List.mem_cons_self ..)
    · exact h.here.name (List.mem_cons_of_mem _ ht)
  | heritage base => exact ofHeritage_surrogatesIn (h.part (List.mem_singleton_self _)).here
  | qualified text scope member =>
    refine ofQualified_surrogatesIn c text scope ?_
    exact h.here.name (List.mem_cons_of_mem _ (List.mem_singleton_self _))
  | reference text name arguments =>
    exact ofReference_surrogatesIn hc (h.here.name (List.mem_singleton_self _)) arguments
  | keyword text word => exact ofKeyword_surrogatesIn h.here.text word
  | unsupported | bare | enumeration | typeAlias | declaration =>
    exact placeholder_surrogatesIn _ h.here.text

-- The nodes within a part are among those of the whole.

theorem cases_surrogatesIn (hc : c.table.SurrogatesIn s) : Cases
    (fun type => ∀ depth, (Node.type type).AllSurrogatesIn s →
      (ofType c depth type).Ensures fun _ => SurrogatesIn s)
    (fun type? => ∀ depth, (∀ T ∈ type?, (Node.type T).AllSurrogatesIn s) →
      (ofOptional c depth type?).Ensures fun _ => SurrogatesIn s)
    (fun types => ∀ depth excluded, (∀ T ∈ types, (Node.type T).AllSurrogatesIn s) →
      (ofUnionMembers c depth excluded types).Ensures fun _ ss => ∀ a ∈ ss, a.SurrogatesIn s)
    (fun members => ∀ depth, (∀ m ∈ members, (Node.member m).AllSurrogatesIn s) →
      (ofMembers c depth members).Ensures fun _ ps =>
        ∀ p ∈ ps, p.name.SurrogatesIn s ∧ p.schema.SurrogatesIn s) where
  leaf hx depth h := by
    rw [hx.ofType_eq]
    exact (within_ensures c depth).bind fun _ _ => hx.surrogatesIn hc h
  array ih depth h := by
    rw [ofType]
    refine (within_ensures c depth).bind fun _ _ => (ih (depth + 1) fun T hT => h.part ?_).bind ?_
    · exact List.mem_map_of_mem (Option.mem_toList.2 hT)
    · exact fun items hitems => Traced.ensures_pure.2 (surrogatesIn_array hitems)
  union ih depth h := by
    rw [ofType]
    refine (within_ensures c depth).bind fun _ _ => (ofExcept_ensures _).bind fun excluded _ => ?_
    refine (ih (depth + 1) excluded (h.types rfl)).bind fun alternatives ha => ?_
    exact ofAlternatives_surrogatesIn c _ _ ha
  object ih depth h := by
    rw [ofType]
    refine (within_ensures c depth).bind fun _ _ => (ih (depth + 1) fun m hm => h.part ?_).bind ?_
    · exact List.mem_map_of_mem hm
    · exact fun ps hps => Traced.ensures_pure.2 (surrogatesIn_ofProperties hps)
  parenthesized ih depth h := by
    rw [ofType]
    refine (within_ensures c depth).bind fun _ _ => ih (depth + 1) fun T hT => h.part ?_
    exact List.mem_map_of_mem (Option.mem_toList.2 hT)
  interface ih depth h := by
    -- The declaration is the only part of the type; its parts are the bases and the members.
    have hparts := h.part (List.mem_singleton_self (Node.declaration _))
    rw [ofType]
    refine (within_ensures c depth).bind fun _ _ => ?_
    refine (ih (depth + 1) fun m hm =>
      hparts.part (List.mem_append_right _ (List.mem_map_of_mem hm))).bind fun own hown => ?_
    refine (ofBases_surrogatesIn c (depth + 1) fun base hbase =>
      (hparts.part (List.mem_append_left _ (List.mem_map_of_mem hbase))).here).bind ?_
    exact fun bases hbases => Traced.ensures_pure.2
      (surrogatesIn_withBases hbases (surrogatesIn_ofProperties hown))
  present ih depth h := by
    rw [ofOptional]
    exact ih depth (h _ rfl)
  absent depth _ := by
    rw [ofOptional]
    exact (within_ensures c depth).bind fun _ _ => Traced.ensures_fail _
  noMember depth excluded _ := by
    rw [ofUnionMembers]
    exact Traced.ensures_pure.2 (List.forall_mem_nil _)
  alternative ih ihrest depth excluded h := by
    obtain ⟨htype, hrest⟩ := List.forall_mem_cons.1 h
    rw [ofUnionMembers]
    split
    · exact ihrest depth excluded hrest
    · refine (ih depth htype).bind fun a ha => (ihrest depth excluded hrest).bind fun ss hss => ?_
      exact Traced.ensures_pure.2 (List.forall_mem_cons.2 ⟨ha, hss⟩)
  noProperty depth _ := by
    rw [ofMembers]
    exact Traced.ensures_pure.2 (List.forall_mem_nil _)
  property ih ihrest depth h := by
    obtain ⟨hmember, hrest⟩ := List.forall_mem_cons.1 h
    have htype := hmember.part (List.mem_append_right _ (List.mem_singleton_self (Node.type _)))
    rw [ofMembers]
    refine (keyOf_surrogatesIn c fun t ht => hmember.here.name ht).bind fun name hname => ?_
    refine (ih depth htype).bind fun schema hschema => (ihrest depth hrest).bind fun ps hps => ?_
    exact Traced.ensures_pure.2 (List.forall_mem_cons.2 ⟨⟨hname, hschema⟩, hps⟩)
  refused hrefused _ depth _ := by
    rw [ofMembers_refused hrefused]
    exact Traced.ensures_fail _

/-- The surrogates of a definition are those of the declarations. -/
theorem ofDeclaration_surrogatesIn (hc : c.table.SurrogatesIn s) {declared : Declaration}
    (h : (Node.declaration declared).AllSurrogatesIn s) :
    (ofDeclaration c declared).Ensures fun _ => SurrogatesIn s := by
  cases declared with
  | interface name text parameters heritage members =>
    -- The declaration in the place of a type has the same text, and itself as its one part.
    refine (cases_surrogatesIn hc).type _ 0 (.intro ?_ fun n hn => ?_)
    · exact List.forall_mem_singleton.2 h.here.text
    · rwa [List.mem_singleton.1 hn]
  | typeAlias name text parameters type =>
    exact (cases_surrogatesIn hc).part type 0 fun T hT =>
      h.part (List.mem_map_of_mem (Option.mem_toList.2 hT))
  | enumeration name text members =>
    refine Traced.ensures_pure.2 (surrogatesIn_constants (Text.surrogatesIn_ofString _) ?_)
    intro v hv
    obtain ⟨t, ht, rfl⟩ := List.mem_map.1 hv
    exact List.forall_mem_singleton.2 (h.here.name (List.mem_cons_of_mem _ ht))
  | bare name text => exact Traced.ensures_fail _

end OfType

end Schema

end DeclSchema
