import DeclSchema.Proofs.Entries
import DeclSchema.Proofs.Schema.Accounting
import DeclSchema.Proofs.Schema.Reference

/-!
# The references of a schema as often as they are asked for

A schema refers to the names that are asked for at the visits of its type and to the texts of the
nodes without a schema, and to each of them as often as it is visited. The order is another one,
since the bases of an interface are visited after its members and stand before them. Only a property
whose name comes again takes the references of the earlier one with it.

## Main definitions

* `Schema.NoRepeats`: no visited object shape has two properties of one name
* `Schema.Quotes`: a schema refers to what events are about, as often as they are

## Main results

* `Schema.ofType_accounted`: calls, warnings and references of a schema are those of the visits
-/

namespace DeclSchema.Schema

/-! ### Properties that come again -/

/-- The name of a property whose key is not refused. -/
def keyName : MemberName → Text
  | .plain text => text
  | .kindKey _ member => member
  | .computed text => text

/-- The names of the properties among members. -/
def propertyNames (members : List Member) : List Text :=
  members.filterMap fun
    | .property _ key .. => some (keyName key)
    | _ => none

/-- The property names of an object shape. -/
def Sight.propertyNames : Sight → List Text
  | type (.object _ members) => Schema.propertyNames members
  | type (.declared (.interface _ _ _ _ members)) => Schema.propertyNames members
  | _ => []

/-- No visited object shape has two properties of one name. -/
def NoRepeats (vs : List Visit) : Prop :=
  ∀ v ∈ vs, v.sight.propertyNames.Nodup

section NoRepeats

instance (vs : List Visit) : Decidable (NoRepeats vs) :=
  inferInstanceAs (Decidable (∀ v ∈ vs, v.sight.propertyNames.Nodup))

variable {v : Visit} {vs ws : List Visit}

theorem noRepeats_cons_iff :
    NoRepeats (v :: vs) ↔ v.sight.propertyNames.Nodup ∧ NoRepeats vs :=
  List.forall_mem_cons

theorem noRepeats_append_iff : NoRepeats (vs ++ ws) ↔ NoRepeats vs ∧ NoRepeats ws :=
  List.forall_mem_append

end NoRepeats

/-! ### References of a schema -/

/-- The schema refers to what the events are about, as often as they are. -/
def Quotes (events : List Event) (s : Schema) : Prop :=
  s.references.Perm (events.map Event.target)

section Quotes

variable (c : Context) {es fs : List Event} {s : Schema}

/-- The schemas of leaves refer to what is reported. -/
theorem Plain.quotes (h : Plain es s) : Quotes es s := by
  cases h <;> exact .of_eq (by rw [references]; rfl)

theorem referencesOfAll_append (ss ts : List Schema) :
    referencesOfAll (ss ++ ts) = referencesOfAll ss ++ referencesOfAll ts := by
  induction ss with
  | nil => rw [List.nil_append, referencesOfAll, List.nil_append]
  | cons s rest ih => rw [List.cons_append, referencesOfAll, referencesOfAll, ih, List.append_assoc]

theorem referencesOfAll_references (es : List Event) :
    referencesOfAll (es.map fun e => .reference e.target) = es.map Event.target := by
  induction es with
  | nil => rw [List.map_nil, List.map_nil, referencesOfAll]
  | cons e rest ih => rw [List.map_cons, List.map_cons, referencesOfAll, references, ih]; rfl

/-- The bases stand first in the schema and are visited last. -/
theorem withBases_quotes {own : Schema} {bases : List Schema} (hown : Quotes es own)
    (hbases : bases = fs.map fun e => .reference e.target) :
    Quotes (es ++ fs) (withBases bases own) := by
  have hall : (referencesOfAll bases ++ own.references).Perm ((es ++ fs).map Event.target) := by
    rw [hbases, referencesOfAll_references, List.map_append]
    exact (hown.append_left _).trans List.perm_append_comm
  unfold withBases
  split
  · next hempty =>
    rw [List.isEmpty_iff.1 hempty, referencesOfAll, List.nil_append] at hall
    exact hall
  · rw [Quotes, references, referencesOfAll_append, referencesOfAll, referencesOfAll,
      List.append_nil]
    exact hall

/-- The references of an object shape whose property names are distinct. -/
theorem references_ofProperties {ps : List Property} (h : (ps.map Property.name).Nodup) :
    (ofProperties ps).references = referencesOfAll (ps.map Property.schema) := by
  have hlist : Entries.ofList (ps.map fun p => (p.name, p.schema)) =
      ps.map fun p => (p.name, p.schema) := by
    rw [Entries.ofList, Entries.putAll_of_disjoint]
    · rfl
    · rw [Entries.keys, List.map_map]
      exact h
    · exact fun _ _ => List.not_mem_nil
  rw [ofProperties, references, hlist]
  clear h hlist
  induction ps with
  | nil => rw [List.map_nil, List.map_nil, referencesOfProperties, referencesOfAll]
  | cons p rest ih =>
    rw [List.map_cons, List.map_cons, referencesOfProperties, referencesOfAll, ih]

/-- A key that is not refused gives its name. -/
theorem keyOf_resolved (key : MemberName) :
    (keyOf c key).Ensures fun _ name => name = keyName key := by
  cases key with
  | plain text => exact Traced.ensures_pure.2 rfl
  | kindKey scope member =>
    rw [keyOf]
    refine Traced.ensures_after (Traced.reports_ofExcept _) fun isKey _ => ?_
    split
    · exact Traced.ensures_pure.2 rfl
    · exact Traced.ensures_fail _
  | computed text => exact Traced.ensures_fail _

/-- Members that are not refused are properties of their names. -/
theorem ofMembers_names (depth : Int) (members : List Member) :
    (ofMembers c depth members).Ensures fun _ ps =>
      ps.map Property.name = propertyNames members := by
  induction members with
  | nil =>
    rw [ofMembers]
    exact Traced.ensures_pure.2 rfl
  | cons member rest ih =>
    cases hproperty : propertyType? member with
    | none =>
      rw [ofMembers_refused hproperty]
      exact Traced.ensures_fail _
    | some type =>
      obtain ⟨text, key, optional, readonly, rfl⟩ := eq_property_of_type hproperty
      rw [ofMembers]
      refine Traced.ensures_bind.2 fun name hname => Traced.ensures_bind.2 fun s hs =>
        Traced.ensures_bind.2 fun ps hps => Traced.ensures_pure.2 ?_
      rw [List.map_cons, ih ps hps, keyOf_resolved c key name hname]
      rfl

/-- An object shape of members without a name that comes again refers to what its properties do. -/
theorem ofProperties_quotes {depth : Int} {members : List Member} {ps : List Property}
    (hnames : (propertyNames members).Nodup) (hps : (ofMembers c depth members).outcome = .ok ps)
    (h : (referencesOfAll (ps.map Property.schema)).Perm (es.map Event.target)) :
    Quotes es (ofProperties ps) := by
  rwa [Quotes, references_ofProperties (ofMembers_names c depth members ps hps ▸ hnames)]

-- An object shape refers to what its members do only if no name comes again, so the proviso is
-- handed down to the members of each visited shape.

theorem cases_quotes : Cases
    (fun type => ∀ (depth : Int) (n : Nat), NoRepeats (visitsFrom (skips c.options) n type) →
      (ofType c depth type).Ensures Quotes)
    (fun type? => ∀ (depth : Int) (n : Nat),
      NoRepeats (visitsOfPart (skips c.options) n type?) → (ofOptional c depth type?).Ensures Quotes)
    (fun types => ∀ (depth : Int) (n : Nat) (excluded : List Text),
      c.options.excludedTexts = .ok excluded →
      NoRepeats (visitsOfAlternatives (skips c.options) n types) →
        (ofUnionMembers c depth excluded types).Ensures fun es ss =>
          (referencesOfAll ss).Perm (es.map Event.target))
    (fun members => ∀ (depth : Int) (n : Nat),
      NoRepeats (visitsOfMembers (skips c.options) n members) →
        (ofMembers c depth members).Ensures fun es ps =>
          (referencesOfAll (ps.map Property.schema)).Perm (es.map Event.target)) where
  leaf h depth n _ := by
    rw [h.ofType_eq]
    exact Traced.ensures_after (within_reports ..) fun _ _ =>
      (h.plain c).imp fun _ _ => Plain.quotes
  array h depth n hvisits := by
    rw [visitsFrom, noRepeats_cons_iff] at hvisits
    rw [ofType]
    refine Traced.ensures_after (within_reports ..) fun _ _ => Traced.ensures_bind.2 fun s hs =>
      Traced.ensures_pure.2 ?_
    rw [Quotes, references, List.append_nil]
    exact h (depth + 1) (n + 1) hvisits.2 s hs
  union h depth n hvisits := by
    rw [visitsFrom, noRepeats_cons_iff] at hvisits
    rw [ofType]
    refine Traced.ensures_after (within_reports ..) fun _ _ =>
      Traced.ensures_after (Traced.reports_ofExcept _) fun excluded hex =>
        Traced.ensures_bind.2 fun ss hss => ?_
    have hss := h (depth + 1) (n + 1) excluded hex hvisits.2 ss hss
    refine (ofAlternatives_made c _ _ ss).imp ?_
    rintro _ _ ⟨rfl, rfl | ⟨rfl, rfl⟩⟩
    · rwa [Quotes, references, List.append_nil]
    · -- Nothing is left of the union, so nothing was reported.
      rw [referencesOfAll] at hss
      rwa [Quotes, references, List.append_nil]
  object h depth n hvisits := by
    rw [visitsFrom, noRepeats_cons_iff] at hvisits
    rw [ofType]
    refine Traced.ensures_after (within_reports ..) fun _ _ => Traced.ensures_bind.2 fun ps hps =>
      Traced.ensures_pure.2 ?_
    rw [List.append_nil]
    exact ofProperties_quotes c hvisits.1 hps (h (depth + 1) n hvisits.2 ps hps)
  parenthesized h depth n hvisits := by
    rw [visitsFrom, noRepeats_cons_iff] at hvisits
    rw [ofType]
    exact Traced.ensures_after (within_reports ..) fun _ _ => h (depth + 1) (n + 1) hvisits.2
  interface h depth n hvisits := by
    rw [visitsFrom, noRepeats_cons_iff, noRepeats_append_iff] at hvisits
    rw [ofType]
    refine Traced.ensures_after (within_reports ..) fun _ _ => Traced.ensures_bind.2 fun ps hps =>
      Traced.ensures_bind.2 fun bases hbases => Traced.ensures_pure.2 ?_
    rw [List.append_nil]
    refine withBases_quotes ?_ (ofBases_references c _ _ bases hbases)
    exact ofProperties_quotes c hvisits.1 hps (h (depth + 1) n hvisits.2.1 ps hps)
  present h depth n hvisits := by
    rw [visitsOfPart] at hvisits
    rw [ofOptional]
    exact h depth n hvisits
  absent depth n _ := by
    rw [ofOptional]
    exact Traced.ensures_after (within_reports ..) fun _ _ => Traced.ensures_fail _
  noMember depth n excluded _ _ := by
    rw [ofUnionMembers]
    exact Traced.ensures_pure.2 (.of_eq (by rw [referencesOfAll]; rfl))
  alternative h hrest depth n excluded hex hvisits := by
    rw [visitsOfAlternatives, skips_members hex] at hvisits
    rw [ofUnionMembers]
    split
    · next hin =>
      rw [if_pos hin] at hvisits
      exact hrest depth n excluded hex hvisits
    · next hout =>
      rw [if_neg hout, noRepeats_append_iff] at hvisits
      refine Traced.ensures_bind.2 fun s hs => Traced.ensures_bind.2 fun ss hss =>
        Traced.ensures_pure.2 ?_
      rw [referencesOfAll, List.append_nil, List.map_append]
      exact (h depth n hvisits.1 s hs).append (hrest depth n excluded hex hvisits.2 ss hss)
  noProperty depth n _ := by
    rw [ofMembers]
    exact Traced.ensures_pure.2 (.of_eq (by rw [List.map_nil, referencesOfAll]; rfl))
  property h hrest depth n hvisits := by
    rw [visitsOfMembers, noRepeats_cons_iff, noRepeats_append_iff] at hvisits
    rw [ofMembers]
    refine Traced.ensures_after (keyOf_reports ..) fun name _ => Traced.ensures_bind.2 fun s hs =>
      Traced.ensures_bind.2 fun ps hps => Traced.ensures_pure.2 ?_
    rw [List.map_cons, referencesOfAll, List.append_nil, List.map_append]
    exact (h depth (n + 1) hvisits.2.1 s hs).append (hrest depth n hvisits.2.2 ps hps)
  refused h _ depth n _ := by
    rw [ofMembers_refused h]
    exact Traced.ensures_fail _

/-- A schema refers to what is reported while it is made, as often, if no name comes again. -/
theorem ofType_quotes (depth : Int) {type : TypeExpr} (h : NoRepeats (visits c.options type)) :
    (ofType c depth type).Ensures Quotes :=
  (cases_quotes c).type type depth 0 h

end Quotes

/-- Calls, warnings and references of a schema are accounted for by the visits of its type: if the
schema is made, the calls are those for the names that are asked for, in order, there is one
warning for each node without a schema, and the schema refers to nothing else. It refers to all of
these, and to each as often, if no object shape repeats a property name. If the schema is not made,
the calls are a beginning of those. -/
theorem ofType_accounted (c : Context) (depth : Int) (type : TypeExpr) :
    (∀ s, (ofType c depth type).outcome = .ok s →
      calls c.scope (ofType c depth type).events =
          (askedAt c.options (visits c.options type)).map (·, c.scope) ∧
        warnings c.scope (ofType c depth type).events =
          (lackingAt (visits c.options type)).map (fun p => .schemaless c.scope p.1 p.2) ∧
        (∀ n ∈ s.toJson.references, n ∈ askedAt c.options (visits c.options type) ∨
          n ∈ (lackingAt (visits c.options type)).map Prod.snd) ∧
        (NoRepeats (visits c.options type) →
          s.toJson.references.Perm (askedAt c.options (visits c.options type) ++
            (lackingAt (visits c.options type)).map Prod.snd))) ∧
      ∀ f, (ofType c depth type).outcome = .error f →
        calls c.scope (ofType c depth type).events <+:
          (askedAt c.options (visits c.options type)).map (·, c.scope) := by
  -- What is reported and what is referred to are both the events of the visits.
  obtain ⟨hbegins, hall⟩ := ofType_reports c depth type
  have hperm := targets_eventsAt_perm c.options (visits c.options type)
  constructor
  · intro s hs
    rw [references_toJson, hall s hs]
    refine ⟨calls_eventsAt .., warnings_eventsAt .., fun n hn => ?_, fun hrepeats => ?_⟩
    · have hcites := law_cites.ofType_ensures c depth type s hs n hn
      rw [hall s hs] at hcites
      exact List.mem_append.1 (hperm.subset hcites)
    · have hquotes := ofType_quotes c depth hrepeats s hs
      rw [Quotes, hall s hs] at hquotes
      exact hquotes.trans hperm
  · intro _ _
    rw [← calls_eventsAt]
    exact hbegins.filterMap _

/-- An interface with a base, a reference among its members and a type without a schema. -/
def sampleDerived : TypeExpr :=
  .declared (.interface (.ofString "T") [] [] [⟨.ofString "Base", .ofString "Base", []⟩]
    [.property [] (.plain (.ofString "a"))
        (some (.reference (.ofString "A") (.ofString "A") [])) false false,
      .property [] (.plain (.ofString "b"))
        (some (.array [] (some (.keyword (.ofString "symbol") (.ofString "symbol")))))
        true false])

theorem ofType_accounted_sampleDerived :
    ∃ s, (ofType ⟨.empty, .defaults, .ofString "T"⟩ 0 sampleDerived).outcome = .ok s ∧
      calls (.ofString "T") (ofType ⟨.empty, .defaults, .ofString "T"⟩ 0 sampleDerived).events =
        [(.ofString "A", .ofString "T"), (.ofString "Base", .ofString "T")] ∧
      s.toJson.references.Perm [.ofString "A", .ofString "Base", .ofString "symbol"] := by
  have h := (ofType_accounted ⟨.empty, .defaults, .ofString "T"⟩ 0 sampleDerived).1 _ rfl
  exact ⟨_, rfl, h.1.trans rfl, h.2.2.2 (by decide)⟩

end DeclSchema.Schema
