import DeclSchema.Notice
import DeclSchema.Proofs.Schema.Law
import DeclSchema.Proofs.Schema.Visit

/-!
# What is asked for and what is reported at the visits of a type

What the making of a schema reports can be read off the visits: at a reference its name is asked
for, at a node without a schema of its own there is a warning, and nothing is reported elsewhere.
A fault cuts this short.

## Main definitions

* `Schema.calls`, `Schema.warnings`: what the events in a scope are
* `Schema.askedAt`, `Schema.lackingAt`: the names and the nodes without a schema at visits

## Main results

* `Schema.ofType_reports`: the events of a schema are those of the visits, as far as it gets
* `Schema.calls_eventsAt`, `Schema.warnings_eventsAt`: the calls and the warnings at visits
-/

namespace DeclSchema.Schema

/-! ### Events in a scope -/

/-- The calls for definitions: the names, each with the scope that asks for it. -/
def calls (scope : Text) (events : List Event) : List (Text × Text) :=
  events.filterMap fun
    | .asked name => some (name, scope)
    | .schemaless .. => none

/-- The warnings about nodes without a schema. -/
def warnings (scope : Text) (events : List Event) : List Notice :=
  events.filterMap fun
    | .asked _ => none
    | .schemaless sort text => some (.schemaless scope sort text)

/-! ### What visits report -/

namespace Sight

/-- The name that is asked for: that of a reference that does not collect values, or of an entry
of an `extends` clause without type arguments. -/
def asked? (o : Options) : Sight → Option Text
  | type (.reference _ name _) => if o.isValueOf name then none else some name
  | type (.heritage base) => if base.arguments.isEmpty then some base.name else none
  | _ => none

/-- The sort and the text of a node without a schema of its own. -/
def lacking? : Sight → Option (Text × Text)
  | type (.heritage base) =>
    if base.arguments.isEmpty then none
    else some (.ofString "ExpressionWithTypeArguments", base.text)
  | type (.keyword text word) =>
    if (keywordTypes.lookup word).isSome then none else some (word ++ .ofString " keyword", text)
  | type (.unsupported text sort) => some (sortShown sort, text)
  | type (.bare text) => some (.ofString "TypeNode", text)
  | type (.declared (.enumeration _ text _)) => some (.ofString "EnumDeclaration", text)
  | type (.declared (.typeAlias _ text _ _)) => some (.ofString "TypeAliasDeclaration", text)
  | type (.declared (.bare _ text)) => some (.ofString "Declaration", text)
  | _ => none

/-- What is reported. -/
def event? (o : Options) (s : Sight) : Option Event :=
  match s.asked? o with
  | some name => some (.asked name)
  | none => s.lacking?.map fun p => .schemaless p.1 p.2

variable {o : Options} {s : Sight}

/-- What is asked for has a schema of its own. -/
theorem lacking?_of_asked? {name : Text} (h : s.asked? o = some name) : s.lacking? = none := by
  unfold asked? at h
  split at h
  · rfl
  · next base =>
    split at h
    · next hbase => rw [lacking?, if_pos hbase]
    · cases h
  · cases h

theorem event?_of_lacking? {p : Text × Text} (h : s.lacking? = some p) :
    s.event? o = some (.schemaless p.1 p.2) := by
  have hasked : s.asked? o = none :=
    Option.eq_none_iff_forall_ne_some.2 fun name hname => by
      rw [lacking?_of_asked? hname] at h
      cases h
  rw [event?, hasked, h]
  rfl

end Sight

/-- The names that are asked for at visits, in order. -/
def askedAt (o : Options) (vs : List Visit) : List Text :=
  vs.filterMap fun v => v.sight.asked? o

/-- The sorts and the texts of the visited nodes without a schema, in order. -/
def lackingAt (vs : List Visit) : List (Text × Text) :=
  vs.filterMap fun v => v.sight.lacking?

/-- What is reported at visits, in order. -/
def eventsAt (o : Options) (vs : List Visit) : List Event :=
  vs.filterMap fun v => v.sight.event? o

section EventsAt

variable (o : Options) (scope : Text) (v : Visit) (vs : List Visit)

/-- A visit asks for a name, or it has a node without a schema, or nothing is reported at it. -/
theorem event_cases (v : Visit) :
    (∃ name, v.sight.asked? o = some name ∧ v.sight.lacking? = none ∧
      v.sight.event? o = some (.asked name)) ∨
    (∃ p, v.sight.asked? o = none ∧ v.sight.lacking? = some p ∧
      v.sight.event? o = some (.schemaless p.1 p.2)) ∨
    v.sight.asked? o = none ∧ v.sight.lacking? = none ∧ v.sight.event? o = none := by
  cases ha : v.sight.asked? o with
  | some name =>
    refine .inl ⟨name, rfl, Sight.lacking?_of_asked? ha, ?_⟩
    rw [Sight.event?, ha]
  | none =>
    cases hl : v.sight.lacking? with
    | some p => exact .inr (.inl ⟨p, rfl, rfl, Sight.event?_of_lacking? hl⟩)
    | none =>
      refine .inr (.inr ⟨rfl, rfl, ?_⟩)
      rw [Sight.event?, ha, hl]
      rfl

theorem calls_eventsAt : calls scope (eventsAt o vs) = (askedAt o vs).map (·, scope) := by
  rw [calls, eventsAt, askedAt, List.filterMap_filterMap, List.map_filterMap]
  refine List.filterMap_congr fun v _ => ?_
  obtain ⟨name, ha, -, he⟩ | ⟨p, ha, -, he⟩ | ⟨ha, -, he⟩ := event_cases o v
  all_goals
    rw [ha, he]
    rfl

theorem warnings_eventsAt :
    warnings scope (eventsAt o vs) =
      (lackingAt vs).map fun p => .schemaless scope p.1 p.2 := by
  rw [warnings, eventsAt, lackingAt, List.filterMap_filterMap, List.map_filterMap]
  refine List.filterMap_congr fun v _ => ?_
  obtain ⟨name, -, hl, he⟩ | ⟨p, -, hl, he⟩ | ⟨-, hl, he⟩ := event_cases o v
  all_goals
    rw [hl, he]
    rfl

/-- The events are about the names that are asked for and the texts of nodes without a schema. -/
theorem targets_eventsAt_perm :
    ((eventsAt o vs).map Event.target).Perm (askedAt o vs ++ (lackingAt vs).map Prod.snd) := by
  induction vs with
  | nil => exact .nil
  | cons v vs ih =>
    rw [eventsAt, askedAt, lackingAt, List.filterMap_cons, List.filterMap_cons,
      List.filterMap_cons]
    obtain ⟨name, ha, hl, he⟩ | ⟨p, ha, hl, he⟩ | ⟨ha, hl, he⟩ := event_cases o v
    · rw [ha, hl, he]
      exact ih.cons _
    · -- The text goes behind all names.
      rw [ha, hl, he]
      exact (ih.cons _).trans List.perm_middle.symm
    · rw [ha, hl, he]
      exact ih

end EventsAt

/-! ### Reports of a walk -/

section Walk

variable (c : Context)

theorem ask_reports (name : Text) : (ask name).Reports [.asked name] :=
  (Traced.reports_emit _).bind fun _ _ => Traced.reports_pure _

theorem placeholder_reports (sort text : Text) :
    (placeholder sort text).Reports [.schemaless sort text] :=
  (Traced.reports_emit _).bind fun _ _ => Traced.reports_pure _

theorem ofCollection_reports (name : Text) (arguments : List TypeExpr) :
    (ofCollection c name arguments).Reports [] := by
  unfold ofCollection
  split
  · split
    · exact Traced.reports_pure _
    · exact Traced.reports_fail _ _
    · exact Traced.reports_fail _ _
  · exact Traced.reports_fail _ _

theorem ofLiteral_reports (text kind : Text) (value : LiteralValue) :
    (ofLiteral text kind value).Reports [] := by
  unfold ofLiteral
  split
  · exact Traced.reports_pure _
  · split
    · exact Traced.reports_pure _
    · exact Traced.reports_fail _ _

theorem ofQualified_reports (text scope member : Text) :
    (ofQualified c text scope member).Reports [] := by
  refine (Traced.reports_ofExcept _).after fun isKind _ => ?_
  split
  · exact Traced.reports_pure _
  · exact Traced.reports_fail _ _

theorem ofAlternatives_reports (text : Text) (members : List TypeExpr)
    (alternatives : List Schema) : (ofAlternatives c text members alternatives).Reports [] := by
  unfold ofAlternatives
  split
  · exact Traced.reports_pure _
  · split
    · exact Traced.reports_pure _
    · exact Traced.reports_pure _
    · exact Traced.reports_fail _ _

theorem keyOf_reports (key : MemberName) : (keyOf c key).Reports [] := by
  cases key with
  | plain text => exact Traced.reports_pure _
  | kindKey scope member =>
    rw [keyOf]
    refine (Traced.reports_ofExcept _).after fun isKey _ => ?_
    split
    · exact Traced.reports_pure _
    · exact Traced.reports_fail _ _
  | computed text => exact Traced.reports_fail _ _

theorem lookAtType_reports (type : TypeExpr) :
    (lookAtType c type).Reports ((Sight.type type).event? c.options).toList := by
  unfold lookAtType
  split
  · exact Traced.reports_pure _
  · exact Traced.reports_pure _
  · exact Traced.reports_pure _
  · exact Traced.reports_pure _
  -- A union reports something only if all of its members are excluded.
  · refine (Traced.reports_ofExcept _).after fun excluded _ => ?_
    split
    · exact Traced.reports_ending_iff.2 (ofAlternatives_reports ..)
    · exact Traced.reports_pure _
  · exact Traced.reports_ending_iff.2 (ofLiteral_reports ..)
  · next base =>
    rw [Traced.reports_ending_iff, ofHeritage, Sight.event?, Sight.asked?, Sight.lacking?]
    split
    · exact ask_reports _
    · exact placeholder_reports _ _
  · exact Traced.reports_ending_iff.2 (ofQualified_reports ..)
  · next name arguments =>
    rw [Traced.reports_ending_iff, ofReference, Sight.event?, Sight.asked?]
    split
    · exact ofCollection_reports ..
    · exact ask_reports _
  · next text word =>
    rw [Traced.reports_ending_iff, ofKeyword, Sight.event?, Sight.asked?, Sight.lacking?]
    · split
      · next htype =>
        rw [htype]
        exact Traced.reports_pure _
      · next htype =>
        rw [htype]
        exact placeholder_reports _ _
    all_goals (intros; simp_all only [Sight.type.injEq, reduceCtorEq])
  -- All others have no schema.
  all_goals exact Traced.reports_ending_iff.2 (placeholder_reports ..)

theorem lookAtMember_reports (member : Member) : (lookAtMember c member).Reports [] := by
  unfold lookAtMember
  split
  · exact Traced.reports_ending_iff.2 (keyOf_reports ..)
  · exact Traced.reports_fail _ _
  · exact Traced.reports_fail _ _

theorem lookAt_reports (s : Sight) : (lookAt c s).Reports (s.event? c.options).toList := by
  cases s with
  | type type => exact lookAtType_reports c type
  | absence => exact Traced.reports_fail _ _
  | member member => exact lookAtMember_reports c member
  | clause => exact Traced.reports_ending_iff.2 (Traced.reports_ofExcept _)

theorem look_reports (depth : Int) (v : Visit) :
    (look c depth v).Reports (v.sight.event? c.options).toList := by
  cases h : v.sight.isNode with
  | true =>
    rw [look_node h]
    exact (within_reports ..).after fun _ _ => lookAt_reports c v.sight
  | false =>
    rw [look_of_not_node h]
    exact lookAt_reports c v.sight

/-- What is reported while the schema of a type is made is what its visits report. -/
theorem ofType_reports (depth : Int) (type : TypeExpr) :
    (ofType c depth type).Reports (eventsAt c.options (visits c.options type)) := by
  rw [← Traced.reports_ending_iff, ofType_walk, eventsAt, List.filterMap_eq_flatMap_toList]
  exact Traced.reports_forM (look_reports c depth)

end Walk

end DeclSchema.Schema
