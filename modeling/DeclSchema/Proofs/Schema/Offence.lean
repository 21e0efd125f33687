import DeclSchema.Proofs.Declaration.Literals
import DeclSchema.Proofs.Schema.Visit

/-!
# Offences

The schema of a type is not made if something that is visited offends: it lies too deep, or its
form is refused. What is not visited cannot offend, and of several offenders the first one counts.
A place that offends in both ways lies too deep, since the depth is compared first.

The options are taken to be usable, and the types to be read from a source, where no node lacks a
part and every literal is of a known kind.

## Main definitions

* `Options.AreUsable`: no option is of a sort that cannot be used
* `Schema.Refuses`, `Schema.Offends`: the forms that are refused, and the places that offend
* `Schema.Sight.fault`, `Schema.Visit.fault`: the faults they give rise to
* `Node.StandsFor`: the types that are made of the nodes of a declaration

## Main results

* `Schema.walk_outcome_eq_error_iff`: a walk fails at the first place that offends
* `Schema.ofType_fails_at_first`: so does the schema of a type that is read from a source
-/

namespace DeclSchema

/-! ### Usable options -/

/-- Every option that schemas depend on is of a sort that can be used. -/
structure Options.AreUsable (o : Options) : Prop where
  excluded : ∃ texts, o.excludedTexts = .ok texts
  markers : ∃ texts, o.markerTexts = .ok texts
  kindScope : ∀ scope, ∃ b, o.isKindScope scope = .ok b
  keyScope : ∀ scope, ∃ b, o.isKeyScope scope = .ok b
  depth : ∀ depth, ∃ b, o.exceeds depth = .ok b
  policy : ∃ policy, o.unionPolicy? = some policy

/-- Lists of texts have texts as their members. -/
theorem Options.textSet_texts (texts : List Text) :
    ∃ set, Options.textSet (.array (texts.map .text)) = .ok set := by
  have hnames : (texts.map Json.text).all fun m => (Name.ofJson? m).isSome := by
    rw [List.all_map]
    exact List.all_eq_true.2 fun _ _ => rfl
  exact ⟨_, if_pos hnames⟩

/-- Options whose values are of their own sorts are usable: lists of texts, an integer, and one of
the three policies. -/
theorem Options.areUsable_of_typed {o : Options}
    (hlists : ∀ key, key.isListing →
      ∃ texts : List Text, o.own? key = some (.array (texts.map .text)))
    (hdepth : ∃ limit, o.get .maxDepth = .integer limit)
    (hpolicy : ∃ policy, o.unionPolicy? = some policy) : o.AreUsable := by
  have hlisted : ∀ key, key.isListing →
      ∃ texts : List Text, o.listed key = .ok (.array (texts.map .text)) := by
    intro key hkey
    obtain ⟨texts, htexts⟩ := hlists key hkey
    exact ⟨texts, by rw [listed, htexts]⟩
  obtain ⟨limit, hlimit⟩ := hdepth
  -- All that conversion asks of the options is about one of the four lists, the limit or the
  -- policy.
  refine ⟨?_, ?_, fun scope => ?_, fun scope => ?_, fun depth => ?_, hpolicy⟩
  · obtain ⟨texts, htexts⟩ := hlisted .excludedUnionMembers rfl
    rw [excludedTexts, htexts]
    exact textSet_texts texts
  · obtain ⟨texts, htexts⟩ := hlisted .markerBases rfl
    rw [markerTexts, htexts]
    exact textSet_texts texts
  · obtain ⟨texts, htexts⟩ := hlisted .kindNamespaces rfl
    rw [isKindScope, htexts]
    exact ⟨_, rfl⟩
  · obtain ⟨texts, htexts⟩ := hlisted .kindKeyNamespaces rfl
    rw [isKeyScope, htexts]
    exact ⟨_, rfl⟩
  · rw [exceeds, hlimit]
    exact ⟨_, rfl⟩

theorem Options.areUsable_defaults : Options.defaults.AreUsable := by
  refine areUsable_of_typed ?_ ⟨200, rfl⟩ ⟨.refuse, rfl⟩
  have hlist : ∀ ts, ∃ texts : List Text, list ts = .array (texts.map .text) :=
    fun ts => ⟨ts.map .ofString, by rw [list, List.map_map]; rfl⟩
  intro key hkey
  cases key with
  | rootNames => exact (hlist _).imp fun _ h => congrArg some h
  | excludedUnionMembers => exact (hlist _).imp fun _ h => congrArg some h
  | markerBases => exact (hlist _).imp fun _ h => congrArg some h
  | kindNamespaces => exact (hlist _).imp fun _ h => congrArg some h
  | kindKeyNamespaces => exact (hlist _).imp fun _ h => congrArg some h
  | _ => cases hkey

namespace Schema

/-! ### What offends -/

section Offends

variable (c : Context)

/-- A key of a property that is not refused: a plain one, or a member of one of the namespaces for
keys. -/
def Allows : MemberName → Prop
  | .plain _ => True
  | .kindKey scope _ => c.options.isKeyScope scope = .ok true
  | .computed _ => False

/-- The name is that of a declared interface. -/
def DeclaresInterface (name : Text) : Prop :=
  ∃ n text parameters heritage members,
    c.table.get? name = some (.interface n text parameters heritage members)

/-- The form of what is visited is refused. -/
inductive Refuses : Sight → Prop where
  /-- A large integer. -/
  | bigint {text : Text} {value : LiteralValue} :
    Refuses (.type (.literal text (.ofString "bigint") value))
  /-- A member of a namespace that is none of the kinds. -/
  | foreign {text scope member : Text} (h : c.options.isKindScope scope = .ok false) :
    Refuses (.type (.qualified text scope member))
  /-- The collecting form with none or several arguments. -/
  | arity {text name : Text} {arguments : List TypeExpr} (hv : c.options.isValueOf name)
      (h : arguments.length ≠ 1) :
    Refuses (.type (.reference text name arguments))
  /-- The collecting form, applied to something else than an interface. -/
  | argument {text name : Text} {argument : TypeExpr} (hv : c.options.isValueOf name)
      (h : ¬DeclaresInterface c argument.text) :
    Refuses (.type (.reference text name [argument]))
  /-- A union of which nothing is left, where this is to be refused. -/
  | union {text : Text} {members : List TypeExpr} {excluded : List Text}
      (hex : c.options.excludedTexts = .ok excluded) (hne : members ≠ [])
      (hall : ∀ m ∈ members, m.text ∈ excluded)
      (hpolicy : c.options.unionPolicy? = some .refuse) :
    Refuses (.type (.union text members))
  /-- A member that is no property. -/
  | unexpected {member : Member}
      (h : ∀ text key type optional readonly,
        member ≠ .property text key type optional readonly) :
    Refuses (.member member)
  | untyped {text : Text} {key : MemberName} {optional readonly : Bool} :
    Refuses (.member (.property text key none optional readonly))
  | key {text : Text} {key : MemberName} {type : TypeExpr} {optional readonly : Bool}
      (h : ¬Allows c key) :
    Refuses (.member (.property text key (some type) optional readonly))

/-- The fault of a form that is refused. -/
def Sight.fault : Sight → Fault
  | type (.literal text kind _) => .unsupportedLiteral kind text
  | type (.qualified text _ _) => .foreignMember text
  | type (.reference _ name [argument]) =>
    if (c.table.get? argument.text).isSome then .valueOfNoInterface name argument.text
    else .valueOfUnknown name argument.text
  | type (.reference _ name _) => .valueOfArity name
  | type (.union text _) => .emptyUnion c.scope text
  | member (.property text _ none _ _) => .untypedMember c.scope text
  | member (.property _ key (some _) _ _) => .computedKey c.scope key.shown
  | member m => .unexpectedMember c.scope m.text
  | _ => .absentNode

variable (depth : Int) (v : Visit)

/-- What is visited lies too deep, where the walk starts at a depth. -/
def IsTooDeep : Prop :=
  v.sight.isNode ∧ c.options.exceeds (depth + v.steps) = .ok true

/-- What is visited lies too deep, or its form is refused. -/
def Offends : Prop :=
  IsTooDeep c depth v ∨ Refuses c v.sight

/-- The fault of what offends; the depth comes before the form. -/
def Visit.fault : Fault :=
  match v.sight.isNode, c.options.exceeds (depth + v.steps) with
  | true, .ok true => .tooDeep c.scope (c.options.get .maxDepth).shown
  | _, _ => v.sight.fault c

end Offends

/-! ### What is done at a visit -/

section Look

variable {c : Context}

/-- It is refused with a fault, or goes well. -/
def Settles (x : Traced Event Unit) (refused : Prop) (f : Fault) : Prop :=
  (refused ∧ x.outcome = .error f) ∨ (¬refused ∧ x.outcome = .ok ())

theorem settles_fail {refused : Prop} (h : refused) (f : Fault) :
    Settles (.fail f) refused f :=
  .inl ⟨h, rfl⟩

/-- What gives a value is not refused. -/
theorem settles_ending {x : Traced Event Schema} {refused : Prop} {s : Schema} (f : Fault)
    (h : ¬refused) (hx : x.outcome = .ok s) : Settles x.ending refused f :=
  .inr ⟨h, Traced.ending_outcome_eq_ok_iff.2 ⟨s, hx⟩⟩

theorem refuses_literal_iff {text kind : Text} {value : LiteralValue} :
    Refuses c (.type (.literal text kind value)) ↔ kind = .ofString "bigint" := by
  constructor
  · rintro ⟨⟩
    rfl
  · rintro rfl
    exact .bigint

theorem refuses_qualified_iff {text scope member : Text} :
    Refuses c (.type (.qualified text scope member)) ↔ c.options.isKindScope scope = .ok false := by
  constructor
  · intro h
    cases h with
    | foreign h => exact h
  · exact .foreign

theorem refuses_reference_iff {text name : Text} {arguments : List TypeExpr} :
    Refuses c (.type (.reference text name arguments)) ↔ c.options.isValueOf name ∧
      ∀ argument, arguments = [argument] → ¬DeclaresInterface c argument.text := by
  constructor
  · intro h
    cases h with
    | arity hv h =>
      refine ⟨hv, ?_⟩
      rintro argument rfl
      exact absurd rfl h
    | argument hv h =>
      refine ⟨hv, ?_⟩
      rintro argument ⟨⟩
      exact h
  · rintro ⟨hv, h⟩
    by_cases hlength : arguments.length = 1
    · obtain ⟨argument, rfl⟩ := List.length_eq_one_iff.1 hlength
      exact .argument hv (h argument rfl)
    · exact .arity hv hlength

theorem refuses_union_iff {text : Text} {members : List TypeExpr} {excluded : List Text}
    (hex : c.options.excludedTexts = .ok excluded) :
    Refuses c (.type (.union text members)) ↔ members ≠ [] ∧ (∀ m ∈ members, m.text ∈ excluded) ∧
      c.options.unionPolicy? = some .refuse := by
  constructor
  · intro h
    cases h with
    | union hex' hne hall hpolicy =>
      rw [hex] at hex'
      cases hex'
      exact ⟨hne, hall, hpolicy⟩
  · rintro ⟨hne, hall, hpolicy⟩
    exact .union hex hne hall hpolicy

theorem refuses_property_iff {text : Text} {key : MemberName} {type : TypeExpr}
    {optional readonly : Bool} :
    Refuses c (.member (.property text key (some type) optional readonly)) ↔ ¬Allows c key := by
  constructor
  · intro h
    cases h with
    | unexpected h => exact absurd rfl (h text key (some type) optional readonly)
    | key h => exact h
  · exact .key

theorem settles_literal {text kind : Text} {value : LiteralValue} (hkind : kind ∈ literalKinds) :
    Settles (lookAtType c (.literal text kind value))
      (Refuses c (.type (.literal text kind value))) (.unsupportedLiteral kind text) := by
  rw [refuses_literal_iff, lookAtType]
  simp only [literalKinds, List.map_cons, List.map_nil, List.mem_cons, List.not_mem_nil,
    or_false] at hkind
  rcases hkind with rfl | rfl | rfl | rfl | rfl
  · exact settles_ending _ (by decide) rfl
  · exact settles_ending _ (by decide) rfl
  · exact settles_fail rfl _
  · exact settles_ending _ (by decide) rfl
  · exact settles_ending _ (by decide) rfl

theorem settles_qualified (ho : c.options.AreUsable) (text scope member : Text) :
    Settles (lookAtType c (.qualified text scope member))
      (Refuses c (.type (.qualified text scope member))) (.foreignMember text) := by
  obtain ⟨b, hb⟩ := ho.kindScope scope
  rw [refuses_qualified_iff, lookAtType, ofQualified, hb]
  cases b with
  | true => exact settles_ending _ (by rintro ⟨⟩) rfl
  | false => exact settles_fail rfl _

theorem settles_collection {text name : Text} (hv : c.options.isValueOf name)
    (arguments : List TypeExpr) :
    Settles (ofCollection c name arguments).ending
      (Refuses c (.type (.reference text name arguments)))
      ((Sight.type (.reference text name arguments)).fault c) := by
  rw [refuses_reference_iff]
  unfold ofCollection
  split
  · next argument =>
    rw [Sight.fault]
    split
    · next hget =>
      exact settles_ending _ (fun h => h.2 argument rfl ⟨_, _, _, _, _, hget⟩) rfl
    · -- A declaration of another sort.
      next hno hget =>
      rw [hget]
      refine settles_fail ⟨hv, ?_⟩ _
      rintro _ ⟨⟩ ⟨_, _, _, _, _, hi⟩
      rw [hget] at hi
      exact hno _ _ _ _ _ (Option.some.inj hi)
    · next hget =>
      rw [hget]
      refine settles_fail ⟨hv, ?_⟩ _
      rintro _ ⟨⟩ ⟨_, _, _, _, _, hi⟩
      rw [hget] at hi
      cases hi
  · next hne =>
    rw [Sight.fault]
    · exact settles_fail ⟨hv, fun argument h => absurd h (hne argument)⟩ _
    · exact hne

theorem settles_reference (text name : Text) (arguments : List TypeExpr) :
    Settles (lookAtType c (.reference text name arguments))
      (Refuses c (.type (.reference text name arguments)))
      ((Sight.type (.reference text name arguments)).fault c) := by
  rw [lookAtType, ofReference]
  split
  · next hv => exact settles_collection hv arguments
  · next hv =>
    rw [refuses_reference_iff]
    exact settles_ending (s := .reference name) _ (fun h => hv h.1) rfl

theorem settles_union (ho : c.options.AreUsable) (text : Text) (members : List TypeExpr) :
    Settles (lookAtType c (.union text members)) (Refuses c (.type (.union text members)))
      (.emptyUnion c.scope text) := by
  obtain ⟨excluded, hex⟩ := ho.excluded
  obtain ⟨policy, hpolicy⟩ := ho.policy
  rw [refuses_union_iff hex, lookAtType, hex]
  change Settles (if members.all (·.text ∈ excluded) then _ else _) _ _
  split
  · next hall =>
    have hall : ∀ m ∈ members, m.text ∈ excluded := by simpa using hall
    -- All members are excluded, so there are no alternatives and the policy decides.
    unfold ofAlternatives
    cases members with
    | nil => exact settles_ending _ (fun h => h.1 rfl) rfl
    | cons m rest =>
      rw [if_neg (show ¬((!([] : List Schema).isEmpty || (m :: rest).isEmpty) = true) by simp),
        hpolicy]
      cases policy with
      | refuse => exact settles_fail ⟨List.cons_ne_nil _ _, hall, rfl⟩ _
      | anything => exact settles_ending _ (by rintro ⟨-, -, ⟨⟩⟩) rfl
      | nothing => exact settles_ending _ (by rintro ⟨-, -, ⟨⟩⟩) rfl
  · next hall => exact .inr ⟨fun h => hall (by simpa using h.2.1), rfl⟩

theorem settles_key (ho : c.options.AreUsable) (text : Text) (key : MemberName) (type : TypeExpr)
    (optional readonly : Bool) :
    Settles (lookAtMember c (.property text key (some type) optional readonly))
      (Refuses c (.member (.property text key (some type) optional readonly)))
      (.computedKey c.scope key.shown) := by
  rw [refuses_property_iff, lookAtMember]
  cases key with
  | plain name => exact .inr ⟨fun h => h trivial, rfl⟩
  | kindKey scope member =>
    obtain ⟨b, hb⟩ := ho.keyScope scope
    rw [Allows, keyOf, hb]
    cases b with
    | true => exact .inr ⟨fun h => h rfl, rfl⟩
    | false => exact settles_fail (by rintro ⟨⟩) _
  | computed name => exact settles_fail id _

theorem settles_member (ho : c.options.AreUsable) (member : Member) :
    Settles (lookAtMember c member) (Refuses c (.member member))
      ((Sight.member member).fault c) := by
  cases member with
  | property text key type optional readonly =>
    cases type with
    | some type => exact settles_key ho ..
    | none => exact settles_fail .untyped _
  | index => exact settles_fail (.unexpected nofun) _
  | method => exact settles_fail (.unexpected nofun) _
  | call => exact settles_fail (.unexpected nofun) _
  | bare => exact settles_fail (.unexpected nofun) _

/-- What is visited in types that are read from a source: no part is absent, and a literal is of a
known kind. -/
def Sight.IsRead : Sight → Prop
  | type (.literal _ kind _) => kind ∈ literalKinds
  | absence => False
  | _ => True

theorem settles_lookAt (ho : c.options.AreUsable) {s : Sight} (hs : s.IsRead) :
    Settles (lookAt c s) (Refuses c s) (s.fault c) := by
  cases s with
  | type type =>
    rw [lookAt]
    -- Only the first four can be refused.
    cases type with
    | union text members => exact settles_union ho text members
    | literal text kind value => exact settles_literal hs
    | reference text name arguments => exact settles_reference text name arguments
    | qualified text scope member => exact settles_qualified ho text scope member
    | heritage base =>
      rw [lookAtType, ofHeritage]
      split
      · exact settles_ending (s := .reference base.name) _ (by rintro ⟨⟩) rfl
      · exact settles_ending (s := .reference base.text) _ (by rintro ⟨⟩) rfl
    | keyword text word =>
      rw [lookAtType, ofKeyword]
      split
      · exact settles_ending _ (by rintro ⟨⟩) rfl
      · exact settles_ending (s := .reference text) _ (by rintro ⟨⟩) rfl
    | unsupported text sort => exact settles_ending (s := .reference text) _ (by rintro ⟨⟩) rfl
    | bare text => exact settles_ending (s := .reference text) _ (by rintro ⟨⟩) rfl
    | declared d =>
      cases d with
      | interface => exact .inr ⟨by rintro ⟨⟩, rfl⟩
      | enumeration name text => exact settles_ending (s := .reference text) _ (by rintro ⟨⟩) rfl
      | typeAlias name text => exact settles_ending (s := .reference text) _ (by rintro ⟨⟩) rfl
      | bare name text => exact settles_ending (s := .reference text) _ (by rintro ⟨⟩) rfl
    | array => exact .inr ⟨by rintro ⟨⟩, rfl⟩
    | parenthesized => exact .inr ⟨by rintro ⟨⟩, rfl⟩
    | object => exact .inr ⟨by rintro ⟨⟩, rfl⟩
  | absence => exact hs.elim
  | member member => exact settles_member ho member
  | clause =>
    obtain ⟨markers, hmarkers⟩ := ho.markers
    rw [lookAt, hmarkers]
    exact .inr ⟨by rintro ⟨⟩, rfl⟩

variable {depth : Int} {v : Visit}

theorem Visit.fault_of_isTooDeep (h : IsTooDeep c depth v) :
    v.fault c depth = .tooDeep c.scope (c.options.get .maxDepth).shown := by
  rw [fault, h.1, h.2]

theorem Visit.fault_of_not_isTooDeep (h : ¬IsTooDeep c depth v) :
    v.fault c depth = v.sight.fault c := by
  rw [fault]
  split
  · next hnode hexceeds => exact absurd ⟨hnode, hexceeds⟩ h
  · rfl

/-- At a visit that offends there is its fault, and nothing goes wrong at any other. -/
theorem settles_look (ho : c.options.AreUsable) (hv : v.sight.IsRead) :
    Settles (look c depth v) (Offends c depth v) (v.fault c depth) := by
  by_cases hdeep : IsTooDeep c depth v
  · rw [Visit.fault_of_isTooDeep hdeep, look_node hdeep.1, within, hdeep.2]
    exact settles_fail (.inl hdeep) _
  · rw [Visit.fault_of_not_isTooDeep hdeep]
    -- The depth is within the limit, so only what is seen can be refused.
    have hlook : look c depth v = lookAt c v.sight := by
      cases hnode : v.sight.isNode with
      | false => exact look_of_not_node hnode
      | true =>
        obtain ⟨b, hb⟩ := ho.depth (depth + v.steps)
        cases b with
        | true => exact absurd ⟨hnode, hb⟩ hdeep
        | false =>
          rw [look_node hnode, within, hb]
          rfl
    rw [hlook]
    rcases settles_lookAt ho hv with ⟨h, hf⟩ | ⟨h, hok⟩
    · exact .inl ⟨.inr h, hf⟩
    · exact .inr ⟨fun hoffends => hoffends.elim hdeep h, hok⟩

/-! ### Walks -/

/-- A walk fails at the first place that offends, with the fault of that place. -/
theorem walk_outcome_eq_error_iff (ho : c.options.AreUsable) {vs : List Visit}
    (hvs : ∀ v ∈ vs, v.sight.IsRead) {f : Fault} :
    (walk c depth vs).outcome = .error f ↔
      ∃ front v back, vs = front ++ v :: back ∧ (∀ u ∈ front, ¬Offends c depth u) ∧
        Offends c depth v ∧ f = v.fault c depth := by
  -- Each visit fails exactly if it offends, so the walk fails at the first one that does.
  have hok : ∀ v ∈ vs, (look c depth v).outcome = .ok () ↔ ¬Offends c depth v := by
    intro v hv
    rcases settles_look ho (hvs v hv) with ⟨h, hx⟩ | ⟨h, hx⟩
    · rw [hx]
      exact ⟨nofun, absurd h⟩
    · exact ⟨fun _ => h, fun _ => hx⟩
  have herror : ∀ v ∈ vs, (look c depth v).outcome = .error f ↔
      Offends c depth v ∧ f = v.fault c depth := by
    intro v hv
    rcases settles_look ho (hvs v hv) with ⟨h, hx⟩ | ⟨h, hx⟩
    · rw [hx]
      exact ⟨fun he => ⟨h, (Except.error.inj he).symm⟩, fun he => congrArg _ he.2.symm⟩
    · rw [hx]
      exact ⟨nofun, fun he => absurd he.1 h⟩
  rw [walk, Traced.forM_outcome_eq_error_iff]
  constructor
  · rintro ⟨front, v, back, rfl, hfront, hv⟩
    refine ⟨front, v, back, rfl, fun u hu => (hok u ?_).1 (hfront u hu), (herror v ?_).1 hv⟩
    · exact List.mem_append_left _ hu
    · exact List.mem_append_right _ List.mem_cons_self
  · rintro ⟨front, v, back, rfl, hfront, hv⟩
    refine ⟨front, v, back, rfl, fun u hu => (hok u ?_).2 (hfront u hu), (herror v ?_).2 hv⟩
    · exact List.mem_append_left _ hu
    · exact List.mem_append_right _ List.mem_cons_self

/-- A walk fails if some place offends. -/
theorem exists_walk_outcome_eq_error_iff (ho : c.options.AreUsable) {vs : List Visit}
    (hvs : ∀ v ∈ vs, v.sight.IsRead) :
    (∃ f, (walk c depth vs).outcome = .error f) ↔ ∃ v ∈ vs, Offends c depth v := by
  constructor
  · rintro ⟨f, hf⟩
    obtain ⟨front, v, back, rfl, -, hv, -⟩ := (walk_outcome_eq_error_iff ho hvs).1 hf
    exact ⟨v, List.mem_append_right _ List.mem_cons_self, hv⟩
  · rintro ⟨v, hv, hoffends⟩
    cases hwalk : (walk c depth vs).outcome with
    | error f => exact ⟨f, rfl⟩
    | ok u =>
      -- If nothing fails, then nothing offends.
      have hlook := Traced.forM_outcome_eq_ok_iff.1 hwalk v hv
      rcases settles_look ho (hvs v hv) with ⟨-, hx⟩ | ⟨h, -⟩
      · rw [hx] at hlook
        cases hlook
      · exact absurd hoffends h

end Look

/-! ### Types that are read from a source -/

section Read

variable {k : Skips}

theorem Leaf.isRead {type : TypeExpr} {x : Context → Traced Event Schema} (hx : Leaf type x)
    (h : (Node.type type).Everywhere Node.IsRead) : (Sight.type type).IsRead := by
  cases hx with
  | literal text kind value => exact h.here.2 _ _ _ rfl
  | qualified | reference | keyword | unsupported => trivial
  | heritage | bare | enumeration | typeAlias | declaration => exact h.here.1.elim

-- What is visited is the type itself or lies within one of its parts, and parts of nodes that lack
-- nothing lack nothing.

theorem cases_isRead : Cases
    (fun type => ∀ n, (Node.type type).Everywhere Node.IsRead →
      ∀ v ∈ visitsFrom k n type, v.sight.IsRead)
    (fun type? => ∀ n, type?.isSome →
      (∀ type, type? = some type → (Node.type type).Everywhere Node.IsRead) →
        ∀ v ∈ visitsOfPart k n type?, v.sight.IsRead)
    (fun types => ∀ n, (∀ type ∈ types, (Node.type type).Everywhere Node.IsRead) →
      ∀ v ∈ visitsOfAlternatives k n types, v.sight.IsRead)
    (fun members => ∀ n, (∀ m ∈ members, (Node.member m).Everywhere Node.IsRead) →
      ∀ v ∈ visitsOfMembers k n members, v.sight.IsRead) where
  leaf hx n h := by
    rw [hx.visitsFrom_eq, List.forall_mem_singleton]
    exact hx.isRead h
  array ih n h := by
    rw [visitsFrom, List.forall_mem_cons]
    exact ⟨trivial, ih (n + 1) h.here.1 fun type htype =>
      h.part (by rw [htype]; exact List.mem_singleton.2 rfl)⟩
  union ih n h := by
    rw [visitsFrom, List.forall_mem_cons]
    exact ⟨trivial, ih (n + 1) fun m hm => h.part (List.mem_map_of_mem hm)⟩
  object ih n h := by
    rw [visitsFrom, List.forall_mem_cons]
    exact ⟨trivial, ih n fun m hm => h.part (List.mem_map_of_mem hm)⟩
  parenthesized ih n h := by
    rw [visitsFrom, List.forall_mem_cons]
    exact ⟨trivial, ih (n + 1) h.here.1 fun type htype =>
      h.part (by rw [htype]; exact List.mem_singleton.2 rfl)⟩
  -- No source spells an interface in the place of a type.
  interface _ _ h := h.here.1.elim
  present ih n _ h := by
    rw [visitsOfPart]
    exact ih n (h _ rfl)
  absent _ h := nomatch h
  noMember n _ := by
    rw [visitsOfAlternatives]
    exact List.forall_mem_nil _
  alternative ih ihrest n h := by
    rw [List.forall_mem_cons] at h
    rw [visitsOfAlternatives]
    split
    · exact ihrest n h.2
    · rw [List.forall_mem_append]
      exact ⟨ih n h.1, ihrest n h.2⟩
  noProperty n _ := by
    rw [visitsOfMembers]
    exact List.forall_mem_nil _
  property ih ihrest n h := by
    rw [List.forall_mem_cons] at h
    rw [visitsOfMembers, List.forall_mem_cons, List.forall_mem_append]
    refine ⟨trivial, ih (n + 1) (h.1.part ?_), ihrest n h.2⟩
    exact List.mem_append_right _ (List.mem_singleton.2 rfl)
  refused hrefused ihrest n h := by
    rw [List.forall_mem_cons] at h
    rw [visitsOfMembers_refused hrefused, List.forall_mem_cons]
    exact ⟨trivial, ihrest n h.2⟩

end Read

end Schema

/-- The type that is made of a node: types stand for themselves, and so do entries of `extends`
clauses and interfaces, in the place of a type. -/
inductive Node.StandsFor : Node → TypeExpr → Prop where
  | type (T : TypeExpr) : StandsFor (.type T) T
  | heritage (base : Heritage) : StandsFor (.heritage base) (.heritage base)
  | interface {name text : Text} {parameters : List Text} {heritage : List Heritage}
      {members : List Member} :
    StandsFor (.declaration (.interface name text parameters heritage members))
      (.declared (.interface name text parameters heritage members))

namespace Schema

theorem visits_isRead {n : Node} {T : TypeExpr} (hT : n.StandsFor T)
    (h : n.Everywhere Node.IsRead) (o : Options) : ∀ v ∈ visits o T, v.sight.IsRead := by
  cases hT with
  | type => exact cases_isRead.type T 0 h
  | heritage base =>
    simp only [visits, visitsFrom, List.forall_mem_singleton]
    trivial
  | @interface name text parameters heritage members =>
    have hmembers : ∀ m ∈ members, (Node.member m).Everywhere Node.IsRead :=
      fun m hm => h.part (List.mem_append_right _ (List.mem_map_of_mem hm))
    rw [visits, visitsFrom, List.forall_mem_cons, List.forall_mem_append, List.forall_mem_cons]
    refine ⟨trivial, cases_isRead.shape members 0 hmembers, trivial, fun v hv => ?_⟩
    obtain ⟨base, -, rfl⟩ := List.mem_map.1 hv
    trivial

end Schema

/-- What holds of all nodes within a node holds of all nodes within the nodes within it. -/
theorem Node.Everywhere.within {p : Node → Prop} {n : Node} (h : n.Everywhere p) :
    n.Everywhere fun m => m.Everywhere p := by
  induction h with
  | intro here within ih => exact .intro (.intro here within) ih

namespace Schema

/-- The schema of a type or of an interface that is read from a source is refused exactly if some
place that is visited offends, and its fault is that of the first one that does. -/
theorem ofType_fails_at_first {input : List Char} {ds : List Declaration}
    (hinput : Declaration.ofSource input = .ok ds) (t : Table) {o : Options} (ho : o.AreUsable)
    (scope : Text) (depth : Int) :
    ∀ d ∈ ds, (Node.declaration d).Everywhere fun n => ∀ T, n.StandsFor T →
      ((∃ f, (ofType ⟨t, o, scope⟩ depth T).outcome = .error f) ↔
        ∃ v ∈ visits o T, Offends ⟨t, o, scope⟩ depth v) ∧
      ∀ f, (ofType ⟨t, o, scope⟩ depth T).outcome = .error f ↔
        ∃ front v back, visits o T = front ++ v :: back ∧
          (∀ u ∈ front, ¬Offends ⟨t, o, scope⟩ depth u) ∧
            Offends ⟨t, o, scope⟩ depth v ∧ f = v.fault ⟨t, o, scope⟩ depth := by
  intro d hd
  refine (Declaration.ofSource_isRead hinput d hd).within.imp fun n hn T hT => ?_
  have hvisits := visits_isRead hT hn o
  -- A schema is refused exactly if the walk over the visits of the type is.
  have hwalk : ∀ f, (ofType ⟨t, o, scope⟩ depth T).outcome = .error f ↔
      (walk ⟨t, o, scope⟩ depth (visits o T)).outcome = .error f := by
    intro f
    rw [← ofType_walk, Traced.ending_outcome_eq_error_iff]
  simp only [hwalk]
  exact ⟨exists_walk_outcome_eq_error_iff ho hvisits,
    fun f => walk_outcome_eq_error_iff ho hvisits⟩

/-- A large integer within an array: the array and the parentheses go well, the literal does not. -/
theorem ofType_fails_at_first_bigint :
    ∃ ds T f, Declaration.ofSource "type A = (1n)[];".toList = .ok ds ∧
      (∃ d ∈ ds, d.asType = some T) ∧
      (ofType ⟨.empty, .defaults, .ofString "A"⟩ 0 T).outcome = .error f ∧
      ∃ v ∈ visits .defaults T, Offends ⟨.empty, .defaults, .ofString "A"⟩ 0 v ∧
        f = v.fault ⟨.empty, .defaults, .ofString "A"⟩ 0 := by
  have hcheck : (Declaration.ofSource "type A = (1n)[];".toList).toOption.any fun ds =>
      ds.any fun d => d.asType.any fun T =>
        (ofType ⟨.empty, .defaults, .ofString "A"⟩ 0 T).outcome.toOption.isNone := by
    decide +kernel
  cases hds : Declaration.ofSource "type A = (1n)[];".toList with
  | error f =>
    rw [hds] at hcheck
    cases hcheck
  | ok ds =>
    rw [hds] at hcheck
    obtain ⟨d, hd, hfails⟩ := List.any_eq_true.1 hcheck
    obtain ⟨T, hT, hfails⟩ := (Option.any_eq_true _ _).1 hfails
    have hnode := ofType_fails_at_first hds .empty Options.areUsable_defaults (.ofString "A") 0 d hd
    cases hf : (ofType ⟨.empty, .defaults, .ofString "A"⟩ 0 T).outcome with
    | ok s =>
      rw [hf] at hfails
      cases hfails
    | error f =>
      have hstands : ∃ front v back, visits .defaults T = front ++ v :: back ∧
          (∀ u ∈ front, ¬Offends ⟨.empty, .defaults, .ofString "A"⟩ 0 u) ∧
            Offends ⟨.empty, .defaults, .ofString "A"⟩ 0 v ∧
              f = v.fault ⟨.empty, .defaults, .ofString "A"⟩ 0 := by
        cases d with
        | typeAlias =>
          rw [Declaration.asType] at hT
          cases hT
          have hpart := hnode.part (m := .type T) (List.mem_singleton.2 rfl)
          exact ((hpart.here T (.type T)).2 f).1 hf
        | interface =>
          cases hT
          exact ((hnode.here _ .interface).2 f).1 hf
        | _ =>
          -- The schema of any other declaration is a reference.
          cases hT
          cases hf
      obtain ⟨front, v, back, hvisits, -, hv, rfl⟩ := hstands
      refine ⟨ds, T, _, rfl, ⟨d, hd, hT⟩, hf, v, ?_, hv, rfl⟩
      rw [hvisits]
      exact List.mem_append_right _ List.mem_cons_self

end Schema

end DeclSchema
