import DeclSchema.Proofs.Schema.Exclusion
import DeclSchema.Proofs.Schema.Visit

/-!
# Erasing what is excluded

What the options exclude is passed over while a schema is made. It could as well be erased from the
type beforehand, at all levels, and nothing be excluded afterwards: the same nodes are visited at the
same depths and in the same order, so the same is asked for and reported, and the schema or the fault
is the same. The one exception is a union that loses all its members. Where that is to be refused or
to stand for any value, an erased union, which has no members, cannot be told from a union of none.

## Main definitions

* `TypeExpr.erase`: a type without what is passed over
* `Options.excludingNothing`: the same options, except that they exclude nothing
* `Schema.Reached`: the places that the walk through a type gets to

## Main results

* `Schema.ofType_erase`: the schema of a type is that of the erased type
-/

namespace DeclSchema

/-! ### Erased types -/

section Erase

variable (k : Schema.Skips)

mutual

/-- A type without the members of unions and the bases of interfaces that are passed over. All texts
are kept, and so is what is not looked into, such as type arguments. -/
def TypeExpr.erase : TypeExpr → TypeExpr
  | .array text element => .array text (eraseOptional element)
  | .union text members => .union text (eraseAlternatives members)
  | .object text members => .object text (eraseMembers members)
  | .parenthesized text inner => .parenthesized text (eraseOptional inner)
  | .declared (.interface name text typeParameters heritage members) =>
    .declared (.interface name text typeParameters
      (heritage.filter fun base => base.text ∉ k.bases) (eraseMembers members))
  | type => type

/-- A part of a node, erased if it is there. -/
def eraseOptional : Option TypeExpr → Option TypeExpr
  | some type => some type.erase
  | none => none

/-- The members of a union that are left, erased. -/
def eraseAlternatives : List TypeExpr → List TypeExpr
  | [] => []
  | type :: rest =>
    if type.text ∈ k.members then eraseAlternatives rest
    else type.erase :: eraseAlternatives rest

/-- The members of an object shape with their types erased. -/
def eraseMembers : List Member → List Member
  | [] => []
  | .property text key type optional readonly :: rest =>
    .property text key (eraseOptional type) optional readonly :: eraseMembers rest
  | member :: rest => member :: eraseMembers rest

end

end Erase

/-- The same options, except that they exclude no members of unions and no bases. -/
def Options.excludingNothing (o : Options) : Options :=
  (o.set .excludedUnionMembers (.array [])).set .markerBases (.array [])

theorem Options.excludedTexts_excludingNothing (o : Options) :
    o.excludingNothing.excludedTexts = .ok [] :=
  rfl

theorem Options.markerTexts_excludingNothing (o : Options) :
    o.excludingNothing.markerTexts = .ok [] :=
  rfl

theorem Options.excludingNothing_excludesMore {o : Options} {excluded markers : List Text}
    (hexcluded : o.excludedTexts = .ok excluded) (hmarkers : o.markerTexts = .ok markers) :
    o.excludingNothing.ExcludesMore o where
  own key hmembers hbases := by simp [excludingNothing, set, hmembers, hbases]
  displaced := rfl
  members := ⟨[], excluded, rfl, hexcluded, List.nil_subset _⟩
  bases := ⟨[], markers, rfl, hmarkers, List.nil_subset _⟩

namespace Schema

/-! ### What the walk gets to -/

/-- The walk through a list of visits gets to one of them: all before it go well. -/
def Reached (c : Context) (depth : Int) (vs : List Visit) (v : Visit) : Prop :=
  ∃ front back, vs = front ++ v :: back ∧ (walk c depth front).outcome = .ok ()

/-- Whether a union has a member that is not passed over, if it has any. -/
def Sight.keeps (k : Skips) : Sight → Bool
  | .type (.union _ members) => members.isEmpty || members.any fun m => m.text ∉ k.members
  | _ => true

theorem keeps_union_iff {k : Skips} {text : Text} {members : List TypeExpr} :
    (Sight.type (.union text members)).keeps k ↔
      members = [] ∨ ∃ m ∈ members, m.text ∉ k.members := by
  simp [Sight.keeps]

/-- Every union that the walk gets to keeps a member, or may lose all. -/
def Spared (c : Context) (depth : Int) (vs : List Visit) : Prop :=
  ∀ v, Reached c depth vs v →
    v.sight.keeps (skips c.options) ∨ c.options.unionPolicy? = some .nothing

section Spared

variable {c : Context} {depth : Int} {us vs : List Visit}

theorem Reached.append {v : Visit} (h : Reached c depth us v) (vs : List Visit) :
    Reached c depth (us ++ vs) v := by
  obtain ⟨front, back, rfl, hfront⟩ := h
  exact ⟨front, back ++ vs, by rw [List.append_assoc, List.cons_append], hfront⟩

theorem Reached.prepend {v : Visit} (h : Reached c depth vs v)
    (hus : (walk c depth us).outcome = .ok ()) : Reached c depth (us ++ vs) v := by
  obtain ⟨front, back, rfl, hfront⟩ := h
  refine ⟨us ++ front, back, (List.append_assoc ..).symm, ?_⟩
  rw [walk_append, Traced.bind_ok hus]
  exact hfront

theorem Spared.left (h : Spared c depth (us ++ vs)) : Spared c depth us :=
  fun v hv => h v (hv.append vs)

theorem Spared.right (h : Spared c depth (us ++ vs)) (hus : (walk c depth us).outcome = .ok ()) :
    Spared c depth vs :=
  fun v hv => h v (hv.prepend hus)

theorem Spared.tail {v : Visit} (h : Spared c depth (v :: vs))
    (hv : (look c depth v).outcome = .ok ()) : Spared c depth vs := by
  refine Spared.right (show Spared c depth ([v] ++ vs) from h) ?_
  rw [walk_cons, Traced.bind_ok hv]
  rfl

end Spared

/-- At a type that is not too deep, only its own form is looked at. -/
theorem look_type_of_within {c : Context} {depth : Int} {n : Nat} {type : TypeExpr}
    (hw : (within c (depth + n)).outcome = .ok ())
    (ht : (lookAtType c type).outcome = .ok ()) :
    (look c depth ⟨n, .type type⟩).outcome = .ok () := by
  rw [look_node rfl, Traced.bind_ok hw]
  exact ht

section Erasure

variable {t : Table} {o : Options} {scope : Text} {excluded markers : List Text}

/-! ### Leaves and refused members -/

theorem Leaf.erase_eq {type : TypeExpr} {x : Context → Traced Event Schema} (h : Leaf type x)
    (k : Skips) : type.erase k = type := by
  cases h <;> simp only [TypeExpr.erase]

theorem eraseMembers_refused {member : Member} (h : propertyType? member = none) (k : Skips)
    (rest : List Member) : eraseMembers k (member :: rest) = member :: eraseMembers k rest := by
  cases member with
  | property text key type? optional readonly =>
    obtain rfl : type? = none := h
    rw [eraseMembers, eraseOptional]
  | _ =>
    rw [eraseMembers]
    nofun

/-! ### Unions and bases -/

theorem eraseAlternatives_of_all {k : Skips} {members : List TypeExpr}
    (h : ∀ m ∈ members, m.text ∈ k.members) : eraseAlternatives k members = [] := by
  induction members with
  | nil => rw [eraseAlternatives]
  | cons type rest ih =>
    rw [eraseAlternatives, if_pos (h type List.mem_cons_self)]
    exact ih fun m hm => h m (List.mem_cons_of_mem _ hm)

/-- A union that loses all its members without harm has no alternatives. -/
theorem ofAlternatives_of_lost {c : Context} {text : Text} {members : List TypeExpr}
    (hall : ∀ m ∈ members, m.text ∈ (skips c.options).members)
    (hkeeps : (Sight.type (.union text members)).keeps (skips c.options) ∨
      c.options.unionPolicy? = some .nothing) :
    ofAlternatives c text members [] = pure (.oneOf []) := by
  rcases hkeeps with hkeeps | hpolicy
  · rcases keeps_union_iff.1 hkeeps with hnil | ⟨m, hm, hkept⟩
    · exact ofAlternatives_of_left (.inr hnil)
    · exact absurd (hall m hm) hkept
  · rw [ofAlternatives, hpolicy]
    split <;> rfl

/-- A union that keeps a member, or may lose all, is not refused. -/
theorem lookAtType_union_of_keeps {c : Context} {text : Text} {members : List TypeExpr}
    (hexcluded : c.options.excludedTexts = .ok excluded)
    (hkeeps : (Sight.type (.union text members)).keeps (skips c.options) ∨
      c.options.unionPolicy? = some .nothing) :
    (lookAtType c (.union text members)).outcome = .ok () := by
  simp only [lookAtType]
  rw [hexcluded]
  change (if members.all (·.text ∈ excluded) then (ofAlternatives c text members []).ending
    else pure ()).outcome = _
  split
  · next hall =>
    rw [ofAlternatives_of_lost ?_ hkeeps, Traced.ending_pure]
    · rfl
    · rw [skips_members hexcluded]
      simpa using hall
  · rfl

/-- The alternatives of a union come to the same schema as those of the erased one. -/
theorem ofAlternatives_erase {c c' : Context} {text : Text} {d : Int} {members : List TypeExpr}
    {alternatives : List Schema} (hexcluded : c.options.excludedTexts = .ok excluded)
    (ha : (ofUnionMembers c d excluded members).outcome = .ok alternatives)
    (hkeeps : (Sight.type (.union text members)).keeps (skips c.options) ∨
      c.options.unionPolicy? = some .nothing) :
    ofAlternatives c text members alternatives =
      ofAlternatives c' text (eraseAlternatives (skips c.options) members) alternatives := by
  by_cases hnil : alternatives = []
  · subst hnil
    have hall : ∀ m ∈ members, m.text ∈ (skips c.options).members := by
      rw [skips_members hexcluded]
      exact (alternatives_eq_nil_iff ha).1 rfl
    rw [ofAlternatives_of_lost hall hkeeps, eraseAlternatives_of_all hall,
      ofAlternatives_of_left (.inr rfl)]
  · rw [ofAlternatives_of_left (.inl hnil), ofAlternatives_of_left (.inl hnil)]

theorem ofBases_erase (h : o.excludingNothing.ExcludesMore o)
    (hmarkers : o.markerTexts = .ok markers) (depth : Int) (heritage : List Heritage) :
    ofBases ⟨t, o, scope⟩ depth heritage =
      ofBases ⟨t, o.excludingNothing, scope⟩ depth
        (heritage.filter fun base => base.text ∉ (skips o).bases) := by
  have hbase : ofBase ⟨t, o, scope⟩ depth = ofBase ⟨t, o.excludingNothing, scope⟩ depth :=
    funext fun base => ofBase_eq h scope depth base
  rw [ofBases, ofBases, hbase, o.markerTexts_excludingNothing, hmarkers, skips_bases hmarkers]
  -- Of the bases that are left, no further one is left out.
  change List.mapM _ _ = List.mapM _ (List.filter _ _)
  rw [List.filter_eq_self.2 fun base _ => decide_eq_true List.not_mem_nil]

/-! ### Schemas of erased types -/

-- What is left of a part is visited on both sides, and as long as everything goes well the walk gets
-- to the next part.

theorem cases_erase (h : o.excludingNothing.ExcludesMore o) (depth : Int) : Cases
    (fun type => ∀ n : Nat, Spared ⟨t, o, scope⟩ depth (visitsFrom (skips o) n type) →
      ofType ⟨t, o, scope⟩ (depth + n) type =
        ofType ⟨t, o.excludingNothing, scope⟩ (depth + n) (type.erase (skips o)))
    (fun type? => ∀ n : Nat, Spared ⟨t, o, scope⟩ depth (visitsOfPart (skips o) n type?) →
      ofOptional ⟨t, o, scope⟩ (depth + n) type? =
        ofOptional ⟨t, o.excludingNothing, scope⟩ (depth + n) (eraseOptional (skips o) type?))
    (fun types => ∀ (n : Nat) (texts : List Text), o.excludedTexts = .ok texts →
      Spared ⟨t, o, scope⟩ depth (visitsOfAlternatives (skips o) n types) →
      ofUnionMembers ⟨t, o, scope⟩ (depth + n) texts types =
        ofUnionMembers ⟨t, o.excludingNothing, scope⟩ (depth + n) []
          (eraseAlternatives (skips o) types))
    (fun members => ∀ n : Nat, Spared ⟨t, o, scope⟩ depth (visitsOfMembers (skips o) n members) →
      ofMembers ⟨t, o, scope⟩ (depth + (n + 1 : Nat)) members =
        ofMembers ⟨t, o.excludingNothing, scope⟩ (depth + (n + 1 : Nat))
          (eraseMembers (skips o) members)) where
  leaf hx n _ := by
    rw [hx.erase_eq, hx.ofType_eq, hx.ofType_eq, within_eq h, hx.eq_of_more h]
  array ih n hs := by
    rw [visitsFrom] at hs
    rw [TypeExpr.erase, ofType, ofType, ← within_eq h]
    refine Traced.bind_congr_of_ok fun _ hw => ?_
    rw [depth_step, ih (n + 1) (hs.tail (look_type_of_within hw rfl))]
  union ih n hs := by
    obtain ⟨-, excluded, -, hexcluded, -⟩ := h.members
    rw [visitsFrom] at hs
    rw [TypeExpr.erase, ofType, ofType, ← within_eq h]
    refine Traced.bind_congr_of_ok fun _ hw => ?_
    -- The union itself is visited, so it keeps a member or may be empty.
    have hkeeps := hs _ ⟨[], _, rfl, rfl⟩
    have hparts := hs.tail (look_type_of_within hw (lookAtType_union_of_keeps hexcluded hkeeps))
    rw [o.excludedTexts_excludingNothing, hexcluded]
    change ofUnionMembers ⟨t, o, scope⟩ _ excluded _ >>= _ =
      ofUnionMembers ⟨t, o.excludingNothing, scope⟩ _ [] (eraseAlternatives (skips o) _) >>= _
    rw [depth_step, ← ih (n + 1) excluded hexcluded hparts]
    exact Traced.bind_congr_of_ok fun _ ha => ofAlternatives_erase hexcluded ha hkeeps
  object ih n hs := by
    rw [visitsFrom] at hs
    rw [TypeExpr.erase, ofType, ofType, ← within_eq h]
    refine Traced.bind_congr_of_ok fun _ hw => ?_
    rw [depth_step, ih n (hs.tail (look_type_of_within hw rfl))]
  parenthesized ih n hs := by
    rw [visitsFrom] at hs
    rw [TypeExpr.erase, ofType, ofType, ← within_eq h]
    refine Traced.bind_congr_of_ok fun _ hw => ?_
    rw [depth_step, ih (n + 1) (hs.tail (look_type_of_within hw rfl))]
  interface ih n hs := by
    obtain ⟨-, markers, -, hmarkers, -⟩ := h.bases
    rw [visitsFrom] at hs
    rw [TypeExpr.erase, ofType, ofType, ← within_eq h]
    refine Traced.bind_congr_of_ok fun _ hw => ?_
    have hmembers := (hs.tail (look_type_of_within hw rfl)).left
    rw [depth_step, ih n hmembers, ofBases_erase h hmarkers]
  present ih n hs := by
    rw [visitsOfPart] at hs
    rw [eraseOptional, ofOptional, ofOptional, ih n hs]
  absent n _ := by
    rw [eraseOptional, ofOptional, ofOptional, within_eq h]
  noMember n texts _ _ := by
    rw [eraseAlternatives, ofUnionMembers, ofUnionMembers]
  alternative ih ihrest n texts htexts hs := by
    have hskips := skips_members htexts
    rw [visitsOfAlternatives, hskips] at hs
    rw [eraseAlternatives, ofUnionMembers, hskips]
    split
    · next hmem =>
      rw [if_pos hmem] at hs
      exact ihrest n texts htexts hs
    · next hmem =>
      rw [if_neg hmem] at hs
      rw [ofUnionMembers, if_neg List.not_mem_nil, ← ih n hs.left]
      -- The members behind this one are visited only if all goes well with it.
      refine Traced.bind_congr_of_ok fun schema hschema => ?_
      have hwalk := Traced.ending_outcome_eq_ok_iff.2 ⟨schema, hschema⟩
      rw [ofType_ending] at hwalk
      rw [ihrest n texts htexts (hs.right hwalk)]
  noProperty n _ := by
    rw [eraseMembers, ofMembers, ofMembers]
  property ih ihrest n hs := by
    rw [visitsOfMembers] at hs
    rw [eraseMembers, eraseOptional, ofMembers, ofMembers, ← keyOf_eq h]
    refine Traced.bind_congr_of_ok fun name hname => ?_
    have hs := hs.tail (Traced.ending_outcome_eq_ok_iff.2 ⟨name, hname⟩)
    rw [← ih (n + 1) hs.left]
    refine Traced.bind_congr_of_ok fun schema hschema => ?_
    have hwalk := Traced.ending_outcome_eq_ok_iff.2 ⟨schema, hschema⟩
    rw [ofType_ending] at hwalk
    rw [ihrest n (hs.right hwalk)]
  refused hrefused _ n _ := by
    rw [eraseMembers_refused hrefused, ofMembers_refused hrefused, ofMembers_refused hrefused]

end Erasure

/-- **Excluding is erasing.** If every union that the walk through a type gets to keeps a member, or if
empty unions stand for no value, then the schema of the type is made as that of the erased type would
be if nothing were excluded: with the same result, which is a schema or a fault, and with the same
events before it, in the same order. -/
theorem ofType_erase (t : Table) {o : Options} (scope : Text) (depth : Int) (type : TypeExpr)
    (hexcluded : ∃ texts, o.excludedTexts = .ok texts) (hmarkers : ∃ texts, o.markerTexts = .ok texts)
    (hkeeps : (∀ v, Reached ⟨t, o, scope⟩ depth (visits o type) v → v.sight.keeps (skips o)) ∨
      o.unionPolicy? = some .nothing) :
    ofType ⟨t, o, scope⟩ depth type =
      ofType ⟨t, o.excludingNothing, scope⟩ depth (type.erase (skips o)) := by
  obtain ⟨excluded, hexcluded⟩ := hexcluded
  obtain ⟨markers, hmarkers⟩ := hmarkers
  have h := Options.excludingNothing_excludesMore hexcluded hmarkers
  have hzero : depth + ((0 : Nat) : Int) = depth := Int.add_zero depth
  have hs : Spared ⟨t, o, scope⟩ depth (visitsFrom (skips o) 0 type) := by
    intro v hv
    rcases hkeeps with hkeeps | hpolicy
    · exact .inl (hkeeps v hv)
    · exact .inr hpolicy
  have heq := (cases_erase h depth).type type 0 hs
  rwa [hzero] at heq

/-- An interface with a marker among its bases and excluded members in two unions. -/
def sampleMarked : TypeExpr :=
  .declared (.interface (.ofString "T") [] []
    [⟨.ofString "BaseNode", .ofString "BaseNode", []⟩, ⟨.ofString "Named", .ofString "Named", []⟩]
    [.property [] (.plain (.ofString "a")) (some (union "RegExp" "A")) false false,
      .property [] (.plain (.ofString "b"))
        (some (.array [] (some (.parenthesized [] (some (union "B" "RegExp")))))) true false])
where
  union (left right : String) : TypeExpr :=
    .union (.ofString (left ++ " | " ++ right))
      [.reference (.ofString left) (.ofString left) [],
        .reference (.ofString right) (.ofString right) []]

/-- With the options that are not set, one member of each union and one base are left. -/
theorem ofType_erase_sampleMarked :
    (∀ v, Reached ⟨.empty, .defaults, .ofString "T"⟩ 0 (visits .defaults sampleMarked) v →
      v.sight.keeps (skips .defaults)) ∧
    (ofType ⟨.empty, .defaults, .ofString "T"⟩ 0 sampleMarked).events =
      [.asked (.ofString "A"), .asked (.ofString "B"), .asked (.ofString "Named")] ∧
    ofType ⟨.empty, .defaults, .ofString "T"⟩ 0 sampleMarked =
      ofType ⟨.empty, Options.defaults.excludingNothing, .ofString "T"⟩ 0
        (sampleMarked.erase (skips .defaults)) := by
  have hall : ∀ v ∈ visits .defaults sampleMarked, v.sight.keeps (skips .defaults) := by
    decide
  have hkeeps : ∀ v, Reached ⟨.empty, .defaults, .ofString "T"⟩ 0
      (visits .defaults sampleMarked) v → v.sight.keeps (skips .defaults) := by
    rintro v ⟨front, back, hvisits, -⟩
    rw [hvisits] at hall
    exact hall v (List.mem_append_right _ List.mem_cons_self)
  refine ⟨hkeeps, rfl, ?_⟩
  exact ofType_erase .empty (.ofString "T") 0 sampleMarked ⟨_, rfl⟩ ⟨_, rfl⟩ (.inl hkeeps)

end Schema

end DeclSchema
