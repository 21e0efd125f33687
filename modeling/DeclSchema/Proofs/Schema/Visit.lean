import DeclSchema.Proofs.Schema.Cases

/-!
# Visits

The schema of a type is made on a walk through the type: the nodes are visited from the outside to
the inside and from left to right, the members of an interface before its bases. Which nodes are
visited depends on the type and on two lists of the options, and on nothing else: neither on other
declarations nor on the depth at which the walk starts. What is done at a node, apart from its
schema, is to compare its depth, to look at its own form, and to report it. So the events and the
fault of a schema can be read off the list of visits.

## Main definitions

* `Schema.Sight`, `Schema.Visit`: what is visited, and how many steps from the start
* `Schema.Skips`, `Schema.skips`: what the walk passes over
* `Schema.visits`: the visits of a type, in order
* `Schema.look`, `Schema.walk`: what is done at a visit, and at all visits in turn

## Main results

* `Schema.ofType_walk`: apart from its value, the schema of a type is the walk through its visits
-/

namespace DeclSchema.Schema

/-- What is visited. -/
inductive Sight where
  | type (type : TypeExpr)
  /-- The place of a part that a node lacks. -/
  | absence
  | member (member : Member)
  /-- The `extends` clause of an interface, before its entries. -/
  | clause

/-- A place on the walk through a type, some steps into the type. -/
structure Visit where
  steps : Nat
  sight : Sight

/-! ### The visits of a type -/

/-- The texts of what the walk passes over: of union members, and of bases of interfaces. -/
structure Skips where
  members : List Text
  bases : List Text

/-- What the options let the walk pass over. -/
def skips (o : Options) : Skips where
  members := o.excludedTexts.toOption.getD []
  bases := o.markerTexts.toOption.getD []

section Visits

variable (k : Skips)

mutual

/-- The visits of a type that is some steps from the start. -/
def visitsFrom (n : Nat) (type : TypeExpr) : List Visit :=
  ⟨n, .type type⟩ ::
    match type with
    | .array _ element => visitsOfPart (n + 1) element
    | .union _ members => visitsOfAlternatives (n + 1) members
    | .object _ members => visitsOfMembers n members
    | .parenthesized _ inner => visitsOfPart (n + 1) inner
    | .declared (.interface _ _ _ heritage members) =>
      visitsOfMembers n members ++
        ⟨n, .clause⟩ :: (heritage.filter fun base => base.text ∉ k.bases).map fun base =>
          ⟨n + 1, .type (.heritage base)⟩
    | _ => []

/-- The visits of a part of a node. -/
def visitsOfPart (n : Nat) : Option TypeExpr → List Visit
  | some type => visitsFrom n type
  | none => [⟨n, .absence⟩]

/-- The visits of the members of a union, without those that are passed over. -/
def visitsOfAlternatives (n : Nat) : List TypeExpr → List Visit
  | [] => []
  | type :: rest =>
    if type.text ∈ k.members then visitsOfAlternatives n rest
    else visitsFrom n type ++ visitsOfAlternatives n rest

/-- The visits of the members of an object shape, each one before its type. -/
def visitsOfMembers (n : Nat) : List Member → List Visit
  | [] => []
  | .property text key (some type) optional readonly :: rest =>
    ⟨n, .member (.property text key (some type) optional readonly)⟩ ::
      (visitsFrom (n + 1) type ++ visitsOfMembers n rest)
  | member :: rest => ⟨n, .member member⟩ :: visitsOfMembers n rest

end

end Visits

/-- The type itself is visited first. -/
theorem exists_visitsFrom_eq (k : Skips) (n : Nat) (type : TypeExpr) :
    ∃ rest, visitsFrom k n type = ⟨n, .type type⟩ :: rest := by
  unfold visitsFrom
  exact ⟨_, rfl⟩

theorem Leaf.visitsFrom_eq {type : TypeExpr} {x : Context → Traced Event Schema} (h : Leaf type x)
    (k : Skips) (n : Nat) : visitsFrom k n type = [⟨n, .type type⟩] := by
  cases h <;> simp only [visitsFrom]

theorem visitsOfMembers_refused {member : Member} (h : propertyType? member = none) (k : Skips)
    (n : Nat) (rest : List Member) :
    visitsOfMembers k n (member :: rest) = ⟨n, .member member⟩ :: visitsOfMembers k n rest := by
  cases member with
  | property text key type? optional readonly =>
    obtain rfl : type? = none := h
    rw [visitsOfMembers]
    nofun
  | _ =>
    rw [visitsOfMembers]
    nofun

/-- The visits of a type from its start on. -/
def visits (o : Options) (type : TypeExpr) : List Visit :=
  visitsFrom (skips o) 0 type

theorem skips_members {o : Options} {excluded : List Text} (h : o.excludedTexts = .ok excluded) :
    (skips o).members = excluded := by
  rw [skips, h]
  rfl

theorem skips_bases {o : Options} {markers : List Text} (h : o.markerTexts = .ok markers) :
    (skips o).bases = markers := by
  rw [skips, h]
  rfl

/-! ### The walk -/

/-- Whether the depth of what is visited is compared with the limit. -/
def Sight.isNode : Sight → Bool
  | type _ | absence => true
  | member _ | clause => false

variable (c : Context)

/-- What is done at a type besides its depth and its parts. -/
def lookAtType : TypeExpr → Traced Event Unit
  | .array .. | .object .. | .parenthesized .. | .declared (.interface ..) => pure ()
  | .union text members => do
    let excluded ← .ofExcept c.options.excludedTexts
    -- A union with a member that is left has an alternative.
    if members.all (·.text ∈ excluded) then (ofAlternatives c text members []).ending
  | .literal text kind value => (ofLiteral text kind value).ending
  | .heritage base => (ofHeritage base).ending
  | .qualified text scope member => (ofQualified c text scope member).ending
  | .reference _ name arguments => (ofReference c name arguments).ending
  | .keyword text word => (ofKeyword text word).ending
  | .unsupported text sort => (placeholder (sortShown sort) text).ending
  | .bare text => (placeholder (.ofString "TypeNode") text).ending
  | .declared (.enumeration _ text _) => (placeholder (.ofString "EnumDeclaration") text).ending
  | .declared (.typeAlias _ text _ _) =>
    (placeholder (.ofString "TypeAliasDeclaration") text).ending
  | .declared (.bare _ text) => (placeholder (.ofString "Declaration") text).ending

/-- What is done at a member besides its type. -/
def lookAtMember : Member → Traced Event Unit
  | .property _ key (some _) _ _ => (keyOf c key).ending
  | .property text _ none _ _ => .fail (.untypedMember c.scope text)
  | member => .fail (.unexpectedMember c.scope member.text)

/-- What is done at something that is visited, whatever its depth. -/
def lookAt : Sight → Traced Event Unit
  | .type type => lookAtType c type
  | .absence => .fail .absentNode
  | .member member => lookAtMember c member
  | .clause => (Traced.ofExcept c.options.markerTexts).ending

/-- What is done at a visit, where the walk starts at a depth. -/
def look (depth : Int) (v : Visit) : Traced Event Unit := do
  if v.sight.isNode then within c (depth + v.steps)
  lookAt c v.sight

/-- What is done at all visits, one after the other. -/
def walk (depth : Int) (vs : List Visit) : Traced Event Unit :=
  forM vs (look c depth)

variable {c} {depth : Int}

@[simp] theorem walk_nil : walk c depth [] = pure () :=
  rfl

@[simp] theorem walk_cons (v : Visit) (vs : List Visit) :
    walk c depth (v :: vs) = look c depth v >>= fun _ => walk c depth vs :=
  List.forM_cons

@[simp] theorem walk_append (vs ws : List Visit) :
    walk c depth (vs ++ ws) = walk c depth vs >>= fun _ => walk c depth ws :=
  List.forM_append

theorem look_node {v : Visit} (h : v.sight.isNode) :
    look c depth v = within c (depth + v.steps) >>= fun _ => lookAt c v.sight := by
  rw [look, if_pos h]

theorem look_of_not_node {v : Visit} (h : v.sight.isNode = false) :
    look c depth v = lookAt c v.sight := by
  rw [look, h]
  rfl

/-- At a type its depth comes first, and its parts come last. -/
theorem walk_type (n : Nat) (type : TypeExpr) (vs : List Visit) :
    walk c depth (⟨n, .type type⟩ :: vs) =
      within c (depth + n) >>= fun _ => lookAtType c type >>= fun _ => walk c depth vs := by
  rw [walk_cons, look_node rfl, bind_assoc]
  rfl

/-- A step into a type is a step of the depth. -/
theorem depth_step (depth : Int) (n : Nat) : depth + n + 1 = depth + ((n + 1 : Nat) : Int) := by
  omega

/-! ### Unions and bases -/

theorem ofUnionMembers_of_all {excluded : List Text} {types : List TypeExpr} {d : Int}
    (h : ∀ type ∈ types, type.text ∈ excluded) : ofUnionMembers c d excluded types = pure [] := by
  induction types with
  | nil => rw [ofUnionMembers]
  | cons type rest ih =>
    rw [ofUnionMembers, if_pos (h type List.mem_cons_self)]
    exact ih fun t ht => h t (List.mem_cons_of_mem _ ht)

/-- The alternatives of a union are the schemas of the members that are left. -/
theorem alternatives_eq_nil_iff {excluded : List Text} {types : List TypeExpr} {d : Int}
    {alternatives : List Schema}
    (h : (ofUnionMembers c d excluded types).outcome = .ok alternatives) :
    alternatives = [] ↔ ∀ type ∈ types, type.text ∈ excluded := by
  induction types generalizing alternatives with
  | nil =>
    rw [ofUnionMembers] at h
    cases h
    exact ⟨fun _ => List.forall_mem_nil _, fun _ => rfl⟩
  | cons type rest ih =>
    rw [ofUnionMembers] at h
    split at h
    · next hex =>
      rw [ih h, List.forall_mem_cons]
      exact ⟨fun hrest => ⟨hex, hrest⟩, And.right⟩
    · next hex =>
      obtain ⟨s, -, h⟩ := Traced.exists_of_bind_outcome_eq_ok h
      obtain ⟨ss, -, h⟩ := Traced.exists_of_bind_outcome_eq_ok h
      cases h
      -- A member that is left has a schema, so there is an alternative.
      exact ⟨by rintro ⟨⟩, fun hall => absurd (hall type List.mem_cons_self) hex⟩

/-- A union of which a member is left, or which has none, is not refused. -/
theorem ofAlternatives_of_left {text : Text} {members : List TypeExpr} {alternatives : List Schema}
    (h : alternatives ≠ [] ∨ members = []) :
    ofAlternatives c text members alternatives = pure (.oneOf alternatives) := by
  rw [ofAlternatives, if_pos]
  rcases h with h | rfl
  · rw [List.isEmpty_eq_false_iff.2 h]
    rfl
  · exact Bool.or_true _

/-- Only the last step of a computation depends on its value, and it cannot fail. -/
theorem ending_bind_eq {α β : Type} {x : Traced Event α} {f : α → Traced Event β}
    (h : ∀ a, x.outcome = .ok a → (f a).ending = pure ()) : (x >>= f).ending = x.ending := by
  rw [Traced.ending_bind]
  cases hx : x.outcome with
  | ok a =>
    rw [Traced.bind_ok hx, h a hx, Traced.ending, map_eq_pure_bind, Traced.bind_ok hx]
  | error e => rw [Traced.bind_error hx, Traced.ending, map_eq_pure_bind, Traced.bind_error hx]

/-- The alternatives of a union come to a schema, unless the union was refused before. -/
theorem ofUnion_ending {excluded : List Text} (d : Int) (text : Text) (members : List TypeExpr) :
    (ofUnionMembers c d excluded members >>= ofAlternatives c text members).ending =
      (if members.all (·.text ∈ excluded) then (ofAlternatives c text members []).ending
        else pure ()) >>= fun _ => (ofUnionMembers c d excluded members).ending := by
  split
  · next hall =>
    -- Nothing is left, so nothing is visited.
    have hnil : ofUnionMembers c d excluded members = pure [] :=
      ofUnionMembers_of_all (by simpa using hall)
    rw [hnil, pure_bind, Traced.ending_pure, bind_pure_unit]
  · next hall =>
    rw [pure_bind]
    refine ending_bind_eq fun alternatives ha => ?_
    rw [ofAlternatives_of_left, Traced.ending_pure]
    refine .inl fun hnil => hall ?_
    simpa using (alternatives_eq_nil_iff ha).1 hnil

theorem ofBases_ending (n : Nat) (heritage : List Heritage) :
    (ofBases c (depth + (n + 1 : Nat)) heritage).ending =
      walk c depth (⟨n, .clause⟩ ::
        (heritage.filter fun base => base.text ∉ (skips c.options).bases).map fun base =>
          ⟨n + 1, .type (.heritage base)⟩) := by
  rw [ofBases, Traced.ending_bind, walk_cons]
  cases hm : c.options.markerTexts with
  | error e =>
    rw [look_of_not_node rfl, lookAt, hm]
    rfl
  | ok markers =>
    rw [skips_bases hm, look_of_not_node rfl, lookAt, hm]
    change Traced.ending (List.mapM _ _) = walk c depth _
    -- The bases that are no markers, one after the other.
    generalize heritage.filter (fun base => base.text ∉ markers) = kept
    induction kept with
    | nil => rw [List.mapM_nil, Traced.ending_pure, List.map_nil, walk_nil]
    | cons base rest ih =>
      rw [List.mapM_cons, List.map_cons, walk_cons, ← ih]
      rw [Traced.ending_bind_of fun _ => Traced.ending_bind_pure ..]
      congr 1
      rw [ofBase, Traced.ending_bind]
      rfl

/-! ### Schemas as walks -/

theorem Leaf.lookAtType_eq {type : TypeExpr} {x : Context → Traced Event Schema} (h : Leaf type x)
    (c : Context) : lookAtType c type = (x c).ending := by
  cases h <;> rfl

theorem lookAtMember_refused {member : Member} (h : propertyType? member = none) (c : Context) :
    lookAtMember c member = .fail (refusal c.scope member) := by
  cases member with
  | property text key type? optional readonly =>
    obtain rfl : type? = none := h
    rfl
  | _ => rfl

-- The visits of a part are those of the whole after the first one, with one step more where the
-- depth is one more.

theorem cases_ending (c : Context) (depth : Int) : Cases
    (fun type => ∀ n : Nat,
      (ofType c (depth + n) type).ending = walk c depth (visitsFrom (skips c.options) n type))
    (fun type? => ∀ n : Nat, (ofOptional c (depth + n) type?).ending =
      walk c depth (visitsOfPart (skips c.options) n type?))
    (fun types => ∀ (n : Nat) (excluded : List Text), c.options.excludedTexts = .ok excluded →
      (ofUnionMembers c (depth + n) excluded types).ending =
        walk c depth (visitsOfAlternatives (skips c.options) n types))
    (fun members => ∀ n : Nat, (ofMembers c (depth + (n + 1 : Nat)) members).ending =
      walk c depth (visitsOfMembers (skips c.options) n members)) where
  leaf h n := by
    rw [h.ofType_eq, h.visitsFrom_eq, walk_type, Traced.ending_bind, h.lookAtType_eq, walk_nil]
    exact bind_congr fun _ => bind_pure_unit.symm
  array h n := by
    rw [ofType, visitsFrom, walk_type, Traced.ending_bind]
    simp only [lookAtType, pure_bind, Traced.ending_bind_pure]
    rw [depth_step, h]
  union h n := by
    rw [ofType, visitsFrom, walk_type, Traced.ending_bind]
    refine bind_congr fun _ => ?_
    simp only [lookAtType]
    cases hex : c.options.excludedTexts with
    | error e => rfl
    | ok excluded =>
      -- The policy on empty unions is asked behind the members; where it matters, none is visited.
      refine (ofUnion_ending ..).trans ?_
      rw [depth_step, h (n + 1) excluded hex]
      rfl
  object h n := by
    rw [ofType, visitsFrom, walk_type, Traced.ending_bind]
    simp only [lookAtType, pure_bind, Traced.ending_bind_pure]
    rw [depth_step, h]
  parenthesized h n := by
    rw [ofType, visitsFrom, walk_type, Traced.ending_bind]
    simp only [lookAtType, pure_bind]
    rw [depth_step, h]
  interface h n := by
    rw [ofType, visitsFrom, walk_type, Traced.ending_bind, walk_append]
    simp only [lookAtType, pure_bind]
    rw [Traced.ending_bind_of fun own => Traced.ending_bind_pure .., depth_step, h, ofBases_ending]
  present h n := by
    rw [ofOptional, visitsOfPart, h]
  absent n := by
    rw [ofOptional, visitsOfPart, Traced.ending_bind, walk_cons, look_node rfl, walk_nil,
      bind_pure_unit]
    rfl
  noMember n _ _ := by
    rw [ofUnionMembers, visitsOfAlternatives, walk_nil, Traced.ending_pure]
  alternative h hrest n excluded hex := by
    rw [ofUnionMembers, visitsOfAlternatives, skips_members hex]
    split
    · exact hrest n excluded hex
    · rw [Traced.ending_bind_of fun _ => Traced.ending_bind_pure .., walk_append, h n,
        hrest n excluded hex]
  noProperty n := by
    rw [ofMembers, visitsOfMembers, walk_nil, Traced.ending_pure]
  property h hrest n := by
    rw [ofMembers, visitsOfMembers, walk_cons, walk_append]
    rw [Traced.ending_bind_of fun name => Traced.ending_bind_of fun s => Traced.ending_bind_pure ..,
      h (n + 1), hrest n]
    rfl
  refused h _ n := by
    rw [ofMembers_refused h, visitsOfMembers_refused h, walk_cons, look_of_not_node rfl, lookAt,
      lookAtMember_refused h]
    rfl

theorem ofType_ending (c : Context) (depth : Int) (n : Nat) (type : TypeExpr) :
    (ofType c (depth + n) type).ending = walk c depth (visitsFrom (skips c.options) n type) :=
  (cases_ending c depth).type type n

/-- Apart from its value, the schema of a type is the walk through the visits of the type. -/
theorem ofType_walk (c : Context) (depth : Int) (type : TypeExpr) :
    (ofType c depth type).ending = walk c depth (visits c.options type) := by
  have h := ofType_ending c depth 0 type
  rwa [show depth + ((0 : Nat) : Int) = depth from Int.add_zero depth] at h

end DeclSchema.Schema
