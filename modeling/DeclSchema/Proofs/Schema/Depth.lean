import DeclSchema.Proofs.Schema.Visit
import DeclSchema.Worklist
import Mathlib.Data.List.Basic

/-!
# The limit of the depth

A type reaches as many steps deep as there are steps to any of its visited nodes. The limit of the
depth is exact: no schema is refused for its depth if the type reaches no deeper than the limit, and
none is made if it does. Within the limit the limit cannot be seen, nor can the depth. Another
declaration is never reached into, since the schema of a reference is made without it.

## Main definitions

* `Schema.limited`: a context with a limit of the depth
* `Schema.reach`: the largest number of steps to a node that is visited
* `Schema.Fits`: all nodes among visits are within the limit

## Main results

* `Schema.cases_fits`: within the limit, neither the limit nor the depth matters
* `Schema.limit_exact`: the limit of the depth is exact and otherwise invisible
-/

namespace DeclSchema

/-! ### Faults about the depth -/

/-- The fault is that a type is nested too deep. -/
def Fault.IsTooDeep : Fault → Prop
  | tooDeep .. => True
  | _ => False

namespace Schema

/-- Whatever goes wrong, it is not the depth. -/
structure Shallow {α : Type} (x : Except Fault α) : Prop where
  not_isTooDeep : ∀ f, x = .error f → ¬f.IsTooDeep

section Shallow

variable {α β : Type}

theorem shallow_ok (a : α) : Shallow (.ok a : Except Fault α) :=
  ⟨nofun⟩

theorem shallow_error {f : Fault} (h : ¬f.IsTooDeep) : Shallow (.error f : Except Fault α) := by
  constructor
  rintro _ ⟨⟩
  exact h

theorem Shallow.bind {x : Except Fault α} {g : α → Except Fault β} (hx : Shallow x)
    (hg : ∀ a, Shallow (g a)) : Shallow (x >>= g) := by
  cases x with
  | ok a => exact hg a
  | error e => exact shallow_error (hx.not_isTooDeep e rfl)

/-- The second part of a sequence may fail too. -/
theorem Shallow.traced_bind {x : Traced Event α} {g : α → Traced Event β} (hx : Shallow x.outcome)
    (hg : ∀ a, Shallow (g a).outcome) : Shallow (x >>= g).outcome := by
  cases ha : x.outcome with
  | ok a =>
    rw [Traced.bind_ok ha]
    exact hg a
  | error e =>
    rw [Traced.bind_error ha]
    exact shallow_error (hx.not_isTooDeep e ha)

theorem Shallow.ending {x : Traced Event α} (hx : Shallow x.outcome) : Shallow x.ending.outcome :=
  ⟨fun f hf => hx.not_isTooDeep f (Traced.ending_outcome_eq_error_iff.1 hf)⟩

end Shallow

section Options

variable (o : Options)

theorem items_shallow (v : Json) : Shallow (Options.items v) := by
  unfold Options.items
  split
  · exact shallow_ok _
  · exact shallow_ok _
  · exact shallow_ok _
  · exact shallow_error id

theorem listed_shallow (key : Options.Key) : Shallow (o.listed key) := by
  unfold Options.listed
  split
  · exact shallow_ok _
  · exact shallow_error id

theorem textSet_shallow (v : Json) : Shallow (Options.textSet v) := by
  refine (items_shallow v).bind fun members => ?_
  split
  · exact shallow_ok _
  · exact shallow_error id

theorem contains_shallow (name : Text) (v : Json) : Shallow (Options.contains name v) := by
  unfold Options.contains
  split
  · exact shallow_ok _
  · exact shallow_ok _
  · exact shallow_ok _
  · exact shallow_error id

end Options

section LookAt

variable (c : Context)

theorem ask_shallow (name : Text) : Shallow (ask name).outcome :=
  shallow_ok _

theorem placeholder_shallow (sort text : Text) : Shallow (placeholder sort text).outcome :=
  shallow_ok _

theorem ofCollection_shallow (name : Text) (arguments : List TypeExpr) :
    Shallow (ofCollection c name arguments).outcome := by
  unfold ofCollection
  split
  · split
    · exact shallow_ok _
    · exact shallow_error id
    · exact shallow_error id
  · exact shallow_error id

theorem ofLiteral_shallow (text kind : Text) (value : LiteralValue) :
    Shallow (ofLiteral text kind value).outcome := by
  unfold ofLiteral
  split
  · exact shallow_ok _
  · split
    · exact shallow_ok _
    · exact shallow_error id

theorem ofAlternatives_shallow (text : Text) (members : List TypeExpr)
    (alternatives : List Schema) :
    Shallow (ofAlternatives c text members alternatives).outcome := by
  unfold ofAlternatives
  split
  · exact shallow_ok _
  · split
    · exact shallow_ok _
    · exact shallow_ok _
    · exact shallow_error id

theorem keyOf_shallow (key : MemberName) : Shallow (keyOf c key).outcome := by
  cases key with
  | plain text => exact shallow_ok _
  | kindKey scope member =>
    rw [keyOf]
    refine Shallow.traced_bind ((listed_shallow ..).bind fun v => contains_shallow scope v)
      fun isKey => ?_
    split
    · exact shallow_ok _
    · exact shallow_error id
  | computed text => exact shallow_error id

theorem lookAtType_shallow (type : TypeExpr) : Shallow (lookAtType c type).outcome := by
  unfold lookAtType
  split
  · exact shallow_ok _
  · exact shallow_ok _
  · exact shallow_ok _
  · exact shallow_ok _
  · refine Shallow.traced_bind ((listed_shallow ..).bind textSet_shallow) fun excluded => ?_
    split
    · exact (ofAlternatives_shallow ..).ending
    · exact shallow_ok _
  · exact (ofLiteral_shallow ..).ending
  · refine Shallow.ending ?_
    unfold ofHeritage
    split
    · exact ask_shallow _
    · exact placeholder_shallow _ _
  · next scope member =>
    refine Shallow.ending (Shallow.traced_bind ((listed_shallow ..).bind fun v =>
      contains_shallow scope v) fun isKind => ?_)
    split
    · exact shallow_ok _
    · exact shallow_error id
  · refine Shallow.ending ?_
    unfold ofReference
    split
    · exact ofCollection_shallow ..
    · exact ask_shallow _
  · refine Shallow.ending ?_
    unfold ofKeyword
    split
    · exact shallow_ok _
    · exact placeholder_shallow _ _
  -- All others have no schema.
  all_goals exact (placeholder_shallow ..).ending

/-- Apart from the depth, nothing that goes wrong at a visit is about the depth. -/
theorem lookAt_shallow (s : Sight) : Shallow (lookAt c s).outcome := by
  cases s with
  | type type => exact lookAtType_shallow c type
  | absence => exact shallow_error id
  | member member =>
    rw [lookAt]
    unfold lookAtMember
    split
    · exact (keyOf_shallow ..).ending
    · exact shallow_error id
    · exact shallow_error id
  | clause => exact Shallow.ending ((listed_shallow ..).bind textSet_shallow)

end LookAt

/-! ### How deep a type reaches -/

/-- The numbers of steps to the nodes among visits. -/
def nodeSteps (vs : List Visit) : List Nat :=
  (vs.filter (·.sight.isNode)).map (·.steps)

/-- The largest number of steps from a type to a node that is visited. -/
def reach (o : Options) (type : TypeExpr) : Nat :=
  (nodeSteps (visits o type)).max?.getD 0

theorem mem_nodeSteps {vs : List Visit} {n : Nat} :
    n ∈ nodeSteps vs ↔ ∃ v ∈ vs, v.sight.isNode ∧ v.steps = n := by
  simp only [nodeSteps, List.mem_map, List.mem_filter, and_assoc]

/-- Some node is as deep as the type reaches, and none is deeper. -/
theorem reach_mem_and_le (o : Options) (type : TypeExpr) :
    reach o type ∈ nodeSteps (visits o type) ∧
      ∀ n ∈ nodeSteps (visits o type), n ≤ reach o type := by
  have hne : nodeSteps (visits o type) ≠ [] := by
    obtain ⟨rest, hrest⟩ := exists_visitsFrom_eq (skips o) 0 type
    rw [visits, hrest]
    exact nofun
  obtain ⟨n, hn⟩ := Option.ne_none_iff_exists'.1 (List.max?_eq_none_iff.not.2 hne)
  rw [reach, hn]
  exact List.max?_eq_some_iff.1 hn

theorem exists_node_at_reach (o : Options) (type : TypeExpr) :
    ∃ v ∈ visits o type, v.sight.isNode ∧ v.steps = reach o type :=
  mem_nodeSteps.1 (reach_mem_and_le o type).1

theorem steps_le_reach {o : Options} {type : TypeExpr} {v : Visit} (hv : v ∈ visits o type)
    (hnode : v.sight.isNode) : v.steps ≤ reach o type :=
  (reach_mem_and_le o type).2 _ (mem_nodeSteps.2 ⟨v, hv, hnode, rfl⟩)

/-! ### Contexts with a limit -/

/-- A context with a limit of the depth. -/
def limited (t : Table) (o : Options) (scope : Text) (limit : Int) : Context :=
  ⟨t, o.set .maxDepth (.integer limit), scope⟩

/-- All nodes among visits are within the limit. -/
def Fits (depth limit : Int) (vs : List Visit) : Prop :=
  ∀ v ∈ vs, v.sight.isNode → depth + v.steps ≤ limit

section Limited

variable {t : Table} {o : Options} {scope : Text} {depth limit depth' limit' : Int}
  {v : Visit} {vs ws : List Visit}

theorem fits_cons_iff :
    Fits depth limit (v :: vs) ↔
      (v.sight.isNode → depth + v.steps ≤ limit) ∧ Fits depth limit vs :=
  List.forall_mem_cons

theorem fits_append_iff :
    Fits depth limit (vs ++ ws) ↔ Fits depth limit vs ∧ Fits depth limit ws :=
  List.forall_mem_append

theorem fits_of_reach_le {type : TypeExpr} (h : depth + reach o type ≤ limit) :
    Fits depth limit (visits o type) := by
  intro v hv hnode
  have := steps_le_reach hv hnode
  omega

/-- The limit has no part in what is visited. -/
theorem visits_limited (type : TypeExpr) :
    visits (limited t o scope limit).options type = visits o type :=
  rfl

theorem within_of_le (h : depth ≤ limit) : within (limited t o scope limit) depth = pure () := by
  have hexceeds : (limited t o scope limit).options.exceeds depth = .ok false := by
    rw [limited, Options.exceeds, Options.get_set_self]
    exact congrArg Except.ok (decide_eq_false (by omega))
  rw [within, hexceeds]
  rfl

theorem within_of_lt (h : limit < depth) :
    within (limited t o scope limit) depth =
      .fail (.tooDeep scope (Json.integer limit).shown) := by
  have hexceeds : (limited t o scope limit).options.exceeds depth = .ok true := by
    rw [limited, Options.exceeds, Options.get_set_self]
    exact congrArg Except.ok (decide_eq_true h)
  rw [within, hexceeds]
  rfl

/-- A visit within the limit goes wrong only for its form. -/
theorem look_of_fits (h : v.sight.isNode → depth + v.steps ≤ limit) :
    look (limited t o scope limit) depth v = lookAt (limited t o scope limit) v.sight := by
  cases hnode : v.sight.isNode with
  | false => exact look_of_not_node hnode
  | true => rw [look_node hnode, within_of_le (h hnode), pure_bind]

/-- If all nodes are within the limit, then a walk fails for the form of what is visited. -/
theorem exists_of_walk_fits {f : Fault} (h : Fits depth limit vs)
    (hf : (walk (limited t o scope limit) depth vs).outcome = .error f) :
    ∃ front v back, vs = front ++ v :: back ∧
      (lookAt (limited t o scope limit) v.sight).outcome = .error f := by
  obtain ⟨front, v, back, rfl, -, hv⟩ := Traced.forM_outcome_eq_error_iff.1 hf
  rw [look_of_fits (h v (List.mem_append_right _ List.mem_cons_self))] at hv
  exact ⟨front, v, back, rfl, hv⟩

/-- A walk to a node beyond the limit fails: for the depth, or for the form of something before. -/
theorem exists_walk_of_lt (hv : v ∈ vs) (hnode : v.sight.isNode) (h : limit < depth + v.steps) :
    ∃ f, (walk (limited t o scope limit) depth vs).outcome = .error f ∧
      (f.IsTooDeep ∨ ∃ front u back, vs = front ++ u :: back ∧ Fits depth limit (front ++ [u]) ∧
        (lookAt (limited t o scope limit) u.sight).outcome = .error f) := by
  induction vs with
  | nil => cases hv
  | cons u rest ih =>
    rw [walk_cons]
    by_cases hu : u.sight.isNode ∧ limit < depth + u.steps
    · -- The first place is beyond the limit already.
      rw [look_node hu.1, within_of_lt hu.2]
      exact ⟨_, rfl, .inl trivial⟩
    · have hfits : u.sight.isNode → depth + u.steps ≤ limit :=
        fun hu' => Int.not_lt.1 fun hlt => hu ⟨hu', hlt⟩
      rw [look_of_fits hfits]
      cases hlook : (lookAt (limited t o scope limit) u.sight).outcome with
      | error f =>
        rw [Traced.bind_error hlook]
        exact ⟨f, rfl, .inr ⟨[], u, rest, rfl, fits_cons_iff.2 ⟨hfits, nofun⟩, hlook⟩⟩
      | ok _ =>
        rw [Traced.bind_ok hlook]
        have hrest : v ∈ rest := by
          rcases List.mem_cons.1 hv with rfl | hv
          · exact absurd ⟨hnode, h⟩ hu
          · exact hv
        obtain ⟨f, hf, hcases⟩ := ih hrest
        refine ⟨f, hf, hcases.imp_right ?_⟩
        rintro ⟨front, w, back, rfl, hfront, hw⟩
        exact ⟨u :: front, w, back, rfl, fits_cons_iff.2 ⟨hfits, hfront⟩, hw⟩

end Limited

/-! ### Within the limit -/

section Invisible

variable {t : Table} {o : Options} {scope : Text} {depth limit depth' limit' : Int}

theorem ofBases_eq_of_fits (n : Nat) (heritage : List Heritage)
    (h : Fits depth limit ((heritage.filter fun base => base.text ∉ (skips o).bases).map fun base =>
      ⟨n, .type (.heritage base)⟩))
    (h' : Fits depth' limit' ((heritage.filter fun base => base.text ∉ (skips o).bases).map
      fun base => ⟨n, .type (.heritage base)⟩)) :
    ofBases (limited t o scope limit') (depth' + n) heritage =
      ofBases (limited t o scope limit) (depth + n) heritage := by
  have hmarkers : ∀ limit, (limited t o scope limit).options.markerTexts = o.markerTexts :=
    fun _ => rfl
  rw [ofBases, ofBases, hmarkers, hmarkers]
  cases hm : o.markerTexts with
  | error e => rfl
  | ok markers =>
    rw [skips_bases hm] at h h'
    change List.mapM _ _ = List.mapM _ _
    -- The same bases are left on both sides, each at a depth within both limits.
    generalize heritage.filter (fun base => base.text ∉ markers) = kept at h h'
    induction kept with
    | nil => rw [List.mapM_nil, List.mapM_nil]
    | cons base rest ih =>
      rw [List.map_cons, fits_cons_iff] at h h'
      rw [List.mapM_cons, List.mapM_cons, ih h.2 h'.2, ofBase, ofBase, within_of_le (h.1 rfl),
        within_of_le (h'.1 rfl)]

/-- No leaf looks at the limit but for its own depth. -/
theorem Leaf.eq_limited {type : TypeExpr} {x : Context → Traced Event Schema} (h : Leaf type x) :
    x (limited t o scope limit') = x (limited t o scope limit) := by
  cases h <;> rfl

theorem keyOf_limited (key : MemberName) :
    keyOf (limited t o scope limit') key = keyOf (limited t o scope limit) key := by
  cases key <;> rfl

-- At each node the depth is within both limits, and from there on both schemas are made in the same
-- way.

theorem cases_fits : Cases
    (fun type => ∀ n : Nat, Fits depth limit (visitsFrom (skips o) n type) →
      Fits depth' limit' (visitsFrom (skips o) n type) →
        ofType (limited t o scope limit') (depth' + n) type =
          ofType (limited t o scope limit) (depth + n) type)
    (fun type? => ∀ n : Nat, Fits depth limit (visitsOfPart (skips o) n type?) →
      Fits depth' limit' (visitsOfPart (skips o) n type?) →
        ofOptional (limited t o scope limit') (depth' + n) type? =
          ofOptional (limited t o scope limit) (depth + n) type?)
    (fun types => ∀ (n : Nat) (excluded : List Text), o.excludedTexts = .ok excluded →
      Fits depth limit (visitsOfAlternatives (skips o) n types) →
      Fits depth' limit' (visitsOfAlternatives (skips o) n types) →
        ofUnionMembers (limited t o scope limit') (depth' + n) excluded types =
          ofUnionMembers (limited t o scope limit) (depth + n) excluded types)
    (fun members => ∀ n : Nat, Fits depth limit (visitsOfMembers (skips o) n members) →
      Fits depth' limit' (visitsOfMembers (skips o) n members) →
        ofMembers (limited t o scope limit') (depth' + (n + 1 : Nat)) members =
          ofMembers (limited t o scope limit) (depth + (n + 1 : Nat)) members) where
  leaf hx n h h' := by
    rw [hx.visitsFrom_eq, fits_cons_iff] at h h'
    rw [hx.ofType_eq, hx.ofType_eq, within_of_le (h.1 rfl), within_of_le (h'.1 rfl),
      hx.eq_limited]
  array ih n h h' := by
    rw [visitsFrom, fits_cons_iff] at h h'
    rw [ofType, ofType, within_of_le (h.1 rfl), within_of_le (h'.1 rfl), depth_step, depth_step,
      ih (n + 1) h.2 h'.2]
  union ih n h h' := by
    rw [visitsFrom, fits_cons_iff] at h h'
    rw [ofType, ofType, within_of_le (h.1 rfl), within_of_le (h'.1 rfl), depth_step, depth_step]
    have hexcluded : ∀ limit, (limited t o scope limit).options.excludedTexts = o.excludedTexts :=
      fun _ => rfl
    rw [pure_bind, pure_bind, hexcluded, hexcluded]
    -- The excluded members are listed without a look at the limit, so the parts are visited alike.
    cases hex : o.excludedTexts with
    | error e => rfl
    | ok excluded =>
      change ofUnionMembers _ _ excluded _ >>= _ = ofUnionMembers _ _ excluded _ >>= _
      rw [ih (n + 1) excluded hex h.2 h'.2]
      rfl
  object ih n h h' := by
    rw [visitsFrom, fits_cons_iff] at h h'
    rw [ofType, ofType, within_of_le (h.1 rfl), within_of_le (h'.1 rfl), depth_step, depth_step,
      ih n h.2 h'.2]
  parenthesized ih n h h' := by
    rw [visitsFrom, fits_cons_iff] at h h'
    rw [ofType, ofType, within_of_le (h.1 rfl), within_of_le (h'.1 rfl), depth_step, depth_step,
      ih (n + 1) h.2 h'.2]
  interface ih n h h' := by
    rw [visitsFrom, fits_cons_iff, fits_append_iff, fits_cons_iff] at h h'
    rw [ofType, ofType, within_of_le (h.1 rfl), within_of_le (h'.1 rfl), depth_step, depth_step,
      ih n h.2.1 h'.2.1, ofBases_eq_of_fits (n + 1) _ h.2.2.2 h'.2.2.2]
  present ih n h h' := by
    rw [visitsOfPart] at h h'
    rw [ofOptional, ofOptional, ih n h h']
  absent n h h' := by
    rw [visitsOfPart, fits_cons_iff] at h h'
    rw [ofOptional, ofOptional, within_of_le (h.1 rfl), within_of_le (h'.1 rfl)]
  noMember n excluded _ _ _ := by
    rw [ofUnionMembers, ofUnionMembers]
  alternative ih ihrest n excluded hex h h' := by
    rw [visitsOfAlternatives, skips_members hex] at h h'
    rw [ofUnionMembers, ofUnionMembers]
    -- What is left out is not visited, so nothing is known of its depth.
    split
    · next hin =>
      rw [if_pos hin] at h h'
      exact ihrest n excluded hex h h'
    · next hout =>
      rw [if_neg hout, fits_append_iff] at h h'
      rw [ih n h.1 h'.1, ihrest n excluded hex h.2 h'.2]
  noProperty n _ _ := by
    rw [ofMembers, ofMembers]
  property ih ihrest n h h' := by
    rw [visitsOfMembers, fits_cons_iff, fits_append_iff] at h h'
    rw [ofMembers, ofMembers, ih (n + 1) h.2.1 h'.2.1, ihrest n h.2.2 h'.2.2, keyOf_limited]
  refused hrefused _ n _ _ := by
    rw [ofMembers_refused hrefused, ofMembers_refused hrefused]
    rfl

end Invisible

/-! ### The limit is exact -/

section Exact

variable {t : Table} {o : Options} {scope : Text} {depth limit : Int} {type : TypeExpr}

/-- Within the limit, whatever goes wrong is not the depth. -/
theorem shallow_of_reach_le (h : depth + reach o type ≤ limit) :
    Shallow (ofType (limited t o scope limit) depth type).outcome := by
  constructor
  intro f hf
  rw [← Traced.ending_outcome_eq_error_iff, ofType_walk, visits_limited] at hf
  obtain ⟨-, v, -, -, hv⟩ := exists_of_walk_fits (fits_of_reach_le h) hf
  exact (lookAt_shallow _ v.sight).not_isTooDeep f hv

variable (t scope) in
/-- Beyond the limit no schema is made. -/
theorem exists_error_of_lt_reach (h : limit < depth + reach o type) :
    ∃ f, (ofType (limited t o scope limit) depth type).outcome = .error f ∧
      (f.IsTooDeep ∨ ∃ front v back, visits o type = front ++ v :: back ∧
        Fits depth limit (front ++ [v]) ∧
          (lookAt (limited t o scope limit) v.sight).outcome = .error f) := by
  obtain ⟨v, hv, hnode, hsteps⟩ := exists_node_at_reach o type
  rw [← hsteps] at h
  have hwalk : (ofType (limited t o scope limit) depth type).ending =
      walk (limited t o scope limit) depth (visits o type) :=
    ofType_walk ..
  obtain ⟨f, hf, hcases⟩ := exists_walk_of_lt hv hnode h
  refine ⟨f, ?_, hcases⟩
  rw [← Traced.ending_outcome_eq_error_iff, hwalk]
  exact hf

theorem reach_le_of_ok {s : Schema}
    (h : (ofType (limited t o scope limit) depth type).outcome = .ok s) :
    depth + reach o type ≤ limit := by
  refine Int.not_lt.1 fun hlt => ?_
  obtain ⟨f, hf, -⟩ := exists_error_of_lt_reach t scope hlt
  rw [h] at hf
  cases hf

theorem ofType_eq_of_reach_le {depth' limit' : Int} (h : depth + reach o type ≤ limit)
    (h' : depth' + reach o type ≤ limit') :
    ofType (limited t o scope limit') depth' type = ofType (limited t o scope limit) depth type := by
  rw [← Int.add_zero depth, ← Int.add_zero depth']
  exact cases_fits.type type 0 (fits_of_reach_le h) (fits_of_reach_le h')

/-- The definition of a declared name starts anew, whatever refers to it. -/
theorem shallow_draft {name : Text} {d : Declaration} {draft : Worklist.Draft}
    (hget : t.get? name = some d) (htype : d.asType = some type)
    (hdraft : Worklist.drafts t (o.set .maxDepth (.integer limit)) name = some draft)
    (h : reach o type ≤ limit) : Shallow draft.outcome := by
  have hreach : 0 + (reach o type : Int) ≤ limit := by omega
  rw [Worklist.drafts, hget] at hdraft
  cases hdraft
  cases d with
  | interface =>
    cases htype
    exact shallow_of_reach_le hreach
  | typeAlias =>
    rw [Declaration.asType] at htype
    rw [htype, ofDeclaration, ofOptional]
    exact shallow_of_reach_le hreach
  | enumeration => exact shallow_ok _
  | bare => exact shallow_error id

end Exact

/-- The limit of the depth is exact and otherwise invisible: where the type reaches no deeper than
the limit, the depth is never the fault; where it reaches deeper, there is always a fault, which is
the depth unless something within the limit is refused before; and a schema that is made is the same
at every depth and with every limit that the type does not reach beyond. A reference takes no steps,
and the definition that it refers to starts at a depth of its own. -/
theorem limit_exact (t : Table) (o : Options) (scope : Text) (type : TypeExpr)
    (depth limit : Int) :
    (depth + reach o type ≤ limit →
      ∀ f, (ofType (limited t o scope limit) depth type).outcome = .error f → ¬f.IsTooDeep) ∧
    (limit < depth + reach o type →
      ∃ f, (ofType (limited t o scope limit) depth type).outcome = .error f ∧
        (f.IsTooDeep ∨ ∃ front v back, visits o type = front ++ v :: back ∧
          Fits depth limit (front ++ [v]) ∧
            (lookAt (limited t o scope limit) v.sight).outcome = .error f)) ∧
    (∀ s, (ofType (limited t o scope limit) depth type).outcome = .ok s →
      ∀ depth' limit' : Int, depth' + reach o type ≤ limit' →
        ofType (limited t o scope limit') depth' type =
          ofType (limited t o scope limit) depth type) ∧
    (∀ text name arguments, reach o (.reference text name arguments) = 0) ∧
    (∀ base, reach o (.heritage base) = 0) ∧
    ∀ name d draft, t.get? name = some d → d.asType = some type →
      Worklist.drafts t (o.set .maxDepth (.integer limit)) name = some draft →
        reach o type ≤ limit → ∀ f, draft.outcome = .error f → ¬f.IsTooDeep := by
  refine ⟨fun h => (shallow_of_reach_le h).not_isTooDeep, exists_error_of_lt_reach t scope,
    fun s hs depth' limit' h' => ofType_eq_of_reach_le (reach_le_of_ok hs) h', ?_, ?_, ?_⟩
  · intro text name arguments
    -- A reference is one node, with no step to another one.
    simp [reach, visits, visitsFrom, nodeSteps, Sight.isNode]
  · intro base
    simp [reach, visits, visitsFrom, nodeSteps, Sight.isNode]
  · intro name d draft hget htype hdraft h
    exact (shallow_draft hget htype hdraft h).not_isTooDeep

/-- An array of arrays of references reaches two steps deep. -/
theorem limit_exact_arrays :
    reach .defaults (.array [] (some (.array [] (some (.reference [] [] []))))) = 2 ∧
      (∃ f, (ofType (limited .empty .defaults [] 1) 0
        (.array [] (some (.array [] (some (.reference [] [] [])))))).outcome = .error f) ∧
      ofType (limited .empty .defaults [] 7) 5
          (.array [] (some (.array [] (some (.reference [] [] []))))) =
        ofType (limited .empty .defaults [] 2) 0
          (.array [] (some (.array [] (some (.reference [] [] []))))) := by
  have hreach : reach .defaults (.array [] (some (.array [] (some (.reference [] [] []))))) = 2 :=
    rfl
  refine ⟨hreach, ?_, ?_⟩
  · obtain ⟨f, hf, -⟩ := (limit_exact .empty .defaults [] _ 0 1).2.1 (by rw [hreach]; decide)
    exact ⟨f, hf⟩
  · exact (limit_exact .empty .defaults [] _ 0 2).2.2.1 _ rfl 5 7 (by rw [hreach]; decide)

end Schema

end DeclSchema
