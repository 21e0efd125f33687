import DeclSchema.Proofs.Declaration.Mention
import DeclSchema.Proofs.Schema.Accounting

/-!
# Asking for what is mentioned

The schema of a declaration asks for names that the declaration mentions, and for no others. This
holds up to the fault where there is one: what was asked for before it was mentioned too.

## Main definitions

* `Schema.Event.AskedIn`: an event asks for nothing outside of a set
* `Schema.Sight.AsksFor`: what is asked for at a visit is mentioned

## Main results

* `Schema.ofType_asks`, `Schema.ofDeclaration_asks`: only mentioned names are asked for
-/

namespace DeclSchema.Schema

/-- An event asks for nothing outside of a set of names. -/
def Event.AskedIn (s : Set Text) : Event → Prop
  | asked name => name ∈ s
  | schemaless .. => True

/-- What is asked for is among the names that are mentioned. -/
def Sight.AsksFor (mentions : List Mention) (sight : Sight) : Prop :=
  ∀ o name, sight.asked? o = some name → ∃ m ∈ mentions, m.name = name

theorem Sight.AsksFor.of_subset {ms ns : List Mention} {sight : Sight} (h : sight.AsksFor ms)
    (hs : ms ⊆ ns) : sight.AsksFor ns := by
  intro o name hname
  obtain ⟨m, hm, he⟩ := h o name hname
  exact ⟨m, hs hm, he⟩

/-- A sight that asks for nothing needs no mention. -/
theorem Sight.AsksFor.of_none {ms : List Mention} {sight : Sight}
    (h : ∀ o, sight.asked? o = none) : sight.AsksFor ms := by
  intro o name hname
  rw [h o] at hname
  cases hname

theorem asksFor_heritage {ms : List Mention} {base : Heritage} (h : base.mentions ⊆ ms) :
    (Sight.type (.heritage base)).AsksFor ms := by
  intro o name hname
  rw [Sight.asked?] at hname
  split at hname
  · cases hname
    exact ⟨_, h (heritage_mem_mentions base), rfl⟩
  · cases hname

theorem Leaf.asksFor {type : TypeExpr} {x : Context → Traced Event Schema} (h : Leaf type x) :
    (Sight.type type).AsksFor type.mentions := by
  cases h with
  | heritage base =>
    rw [TypeExpr.mentions]
    exact asksFor_heritage (List.Subset.refl _)
  | reference text name arguments =>
    intro o asked hasked
    rw [TypeExpr.mentions]
    rw [Sight.asked?] at hasked
    split at hasked
    · cases hasked
    · cases hasked
      exact ⟨_, List.mem_cons_self, rfl⟩
  | literal | qualified | keyword | unsupported | bare | enumeration | typeAlias | declaration =>
    exact .of_none fun _ => rfl

-- The mentions of a list stand one after the other, so they are split where the list is.

theorem cases_asksFor (k : Skips) : Cases
    (fun type => ∀ n, ∀ v ∈ visitsFrom k n type, v.sight.AsksFor type.mentions)
    (fun type? => ∀ n, ∀ v ∈ visitsOfPart k n type?, v.sight.AsksFor (mentionsOfOptional type?))
    (fun types => ∀ n, ∀ v ∈ visitsOfAlternatives k n types,
      v.sight.AsksFor (mentionsOfTypes types))
    (fun members => ∀ n, ∀ v ∈ visitsOfMembers k n members,
      v.sight.AsksFor (mentionsOfMembers members)) where
  leaf h n := by
    rw [h.visitsFrom_eq, List.forall_mem_singleton]
    exact h.asksFor
  array h n := by
    rw [visitsFrom, TypeExpr.mentions, List.forall_mem_cons]
    exact ⟨.of_none fun _ => rfl, h (n + 1)⟩
  union h n := by
    rw [visitsFrom, TypeExpr.mentions, List.forall_mem_cons]
    exact ⟨.of_none fun _ => rfl, h (n + 1)⟩
  object h n := by
    rw [visitsFrom, TypeExpr.mentions, List.forall_mem_cons]
    exact ⟨.of_none fun _ => rfl, h n⟩
  parenthesized h n := by
    rw [visitsFrom, TypeExpr.mentions, List.forall_mem_cons]
    exact ⟨.of_none fun _ => rfl, h (n + 1)⟩
  interface h n := by
    rw [visitsFrom, TypeExpr.mentions, Declaration.mentions, List.forall_mem_cons,
      List.forall_mem_append, List.forall_mem_cons]
    refine ⟨.of_none fun _ => rfl,
      fun v hv => (h n v hv).of_subset (List.subset_append_right _ _), .of_none fun _ => rfl, ?_⟩
    -- The bases that are visited are some of those that are mentioned.
    intro v hv
    obtain ⟨base, hbase, rfl⟩ := List.mem_map.1 hv
    refine asksFor_heritage (List.Subset.trans ?_ (List.subset_append_left _ _))
    exact mentions_subset_mentionsOfHeritage (List.mem_filter.1 hbase).1
  present h n := by
    rw [visitsOfPart, mentionsOfOptional]
    exact h n
  absent n := by
    rw [visitsOfPart, List.forall_mem_singleton]
    exact .of_none fun _ => rfl
  noMember n := by
    rw [visitsOfAlternatives]
    exact List.forall_mem_nil _
  alternative h hrest n := by
    rw [visitsOfAlternatives, mentionsOfTypes]
    split
    · exact fun v hv => (hrest n v hv).of_subset (List.subset_append_right _ _)
    · rw [List.forall_mem_append]
      exact ⟨fun v hv => (h n v hv).of_subset (List.subset_append_left _ _),
        fun v hv => (hrest n v hv).of_subset (List.subset_append_right _ _)⟩
  noProperty n := by
    rw [visitsOfMembers]
    exact List.forall_mem_nil _
  property h hrest n := by
    rw [visitsOfMembers, mentionsOfMembers, Member.mentions, mentionsOfOptional,
      List.forall_mem_cons, List.forall_mem_append]
    exact ⟨.of_none fun _ => rfl,
      fun v hv => (h (n + 1) v hv).of_subset (List.subset_append_left _ _),
      fun v hv => (hrest n v hv).of_subset (List.subset_append_right _ _)⟩
  refused h hrest n := by
    rw [visitsOfMembers_refused h, mentionsOfMembers, List.forall_mem_cons]
    exact ⟨.of_none fun _ => rfl,
      fun v hv => (hrest n v hv).of_subset (List.subset_append_right _ _)⟩

variable {s : Set Text} (c : Context)

/-- The schema of a type asks for nothing that the type does not mention. -/
theorem ofType_asks (depth : Int) {type : TypeExpr} (h : ∀ m ∈ type.mentions, m.name ∈ s) :
    (ofType c depth type).Emits (Event.AskedIn s) := by
  refine (ofType_reports c depth type).emits fun e he => ?_
  obtain ⟨v, hv, hevent⟩ := List.mem_filterMap.1 he
  obtain ⟨name, hname, -, hasked⟩ | ⟨p, -, -, hlacking⟩ | ⟨-, -, hnone⟩ := event_cases c.options v
  · obtain rfl := Option.some.inj (hevent.symm.trans hasked)
    obtain ⟨m, hm, rfl⟩ := (cases_asksFor _).type type 0 v hv c.options name hname
    exact h m hm
  · obtain rfl := Option.some.inj (hevent.symm.trans hlacking)
    trivial
  · cases hevent.symm.trans hnone

/-- The definition of a name asks for nothing that its declaration does not mention. -/
theorem ofDeclaration_asks {declared : Declaration} (h : ∀ m ∈ declared.mentions, m.name ∈ s) :
    (ofDeclaration c declared).Emits (Event.AskedIn s) := by
  cases declared with
  | interface name text typeParameters heritage members =>
    refine ofType_asks c 0 ?_
    rwa [TypeExpr.mentions]
  | typeAlias name text typeParameters type? =>
    rw [Declaration.mentions] at h
    rw [ofDeclaration]
    cases type? with
    | some type =>
      rw [mentionsOfOptional] at h
      rw [ofOptional]
      exact ofType_asks c 0 h
    | none =>
      rw [ofOptional]
      exact ((within_reports c 0).after fun _ _ => Traced.reports_fail _ []).emits
        (List.forall_mem_nil _)
  | enumeration name text members => exact (Traced.reports_pure _).emits (List.forall_mem_nil _)
  | bare name text => exact (Traced.reports_fail _ []).emits (List.forall_mem_nil _)

end DeclSchema.Schema
