import DeclSchema.Proofs.Declaration.Simple
import DeclSchema.Proofs.Declaration.Whole

/-!
# Kinds of literals

A literal type that is read from a source is a string, a number, a large integer, a truth value or
`null`. A type that a tree is read for is a literal, or it is a union or an array in which the
literals of the same tree are.

## Main definitions

* `TypeExpr.IsKnown`: the literals that share a tree with a type are of these kinds
* `Node.IsRead`: a node that lacks nothing, and is of a known kind if it is a literal

## Main results

* `ofSource_isRead`: what holds of all nodes that are read from a source
-/

namespace DeclSchema

/-- The literals that share a tree with the type are of known kinds. -/
def TypeExpr.IsKnown (T : TypeExpr) : Prop :=
  ∀ text kind value, T.Spine (.literal text kind value) → kind ∈ literalKinds

/-- The node lacks nothing, and it is of a known kind if it is a literal. -/
def Node.IsRead (n : Node) : Prop :=
  n.IsWhole ∧ ∀ text kind value, n = .type (.literal text kind value) → kind ∈ literalKinds

namespace Declaration

open Grammar Grammar.Tree Escape

variable {T : TypeExpr} {trees : List Tree}

/-! ### Types without parts in the same tree -/

theorem isKnown_of_isSimple {text : Text} (h : T.IsSimple text) : T.IsKnown := by
  intro t k v hs
  cases eq_of_isSimple h hs
  cases h with
  | literal hkind => exact hkind

theorem isKnown_array {text : Text} {e : TypeExpr} (h : e.IsKnown) :
    (TypeExpr.array text (some e)).IsKnown := by
  intro t k v hs
  cases hs with
  | element hs => exact h t k v hs

theorem isKnown_union {text : Text} {members : List TypeExpr} (h : ∀ m ∈ members, m.IsKnown) :
    (TypeExpr.union text members).IsKnown := by
  intro t k v hs
  cases hs with
  | member hm hs => exact h _ hm t k v hs

theorem isKnown_unsupported (text kind : Text) : (TypeExpr.unsupported text kind).IsKnown := by
  rintro _ _ _ ⟨⟩

/-! ### Types of trees -/

/-- The type that is given, if one is, is of known literals. -/
def GivesKnown (x : Decoded TypeExpr) : Prop :=
  ∀ T, x = .ok T → T.IsKnown

theorem givesKnown_ok (h : T.IsKnown) : GivesKnown (.ok T) :=
  gives_ok h

theorem givesKnown_bind {α : Type} {x : Decoded α} {f : α → Decoded TypeExpr}
    (h : ∀ a, GivesKnown (f a)) : GivesKnown (x >>= f) :=
  gives_bind h

theorem givesKnown_map {α : Type} {x : Decoded α} {f : α → TypeExpr} (h : ∀ a, (f a).IsKnown) :
    GivesKnown (f <$> x) := by
  rw [map_eq_pure_bind]
  exact givesKnown_bind fun a => givesKnown_ok (h a)

theorem unsupported_known (trees : List Tree) (kind : String) :
    GivesKnown (unsupported trees kind) :=
  givesKnown_ok (isKnown_unsupported _ _)

theorem primaryOf_known (t : Tree) : GivesKnown (primaryOf t) :=
  fun T hT => isKnown_of_isSimple (primaryOf_simple t T hT)

theorem suffixedType_known (trees : List Tree) {operand : Decoded TypeExpr}
    (h : GivesKnown operand) (t : Tree) : GivesKnown (suffixedType trees operand t) := by
  unfold suffixedType
  split
  · intro T hT
    obtain ⟨e, he, hT⟩ := exists_of_bind_eq_ok hT
    cases hT
    exact isKnown_array (h e he)
  · exact unsupported_known _ _

theorem suffixesOf_known (trees : List Tree) {operand : Decoded TypeExpr}
    (h : GivesKnown operand) (t : Tree) : GivesKnown (suffixesOf trees operand t) := by
  unfold suffixesOf
  split
  · exact suffixesOf_known _ (suffixedType_known _ h _) _
  · exact h
termination_by sizeOf t

theorem operatorOf_known (t : Tree) : GivesKnown (operatorOf t) := by
  unfold operatorOf
  split
  · exact unsupported_known _ _
  · exact suffixesOf_known _ (primaryOf_known _) _
  · exact unsupported_known _ _

theorem intersectionOf_known (t : Tree) : GivesKnown (intersectionOf t) := by
  unfold intersectionOf
  split
  · exact operatorOf_known _
  · exact operatorOf_known _
  · exact unsupported_known _ _

/-! ### Chains -/

/-- The members and the operand of a chain are of known literals. -/
structure Chain.IsKnown (c : Chain) : Prop where
  members : ∀ m ∈ c.members, GivesKnown m
  operand : GivesKnown c.operand

namespace Chain.IsKnown

variable {c : Chain}

theorem start (whole trees : List Tree) {operand : Decoded TypeExpr} (h : GivesKnown operand) :
    (Chain.start whole trees operand).IsKnown :=
  ⟨nofun, h⟩

theorem member (h : c.IsKnown) : GivesKnown c.member := by
  unfold Chain.member
  split
  · exact h.operand
  · exact unsupported_known _ _

theorem suffixed (h : c.IsKnown) (trees : List Tree) {operand : Decoded TypeExpr}
    (hoperand : GivesKnown operand) : (c.suffixed trees operand).IsKnown :=
  ⟨h.members, hoperand⟩

theorem intersected (h : c.IsKnown) (more : List Tree) : (c.intersected more).IsKnown :=
  ⟨h.members, h.operand⟩

theorem united (h : c.IsKnown) (tree : Tree) {next : Decoded TypeExpr} (hnext : GivesKnown next) :
    (c.united tree next).IsKnown where
  members m hm := by
    rcases List.mem_append.1 hm with hm | hm
    · exact h.members m hm
    · rw [List.mem_singleton.1 hm]
      exact h.member
  operand := hnext

theorem finish (h : c.IsKnown) : GivesKnown c.finish := by
  unfold Chain.finish
  split
  · exact h.member
  · intro T hT
    obtain ⟨members, hmembers, hT⟩ := exists_of_bind_eq_ok hT
    cases hT
    refine isKnown_union (forall_of_mapM (p := TypeExpr.IsKnown) (fun x hx => ?_) hmembers)
    -- The last member is the one in progress.
    rcases List.mem_append.1 hx with hx | hx
    · exact h.members x hx
    · rw [List.mem_singleton.1 hx]
      exact h.member

end Chain.IsKnown

theorem chainOf_known {c : Chain} (h : c.IsKnown) (t : Tree) : GivesKnown (chainOf c t) := by
  unfold chainOf
  split
  · exact h.finish
  · exact chainOf_known h _
  · split
    · exact chainOf_known (h.suffixed _ (suffixedType_known _ h.operand _)) _
    · exact chainOf_known (h.intersected _) _
    · exact chainOf_known (h.united _ (intersectionOf_known _)) _
  · exact unsupported_known _ _
termination_by sizeOf t

theorem namedOf_known (whole trees : List Tree) (names : List Text) (t : Tree) :
    GivesKnown (namedOf whole trees names t) := by
  have hreference {text : Text} {names : List Text} (arguments : List TypeExpr) :
      (referenceType text names arguments).IsKnown :=
    isKnown_of_isSimple (isSimple_referenceType _ _ _)
  unfold namedOf
  split
  · exact namedOf_known _ _ _ _
  · exact chainOf_known (.start _ _ (givesKnown_map fun _ => hreference _)) _
  · exact chainOf_known (.start _ _ (givesKnown_ok (hreference _))) _
  · exact givesKnown_ok (hreference _)
termination_by sizeOf t

theorem afterParenthesisOf_known (whole trees : List Tree) (inner : Decoded TypeExpr) (t : Tree) :
    GivesKnown (afterParenthesisOf whole trees inner t) := by
  have hoperand : GivesKnown (do return TypeExpr.parenthesized (textOf trees) (some (← inner))) :=
    givesKnown_bind fun _ => givesKnown_ok (isKnown_of_isSimple (.parenthesized _))
  unfold afterParenthesisOf
  split
  · exact hoperand
  · exact chainOf_known (.start _ _ hoperand) _
  · exact unsupported_known _ _

theorem typeOf_known (t : Tree) : GivesKnown (typeOf t) := by
  unfold typeOf
  -- One case for each branch of the builder.
  split
  · split
    · unfold parenthesisOf
      split
      · exact afterParenthesisOf_known _ _ _ _
      · exact unsupported_known _ _
      · exact afterParenthesisOf_known _ _ _ _
      · exact unsupported_known _ _
      · exact afterParenthesisOf_known _ _ _ _
      · exact unsupported_known _ _
    · exact unsupported_known _ _
  · split
    · exact chainOf_known (.start _ _ (intersectionOf_known _)) _
    · exact chainOf_known (.start _ _ (operatorOf_known _)) _
    · exact unsupported_known _ _
  · exact chainOf_known (.start _ _ (operatorOf_known _)) _
  · exact unsupported_known _ _

theorem returnTypeOf_known (t : Tree) : GivesKnown (returnTypeOf t) := by
  unfold returnTypeOf
  split
  · exact givesKnown_ok (isKnown_of_isSimple (isSimple_referenceType _ _ _))
  · exact namedOf_known _ _ _ _
  · exact typeOf_known _
  · exact unsupported_known _ _

/-! ### Types in declarations -/

theorem Origin.isKnown {ks : List Token} (h : Origin ks T) : T.IsKnown := by
  cases h with
  | type _ _ hT => exact typeOf_known _ T hT
  | returned _ _ hT => exact returnTypeOf_known _ T hT
  | name => exact isKnown_of_isSimple (isSimple_referenceType _ _ _)
  | named _ _ hT => exact namedOf_known _ _ _ _ T hT

theorem Sound.isRead {ks : List Token} {n : Node} (h : Sound ks n) : n.IsRead := by
  refine ⟨h.whole, ?_⟩
  rintro text kind value rfl
  obtain ⟨T, horigin, hspine⟩ := h.arises _ rfl
  exact horigin.isKnown text kind value hspine

/-- All nodes that are read from a source lack nothing, and all literals are of known kinds. -/
theorem ofSource_isRead {input : List Char} {ds : List Declaration}
    (h : ofSource input = .ok ds) : ∀ d ∈ ds, (Node.declaration d).Everywhere Node.IsRead := by
  cases hread : read input with
  | error rest =>
    rw [ofSource, hread] at h
    cases h
  | ok ts =>
    have hyields := ofSource_yields hread
    rw [h] at hyields
    exact fun d hd => (hyields.1 d hd).imp fun _ hn => hn.isRead

end Declaration

end DeclSchema
