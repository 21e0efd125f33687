import DeclSchema.Proofs.Declaration.Chains
import DeclSchema.Proofs.Declaration.Whole

/-!
# Texts of nodes

The texts of the declarations of a source are pieces of it, one behind the other, and the texts of
nodes are pieces of the texts of the nodes that are built from them. The text of a type says all
that the type is: the alias that is written with it is an alias of the same type. This is not so for
predicates, which are read only where a function returns them, and for texts that start with a name
`abstract` or `new`, which is a name in the places where these words are not expected.

## Main definitions

* `TypeExpr.IsPredicate`: a predicate that a function returns
* `Node.IsFaithful`: a node with a text that its parts are in, and that is read again as the node

## Main results

* `Origin.throughout`: a type that a tree is read for settles
* `ofSource_faithful`: all nodes that are read from a source are faithful
-/

namespace DeclSchema

/-- The type is a predicate that a function returns. -/
def TypeExpr.IsPredicate (T : TypeExpr) : Prop :=
  ∃ text, T = .unsupported text (.ofString "TypePredicate")

/-- The type of the elements of an array. -/
def TypeExpr.element? : TypeExpr → Option TypeExpr
  | .array _ e => e
  | _ => none

theorem TypeExpr.eq_array_of_element? (T : TypeExpr) {E : TypeExpr} (h : T.element? = some E) :
    T = .array T.text (some E) := by
  cases T <;> cases h
  rfl

/-- The texts of the parts of a node are pieces of its own text. A type is the type of the alias
that is written with its text, unless it is a predicate or its text starts with a name that is a
word there. -/
structure Node.IsFaithful (n : Node) : Prop where
  parts : ∀ p ∈ n.parts, p.text <:+: n.text
  aliased : ∀ T, n = .type T → ¬ T.IsPredicate → ¬ T.StartsWithName → Declaration.IsAliased T

namespace Declaration

open Grammar Grammar.Tree Grammar.Terminal Grammar.Nonterminal Escape

variable {ks : List Token} {k : Token} {w : Tree} {T : TypeExpr} {m : Nonterminal}

/-! ### Types that trees are read for -/

/-- A name behind a parenthesis is a parameter of a function, or it is read as a type with what
belongs to it. -/
theorem exists_type_of_nameInParentheses
    (h : ReadAs (.parenthesis true) (.node m [.leaf k, w])) :
    (∃ k' a b, w = .node (.parenthesisName true) [.leaf k', a, b]) ∨
      ∃ q c e u, w = nameInParentheses q (.leaf c) e ∧ HasShape (.namedRest true) q ∧
        Stands (.type true) [.tok .semicolon] u ∧
          typeOf u = namedOf [.leaf k, q] [.leaf k] [lexemeOf k] q := by
  obtain ⟨hk, hstarts, h⟩ := h
  obtain ⟨symbols, us, hb, ht, h⟩ | ⟨_, _, _, _, _, -, -, ht, hv, -⟩ := h.node_cases
  · cases ht
    have hfits := h.fits
    simp only [branches, List.mem_cons, List.not_mem_nil, or_false, Branch.led.injEq,
      reduceCtorEq] at hb
    obtain ⟨-, rfl⟩ | ⟨-, rfl⟩ | ⟨hterminal, rfl⟩ := hb
    -- More than one tree follows another token than a name.
    · simp only [fits_tok_iff, fits_sub_iff, fits_nil_iff] at hfits
      obtain ⟨_, _, ⟨⟩, -, _, _, ⟨⟩, -, -⟩ := hfits
    · simp only [fits_sub_iff, fits_nil_iff] at hfits
      obtain ⟨_, _, ⟨⟩, -, _, _, ⟨⟩, -, -⟩ := hfits
    · obtain ⟨k₂, next₂, hk₂, -, hw⟩ | ⟨-, -, ⟨⟩, -⟩ := derives_sub_iff.1 h
      obtain ⟨a, b, rfl⟩ | ⟨q, c, e, mid, mid', rfl, hq, -, -⟩ := exists_nameInParentheses hk₂ hw []
      · exact .inl ⟨k₂, a, b, rfl⟩
      · obtain ⟨u, hu, -, htype⟩ := exists_type_of_name hk hterminal
          (fun v hv => hstarts v (starts_parenthesis_of_type v hv)) hq
        exact .inr ⟨q, c, e, u, rfl, hq.fits,
          hu.stands (.before_semicolon _) rfl, htype⟩
  · cases ht
    obtain ⟨_, ⟨⟩⟩ := hv.exists_node

theorem starts_returnType_of_type (v : Terminal) (hv : starts (.type true) v = true) :
    starts .returnType v = true :=
  starts_of_via (show .via (.type true) [] ∈ branches .returnType by simp [branches]) hv

/-- A type that a function returns is a predicate, or it is read as a type. -/
theorem exists_type_of_returnType {t : Tree} (h : ReadAs .returnType t)
    (hT : returnTypeOf t = .ok T) :
    T.IsPredicate ∨ ∃ u, Stands (.type true) [.tok .semicolon] u ∧ typeOf u = .ok T := by
  obtain ⟨hk, hstarts, h⟩ := h
  have hpredicate : returnTypeOf t = unsupported [t] "TypePredicate" → T.IsPredicate := by
    intro h
    cases h.symm.trans hT
    exact ⟨_, rfl⟩
  -- After the word `asserts`, after a name, or any other type.
  obtain ⟨symbols, us, hb, rfl, h⟩ | ⟨m, symbols, v, us, mid, hb, -, rfl, hv, h⟩ := h.node_cases
  · simp only [branches, List.mem_cons, List.not_mem_nil, or_false, Branch.led.injEq,
      reduceCtorEq] at hb
    obtain ⟨-, rfl⟩ | ⟨hterminal, rfl⟩ := hb
    · have hfits := h.fits
      simp only [fits_tok_iff, fits_sub_iff, fits_nil_iff] at hfits
      obtain ⟨_, _, rfl, -, _, _, rfl, -, rfl⟩ := hfits
      exact .inl (hpredicate (by rw [returnTypeOf] <;> (intros; rename_i h; cases h)))
    · obtain ⟨w, rfl, hw⟩ := exists_of_derives_single h
      obtain ⟨k', a, rfl⟩ | ⟨q, rfl, hq⟩ := leads_returnName.cases rfl hw
      · exact .inl (hpredicate (by rw [returnTypeOf] <;> (intros; rename_i h; cases h)))
      · obtain ⟨u, hu, htokens, htype⟩ := exists_type_of_name hk hterminal
          (fun v hv => hstarts v (starts_returnType_of_type v hv)) hq
        refine .inr ⟨u, hu.stands (.before_semicolon _) rfl, ?_⟩
        rw [htype, ← hT, returnTypeOf_alone]
        refine namedOf_congr (alike_of_tokens ?_) (.refl _) _ _
        have halone := tokensOf_alone .returnName q
        simp only [tokensOf, Tree.tokens, List.append_nil] at halone ⊢
        rw [halone]
  · simp only [branches, List.mem_cons, List.not_mem_nil, or_false, Branch.via.injEq,
      reduceCtorEq, false_or] at hb
    obtain ⟨rfl, rfl⟩ := hb
    obtain ⟨rfl, rfl⟩ := derives_nil_iff.1 h
    have hread := ReadAs.intro hk (fun v hv => hstarts v (starts_returnType_of_type v hv)) hv
    refine .inr ⟨_, hread.stands rfl rfl, ?_⟩
    obtain ⟨us, rfl⟩ := hv.exists_node
    rw [← hT, returnTypeOf]

/-- A type that a tree is read for is a predicate, or it settles. -/
theorem Origin.throughout (h : Origin ks T) : T.IsPredicate ∨ SettlesThroughout T := by
  cases h with
  | type h _ hT => exact .inr (typeOf_throughout (h.stands rfl rfl) T hT)
  | returned h _ hT =>
    obtain hpredicate | ⟨u, hu, htype⟩ := exists_type_of_returnType h hT
    · exact .inl hpredicate
    · exact .inr (typeOf_throughout hu T htype)
  | @name k closing rest h _ =>
    right
    -- A name in parentheses is the type that it is without them.
    obtain ⟨_, _, _, ⟨⟩⟩ | ⟨q, c, e, u, hw, hq, hu, htype⟩ := exists_type_of_nameInParentheses h
    obtain ⟨qs, rfl⟩ := exists_node_of_hasShape hq
    cases qs with
    | nil =>
      refine typeOf_throughout hu _ (htype.trans ?_)
      rw [namedOf.eq_def, textOf_leaf]
    | cons => cases hw
  | @named k n us closing rest T h _ hT =>
    right
    obtain ⟨_, _, _, ⟨⟩⟩ | ⟨q, c, e, u, hw, hq, hu, htype⟩ := exists_type_of_nameInParentheses h
    obtain ⟨qs, rfl⟩ := exists_node_of_hasShape hq
    cases qs with
    | nil => cases hw
    | cons =>
      cases hw
      exact typeOf_throughout hu _ (htype.trans hT)

/-! ### Texts of nodes -/

theorem Sound.isFaithful {n : Node} (h : Sound ks n) : n.IsFaithful where
  parts := h.parts
  aliased T hn hpredicate hname := by
    -- The type may share its tree with the one that the tree is read for.
    obtain ⟨S, horigin, hspine⟩ := h.arises T hn
    obtain ⟨text, rfl⟩ | hsettles := horigin.throughout
    · cases hspine
      exact absurd ⟨_, rfl⟩ hpredicate
    · exact ((hsettles T hspine).resolve_left hname).isAliased

/-- The texts of the declarations of a source stand in it one behind the other, and all nodes of the
declarations are faithful. -/
theorem ofSource_faithful {input : List Char} {ds : List Declaration}
    (h : ofSource input = .ok ds) :
    OccurInTurn (ds.map (·.text)) (.ofChars input) ∧
      ∀ d ∈ ds, (Node.declaration d).Everywhere Node.IsFaithful := by
  cases hread : read input with
  | error rest =>
    simp only [ofSource, hread] at h
    cases h
  | ok ts =>
    have hfound := ofSource_yields hread
    rw [h] at hfound
    exact ⟨hfound.2, fun d hd => (hfound.1 d hd).imp fun _ hn => hn.isFaithful⟩

/-- The array that an alias stands for, and its element, are aliases of their own. -/
theorem ofSource_faithful_array :
    ∃ ds, ofSource "type A = B[];".toList = .ok ds ∧ ∃ d ∈ ds, ∃ T E, d.asType = some T ∧
      T = .array (.ofString "B[]") (some E) ∧ IsAliased T ∧ IsAliased E := by
  have hcheck : (ofSource "type A = B[];".toList).toOption.any fun ds =>
      ds.any fun d => d.asType.any fun T => T.text == .ofString "B[]" && T.element?.any fun E =>
        E.text == .ofString "B" && Node.namesOfType E == [.ofString "B"] := by
    decide +kernel
  cases hds : ofSource "type A = B[];".toList with
  | error f =>
    rw [hds] at hcheck
    cases hcheck
  | ok ds =>
    rw [hds] at hcheck
    obtain ⟨d, hd, hcheck⟩ := List.any_eq_true.1 hcheck
    obtain ⟨T, hT, hcheck⟩ := (Option.any_eq_true _ _).1 hcheck
    obtain ⟨htext, hcheck⟩ := Bool.and_eq_true_iff.1 hcheck
    obtain ⟨E, hE, hcheck⟩ := (Option.any_eq_true _ _).1 hcheck
    obtain ⟨hname, hnames⟩ := Bool.and_eq_true_iff.1 hcheck
    have harray := T.eq_array_of_element? hE
    rw [eq_of_beq htext] at harray
    subst harray
    have hnode := (ofSource_faithful hds).2 d hd
    have hwhole : (Node.type (.array (.ofString "B[]") (some E))).Everywhere Node.IsFaithful := by
      cases d <;> cases hT
      exact hnode.part (List.mem_singleton.2 rfl)
    have helement := hwhole.part (m := .type E) (List.mem_singleton.2 rfl)
    have hstarts (S : TypeExpr) (hS : S.text.head? = some (.ofChar 'B')) : ¬ S.StartsWithName := by
      rintro ⟨-, v, hv, back, htext, -⟩
      simp only [List.mem_cons, List.not_mem_nil, or_false] at hv
      rw [htext] at hS
      obtain rfl | rfl := hv
      · exact absurd (Option.some.inj hS : CodePoint.ofChar 'a' = .ofChar 'B') (by decide)
      · exact absurd (Option.some.inj hS : CodePoint.ofChar 'n' = .ofChar 'B') (by decide)
    have hpredicate : ¬ E.IsPredicate := by
      rintro ⟨_, rfl⟩
      exact absurd (List.head_eq_of_cons_eq (eq_of_beq hnames)) (by decide)
    exact ⟨ds, rfl, d, hd, _, E, hT, rfl,
      hwhole.here.aliased _ rfl (by rintro ⟨_, ⟨⟩⟩) (hstarts _ rfl),
      helement.here.aliased _ rfl hpredicate (hstarts _ (by rw [eq_of_beq hname]; rfl))⟩

end Declaration

end DeclSchema
