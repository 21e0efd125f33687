import DeclSchema.Proofs.Declaration.Operators
import DeclSchema.Proofs.Declaration.Simple

/-!
# Types of operands that settle

An operand, or a member of a union, is read again as a type from its own text, and so is each array
on the way to its last brackets. Only a name that is a word at the start of a type is read as that
word there.

## Main definitions

* `TypeExpr.StartsWithName`: a type whose text starts with a name that is a word there
* `Settles`: a type that is read again from its text, or starts with such a name
* `SettlesThroughout`: a type that shares its tree only with types that settle

## Main results

* `operatorOf_throughout`, `intersectionOf_throughout`: operands and members of unions
-/

namespace DeclSchema

/-- The type is that of a constructor. -/
def TypeExpr.IsConstructor (T : TypeExpr) : Prop :=
  ∃ text, T = .unsupported text (.ofString "ConstructorType")

/-- The text of the type starts with `abstract` or `new`, and the type is not that of a constructor:
these words are tokens of their own at the start of such types only, so the text starts with a
name. -/
def TypeExpr.StartsWithName (T : TypeExpr) : Prop :=
  ¬ T.IsConstructor ∧ ∃ v ∈ [Grammar.Terminal.abstractWord, .newWord], ∃ back,
    T.text = .ofChars (v.spelling ++ back) ∧ ∀ c ∈ back.head?, Grammar.isNamePart c = false

namespace Declaration

open Grammar Grammar.Tree Grammar.Terminal Grammar.Nonterminal Escape

variable {symbols outer : List Symbol} {input next mid rest : List Char} {k : Token}
  {o p r s t u x : Tree} {ts trees : List Tree} {T : TypeExpr}

/-! ### Types of operands -/

/-- The text runs over the trees, and the type is no type of a constructor. -/
structure IsOver (trees : List Tree) (T : TypeExpr) : Prop where
  text : T.text = textOf trees
  other : ¬ T.IsConstructor

theorem isOver_of_isSimple (h : T.IsSimple (textOf trees)) : IsOver trees T where
  text := text_of_isSimple h
  other := by
    rintro ⟨_, rfl⟩
    cases h with
    | unsupported hkind => exact hkind rfl

theorem IsOver.of_alike {trees' : List Tree} (h : IsOver trees T) (halike : Alike trees trees') :
    IsOver trees' T :=
  ⟨h.text.trans halike.text, h.other⟩

theorem suffixedType_over (trees : List Tree) (operand : Decoded TypeExpr) (t : Tree) :
    Gives (IsOver trees) (suffixedType trees operand t) := by
  unfold suffixedType
  split
  · exact gives_bind fun _ => gives_ok ⟨rfl, nofun⟩
  · exact gives_ok (isOver_of_isSimple (.unsupported (by decide)))

/-- The text of an operand runs over the operand and its brackets. -/
theorem suffixesOf_over {trees : List Tree} {operand : Decoded TypeExpr} {s : Tree}
    (h : HasShape .suffixes s)
    (hoperand : Gives (IsOver trees) operand) :
    Gives (IsOver (trees ++ [s])) (suffixesOf trees operand s) := by
  obtain ⟨-, hs⟩ | ⟨us, hs, -, b, hb, hus⟩ := h.exists_cases
  · intro T hT
    rw [hs, suffixesOf.eq_def] at hT
    rw [hs]
    exact (hoperand T hT).of_alike (alike_empty trees .suffixes).symm
  · rw [List.mem_singleton.1 hb] at hus
    simp only [Branch.symbols, fits_tok_iff, fits_sub_iff, fits_nil_iff] at hus
    obtain ⟨k, _, rfl, -, a, _, rfl, -, more, _, rfl, hmore, rfl⟩ := hus
    rw [hs]
    simp only [suffixesOf]
    intro T hT
    refine (suffixesOf_over hmore (suffixedType_over _ _ _) T hT).of_alike (alike_of_tokens ?_)
    simp [tokensOf_append, tokensOf, Tree.tokens]
termination_by sizeOf s
decreasing_by all_goals (subst hs; exact BuildsBelow.sizeOf_child (by simp))

theorem operatorOf_over (h : HasShape .operator o) : Gives (IsOver [o]) (operatorOf o) := by
  obtain ⟨us, ho, -, b, hb, hus⟩ := h.exists_branch rfl
  rw [ho]
  simp only [branches, List.mem_cons, List.not_mem_nil, or_false] at hb
  obtain rfl | rfl | rfl | rfl | rfl := hb
  all_goals simp only [Branch.symbols, fits_tok_iff, fits_sub_iff, fits_nil_iff] at hus
  -- An operator makes the type unsupported, whatever its operand.
  iterate 4
    · obtain ⟨k, _, rfl, hk, o, _, rfl, -, rfl⟩ := hus
      simp only [operatorOf, hk]
      exact gives_ok (isOver_of_isSimple (.unsupported (by decide)))
  · obtain ⟨p, _, rfl, hp, s, _, rfl, hs, rfl⟩ := hus
    obtain ⟨ps, rfl⟩ := exists_node_of_hasShape hp
    simp only [operatorOf]
    intro T hT
    have hprimary : Gives (IsOver [.node .primary ps]) (primaryOf (.node .primary ps)) :=
      fun T hT => isOver_of_isSimple (primaryOf_simple _ T hT)
    exact (suffixesOf_over hs hprimary T hT).of_alike
      (alike_node [] .operator [.node .primary ps, s]).symm

/-! ### Types that settle -/

/-- The type is read again from its text, unless its text starts with a word of constructors. -/
def Settles (T : TypeExpr) : Prop :=
  T.StartsWithName ∨ Rereads T

/-- All types that share a tree with the type settle. -/
def SettlesThroughout (T : TypeExpr) : Prop :=
  ∀ S, T.Spine S → Settles S

/-- What is read as a type from the first token of an operand on settles. -/
theorem settles_of_type {ks : List Token} {u : Tree} (hks : tokensOf [t] = k :: ks)
    (hk : Sees (.sub .intersection :: outer) (source (k :: ks) ++ [';']) k (source ks ++ [';']))
    (hover : IsOver [t] T)
    (hu : Derives (.node (.type true) k) [.tok .semicolon] (source ks ++ [';']) [u] [';'])
    (hT : typeOf u = .ok T) (halike : Alike [u] [t]) : Settles T := by
  by_cases hwords : k.terminal = .name → ∀ v ∈ [abstractWord, newWord], k.lexeme ≠ v.spelling
  · have hk' : Sees [.sub (.type true), .tok .semicolon] _ k _ := hk.type_of_intersection hwords
    have hstarts : starts (.type true) k.terminal = true := by
      have hexpected := hk'.expected
      rwa [expects_eq_starts rfl] at hexpected
    exact .inr ⟨u, stands_of_derives (derives_sub_iff.2 (.inl ⟨k, _, hk', hstarts, hu⟩)), hT,
      hover.text.trans halike.symm.text⟩
  · -- The name would be a word at the start of a type, and the text starts with it.
    simp only [not_forall, not_not] at hwords
    obtain ⟨hname, v, hv, hlexeme⟩ := hwords
    refine .inl ⟨hover.other, v, hv, source ks, ?_, ?_⟩
    · rw [hover.text, textOf, hks, Tree.spelling, hlexeme]
      rfl
    · intro c hc
      refine hk.isNamePart_of_name hname c ?_
      rw [List.head?_append, Option.mem_def.1 hc]
      rfl

/-- An operand is read again as a type, unless it starts with a name that is a word there. -/
theorem operatorOf_settles (h : Stands .operator afterOperand o) :
    Gives Settles (operatorOf o) := by
  intro T hT
  obtain ⟨k, ks, hks, hk, hstarts, ho⟩ := h.exists_first rfl
  have hk' : Sees (.sub .intersection :: []) _ k _ := hk.intersection_of_operator
  obtain ⟨u, hu, htype⟩ := exists_type_of_operator hstarts ho stands_empty_typeRest
  rw [chainOf_start_empty, hT] at htype
  refine settles_of_type hks hk' (operatorOf_over h.hasShape T hT) hu htype ?_
  exact (alike_of_derives hu ho stands_empty_typeRest).trans (alike_empty [o] _)

/-! ### Operands and all that is built on the way to them -/

theorem suffixedType_throughout {trees : List Tree} {operand : Decoded TypeExpr} {a : Tree}
    (hoperand : Gives SettlesThroughout operand)
    (hself : Gives Settles (suffixedType trees operand a)) :
    Gives SettlesThroughout (suffixedType trees operand a) := by
  intro T hT S hS
  have hT' := hT
  unfold suffixedType at hT'
  split at hT'
  · obtain ⟨e, he, hT'⟩ := exists_of_bind_eq_ok hT'
    cases hT'
    cases hS with
    | refl => exact hself _ hT
    | element hS => exact hoperand e he S hS
  · cases hT'
    cases hS
    exact hself _ hT

/-- Every array on the way to the last brackets is a type that was cut off behind its own. -/
theorem suffixesOf_throughout {trees : List Tree} {operand : Decoded TypeExpr} {s : Tree}
    (h : HasShape .suffixes s) (hoperand : Gives SettlesThroughout operand)
    (hcut : ∀ s', Trims [s] [s'] → Gives Settles (suffixesOf trees operand s')) :
    Gives SettlesThroughout (suffixesOf trees operand s) := by
  obtain ⟨-, hs⟩ | ⟨us, hs, -, b, hb, hus⟩ := h.exists_cases
  · rw [hs, suffixesOf.eq_def]
    exact hoperand
  · rw [List.mem_singleton.1 hb] at hus
    simp only [Branch.symbols, fits_tok_iff, fits_sub_iff, fits_nil_iff] at hus
    obtain ⟨k, _, rfl, -, a, _, rfl, -, more, _, rfl, hmore, rfl⟩ := hus
    have hcut' (s' : Tree) (hs' : Trims [more] [s']) :
        Gives Settles (suffixesOf (trees ++ [.leaf k, a])
          (suffixedType (trees ++ [.leaf k, a]) operand a) s') := by
      have hcut := hcut (.node .suffixes [.leaf k, a, s'])
      rw [hs] at hcut
      simp only [suffixesOf] at hcut
      exact hcut (.behind (.inside (.keep (.behind (.keep hs'))) .nil))
    -- Cut off behind this pair of brackets, the operand is the array up to it.
    have hself : Gives Settles (suffixedType (trees ++ [.leaf k, a]) operand a) := by
      obtain ⟨ms, rfl⟩ := exists_node_of_hasShape hmore
      have hcut := hcut' (.node .suffixes []) (.here (.cons rfl .nil))
      rwa [suffixesOf.eq_def] at hcut
    rw [hs]
    simp only [suffixesOf]
    exact suffixesOf_throughout hmore (suffixedType_throughout hoperand hself) hcut'
termination_by sizeOf s
decreasing_by all_goals (subst hs; exact BuildsBelow.sizeOf_child (by simp))

/-- An operand settles, and so do the elements of the arrays that it is. -/
theorem operatorOf_throughout (h : Stands .operator afterOperand o) :
    Gives SettlesThroughout (operatorOf o) := by
  obtain ⟨us, rfl, -, b, hb, hus⟩ := h.hasShape.exists_branch rfl
  simp only [branches, List.mem_cons, List.not_mem_nil, or_false] at hb
  obtain rfl | rfl | rfl | rfl | rfl := hb
  all_goals simp only [Branch.symbols, fits_tok_iff, fits_sub_iff, fits_nil_iff] at hus
  iterate 4
    · obtain ⟨k, _, rfl, hk, o, _, rfl, -, rfl⟩ := hus
      have hself := operatorOf_settles h
      simp only [operatorOf] at hself ⊢
      rintro _ ⟨⟩ _ ⟨⟩
      exact hself _ rfl
  · obtain ⟨p, _, rfl, hp, s, _, rfl, hs, rfl⟩ := hus
    obtain ⟨ps, rfl⟩ := exists_node_of_hasShape hp
    have hcut (s' : Tree) (hs' : Trims [s] [s']) :
        Gives Settles (suffixesOf [.node .primary ps] (primaryOf (.node .primary ps)) s') := by
      have hcut := operatorOf_settles (h.trim rfl rfl (.behind (.inside (.keep hs') .nil)))
      simpa only [operatorOf] using hcut
    simp only [operatorOf]
    -- Without its brackets the operand is its primary type, which shares its tree with no other.
    refine suffixesOf_throughout hs (fun T hT S hS => ?_) hcut
    rw [eq_of_isSimple (primaryOf_simple _ T hT) hS]
    obtain ⟨ss, rfl⟩ := exists_node_of_hasShape hs
    refine hcut (.node .suffixes []) (.here (.cons rfl .nil)) T ?_
    rw [suffixesOf.eq_def]
    exact hT

/-! ### Members of unions that settle -/

theorem stands_operator (hk : Sees (.sub .operator :: afterOperand) input k next)
    (hstarts : starts .operator k.terminal = true)
    (ho : Derives (.node .operator k) afterOperand next [o] mid) :
    Stands .operator afterOperand o :=
  (derives_sub_iff.2 (.inl ⟨k, next, hk, hstarts, ho⟩)).stands (.of_semicolon rfl) rfl

/-- The first operand of a member of a union stands by itself. -/
theorem exists_operand_of_stands (h : Stands .intersection afterOperand x) :
    ∃ o m, intersectionOf x = operandsOf [x] o m ∧ Stands .operator afterOperand o := by
  obtain ⟨k, ks, hks, hk, -, hx⟩ := h.exists_first rfl
  obtain ⟨front, o, m, mid, rfl, -, ⟨-, rfl, ho⟩ | ⟨-, rfl, hstarts, ho⟩⟩ := exists_operands hx
  · exact ⟨o, m, intersectionOf_operands _ _ _ (.inl rfl) (exists_node_of_derives ho),
      ho.stands (.of_semicolon rfl) rfl⟩
  · have hk' : Sees (.sub .operator :: afterOperand) _ k _ :=
      hk.narrow_via (show .via .operator [.sub .moreOperands] ∈ branches .intersection by
        simp [branches]) (by decide) rfl hstarts
    exact ⟨o, m, intersectionOf_operands (k := k) _ _ _ (.inr rfl) ho.exists_node,
      stands_operator hk' hstarts ho⟩

/-- A member of a union settles, and so do the elements of the arrays that it is. -/
theorem intersectionOf_throughout (h : Stands .intersection afterOperand x) :
    Gives SettlesThroughout (intersectionOf x) := by
  obtain ⟨o, m, hx, ho⟩ := exists_operand_of_stands h
  obtain hone | hmany := operandsOf_cases [x] o m
  · rw [hx, hone]
    exact operatorOf_throughout ho
  · obtain ⟨k, ks, hks, hk, -, hread⟩ := h.exists_first rfl
    obtain ⟨u, hu, htype⟩ := exists_type_of_intersection hread
    have halike : Alike [u] [x] := by
      have hnil : Derives (.list []) [] [';'] [] [';'] := .nil
      exact alike_of_derives hu hread hnil
    rw [hx, hmany] at htype ⊢
    rintro _ ⟨⟩ _ ⟨⟩
    exact settles_of_type hks hk ⟨rfl, by rintro ⟨_, ⟨⟩⟩⟩ hu htype halike

end Declaration

end DeclSchema
