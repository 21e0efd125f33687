import DeclSchema.Proofs.Declaration.Alike
import DeclSchema.Proofs.Grammar.Rereading

/-!
# Types from the same tokens in other groups

The nonterminals that come after a name or a type in parentheses group the brackets, names and
operands differently from those of other types. The same type is built from either tree.

## Main results

* `chainOf_joinSuffixes`, `namedOf_joinNamed`: what comes after an operand, or after a name
-/

namespace DeclSchema.Declaration

open Grammar Grammar.Tree Grammar.Terminal Grammar.Nonterminal Escape

variable {whole trees : List Tree} {d a s r : Tree}

/-! ### Trees of tokens -/

theorem alike_node (ts : List Tree) (n : Nonterminal) (us : List Tree) :
    Alike (ts ++ [.node n us]) (ts ++ us) :=
  alike_of_tokens (by rw [tokensOf_append, tokensOf_append, tokensOf_node])

theorem alike_empty (ts : List Tree) (n : Nonterminal) : Alike (ts ++ [.node n []]) ts := by
  simpa using alike_node ts n []

theorem Alike.trans {ts us vs : List Tree} (h : Alike ts us) (h' : Alike us vs) : Alike ts vs :=
  fun more => (h more).trans (h' more)

theorem Alike.symm {ts us : List Tree} (h : Alike ts us) : Alike us ts :=
  fun more => (h more).symm

/-! ### A nonterminal in the place of another one -/

theorem chainOf_alone (c : Chain) (q : Nonterminal) (r : Tree) :
    chainOf c (alone q r) = chainOf c r := by
  match r with
  | .leaf k | .node n (t :: ts) =>
    unfold alone
    rw [chainOf]
  | .node _ [] => rw [alone, chainOf, chainOf]

theorem chainOf_start_empty (whole trees : List Tree) (operand : Decoded TypeExpr)
    (n : Nonterminal) : chainOf (.start whole trees operand) (.node n []) = operand := by
  rw [chainOf]
  rfl

/-- A name that has neither more names nor type arguments behind it. -/
theorem namedOf_alone (whole trees : List Tree) (names : List Text) (q : Nonterminal) (t : Tree) :
    namedOf whole trees names (alone q t)
      = chainOf (.start whole trees (.ok (referenceType (textOf trees) names []))) t := by
  match t with
  | .leaf k | .node n (t :: ts) =>
    unfold alone
    rw [namedOf]
  | .node n [] =>
    rw [chainOf_start_empty, alone, namedOf.eq_def]

theorem afterParenthesisOf_alone (whole trees : List Tree) (inner : Decoded TypeExpr)
    (q : Nonterminal) (t : Tree) :
    afterParenthesisOf whole trees inner (alone q t)
      = chainOf (.start whole trees (do
          return TypeExpr.parenthesized (textOf trees) (some (← inner)))) t := by
  match t with
  | .leaf k | .node n (t :: ts) =>
    unfold alone
    rw [afterParenthesisOf]
  | .node n [] => rw [chainOf_start_empty, alone, afterParenthesisOf]

theorem returnTypeOf_alone (n q : Nonterminal) (k : Token) (t : Tree) :
    returnTypeOf (.node n [.leaf k, alone q t])
      = namedOf [.node n [.leaf k, alone q t]] [.leaf k] [lexemeOf k] t := by
  match t with
  | .leaf k' | .node m (t :: ts) =>
    unfold alone
    rw [returnTypeOf]
  | .node m [] =>
    have halike : Alike [.node n [.leaf k, .node q []]] [.leaf k] :=
      alike_of_tokens (by simp [tokensOf, Tree.tokens])
    rw [alone, returnTypeOf, namedOf.eq_def, halike.text]

/-! ### Brackets and names -/

/-- Brackets after an operand belong to it. -/
theorem chainOf_joinSuffixes (c : Chain) {s : Tree} (h : HasShape .suffixes s) (r : Tree) :
    chainOf c (joinSuffixes s r)
      = chainOf (c.suffixed (c.trees ++ [s]) (suffixesOf c.trees c.operand s)) r := by
  obtain ⟨-, hs⟩ | ⟨us, hs, -, b, hb, hus⟩ := h.exists_cases
  · rw [hs, joinSuffixes, joinMore, chainOf_alone, suffixesOf.eq_def]
    · refine chainOf_congr ?_ r
      exact ⟨.refl _, rfl, (alike_empty _ _).symm, rfl, rfl⟩
    · rintro _ _ _ _ ⟨⟩
  · simp only [branches, List.mem_cons, List.not_mem_nil, or_false] at hb
    obtain rfl := hb
    simp only [Branch.symbols, fits_tok_iff, fits_sub_iff, fits_nil_iff] at hus
    obtain ⟨k, _, rfl, hk, next, _, rfl, -, more, _, rfl, hmore, rfl⟩ := hus
    -- The induction hypothesis is for the chain that has gone through the first pair.
    have ih := fun c => chainOf_joinSuffixes c hmore r
    rw [hs]
    simp only [joinSuffixes] at ih ⊢
    simp only [joinMore, chainOf, hk, suffixesOf, ih]
    refine chainOf_congr ?_ r
    refine ⟨.refl _, rfl, ?_, rfl, rfl⟩
    exact alike_of_tokens (by
      simp [Chain.suffixed, tokensOf_append, tokensOf, Tree.tokens])
termination_by sizeOf s
decreasing_by all_goals (subst hs; exact BuildsBelow.sizeOf_child (by simp))

/-- Type arguments and brackets after a name. -/
theorem namedOf_joinArguments (whole trees : List Tree) (names : List Text)
    (ha : HasShape .typeArguments a) (hs : HasShape .suffixes s) (r : Tree) :
    namedOf whole trees names (joinArguments a s r)
      = chainOf (.start whole (trees ++ [a, s]) (suffixesOf (trees ++ [a])
          (referenceType (textOf (trees ++ [a])) names <$> typeArgumentsOf a) s)) r := by
  obtain ⟨-, rfl⟩ | ⟨us, rfl, -, b, hb, hus⟩ := ha.exists_cases
  · -- The tree that is left out adds nothing to any text.
    have hempty := alike_empty trees .typeArguments
    rw [joinArguments, namedOf_alone, chainOf_joinSuffixes _ hs, typeArgumentsOf]
    · refine chainOf_congr ?_ r
      refine ⟨.refl _, rfl, ?_, rfl, ?_⟩
      · exact alike_of_tokens (by
          simp [Chain.suffixed, Chain.start, tokensOf_append, tokensOf, Tree.tokens])
      · simp only [Chain.start, Chain.suffixed]
        rw [hempty.text]
        exact (suffixesOf_congr hempty _ _).symm
    all_goals rintro _ _ _ _ _ ⟨⟩
  · simp only [branches, List.mem_cons, List.not_mem_nil, or_false] at hb
    obtain rfl := hb
    simp only [Branch.symbols, fits_tok_iff, fits_sub_iff, fits_nil_iff] at hus
    obtain ⟨k, _, rfl, -, f, _, rfl, hf, m, _, rfl, hm, k', _, rfl, -, rfl⟩ := hus
    obtain ⟨fs, rfl⟩ := exists_node_of_hasShape hf
    have harguments := alike_node trees .typeArguments
      [.leaf k, .node (.type true) fs, m, .leaf k']
    simp only [joinArguments, namedOf, chainOf_joinSuffixes _ hs, typeArgumentsOf]
    refine chainOf_congr ?_ r
    refine ⟨.refl _, rfl, ?_, rfl, ?_⟩
    · exact alike_of_tokens (by
        simp [Chain.suffixed, Chain.start, tokensOf_append, tokensOf, Tree.tokens])
    · simp only [Chain.start, Chain.suffixed]
      rw [harguments.text]
      exact (suffixesOf_congr harguments _ _).symm

/-- Names, type arguments and brackets after a name. -/
theorem namedOf_joinNamed (whole trees : List Tree) (names : List Text) {d : Tree}
    (hd : HasShape .dotted d) (ha : HasShape .typeArguments a) (hs : HasShape .suffixes s)
    (r : Tree) :
    namedOf whole trees names (joinNamed d a s r)
      = chainOf (.start whole (trees ++ [d, a, s]) (suffixesOf (trees ++ [d, a])
          (referenceType (textOf (trees ++ [d, a])) (names ++ dottedNames d)
            <$> typeArgumentsOf a) s)) r := by
  obtain ⟨-, hd'⟩ | ⟨us, hd', -, b, hb, hus⟩ := hd.exists_cases
  · rw [hd', joinNamed, joinMore, namedOf_joinArguments _ _ _ ha hs, dottedNames]
    -- An empty tree behind the name adds no token, so the texts are those without it.
    · have hempty : Alike (trees ++ [.node .dotted [], a]) (trees ++ [a]) := alike_of_tokens (by
        simp [tokensOf_append, tokensOf, Tree.tokens])
      refine chainOf_congr ?_ r
      refine ⟨.refl _, rfl, ?_, rfl, ?_⟩
      · exact alike_of_tokens (by simp [Chain.start, tokensOf_append, tokensOf, Tree.tokens])
      · simp only [Chain.start]
        rw [hempty.text, List.append_nil]
        exact (suffixesOf_congr hempty _ _).symm
    all_goals rintro _ _ _ _ ⟨⟩
  · simp only [branches, List.mem_cons, List.not_mem_nil, or_false] at hb
    obtain rfl := hb
    simp only [Branch.symbols, fits_tok_iff, fits_sub_iff, fits_nil_iff] at hus
    obtain ⟨k, _, rfl, -, name, _, rfl, -, more, _, rfl, hmore, rfl⟩ := hus
    have ih := fun trees names => namedOf_joinNamed whole trees names hmore ha hs r
    have halike : Alike (trees ++ [.leaf k, .leaf name] ++ [more, a])
        (trees ++ [.node .dotted [.leaf k, .leaf name, more], a]) := alike_of_tokens (by
      simp [tokensOf_append, tokensOf, Tree.tokens])
    rw [hd']
    simp only [joinNamed] at ih ⊢
    simp only [joinMore, namedOf, ih, dottedNames]
    refine chainOf_congr ?_ r
    refine ⟨.refl _, rfl, ?_, rfl, ?_⟩
    · exact alike_of_tokens (by simp [Chain.start, tokensOf_append, tokensOf, Tree.tokens])
    · simp only [Chain.start]
      rw [halike.text, List.append_assoc names, List.singleton_append]
      exact suffixesOf_congr halike _ _
termination_by sizeOf d
decreasing_by all_goals (subst hd'; exact BuildsBelow.sizeOf_child (by simp))

/-! ### Tokens -/

theorem tokensOf_alone (n : Nonterminal) (t : Tree) : tokensOf [alone n t] = tokensOf [t] := by
  match t with
  | .leaf k => rfl
  | .node m [] => rfl
  | .node m (t :: ts) =>
    unfold alone
    exact tokensOf_node n [.node m (t :: ts)]

/-- The trees of a repetition have the same tokens however they are grouped. -/
theorem tokensOf_joinMore {n : Nonterminal} {u : Terminal} {x : Symbol}
    (hn : n.branches = [.led u [x, .sub n]]) (q : Nonterminal) (base : Tree) {o : Tree}
    (h : HasShape n o) : tokensOf [joinMore q base o] = tokensOf [o] ++ tokensOf [base] := by
  obtain ⟨-, ho⟩ | ⟨us, ho, -, b, hb, hus⟩ := h.exists_cases
  · rw [ho]
    rfl
  · rw [hn, List.mem_singleton] at hb
    subst hb
    obtain ⟨k, rest, rfl, -, hus⟩ := fits_tok_iff.1 hus
    -- What is repeated is one tree, be it a token or not.
    have hitem : ∃ item more, rest = [item, more] ∧ HasShape n more := by
      cases x with
      | tok v =>
        obtain ⟨k', _, rfl, -, hmore⟩ := fits_tok_iff.1 hus
        obtain ⟨more, _, rfl, hmore, hnil⟩ := fits_sub_iff.1 hmore
        obtain rfl := fits_nil_iff.1 hnil
        exact ⟨_, more, rfl, hmore⟩
      | sub m =>
        obtain ⟨item, _, rfl, -, hmore⟩ := fits_sub_iff.1 hus
        obtain ⟨more, _, rfl, hmore, hnil⟩ := fits_sub_iff.1 hmore
        obtain rfl := fits_nil_iff.1 hnil
        exact ⟨_, more, rfl, hmore⟩
    obtain ⟨item, more, rfl, hmore⟩ := hitem
    have ih := tokensOf_joinMore hn q base hmore
    rw [ho, joinMore]
    simp only [tokensOf, Tree.tokens, List.append_nil, List.append_assoc, List.cons_append,
      List.nil_append] at ih ⊢
    rw [ih]
termination_by sizeOf o
decreasing_by all_goals (subst ho; exact BuildsBelow.sizeOf_child (by simp))

theorem tokensOf_joinSuffixes (hs : HasShape .suffixes s) (r : Tree) :
    tokensOf [joinSuffixes s r] = tokensOf [s] ++ tokensOf [r] := by
  rw [joinSuffixes, tokensOf_joinMore rfl _ _ hs, tokensOf_alone]

theorem tokensOf_joinNamed (hd : HasShape .dotted d) (ha : HasShape .typeArguments a)
    (hs : HasShape .suffixes s) (r : Tree) :
    tokensOf [joinNamed d a s r] = tokensOf [d, a, s, r] := by
  have harguments : tokensOf [joinArguments a s r] = tokensOf [a, s, r] := by
    have hsuffixes := tokensOf_joinSuffixes hs r
    obtain ⟨-, rfl⟩ | ⟨us, rfl, -, b, hb, hus⟩ := ha.exists_cases
    · rw [joinArguments, tokensOf_alone, hsuffixes]
      · simp [tokensOf, Tree.tokens]
      · rintro _ _ _ _ _ ⟨⟩
    · rw [List.mem_singleton.1 hb] at hus
      simp only [Branch.symbols, fits_tok_iff, fits_sub_iff, fits_nil_iff] at hus
      obtain ⟨k, _, rfl, -, f, _, rfl, -, m, _, rfl, -, k', _, rfl, -, rfl⟩ := hus
      simp only [joinArguments, tokensOf, Tree.tokens, List.append_nil, List.append_assoc,
        List.cons_append] at hsuffixes ⊢
      rw [hsuffixes]
  rw [joinNamed, tokensOf_joinMore rfl _ _ hd, harguments, tokensOf_singleton]
  rfl

/-! ### Operands -/

/-- Two operands and more are an intersection. -/
theorem chainOf_joinOperands (c : Chain) (hmembers : c.members = []) (hmany : c.operands ≠ 1)
    (hpos : c.operands ≠ 0) {m : Tree} (h : HasShape .moreOperands m) :
    chainOf c (joinMore (.typeRest true) (.node (.typeRest true) []) m)
      = unsupported (c.trees ++ [m]) "IntersectionType" := by
  obtain ⟨-, hm⟩ | ⟨us, hm, -, b, hb, hus⟩ := h.exists_cases
  · rw [hm, joinMore, chainOf, Chain.finish, hmembers]
    · simp only [Chain.member, hmany, if_false]
      exact (unsupported_congr (alike_empty _ _) _).symm
    · rintro _ _ _ _ ⟨⟩
  · rw [List.mem_singleton.1 hb] at hus
    simp only [Branch.symbols, fits_tok_iff, fits_sub_iff, fits_nil_iff] at hus
    obtain ⟨k, _, rfl, hk, o, _, rfl, -, more, _, rfl, hmore, rfl⟩ := hus
    rw [hm]
    simp only [joinMore, chainOf, hk]
    rw [chainOf_joinOperands (c.intersected [.leaf k, o]) hmembers
      (by simpa [Chain.intersected] using hpos) (Nat.succ_ne_zero _) hmore]
    exact unsupported_congr (alike_of_tokens (by
      simp [Chain.intersected, tokensOf_append, tokensOf, Tree.tokens])) _
termination_by sizeOf m
decreasing_by all_goals (subst hm; exact BuildsBelow.sizeOf_child (by simp))

/-- The type of an operand and the operands behind it, where `trees` are all of them. -/
def operandsOf (trees : List Tree) (o : Tree) : Tree → Decoded TypeExpr
  | .node _ [] => operatorOf o
  | _ => unsupported trees "IntersectionType"

/-- Operands that nothing else follows, the first of which is the last tree of `front`. -/
theorem chainOf_operands (whole front : List Tree) {n : Nonterminal} {o m : Tree}
    (h : HasShape .moreOperands m) :
    chainOf (.start whole (front ++ [o]) (operatorOf o))
        (joinMore (.typeRest true) (.node (.typeRest true) []) m)
      = operandsOf [.node n (front ++ [o, m])] o m := by
  obtain ⟨-, rfl⟩ | ⟨us, rfl, -, b, hb, hus⟩ := h.exists_cases
  · rw [joinMore, chainOf_start_empty, operandsOf]
    rintro _ _ _ _ ⟨⟩
  · rw [List.mem_singleton.1 hb] at hus
    simp only [Branch.symbols, fits_tok_iff, fits_sub_iff, fits_nil_iff] at hus
    obtain ⟨k, _, rfl, hk, o', _, rfl, -, more, _, rfl, hmore, rfl⟩ := hus
    simp only [joinMore, chainOf, hk, operandsOf]
    rw [chainOf_joinOperands _ rfl (by simp [Chain.intersected, Chain.start])
      (Nat.succ_ne_zero _) hmore]
    exact unsupported_congr (alike_of_tokens (by
      simp [Chain.intersected, Chain.start, tokensOf_append, tokensOf, Tree.tokens])) _

/-! ### Types that start with a name -/

theorem typeOf_namedTree {k : Token} (hk : k.terminal = .name) (hd : HasShape .dotted d)
    (ha : HasShape .typeArguments a) (hs : HasShape .suffixes s) (r : Tree) :
    typeOf (namedTree k d a s r)
      = namedOf [namedTree k d a s r] [.leaf k] [lexemeOf k] (joinNamed d a s r) := by
  obtain ⟨ds, rfl⟩ := exists_node_of_hasShape hd
  have hprimary := alike_node [] .primary [.leaf k, .node .dotted ds, a]
  rw [namedOf_joinNamed _ _ _ hd ha hs]
  simp only [namedTree, typeOf, operatorOf, primaryOf, hk]
  refine chainOf_congr ?_ r
  refine ⟨.refl _, rfl, ?_, rfl, ?_⟩
  · exact alike_of_tokens (by simp [Chain.start, tokensOf, Tree.tokens])
  · simp only [Chain.start]
    have htext := hprimary.text
    simp only [List.nil_append] at hprimary htext
    rw [suffixesOf_congr hprimary, htext]
    rfl

end DeclSchema.Declaration
