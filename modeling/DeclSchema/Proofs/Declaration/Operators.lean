import DeclSchema.Proofs.Declaration.Aliases
import DeclSchema.Proofs.Declaration.Unions

/-!
# Operands as types

Operands and members of unions are read by other nonterminals than types. What is read as one of
them, up to a semicolon, is read as a type there, and the same type is made of it. The other way
round, a type in parentheses is an operand and what follows it.

## Main definitions

* `IsParenthesized`: what follows a parenthesis at the start of a type is the type in parentheses
* `HasOperand`: a type is that of a function, or an operand and what follows it

## Main results

* `exists_type_of_operator`, `exists_type_of_intersection`: operands and members of unions as types
* `exists_type_of_name`: a name and what follows it as a type
* `exists_operand_of_parenthesis`: a type that starts with a parenthesis as an operand
-/

namespace DeclSchema.Declaration

open Grammar Grammar.Tree Grammar.Terminal Grammar.Nonterminal Escape
open Canonical (typeOf_parenthesis)

variable {symbols outer : List Symbol} {input next mid rest : List Char} {k : Token}
  {o p r s t u x : Tree} {ts : List Tree} {T : TypeExpr}

/-! ### Texts of the same tokens -/

/-- Trees are alike that are read from the same first token to the same place. -/
theorem alike_of_derives {n m : Nonterminal} {outer' outer'' : List Symbol} {ts' : List Tree}
    (h : Derives (.node n k) outer input ts rest) (ht : Derives (.node m k) outer' input [t] mid)
    (hts : Derives (.list symbols) outer'' mid ts' rest) : Alike ts (t :: ts') := by
  obtain ⟨ks, hks, hinput⟩ := h.exists_tokens
  obtain ⟨ks₁, hks₁, hinput₁⟩ := ht.exists_tokens
  obtain ⟨ks₂, hks₂, rfl⟩ := hts.exists_tokens
  -- Both readings took the same characters, so their tokens are spelled alike.
  have hsource : source ks = source (ks₁ ++ ks₂) := by
    rw [hinput₁, ← List.append_assoc] at hinput
    rw [source, source, List.flatMap_append]
    exact (List.append_cancel_right hinput).symm
  have htokens : tokensOf (t :: ts') = k :: (ks₁ ++ ks₂) := by
    rw [← List.singleton_append, tokensOf_append, hks₁, hks₂]
    rfl
  intro more
  rw [textOf, textOf, tokensOf_append, tokensOf_append, hks, htokens]
  simp only [source] at hsource
  simp only [Task.taken, List.cons_append, List.nil_append, Tree.spelling, List.flatMap_append,
    hsource]

/-! ### What follows an opening parenthesis -/

theorem parenthesisOf_marked (whole : List Tree) (opening mark : Token) (n : Nonterminal)
    (a : Token) (b : Tree) :
    parenthesisOf whole opening (.node n [.leaf mark, .leaf a, b])
      = unsupported whole "FunctionType" := by
  rw [parenthesisOf]

theorem parenthesisOf_rest (whole : List Tree) (opening : Token) (n : Nonterminal) (a b c d : Tree) :
    parenthesisOf whole opening (.node n [a, b, c, d]) = unsupported whole "FunctionType" := by
  rw [parenthesisOf]
  all_goals
    intros
    rename_i h
    cases h

theorem parenthesisOf_parameter (whole : List Tree) (opening name mark : Token)
    (n m : Nonterminal) (a b : Tree) :
    parenthesisOf whole opening (.node n [.leaf name, .node m [.leaf mark, a, b]])
      = unsupported whole "FunctionType" := by
  rw [parenthesisOf]

theorem primaryOf_parenthesis {n : Nonterminal} (hparen : k.terminal = .openParen) (y c : Tree) :
    primaryOf (.node n [.leaf k, y, c])
      = (do return .parenthesized (textOf [.node n [.leaf k, y, c]]) (some (← typeOf y))) := by
  rw [primaryOf, hparen]

/-! ### An operand at the start of a type -/

section Operand

variable {c : Token} {y a d q e : Tree} {mid' : List Char}

theorem exists_node_of_derives {n : Nonterminal}
    (h : Derives (.list [.sub n]) outer input [t] rest) : ∃ us, t = .node n us :=
  exists_node_of_hasShape h.fits

/-- An operand that starts with a parenthesis is a type in parentheses and the brackets behind
it. -/
theorem derives_operator_of_parenthesis (hparen : k.terminal = .openParen)
    (ho : Derives (.node .operator k) outer next [o] mid) :
    ∃ s y c mid₁ mid₂, o = .node .operator [.node .primary [.leaf k, y, .leaf c], s] ∧
      Derives (.list [.sub (.type true)]) (.tok .closeParen :: .sub .suffixes :: outer) next [y]
        mid₁ ∧
      Sees (.tok .closeParen :: .sub .suffixes :: outer) mid₁ c mid₂ ∧
      Derives (.list [.sub .suffixes]) outer mid₂ [s] mid := by
  have hoperator : branch? .operator k.terminal = some (.via .primary [.sub .suffixes]) := by
    rw [hparen]
    rfl
  have hprimary : branch? .primary k.terminal
      = some (.led .openParen [.sub (.type true), .tok .closeParen]) := by
    rw [hparen]
    rfl
  obtain ⟨p, _, mid₂, rfl, hp, hs⟩ := (derives_via_iff hoperator).1 ho
  obtain ⟨s, rfl, hs⟩ := exists_of_derives_single hs
  obtain ⟨_, rfl, hinner⟩ := (derives_led_iff hprimary).1 hp
  obtain ⟨y, t, mid₁, rfl, hy, hc⟩ := exists_of_derives_pair hinner
  obtain ⟨c, rfl, hclosing⟩ := derives_tok_iff.1 hc
  exact ⟨s, y, c, mid₁, mid₂, rfl, hy, hclosing, hs⟩

/-- A type in parentheses and the brackets behind it, at the start of a type. -/
theorem afterParenthesisOf_joinSuffixes {whole trees : List Tree} {inner : Decoded TypeExpr}
    {m : Nonterminal} {ps : List Tree} (hs : HasShape .suffixes s)
    (halike : Alike trees [.node m ps])
    (hp : primaryOf (.node m ps)
      = (do return TypeExpr.parenthesized (textOf [.node m ps]) (some (← inner)))) (r : Tree) :
    afterParenthesisOf whole trees inner (alone (.parenthesisEnd true) (joinSuffixes s r))
      = chainOf (.start whole [.node .operator [.node m ps, s]]
          (operatorOf (.node .operator [.node m ps, s]))) r := by
  rw [afterParenthesisOf_alone, chainOf_joinSuffixes _ hs]
  refine chainOf_congr ?_ r
  refine ⟨.refl _, rfl, ?_, rfl, ?_⟩
  · exact (halike.append [s]).trans (alike_node [] .operator [.node m ps, s]).symm
  · simp only [Chain.start, Chain.suffixed, operatorOf]
    rw [halike.text, ← hp]
    exact suffixesOf_congr halike _ _

theorem tokensOf_namedTree (k : Token) (d a s r : Tree) :
    tokensOf [namedTree k d a s r] = k :: tokensOf [d, a, s, r] := by
  simp [namedTree, tokensOf, Tree.tokens]

/-- A type that starts with a name has the tokens of the name and of what follows it. -/
theorem tokensOf_namedTree_joinNamed (k : Token) (hd : HasShape .dotted d)
    (ha : HasShape .typeArguments a) (hs : HasShape .suffixes s) (r : Tree) :
    tokensOf [namedTree k d a s r] = tokensOf [.leaf k, joinNamed d a s r] := by
  rw [tokensOf_namedTree, ← tokensOf_joinNamed hd ha hs]
  rfl

/-- A name in parentheses is the type that it is without them, whether or not something follows
it. -/
theorem parenthesisOf_nameInParentheses (whole : List Tree) (opening name c : Token)
    (n m : Nonterminal) (qs : List Tree) (e : Tree) :
    parenthesisOf whole opening
        (.node n [.leaf name, nameInParentheses (.node m qs) (.leaf c) e])
      = afterParenthesisOf whole [.leaf opening, .leaf name, .node m qs, .leaf c]
          (namedOf [.leaf name, .node m qs] [.leaf name] [lexemeOf name] (.node m qs)) e := by
  cases qs with
  | nil =>
    simp only [nameInParentheses, parenthesisOf, namedOf, textOf_leaf]
    refine afterParenthesisOf_congr (.refl _) (alike_of_tokens ?_) _ e
    simp [tokensOf, Tree.tokens]
  | cons q qs => simp only [nameInParentheses, parenthesisOf]

/-- What follows the parenthesis `k` is the type that `y` is the tree of, the closing parenthesis
`c`, and `e`. -/
def IsParenthesized (k : Token) (p y : Tree) (c : Token) (e : Tree) : Prop :=
  ∃ trees, Alike trees [.leaf k, y, .leaf c] ∧
    ∀ whole, parenthesisOf whole k p = afterParenthesisOf whole trees (typeOf y) e

theorem isParenthesized_of_type (k : Token) (n m : Nonterminal) (ys : List Tree) (c : Token)
    (e : Tree) : IsParenthesized k (.node n [.node m ys, .leaf c, e]) (.node m ys) c e :=
  ⟨_, .refl _, fun _ => by simp only [parenthesisOf]⟩

/-- A name and what follows it are the type that is read of their tokens. -/
theorem isParenthesized_of_name {name : Token} {n m : Nonterminal} {qs : List Tree}
    (htokens : tokensOf [y] = tokensOf [.leaf name, .node m qs])
    (htype : typeOf y
      = namedOf [.leaf name, .node m qs] [.leaf name] [lexemeOf name] (.node m qs)) :
    IsParenthesized k (.node n [.leaf name, nameInParentheses (.node m qs) (.leaf c) e]) y c e := by
  refine ⟨[.leaf k, .leaf name, .node m qs, .leaf c], alike_of_tokens ?_, fun whole => ?_⟩
  · simp only [tokensOf, Tree.tokens, List.append_nil, List.singleton_append] at htokens ⊢
    rw [htokens]
    rfl
  · rw [parenthesisOf_nameInParentheses, htype]

/-- A name right behind the parenthesis is read before it is known what it belongs to. -/
theorem exists_parenthesis_of_name {name c : Token} (hname : name.terminal = .name)
    (hk : Sees (.sub (.type true) :: .tok .closeParen :: outer) input name next)
    (hy : Derives (.node (.type true) name) (.tok .closeParen :: outer) next [y] mid)
    (hc : Sees (.tok .closeParen :: outer) mid c mid')
    (he : Derives (.list [.sub (.parenthesisEnd true)]) [.tok .semicolon] mid' [e] rest) :
    ∃ p, Derives (.list [.sub (.parenthesis true)]) [.tok .semicolon] input [p] rest ∧
      IsParenthesized k p y c e := by
  have hbranch : branch? (.parenthesis true) name.terminal
      = some (.led .name [.sub (.parenthesisName true)]) := by
    rw [hname]
    rfl
  have hstarts : starts (.type true) name.terminal = true := by
    rw [hname]
    rfl
  -- The type is taken apart, and its parts are put together again behind the name.
  obtain ⟨d, a, s, r, rfl, hrest⟩ := (derives_namedTree_iff hk hname).1
    (derives_sub_iff.2 (.inl ⟨name, next, hk, hstarts, hy⟩))
  have hq := derives_joinNamed_iff.2 ⟨d, a, s, r, rfl, hrest⟩
  refine ⟨.node (.parenthesis true) [.leaf name,
    nameInParentheses (joinNamed d a s r) (.leaf c) e], derives_sub_iff.2 (.inl ⟨name, next,
      hk.parenthesis_of_type, starts_of_branch? hbranch, (derives_led_iff hbranch).2
        ⟨_, rfl, Derives.nameInParentheses hq hc he⟩⟩), ?_⟩
  have hfits := hrest.fits
  simp only [fits_sub_iff, fits_nil_iff] at hfits
  obtain ⟨_, _, ⟨⟩, hd, _, _, ⟨⟩, ha, _, _, ⟨⟩, hs, -⟩ := hfits
  have htokens := tokensOf_namedTree_joinNamed name hd ha hs r
  have htype := typeOf_namedTree hname hd ha hs r
  obtain ⟨qs, hqs⟩ := exists_node_of_derives hq
  rw [hqs] at htokens htype ⊢
  rw [namedOf_congr (alike_of_tokens htokens) (.refl _)] at htype
  exact isParenthesized_of_name htokens htype

/-- Any other type behind the parenthesis is read as a whole. -/
theorem exists_parenthesis_of_type {k₂ c : Token} (hname : k₂.terminal ≠ .name)
    (hk : Sees (.sub (.type true) :: .tok .closeParen :: outer) input k₂ next)
    (hstarts : starts (.type true) k₂.terminal = true)
    (hy : Derives (.node (.type true) k₂) (.tok .closeParen :: outer) next [y] mid)
    (hc : Sees (.tok .closeParen :: outer) mid c mid')
    (he : Derives (.list [.sub (.parenthesisEnd true)]) [.tok .semicolon] mid' [e] rest) :
    ∃ p, Derives (.list [.sub (.parenthesis true)]) [.tok .semicolon] input [p] rest ∧
      IsParenthesized k p y c e := by
  have hbranch : branch? (.parenthesis true) k₂.terminal
      = some (.via (.type true) [.tok .closeParen, .sub (.parenthesisEnd true)]) := by
    -- Every terminal that starts a type, apart from a name, has this branch.
    generalize k₂.terminal = v at hname hstarts
    cases v <;> first
      | rfl
      | exact absurd rfl hname
      | exact absurd hstarts Bool.false_ne_true
  have hread : Derives (.node (.parenthesis true) k₂) [.tok .semicolon] next
      [.node (.parenthesis true) [y, .leaf c, e]] rest :=
    (derives_via_iff hbranch).2
      ⟨_, _, _, rfl, hy.congr (by funext v; rfl), .tok (hc.tok_congr _) he⟩
  refine ⟨_, derives_sub_iff.2 (.inl ⟨k₂, next, hk.parenthesis_of_type,
    starts_of_branch? hbranch, hread⟩), ?_⟩
  obtain ⟨ys, rfl⟩ := hy.exists_node
  exact isParenthesized_of_type ..

/-- An operand in parentheses and what follows it are read as a type. -/
theorem exists_type_of_parenthesis (hparen : k.terminal = .openParen)
    (ho : Derives (.node .operator k) [.sub (.typeRest true), .tok .semicolon] next [o] mid)
    (hr : Derives (.list [.sub (.typeRest true)]) [.tok .semicolon] mid [r] rest) :
    ∃ u, Derives (.node (.type true) k) [.tok .semicolon] next [u] rest ∧
      typeOf u = chainOf (.start [u] [o] (operatorOf o)) r := by
  have htype : branch? (.type true) k.terminal
      = some (.led .openParen [.sub (.parenthesis true)]) := by
    rw [hparen]
    rfl
  obtain ⟨s, y, c, mid₁, mid₂, rfl, hy, hc, hs⟩ := derives_operator_of_parenthesis hparen ho
  -- The brackets after the operand and the rest of the type become the end of the parenthesis.
  have he := (derives_joinSuffixes_iff.2 ⟨s, r, rfl, derives_cons_iff.2
    ⟨s, [r], _, rfl, hs, hr⟩⟩).parenthesisEnd
  obtain ⟨k₂, next₂, hk₂, hstarts₂, hy₂⟩ | ⟨-, -, ⟨⟩, -⟩ := derives_sub_iff.1 hy
  have hp : ∃ p, Derives (.list [.sub (.parenthesis true)]) [.tok .semicolon] next [p] rest ∧
      IsParenthesized k p y c (alone (.parenthesisEnd true) (joinSuffixes s r)) := by
    by_cases hname : k₂.terminal = .name
    · exact exists_parenthesis_of_name hname hk₂ hy₂ hc he
    · exact exists_parenthesis_of_type hname hk₂ hstarts₂ hy₂ hc he
  obtain ⟨p, hp, trees, halike, hwhole⟩ := hp
  refine ⟨.node (.type true) [.leaf k, p], (derives_led_iff htype).2 ⟨_, rfl, hp⟩, ?_⟩
  rw [typeOf_parenthesis hparen, hwhole]
  exact afterParenthesisOf_joinSuffixes hs.fits (halike.trans (alike_node [] .primary _).symm)
    (primaryOf_parenthesis hparen y _) r

/-- An operand and what follows it are read as a type. -/
theorem exists_type_of_operator (hstarts : starts .operator k.terminal = true)
    (ho : Derives (.node .operator k) [.sub (.typeRest true), .tok .semicolon] next [o] mid)
    (hr : Derives (.list [.sub (.typeRest true)]) [.tok .semicolon] mid [r] rest) :
    ∃ u, Derives (.node (.type true) k) [.tok .semicolon] next [u] rest ∧
      typeOf u = chainOf (.start [u] [o] (operatorOf o)) r := by
  by_cases hparen : k.terminal = .openParen
  · exact exists_type_of_parenthesis hparen ho hr
  · have hbranch : branch? (.type true) k.terminal
        = some (.via .operator [.sub (.typeRest true)]) := by
      generalize k.terminal = v at hparen hstarts
      cases v <;> first
        | rfl
        | exact absurd rfl hparen
        | exact absurd hstarts Bool.false_ne_true
    obtain ⟨os, rfl⟩ := ho.exists_node
    refine ⟨_, (derives_via_iff hbranch).2 ⟨_, [r], mid, rfl, ho, hr⟩, ?_⟩
    simp only [typeOf]

end Operand

/-! ### A parenthesis at the start of a type -/

section Parenthesis

variable {c : Token} {q y e : Tree} {mid' : List Char}

/-- A name and what may follow it are read as a type wherever types may come. -/
theorem exists_type_of_name (hk : Sees symbols input k next) (hname : k.terminal = .name)
    (hstarts : ∀ v, starts (.type true) v = true → expects symbols v = true)
    (hq : Derives (.list [.sub (.namedRest true)]) outer next [q] rest) :
    ∃ u, Derives (.list [.sub (.type true)]) outer input [u] rest ∧
      tokensOf [u] = tokensOf [.leaf k, q] ∧
        typeOf u = namedOf [.leaf k, q] [.leaf k] [lexemeOf k] q := by
  have hk' : Sees (.sub (.type true) :: outer) input k next :=
    hk.narrow (by decide) rfl (by rw [hname]; rfl) hstarts
  obtain ⟨d, a, s, r, rfl, hrest⟩ := derives_joinNamed_iff.1 hq
  have hfits := hrest.fits
  simp only [fits_sub_iff, fits_nil_iff] at hfits
  obtain ⟨_, _, ⟨⟩, hd, _, _, ⟨⟩, ha, _, _, ⟨⟩, hs, -⟩ := hfits
  have htokens := tokensOf_namedTree_joinNamed k hd ha hs r
  refine ⟨namedTree k d a s r, (derives_namedTree_iff hk' hname).2 ⟨d, a, s, r, rfl, hrest⟩,
    htokens, ?_⟩
  rw [typeOf_namedTree hname hd ha hs r]
  exact namedOf_congr (alike_of_tokens htokens) (.refl _) _ _

/-- The type is that of a function, or it is read as an operand and what follows the operand. -/
def HasOperand (k : Token) (input : List Char) (t : Tree) (rest : List Char) : Prop :=
  typeOf t = unsupported [t] "FunctionType" ∨
    ∃ o r mid, Derives (.node .operator k) [.sub (.typeRest true), .tok .semicolon] input [o] mid ∧
      Derives (.list [.sub (.typeRest true)]) [.tok .semicolon] mid [r] rest ∧
      typeOf t = chainOf (.start [t] [o] (operatorOf o)) r

/-- A type in parentheses and what follows it are an operand and what follows that. -/
theorem hasOperand_of_parenthesis (hparen : k.terminal = .openParen)
    (hy : Derives (.list [.sub (.type true)]) [.tok .closeParen] next [y] mid)
    (hc : Sees [.tok .closeParen] mid c mid')
    (he : Derives (.list [.sub (.parenthesisEnd true)]) [.tok .semicolon] mid' [e] rest)
    (hp : IsParenthesized k p y c e) :
    HasOperand k next (.node (.type true) [.leaf k, p]) rest := by
  obtain ⟨trees, htrees, hwhole⟩ := hp
  have ht := (typeOf_parenthesis hparen p).trans (hwhole [.node (.type true) [.leaf k, p]])
  -- An arrow makes parameters of what is in the parentheses.
  obtain ⟨arrow, result, rfl⟩ | ⟨e, rfl, hsuffixed⟩ := leads_parenthesisEnd.cases rfl he
  · rw [HasOperand, ht]
    exact .inl (by simp only [afterParenthesisOf])
  · obtain ⟨s, r, rfl, hsr⟩ := derives_joinSuffixes_iff.1 hsuffixed
    obtain ⟨_, _, mid₁, ⟨⟩, hs, hr⟩ := derives_cons_iff.1 hsr
    have hoperator : branch? .operator k.terminal = some (.via .primary [.sub .suffixes]) := by
      rw [hparen]; rfl
    have hprimary : branch? .primary k.terminal
        = some (.led .openParen [.sub (.type true), .tok .closeParen]) := by rw [hparen]; rfl
    have hinner : Derives (.list [.sub (.type true), .tok .closeParen])
        [.sub .suffixes, .sub (.typeRest true), .tok .semicolon] next [y, .leaf c] mid' :=
      derives_cons_iff.2 ⟨_, _, _, rfl, hy.congr (by funext v; rfl), .tok (hc.tok_congr _) .nil⟩
    refine .inr ⟨.node .operator [.node .primary [.leaf k, y, .leaf c], s], r, mid₁,
      (derives_via_iff hoperator).2 ⟨_, [s], _, rfl, (derives_led_iff hprimary).2 ⟨_, rfl, hinner⟩,
        hs⟩, hr, ht.trans ?_⟩
    exact afterParenthesisOf_joinSuffixes hs.fits
      (htrees.trans (alike_node [] .primary _).symm) (primaryOf_parenthesis hparen y _) r

/-- A name behind the parenthesis. -/
theorem hasOperand_of_name {k₂ : Token} {w : Tree} {next₂ : List Char}
    (hparen : k.terminal = .openParen)
    (hk₂ : Sees [.sub (.parenthesis true), .tok .semicolon] next k₂ next₂)
    (hname : k₂.terminal = .name)
    (hw : Derives (.list [.sub (.parenthesisName true)]) [.tok .semicolon] next₂ [w] rest) :
    HasOperand k next (.node (.type true) [.leaf k, .node (.parenthesis true) [.leaf k₂, w]])
      rest := by
  obtain ⟨k₃, next₃, hk₃, -, hw⟩ | ⟨-, -, ⟨⟩, -⟩ := derives_sub_iff.1 hw
  obtain ⟨a, b, rfl⟩ | ⟨q, c, e, mid₁, mid₂, rfl, hq, hc, he⟩ :=
    exists_nameInParentheses hk₃ hw []
  · exact .inl ((typeOf_parenthesis hparen _).trans (parenthesisOf_parameter ..))
  · have hexpects (v : Terminal) (hv : starts (.type true) v = true) :
        expects [.sub (.parenthesis true), .tok .semicolon] v = true :=
      expects_of_starts (starts_parenthesis_of_type v hv)
    obtain ⟨y, hy, htokens, htype⟩ := exists_type_of_name hk₂ hname hexpects hq
    obtain ⟨qs, rfl⟩ := exists_node_of_derives hq
    exact hasOperand_of_parenthesis hparen hy hc he (isParenthesized_of_name htokens htype)

/-- A type that starts with a parenthesis is that of a function, or it is read as an operand and
what follows the operand. -/
theorem exists_operand_of_parenthesis (hparen : k.terminal = .openParen)
    (h : Derives (.node (.type true) k) [.tok .semicolon] next [t] rest) :
    HasOperand k next t rest := by
  have htype : branch? (.type true) k.terminal
      = some (.led .openParen [.sub (.parenthesis true)]) := by
    rw [hparen]; rfl
  obtain ⟨_, rfl, hus⟩ := (derives_led_iff htype).1 h
  obtain ⟨p, rfl, hp⟩ := exists_of_derives_single hus
  obtain ⟨k₂, next₂, hk₂, -, hp⟩ | ⟨-, -, ⟨⟩, -⟩ := derives_sub_iff.1 hp
  obtain ⟨symbols, us, hb, rfl, hmore⟩ | ⟨m, symbols, y, us, mid, hb, hstarts, rfl, hy, hmore⟩ :=
    hp.node_cases
  -- A marked first parameter or `...` makes it a function; a name leaves both open.
  · have hfits := hmore.fits
    simp only [branches, List.mem_cons, List.not_mem_nil, or_false, Branch.led.injEq,
      reduceCtorEq] at hb
    obtain ⟨-, rfl⟩ | ⟨-, rfl⟩ | ⟨hterminal, rfl⟩ := hb
    · simp only [fits_tok_iff, fits_sub_iff, fits_nil_iff] at hfits
      obtain ⟨_, _, rfl, -, _, _, rfl, -, rfl⟩ := hfits
      exact .inl ((typeOf_parenthesis hparen _).trans (parenthesisOf_marked ..))
    · simp only [fits_sub_iff, fits_nil_iff] at hfits
      obtain ⟨_, _, rfl, -, _, _, rfl, -, _, _, rfl, -, rfl⟩ := hfits
      exact .inl ((typeOf_parenthesis hparen _).trans (parenthesisOf_rest ..))
    · obtain ⟨w, rfl, hw⟩ := exists_of_derives_single hmore
      exact hasOperand_of_name hparen hk₂ hterminal hw
  · simp only [branches, List.mem_cons, List.not_mem_nil, or_false, Branch.via.injEq,
      reduceCtorEq, false_or] at hb
    obtain ⟨rfl, rfl⟩ := hb
    obtain ⟨_, _, mid₁, rfl, hc, he⟩ := derives_cons_iff.1 hmore
    obtain ⟨c, rfl, hclosing⟩ := derives_tok_iff.1 hc
    obtain ⟨e, rfl, he⟩ := exists_of_derives_single he
    have hk₂' : Sees [.sub (.type true), .tok .closeParen] _ k₂ next₂ :=
      hk₂.narrow (by decide) rfl hstarts fun v hv =>
        expects_of_starts (starts_parenthesis_of_type v hv)
    have hy' := derives_sub_iff.2 (.inl ⟨k₂, next₂, hk₂', hstarts, hy.congr (by funext v; rfl)⟩)
    obtain ⟨ys, rfl⟩ := exists_node_of_derives hy'
    exact hasOperand_of_parenthesis hparen hy' (hclosing.tok_congr []) he
      (isParenthesized_of_type ..)

end Parenthesis

/-- What may follow an operand. -/
def afterOperand : List Symbol :=
  [.sub (.typeRest true), .tok .semicolon]

theorem stands_empty_typeRest :
    Derives (.list [.sub (.typeRest true)]) [.tok .semicolon] [';'] [.node (.typeRest true) []]
      [';'] :=
  .skip_semicolon rfl rfl rfl .nil

/-! ### Members of unions -/

theorem operandsOf_cases (trees : List Tree) (o m : Tree) :
    operandsOf trees o m = operatorOf o ∨
      operandsOf trees o m = unsupported trees "IntersectionType" := by
  unfold operandsOf
  split
  · exact .inl rfl
  · exact .inr rfl

/-- Further operands are read as what follows an operand. -/
theorem derives_operands {m : Tree}
    (hm : Derives (.list [.sub .moreOperands]) afterOperand input [m] [';']) :
    Derives (.list [.sub (.typeRest true)]) [.tok .semicolon] input
      [joinMore (.typeRest true) (.node (.typeRest true) []) m] [';'] :=
  (joins_operands _).derives rfl
    (derives_cons_iff.2 ⟨_, _, _, rfl, hm, stands_empty_typeRest⟩)

/-- The operands of a member of a union: a mark may stand before the first of them. -/
theorem exists_operands (hx : Derives (.node .intersection k) afterOperand next [x] rest) :
    ∃ front o m mid, x = .node .intersection (front ++ [o, m]) ∧
      Derives (.list [.sub .moreOperands]) afterOperand mid [m] rest ∧
      (k.terminal = .ampersand ∧ front = [.leaf k] ∧
          Derives (.list [.sub .operator]) afterOperand next [o] mid ∨
        k.terminal ≠ .ampersand ∧ front = [] ∧ starts .operator k.terminal = true ∧
          Derives (.node .operator k) afterOperand next [o] mid) := by
  have hexpects : expects (.sub .moreOperands :: afterOperand) = expects afterOperand := by
    funext v
    cases v <;> rfl
  obtain ⟨symbols, us, hb, rfl, h⟩ | ⟨m, symbols, o, us, mid, hb, hstarts, rfl, ho, h⟩ :=
    hx.node_cases
  · simp only [branches, List.mem_cons, List.not_mem_nil, or_false, Branch.led.injEq,
      reduceCtorEq] at hb
    obtain ⟨hampersand, rfl⟩ := hb
    obtain ⟨o, m, mid, rfl, ho, hm⟩ := exists_of_derives_pair h
    exact ⟨[.leaf k], o, m, mid, rfl, hm,
      .inl ⟨hampersand, rfl, ho.congr hexpects⟩⟩
  · simp only [branches, List.mem_cons, List.not_mem_nil, or_false, Branch.via.injEq,
      reduceCtorEq, false_or] at hb
    obtain ⟨rfl, rfl⟩ := hb
    obtain ⟨m, rfl, hm⟩ := exists_of_derives_single h
    refine ⟨[], _, m, _, rfl, hm, .inr ⟨?_, rfl, hstarts, ho.congr hexpects⟩⟩
    intro hampersand
    rw [hampersand] at hstarts
    -- A mark does not start an operand.
    cases hstarts

/-- A member of a union is its only operand, or an intersection. -/
theorem intersectionOf_operands (front : List Tree) (o m : Tree)
    (hfront : front = [.leaf k] ∨ front = []) (ho : ∃ os, o = .node .operator os) :
    intersectionOf (.node .intersection (front ++ [o, m]))
      = operandsOf [.node .intersection (front ++ [o, m])] o m := by
  obtain ⟨os, rfl⟩ := ho
  obtain rfl | rfl := hfront
  all_goals
    simp only [List.cons_append, List.nil_append]
    match m with
    | .leaf _ | .node _ [] | .node _ (_ :: _) => simp only [intersectionOf, operandsOf]

/-- A member of a union is read as a type. -/
theorem exists_type_of_intersection
    (hx : Derives (.node .intersection k) afterOperand next [x] [';']) :
    ∃ u, Derives (.node (.type true) k) [.tok .semicolon] next [u] [';'] ∧
      typeOf u = intersectionOf x := by
  obtain ⟨front, o, m, mid, rfl, hm, ⟨hk, rfl, ho⟩ | ⟨-, rfl, hstarts, ho⟩⟩ := exists_operands hx
  · have hbranch : branch? (.type true) k.terminal
        = some (.led .ampersand [.sub .operator, .sub (.typeRest true)]) := by rw [hk]; rfl
    refine ⟨_, (derives_led_iff hbranch).2 ⟨_, rfl, derives_cons_iff.2
      ⟨o, _, mid, rfl, ho, derives_operands hm⟩⟩, ?_⟩
    rw [intersectionOf_operands _ _ _ (.inl rfl) (exists_node_of_derives ho)]
    simp only [typeOf, hk]
    exact chainOf_operands _ [.leaf k] hm.fits
  · obtain ⟨u, hu, htype⟩ := exists_type_of_operator hstarts ho (derives_operands hm)
    refine ⟨u, hu, htype.trans ?_⟩
    rw [intersectionOf_operands (k := k) _ _ _ (.inr rfl) ho.exists_node]
    exact chainOf_operands _ [] hm.fits

end DeclSchema.Declaration
