import DeclSchema.Proofs.Declaration.Building

/-!
# Trees with the same text

What is made of a tree depends on the trees before it by their text only, and on what stands before
its own first token not at all.

## Main definitions

* `Alike`: trees with the same text, whatever follows them
* `Grammar.Tree.lead`: a tree with other blanks and comments before its first token

## Main results

* `chainOf_congr`, `suffixesOf_congr`, `namedOf_congr`: the trees before count by their text only
* `typeOf_lead`: what stands before the first token of a type does not matter
-/

namespace DeclSchema

namespace Grammar.Tree

/-- The tree with other blanks and comments before its first token. -/
def lead (trivia : List Char) : Tree → Tree
  | leaf k => leaf { k with trivia := trivia }
  | node n [] => node n []
  | node n (t :: ts) => node n (lead trivia t :: ts)

end Grammar.Tree

namespace Declaration

open Grammar Grammar.Tree Grammar.Terminal Escape

/-! ### Texts -/

/-- The trees have the same text, whatever trees follow them. -/
def Alike (ts ts' : List Tree) : Prop :=
  ∀ more, textOf (ts ++ more) = textOf (ts' ++ more)

section Alike

variable {ts ts' : List Tree}

theorem Alike.refl (ts : List Tree) : Alike ts ts :=
  fun _ => rfl

theorem Alike.text (h : Alike ts ts') : textOf ts = textOf ts' := by
  simpa using h []

theorem Alike.append (h : Alike ts ts') (more : List Tree) : Alike (ts ++ more) (ts' ++ more) :=
  fun more' => by simpa only [List.append_assoc] using h (more ++ more')

theorem alike_of_tokens (h : tokensOf ts = tokensOf ts') : Alike ts ts' :=
  fun more => by rw [textOf, textOf, tokensOf_append, tokensOf_append, h]

theorem tokensOf_lead (trivia : List Char) (t : Tree) :
    tokensOf [t.lead trivia] = tokensOf [t] ∨
      ∃ k ks, tokensOf [t] = k :: ks ∧
        tokensOf [t.lead trivia] = { k with trivia := trivia } :: ks := by
  match t with
  | .leaf k => exact .inr ⟨k, [], rfl, rfl⟩
  | .node n [] => exact .inl rfl
  | .node n (t :: ts) =>
    simp only [Tree.lead, tokensOf_node]
    rw [tokensOf, tokensOf]
    obtain h | ⟨k, ks, h, h'⟩ := tokensOf_lead trivia t
    · rw [tokensOf_singleton, tokensOf_singleton] at h
      exact .inl (by rw [h])
    · rw [tokensOf_singleton] at h h'
      exact .inr ⟨k, ks ++ tokensOf ts, by rw [h, List.cons_append], by rw [h', List.cons_append]⟩

/-- What stands before the first token is not in the text. -/
theorem alike_lead (trivia : List Char) (t : Tree) (ts : List Tree) :
    Alike (t.lead trivia :: ts) (t :: ts) := by
  intro more
  rw [textOf, textOf, List.cons_append, List.cons_append, tokensOf, tokensOf,
    ← tokensOf_singleton, ← tokensOf_singleton]
  obtain h | ⟨k, ks, h, h'⟩ := tokensOf_lead trivia t
  · rw [h]
  · rw [h, h']
    rfl

theorem unsupported_congr (h : Alike ts ts') (kind : String) :
    unsupported ts kind = unsupported ts' kind := by
  rw [unsupported, unsupported, h.text]

end Alike

/-! ### Chains -/

/-- The chains differ in their trees only, which have the same text. -/
structure Chain.Alike (c c' : Chain) : Prop where
  whole : Declaration.Alike c.whole c'.whole
  members : c.members = c'.members
  trees : Declaration.Alike c.trees c'.trees
  operands : c.operands = c'.operands
  operand : c.operand = c'.operand

namespace Chain.Alike

variable {c c' : Chain}

theorem member (h : c.Alike c') : c.member = c'.member := by
  rw [Chain.member, Chain.member, h.operands, h.operand, unsupported_congr h.trees]

theorem finish (h : c.Alike c') : c.finish = c'.finish := by
  rw [Chain.finish, Chain.finish, h.members, h.member, h.whole.text]

theorem start {whole whole' trees trees' : List Tree} (hwhole : Declaration.Alike whole whole')
    (htrees : Declaration.Alike trees trees') (operand : Decoded TypeExpr) :
    (Chain.start whole trees operand).Alike (.start whole' trees' operand) :=
  ⟨hwhole, rfl, htrees, rfl, rfl⟩

theorem suffixed (h : c.Alike c') {trees trees' : List Tree}
    (htrees : Declaration.Alike trees trees') (operand : Decoded TypeExpr) :
    (c.suffixed trees operand).Alike (c'.suffixed trees' operand) :=
  ⟨h.whole, h.members, htrees, h.operands, rfl⟩

theorem intersected (h : c.Alike c') (more : List Tree) :
    (c.intersected more).Alike (c'.intersected more) :=
  ⟨h.whole, h.members, h.trees.append more, congrArg (· + 1) h.operands, h.operand⟩

theorem united (h : c.Alike c') (tree : Tree) (next : Decoded TypeExpr) :
    (c.united tree next).Alike (c'.united tree next) :=
  ⟨h.whole, by rw [Chain.united, Chain.united, h.members, h.member], .refl _, rfl, rfl⟩

end Chain.Alike

theorem suffixedType_congr {trees trees' : List Tree} (h : Alike trees trees')
    (operand : Decoded TypeExpr) (t : Tree) :
    suffixedType trees operand t = suffixedType trees' operand t := by
  unfold suffixedType
  split
  · rw [h.text]
  · exact unsupported_congr h _

/-- What a chain becomes depends on the trees that it has gone through by their text only. -/
theorem chainOf_congr {c c' : Chain} (h : c.Alike c') (t : Tree) : chainOf c t = chainOf c' t := by
  rw [chainOf.eq_def, chainOf.eq_def c']
  split
  · exact h.finish
  · next rest => exact chainOf_congr h rest
  · next head next rest =>
    -- Brackets, another operand, another member of a union: the chains stay alike.
    split
    · have htrees := h.trees.append [.leaf head, next]
      dsimp only
      rw [h.operand, suffixedType_congr htrees]
      exact chainOf_congr (h.suffixed htrees _) rest
    · exact chainOf_congr (h.intersected _) rest
    · exact chainOf_congr (h.united _ _) rest
  · exact unsupported_congr h.whole _
termination_by sizeOf t

theorem suffixesOf_congr {trees trees' : List Tree} (h : Alike trees trees')
    (operand : Decoded TypeExpr) (t : Tree) :
    suffixesOf trees operand t = suffixesOf trees' operand t := by
  rw [suffixesOf.eq_def, suffixesOf.eq_def trees']
  split
  · next opening next rest =>
    have htrees := h.append [opening, next]
    dsimp only
    rw [suffixedType_congr htrees]
    exact suffixesOf_congr htrees _ rest
  · rfl
termination_by sizeOf t

theorem namedOf_congr {whole whole' trees trees' : List Tree} (hwhole : Alike whole whole')
    (h : Alike trees trees') (names : List Text) (t : Tree) :
    namedOf whole trees names t = namedOf whole' trees' names t := by
  rw [namedOf.eq_def, namedOf.eq_def whole']
  split
  · exact namedOf_congr hwhole (h.append _) _ _
  · next opening first more closing rest =>
    have htrees := h.append [opening, first, more, closing]
    simp only [htrees.text]
    exact chainOf_congr (.start hwhole htrees _) rest
  · next rest =>
    rw [h.text]
    exact chainOf_congr (.start hwhole h _) rest
  · rw [h.text]
termination_by sizeOf t

theorem afterParenthesisOf_congr {whole whole' trees trees' : List Tree}
    (hwhole : Alike whole whole') (h : Alike trees trees') (inner : Decoded TypeExpr) (t : Tree) :
    afterParenthesisOf whole trees inner t = afterParenthesisOf whole' trees' inner t := by
  unfold afterParenthesisOf
  rw [h.text]
  split
  · rfl
  · exact chainOf_congr (.start hwhole h _) _
  · exact unsupported_congr hwhole _

theorem parenthesisOf_congr {whole whole' : List Tree} (hwhole : Alike whole whole')
    (opening : Token) (trivia : List Char) (t : Tree) :
    parenthesisOf whole { opening with trivia := trivia } t = parenthesisOf whole' opening t := by
  have hopening (ts : List Tree) :
      Alike (.leaf { opening with trivia := trivia } :: ts) (.leaf opening :: ts) :=
    alike_lead trivia (.leaf opening) ts
  unfold parenthesisOf
  split
  · exact afterParenthesisOf_congr hwhole (hopening _) _ _
  · exact unsupported_congr hwhole _
  · exact afterParenthesisOf_congr hwhole (hopening _) _ _
  · exact unsupported_congr hwhole _
  · exact afterParenthesisOf_congr hwhole (hopening _) _ _
  · exact unsupported_congr hwhole _

/-! ### Braces -/

section Braces

variable {whole whole' : List Tree} (h : Alike whole whole')

include h

theorem bracedBracketedOf_congr (front : List Tree) (bracket : Token) (ro : Bool) (t : Tree) :
    bracedBracketedOf whole front bracket ro t = bracedBracketedOf whole' front bracket ro t := by
  unfold bracedBracketedOf
  rw [h.text]
  split
  · rfl
  · rfl
  · exact unsupported_congr h _

theorem bracedReadonlyOf_congr (word : Token) (t : Tree) :
    bracedReadonlyOf whole word t = bracedReadonlyOf whole' word t := by
  unfold bracedReadonlyOf
  rw [h.text]
  split
  · exact bracedBracketedOf_congr h _ _ _ _
  all_goals rfl

theorem bracedOf_congr (t : Tree) : bracedOf whole t = bracedOf whole' t := by
  unfold bracedOf
  rw [h.text]
  split
  · rfl
  · split
    · exact bracedBracketedOf_congr h _ _ _ _
    · exact bracedReadonlyOf_congr h _ _
  · rfl
  · exact unsupported_congr h _

end Braces

/-! ### The first token -/

theorem textOf_lead (trivia : List Char) (t : Tree) : textOf [t.lead trivia] = textOf [t] :=
  (alike_lead trivia t []).text

theorem unsupported_lead (trivia : List Char) (t : Tree) (kind : String) :
    unsupported [t.lead trivia] kind = unsupported [t] kind :=
  unsupported_congr (alike_lead trivia t []) kind

theorem lead_node (trivia : List Char) (n : Nonterminal) (us : List Tree) :
    ∃ us', (Grammar.Tree.node n us).lead trivia = .node n us' := by
  cases us with
  | nil => exact ⟨_, rfl⟩
  | cons u us => exact ⟨_, rfl⟩

/-- What stands before a primary type does not matter. -/
theorem primaryOf_lead (trivia : List Char) (t : Tree) :
    primaryOf (t.lead trivia) = primaryOf t := by
  have htext := textOf_lead trivia t
  have hunsupported := unsupported_lead trivia t
  have halike := alike_lead trivia t []
  -- A leaf at the front changes, and only the text of the whole is read from it. The cases are those
  -- of the definition, in each of which the front has to be known to be a leaf or a node.
  match t with
  | .leaf _ | .node _ [] =>
    unfold primaryOf
    exact hunsupported _
  | .node _ [.leaf k] =>
    dsimp only [Tree.lead] at htext hunsupported ⊢
    unfold primaryOf
    dsimp only
    simp only [htext, hunsupported, stringLiteral, numberLiteral]
  | .node _ [.leaf k, .leaf k'] =>
    dsimp only [Tree.lead] at htext ⊢
    unfold primaryOf
    rw [htext]
  | .node _ [.leaf k, .node m us] =>
    dsimp only [Tree.lead] at hunsupported halike ⊢
    unfold primaryOf
    dsimp only
    simp only [hunsupported, bracedOf_congr halike]
  | .node _ [.leaf k, .leaf _, last] | .node _ [.leaf k, .node _ _, last] =>
    dsimp only [Tree.lead] at htext hunsupported ⊢
    unfold primaryOf
    simp only [htext, hunsupported]
    rfl
  | .node _ (.leaf k :: .leaf _ :: _ :: _ :: _) | .node _ (.leaf k :: .node _ _ :: _ :: _ :: _) =>
    dsimp only [Tree.lead] at hunsupported ⊢
    unfold primaryOf
    exact hunsupported _
  | .node _ (.node m us :: _) =>
    obtain ⟨us', hus⟩ := lead_node trivia m us
    simp only [Tree.lead, hus] at hunsupported ⊢
    unfold primaryOf
    exact hunsupported _

theorem operatorOf_lead (trivia : List Char) (t : Tree) :
    operatorOf (t.lead trivia) = operatorOf t := by
  have hunsupported := unsupported_lead trivia t
  match t with
  | .leaf _ | .node _ [] | .node _ [.leaf _] | .node _ (.leaf _ :: _ :: _ :: _) =>
    unfold operatorOf
    exact hunsupported _
  | .node _ [.leaf k, rest] =>
    dsimp only [Tree.lead] at hunsupported ⊢
    unfold operatorOf
    exact hunsupported _
  | .node _ [.node m us, rest] =>
    -- What stands before an operand stands before its primary type.
    have hprimary := primaryOf_lead trivia (.node m us)
    have halike := alike_lead trivia (.node m us) []
    obtain ⟨us', hus⟩ := lead_node trivia m us
    simp only [Tree.lead, hus] at hprimary halike ⊢
    unfold operatorOf
    rw [hprimary]
    exact suffixesOf_congr halike _ _
  | .node _ [.node m us] | .node _ (.node m us :: _ :: _ :: _) =>
    obtain ⟨us', hus⟩ := lead_node trivia m us
    simp only [Tree.lead, hus] at hunsupported ⊢
    unfold operatorOf
    exact hunsupported _

/-- What stands before a type does not matter. -/
theorem typeOf_lead (trivia : List Char) (t : Tree) : typeOf (t.lead trivia) = typeOf t := by
  have hunsupported := unsupported_lead trivia t
  have halike := alike_lead trivia t []
  match t with
  | .leaf _ | .node _ [] | .node _ [.leaf _] | .node _ (.leaf _ :: _ :: _ :: _ :: _) =>
    unfold typeOf
    exact hunsupported _
  | .node _ [.leaf head, rest] =>
    dsimp only [Tree.lead] at halike hunsupported ⊢
    unfold typeOf
    dsimp only
    rw [hunsupported, parenthesisOf_congr halike]
  | .node _ [.leaf head, first, rest] =>
    -- The mark of an intersection belongs to its operands, that of a union does not.
    have hhead := alike_lead trivia (.leaf head) [first]
    have hchain {trees trees' : List Tree} (h : Alike trees trees') (operand : Decoded TypeExpr) :=
      chainOf_congr (.start halike h operand) rest
    dsimp only [Tree.lead] at hhead hchain hunsupported ⊢
    unfold typeOf
    dsimp only
    rw [hchain (.refl _), hchain hhead, hunsupported]
  | .node _ [.node m us, rest] =>
    have hoperator := operatorOf_lead trivia (.node m us)
    have hfirst := alike_lead trivia (.node m us) []
    obtain ⟨us', hus⟩ := lead_node trivia m us
    simp only [Tree.lead, hus] at hoperator hfirst halike ⊢
    unfold typeOf
    rw [hoperator]
    exact chainOf_congr (.start halike hfirst _) rest
  | .node _ [.node m us] | .node _ (.node m us :: _ :: _ :: _) =>
    obtain ⟨us', hus⟩ := lead_node trivia m us
    simp only [Tree.lead, hus] at hunsupported ⊢
    unfold typeOf
    exact hunsupported _

end Declaration

end DeclSchema
