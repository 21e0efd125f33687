import DeclSchema.Proofs.Declaration.Spacing

/-!
# Operands read back

Where a type is read decides which branches of the grammar read it. A name or a parenthesis at the
start of a type in parentheses may turn out to be a parameter, so that they are read by branches of
their own, which go on with brackets and bars in their own order. For every place the reading of an
operand is stated for any brackets and operands that follow it: they have been read already, and
what they make of an operand does not depend on how the operand was read.

## Main definitions

* `Operand.Reads`, `TypeForm.Reads`: an operand and a type are read back, in all places

## Main results

* `operator_of_primary`, `Operand.Reads.of_primary`: operands that are read as a primary type
* `Operand.Reads.string`, `Operand.Reads.number`, `Operand.Reads.negative`: literals
* `Operand.Reads.parenthesized`, `Operand.Reads.array`: operands around another type
-/

namespace DeclSchema.Canonical

open Grammar Declaration
open Grammar.Tree (tokensOf)

/-! ### What comes next -/

/-- The marks that may come after a type. -/
def afterType : List Terminal :=
  [.semicolon, .comma, .greater, .closeParen]

/-- The marks that may come after an operand. -/
def afterOperand : List Terminal :=
  [.bar, .openBracket] ++ afterType

variable {marks : List Terminal} {symbols outer : List Symbol} {n : Nonterminal}
  {k : Token} {input mid rest : List Token}

theorem ahead_mark {t : Terminal} (ht : t ∈ marks) :
    Ahead marks (.tok t :: symbols) (mark t :: input) :=
  .tok (k := mark t) rfl ht

theorem ahead_start {t : Terminal} (ht : t ∈ marks) (hn : starts n t = true) :
    Ahead marks (.sub n :: symbols) (mark t :: input) :=
  ⟨_, _, rfl, ht, expects_of_starts hn⟩

/-! ### The start of a type -/

/-- The terminals that a type starts with. -/
def typeHeads : List Terminal :=
  [.name, .string, .number, .minus, .openParen, .openBrace]

/-- The tokens that a type starts with. A name is no word of the grammar. -/
structure IsHead (k : Token) : Prop where
  terminal_mem : k.terminal ∈ typeHeads
  plain : k.terminal = .name → ∀ w ∈ Terminal.words, w.spelling ≠ k.lexeme

theorem IsHead.awaits (h : IsHead k) (hn : starts n k.terminal = true) :
    Awaits (.sub n :: symbols) k where
  expected := expects_of_starts hn
  plain hname w hw _ := h.plain hname w hw

theorem Identifier.isHead (name : Identifier) : IsHead name.token :=
  ⟨by simp [typeHeads, Word.token, spaced], fun _ => name.plain⟩

theorem Simple.isHead (s : Simple) : IsHead (spaced .name s.chars) where
  terminal_mem := by simp [typeHeads, spaced]
  plain _ := by
    cases s with
    | keyword word => exact word.plain
    | truth b => cases b <;> exact (by decide)
    | null => exact (by decide)
    | reference name => exact name.plain

theorem Operand.exists_head : ∀ o : Operand, ∃ k ks, o.tokens = k :: ks ∧ IsHead k
  | .simple s => ⟨_, _, rfl, s.isHead⟩
  | .generic name _ _ => ⟨_, _, rfl, name.isHead⟩
  | .qualified scope _ _ => ⟨_, _, rfl, scope.isHead⟩
  | .string _ => ⟨_, _, rfl, by simp [typeHeads, stringToken, spaced], nofun⟩
  | .number _ => ⟨_, _, rfl, by simp [typeHeads, Numeral.token, spaced], nofun⟩
  | .negative _ => ⟨_, _, rfl, by simp [typeHeads, mark, spaced], nofun⟩
  | .parenthesized _ => ⟨_, _, rfl, by simp [typeHeads, mark, spaced], nofun⟩
  | .object _ => ⟨_, _, rfl, by simp [typeHeads, mark, spaced], nofun⟩
  | .array element => by
    obtain ⟨k, ks, hks, hk⟩ := element.exists_head
    exact ⟨k, ks ++ [mark .openBracket, mark .closeBracket], by simp [tokens, hks], hk⟩

theorem Operand.isHead {o : Operand} (h : o.tokens ++ mid = k :: input) : IsHead k := by
  obtain ⟨k', ks, hks, hk⟩ := o.exists_head
  rw [hks, List.cons_append] at h
  rw [← (List.cons.inj h).1]
  exact hk

theorem TypeForm.exists_head (f : TypeForm) : ∃ k ks, f.tokens = k :: ks := by
  cases f with
  | union head more =>
    obtain ⟨k, ks, hks, -⟩ := head.exists_head
    exact ⟨k, ks ++ tokensOfOperands more, by rw [tokens, hks, List.cons_append]⟩

theorem TypeForm.isHead {t : TypeForm} (h : t.tokens ++ mid = k :: input) : IsHead k := by
  cases t with
  | union head more =>
    rw [tokens, List.append_assoc] at h
    exact head.isHead h

/-! ### What is read back -/

/-- An operand is read back: between the bars of a union, after a parenthesis that it starts with,
and after a name that it starts with in parentheses. What follows it has been read as `sfx` or `r`,
and means what it would mean behind trees with the tokens of the operand. -/
structure Operand.Reads (o : Operand) : Prop where
  operator {outer : List Symbol} {mid rest : List Token} {sfx : Tree} {k : Token}
    {input : List Token} (htokens : o.tokens ++ mid = k :: input)
    (hahead : Ahead afterOperand (.sub .suffixes :: outer) mid)
    (hmid : Takes .suffixes outer mid rest sfx) :
    ∃ ps s ts, Unfolds .operator outer k input rest (.node .operator [.node .primary ps, s])
      ∧ tokensOf ts = o.tokens
      ∧ suffixesOf [.node .primary ps] (primaryOf (.node .primary ps)) s
        = suffixesOf ts (.ok o.type) sfx
  parenthesis {outer : List Symbol} {mid rest : List Token} {r : Tree} {k : Token}
    {input : List Token} (htokens : o.tokens ++ mid = k :: input) (hk : k.terminal = .openParen)
    (hahead : Ahead afterOperand (.sub (.suffixedRest true) :: outer) mid)
    (hmid : Takes (.suffixedRest true) outer mid rest r) :
    ∃ t ts, Takes (.parenthesis true) outer input rest t ∧ tokensOf ts = o.tokens
      ∧ ∀ whole, parenthesisOf whole k t = chainOf (.start whole ts (.ok o.type)) r
  named {outer : List Symbol} {mid rest : List Token} {r : Tree} {k : Token}
    {input : List Token} (htokens : o.tokens ++ mid = k :: input) (hk : k.terminal = .name)
    (hahead : Ahead afterOperand (.sub (.suffixedRest true) :: outer) mid)
    (hmid : Takes (.suffixedRest true) outer mid rest r) :
    ∃ t ts, Takes (.namedRest true) outer input rest t ∧ tokensOf ts = o.tokens
      ∧ ∀ whole, namedOf whole [.leaf k] [lexemeOf k] t = chainOf (.start whole ts (.ok o.type)) r

/-- A type is read back: wherever one is read, and after a name that it starts with in
parentheses. -/
structure TypeForm.Reads (f : TypeForm) : Prop where
  type {outer : List Symbol} {rest : List Token} {k : Token} {input : List Token}
    (htokens : f.tokens ++ rest = k :: input) (hahead : Ahead afterType outer rest) :
    ∃ t, Unfolds (.type true) outer k input rest t ∧ typeOf t = .ok f.type
  named {outer : List Symbol} {rest : List Token} {k : Token} {input : List Token}
    (htokens : f.tokens ++ rest = k :: input) (hk : k.terminal = .name)
    (hahead : Ahead afterType outer rest) :
    ∃ t, Takes (.namedRest true) outer input rest t
      ∧ ∀ whole, tokensOf whole = f.tokens →
        namedOf whole [.leaf k] [lexemeOf k] t = .ok f.type

theorem starts_type : ∀ t ∈ typeHeads, starts (.type true) t = true := by
  decide

theorem TypeForm.Reads.takes {f : TypeForm} (h : f.Reads) (hahead : Ahead afterType outer rest) :
    ∃ t, Takes (.type true) outer (f.tokens ++ rest) rest t ∧ typeOf t = .ok f.type := by
  obtain ⟨k, ks, hks⟩ := f.exists_head
  have htokens : f.tokens ++ rest = k :: (ks ++ rest) := by rw [hks, List.cons_append]
  obtain ⟨t, ht, htype⟩ := h.type htokens hahead
  have hhead := TypeForm.isHead htokens
  have hstarts := starts_type _ hhead.terminal_mem
  rw [htokens]
  exact ⟨t, .start (hhead.awaits hstarts) hstarts ht, htype⟩

/-! ### Texts -/

theorem textOf_congr {ts ts' : List Tree} (h : tokensOf ts = tokensOf ts') :
    Tree.textOf ts = Tree.textOf ts' :=
  congrArg (fun ks => Text.ofChars (Tree.spelling ks)) h

/-- The text of trees is that of their tokens. -/
theorem textOf_trees {ts : List Tree} {ks : List Token} (h : tokensOf ts = ks) :
    Tree.textOf ts = textOf ks := by
  rw [← h]
  rfl

theorem textOf_single (k : Token) : textOf [k] = .ofChars k.lexeme :=
  congrArg Text.ofChars (List.append_nil _)

/-- What a nonterminal was read from, if what is left is known. -/
theorem tokens_of_unfolds {t : Tree} {ks : List Token} (h : Unfolds n outer k input mid t)
    (htokens : ks ++ mid = k :: input) : tokensOf [t] = ks := by
  have := h.tokens.trans htokens.symm
  rw [List.append_cancel_right_eq] at this
  rw [tokensOf, tokensOf, List.append_nil, this]

theorem tokens_of_takes {t : Tree} {ks : List Token} (h : Takes n outer (ks ++ mid) mid t) :
    t.tokens = ks :=
  List.append_cancel_right h.tokens

/-! ### Operands between bars -/

theorem branch?_operator :
    ∀ t ∈ typeHeads, branch? .operator t = some (.via .primary [.sub .suffixes]) := by
  decide

/-- An operand that ends before its brackets is read back between bars if it is read as a primary
type. -/
theorem operator_of_primary {o : Operand} (htokens : o.tokens ++ mid = k :: input)
    (hprimary : ∃ ps, Unfolds .primary (.sub .suffixes :: outer) k input mid (.node .primary ps)
      ∧ (tokensOf [.node .primary ps] = o.tokens → primaryOf (.node .primary ps) = .ok o.type))
    {sfx : Tree} (hmid : Takes .suffixes outer mid rest sfx) :
    ∃ ps s ts, Unfolds .operator outer k input rest (.node .operator [.node .primary ps, s])
      ∧ tokensOf ts = o.tokens
      ∧ suffixesOf [.node .primary ps] (primaryOf (.node .primary ps)) s
        = suffixesOf ts (.ok o.type) sfx := by
  obtain ⟨ps, hps, htype⟩ := hprimary
  have hts := tokens_of_unfolds hps htokens
  refine ⟨ps, sfx, [.node .primary ps], ?_, hts, by rw [htype hts]⟩
  exact .via (branch?_operator _ (o.isHead htokens).terminal_mem) hps (.sub hmid .nil)

/-- The first token of tokens whose first token is known. -/
theorem head_tokens {k' : Token} {ks ks' : List Token} (hks : ks = k' :: ks')
    (h : ks ++ mid = k :: input) : k' = k ∧ ks' ++ mid = input := by
  rw [hks, List.cons_append] at h
  exact List.cons.inj h

/-- An operand that starts with neither a name nor a parenthesis is read as a primary type in all
places. -/
theorem Operand.Reads.of_primary {o : Operand} {head : Token} {ks : List Token}
    (hks : o.tokens = head :: ks) (hhead : head.terminal ≠ .openParen ∧ head.terminal ≠ .name)
    (hprimary : ∀ (outer : List Symbol) (mid : List Token),
      ∃ ps, Unfolds .primary outer head (ks ++ mid) mid (.node .primary ps)
        ∧ (tokensOf [.node .primary ps] = o.tokens → primaryOf (.node .primary ps) = .ok o.type)) :
    o.Reads where
  operator htokens _ hmid := by
    refine operator_of_primary htokens ?_ hmid
    obtain ⟨rfl, rfl⟩ := head_tokens hks htokens
    exact hprimary _ _
  parenthesis htokens hk _ _ := by
    obtain ⟨rfl, -⟩ := head_tokens hks htokens
    exact absurd hk hhead.1
  named htokens hk _ _ := by
    obtain ⟨rfl, -⟩ := head_tokens hks htokens
    exact absurd hk hhead.2

/-! ### Strings and numbers -/

theorem primaryOf_string {t : Text} (hk : k.terminal = .string)
    (ht : Escape.unquote k.lexeme = .ok t) :
    primaryOf (.node .primary [.leaf k])
      = .ok (.literal (Tree.textOf [.node .primary [.leaf k]]) (.ofString "string") (.text t)) := by
  simp only [primaryOf, hk, stringLiteral, ht]
  rfl

theorem Operand.Reads.string (value : Text) : (Operand.string value).Reads :=
  .of_primary rfl ⟨nofun, nofun⟩ fun _ _ =>
    ⟨_, .led (u := .string) rfl (by decide) .nil,
      fun _ => primaryOf_string rfl (Escape.unquote_quoted value)⟩

theorem Operand.Reads.number (n : Numeral) : (Operand.number n).Reads :=
  .of_primary rfl ⟨nofun, nofun⟩ fun _ _ =>
    ⟨_, .led (u := .number) rfl (by decide) .nil, fun _ => rfl⟩

theorem Operand.Reads.negative (n : Numeral) : (Operand.negative n).Reads :=
  .of_primary rfl ⟨nofun, nofun⟩ fun _ _ =>
    ⟨_, .led (u := .minus) rfl (by decide) (.tok (u := .number) rfl .nil), fun _ => rfl⟩

/-! ### Parentheses -/

/-- What follows a type in parentheses, if it goes on with brackets or bars. -/
theorem takes_parenthesisEnd {r : Tree}
    (hahead : Ahead afterOperand (.sub (.suffixedRest true) :: outer) mid)
    (h : Takes (.suffixedRest true) outer mid rest r) :
    ∃ t, Takes (.parenthesisEnd true) outer mid rest t
      ∧ ∀ whole trees inner, afterParenthesisOf whole trees (.ok inner) t
        = chainOf (.start whole trees
          (.ok (.parenthesized (Tree.textOf trees) (some inner)))) r := by
  obtain ht | ⟨rfl, ht⟩ := hahead.alone (n := .parenthesisEnd true) h (by decide)
  · refine ⟨_, ht, fun _ _ _ => ?_⟩
    obtain ⟨rs, rfl⟩ := h.isNode
    simp only [afterParenthesisOf]
    rfl
  · exact ⟨_, ht, fun _ _ _ => rfl⟩

theorem starts_parenthesis : ∀ t ∈ typeHeads, starts (.parenthesis true) t = true := by
  decide

theorem branch?_parenthesis :
    ∀ t ∈ typeHeads, t ≠ .name → branch? (.parenthesis true) t
      = some (.via (.type true) [.tok .closeParen, .sub (.parenthesisEnd true)]) := by
  decide

theorem branch?_parenthesisName :
    ∀ t ∈ Terminal.order, starts (.namedRest true) t = true →
      t ≠ .name ∧ branch? (.parenthesisName true) t
        = some (.via (.namedRest true) [.tok .closeParen, .sub (.parenthesisEnd true)]) := by
  decide

theorem tokensOf_parenthesized {inner : TypeForm} (ts : List Tree)
    (hts : tokensOf ts = inner.tokens) :
    tokensOf (.leaf (mark .openParen) :: (ts ++ [.leaf (mark .closeParen)]))
      = (Operand.parenthesized inner).tokens := by
  rw [tokensOf, tokensOf_append, hts]
  rfl

section Parentheses

variable {inner : TypeForm} (hinner : inner.Reads) {e : Tree}
  (hend : Takes (.parenthesisEnd true) outer mid rest e)

include hinner hend

/-- What follows a parenthesis and a name, where a type in parentheses starts with the name. -/
theorem takes_parenthesisName (htokens : inner.tokens ++ mark .closeParen :: mid = k :: input)
    (hk : k.terminal = .name) :
    ∃ t ts, Takes (.parenthesisName true) outer input rest t
      ∧ tokensOf ts = (Operand.parenthesized inner).tokens
      ∧ ∀ whole, parenthesisOf whole (mark .openParen) (.node (.parenthesis true) [.leaf k, t])
        = afterParenthesisOf whole ts (.ok inner.type) e := by
  have hclose : Ahead afterType (.tok .closeParen :: .sub (.parenthesisEnd true) :: outer)
      (mark .closeParen :: mid) := ahead_mark (by decide)
  obtain ⟨t, ht, hnamed⟩ := hinner.named htokens hk hclose
  have htext : tokensOf [.leaf k, t] = inner.tokens := by
    have := ht.tokens ▸ htokens
    rw [← List.cons_append, List.append_cancel_right_eq] at this
    rw [this, tokensOf, tokensOf, tokensOf, List.append_nil]
    rfl
  have htype := hnamed _ htext
  have hread : Reads [.tok .closeParen, .sub (.parenthesisEnd true)] outer
      (mark .closeParen :: mid) rest [.leaf (mark .closeParen), e] :=
    .tok rfl (.sub hend .nil)
  cases ht with
  | @start k' _ _ _ hawaits hstarts hunfolds =>
    obtain ⟨hname, hbranch⟩ := branch?_parenthesisName _ (Terminal.mem_order k'.terminal) hstarts
    obtain ⟨ns, rfl⟩ := hunfolds.isNode
    refine ⟨_, _, .of_branch? hname hbranch (.via hbranch hunfolds hread),
      tokensOf_parenthesized _ htext, fun whole => ?_⟩
    simp only [parenthesisOf, htype]
    rfl
  | skip hawaits hstarts =>
    -- Nothing stands between the name and the closing parenthesis.
    refine ⟨_, _, .led (u := .closeParen) rfl (by decide) (.sub hend .nil),
      tokensOf_parenthesized [.leaf k] htext, fun whole => ?_⟩
    have hname : Tree.textOf [.leaf k] = lexemeOf k := textOf_single k
    simp only [namedOf, hname] at htype
    simp only [parenthesisOf, htype]
    rfl

/-- What follows a parenthesis around a type. -/
theorem takes_parenthesis :
    ∃ t ts, Takes (.parenthesis true) outer (inner.tokens ++ mark .closeParen :: mid) rest t
      ∧ tokensOf ts = (Operand.parenthesized inner).tokens
      ∧ ∀ whole, parenthesisOf whole (mark .openParen) t
        = afterParenthesisOf whole ts (.ok inner.type) e := by
  obtain ⟨k, ks, hks⟩ := inner.exists_head
  have htokens : inner.tokens ++ mark .closeParen :: mid
      = k :: (ks ++ mark .closeParen :: mid) := by
    rw [hks, List.cons_append]
  have hhead := TypeForm.isHead htokens
  have hstarts := starts_parenthesis _ hhead.terminal_mem
  rw [htokens]
  -- A name may also be the first parameter of a function, so the grammar has branches of its own
  -- for it.
  by_cases hk : k.terminal = .name
  · obtain ⟨t, ts, ht, hts, hparenthesis⟩ := takes_parenthesisName hinner hend htokens hk
    exact ⟨_, ts, .start (hhead.awaits hstarts) hstarts
      (.led hk (by decide) (.sub ht .nil)), hts, hparenthesis⟩
  · have hclose : Ahead afterType (.tok .closeParen :: .sub (.parenthesisEnd true) :: outer)
        (mark .closeParen :: mid) := ahead_mark (by decide)
    obtain ⟨t, ht, htype⟩ := hinner.type htokens hclose
    have hbranch := branch?_parenthesis _ hhead.terminal_mem hk
    obtain ⟨ns, rfl⟩ := ht.isNode
    refine ⟨_, _, .start (hhead.awaits hstarts) hstarts
      (.via hbranch ht (.tok rfl (.sub hend .nil))),
      tokensOf_parenthesized _ (tokens_of_unfolds ht htokens), fun whole => ?_⟩
    simp only [parenthesisOf, htype]
    rfl

end Parentheses

theorem primaryOf_parenthesis {m : Nonterminal} {ns : List Tree} {type : TypeExpr} {closing : Token}
    (hk : k.terminal = .openParen) (htype : typeOf (.node m ns) = .ok type) :
    primaryOf (.node n [.leaf k, .node m ns, .leaf closing])
      = .ok (.parenthesized (Tree.textOf [.node n [.leaf k, .node m ns, .leaf closing]])
        (some type)) := by
  simp only [primaryOf, hk, htype]
  rfl

theorem Operand.Reads.parenthesized {inner : TypeForm} (hinner : inner.Reads) :
    (Operand.parenthesized inner).Reads where
  -- Where a single operand is expected, the parenthesis can only surround a type.
  operator {outer mid _ _ _ _} htokens _ hmid := by
    refine operator_of_primary htokens ?_ hmid
    obtain ⟨rfl, hinput⟩ := head_tokens rfl htokens
    rw [List.append_assoc, List.singleton_append] at hinput
    subst hinput
    have hclose : Ahead afterType (.tok .closeParen :: .sub .suffixes :: outer)
        (mark .closeParen :: mid) := ahead_mark (by decide)
    obtain ⟨t, ht, htype⟩ := hinner.takes hclose
    obtain ⟨ns, rfl⟩ := ht.isNode
    refine ⟨_, .led (u := .openParen) rfl (by decide)
      (.sub ht (.tok (u := .closeParen) rfl .nil)), fun hts => ?_⟩
    rw [primaryOf_parenthesis rfl htype, textOf_trees hts]
    rfl
  parenthesis htokens _ hahead hmid := by
    obtain ⟨rfl, hinput⟩ := head_tokens rfl htokens
    rw [List.append_assoc, List.singleton_append] at hinput
    subst hinput
    obtain ⟨e, he, hend⟩ := takes_parenthesisEnd hahead hmid
    obtain ⟨t, ts, ht, hts, hparenthesis⟩ := takes_parenthesis hinner he
    refine ⟨t, ts, ht, hts, fun whole => ?_⟩
    rw [hparenthesis, hend, textOf_trees hts]
    rfl
  named htokens hk _ _ := by
    obtain ⟨rfl, -⟩ := head_tokens rfl htokens
    cases hk

/-! ### Arrays -/

/-- The trees of empty brackets. -/
def emptyBrackets : List Tree :=
  [.leaf (mark .openBracket), .node .arrayOrIndex [.leaf (mark .closeBracket)]]

theorem tokensOf_array {element : Operand} {ts : List Tree} (hts : tokensOf ts = element.tokens) :
    tokensOf (ts ++ emptyBrackets) = (Operand.array element).tokens := by
  rw [tokensOf_append, hts]
  rfl

/-- Empty brackets come first among what follows an operand. -/
theorem takes_emptyBrackets {r : Tree}
    (hn : Terminal.openBracket ≠ .name
      ∧ branch? n .openBracket = some (.led .openBracket [.sub .arrayOrIndex, .sub n]))
    (hmid : Takes n outer mid rest r) :
    Takes n outer (mark .openBracket :: mark .closeBracket :: mid) rest
      (.node n (emptyBrackets ++ [r])) :=
  .led (u := .openBracket) rfl hn
    (.sub (.led (u := .closeBracket) rfl (by decide) .nil) (.sub hmid .nil))

theorem suffixesOf_emptyBrackets (ts : List Tree) (type : TypeExpr) (r : Tree) :
    suffixesOf ts (.ok type) (.node n (emptyBrackets ++ [r]))
      = suffixesOf (ts ++ emptyBrackets)
        (.ok (.array (Tree.textOf (ts ++ emptyBrackets)) (some type))) r := by
  simp only [emptyBrackets, List.cons_append, List.nil_append, suffixesOf]
  rfl

theorem chainOf_emptyBrackets (whole ts : List Tree) (type : TypeExpr) (r : Tree) :
    chainOf (.start whole ts (.ok type)) (.node n (emptyBrackets ++ [r]))
      = chainOf (.start whole (ts ++ emptyBrackets)
        (.ok (.array (Tree.textOf (ts ++ emptyBrackets)) (some type)))) r := by
  simp only [emptyBrackets, List.cons_append, List.nil_append, chainOf]
  rfl

theorem Operand.Reads.array {element : Operand} (h : element.Reads) :
    (Operand.array element).Reads where
  operator htokens _ hmid := by
    -- The brackets stand in front of what follows the element.
    rw [tokens, List.append_assoc] at htokens
    obtain ⟨ps, s, ts, hs, hts, hsuffixes⟩ := h.operator htokens
      (ahead_start (by decide) (by decide)) (takes_emptyBrackets (by decide) hmid)
    refine ⟨ps, s, _, hs, tokensOf_array hts, ?_⟩
    rw [hsuffixes, suffixesOf_emptyBrackets, textOf_trees (tokensOf_array hts)]
    rfl
  parenthesis htokens hk _ hmid := by
    rw [tokens, List.append_assoc] at htokens
    obtain ⟨t, ts, ht, hts, hparenthesis⟩ := h.parenthesis htokens hk
      (ahead_start (by decide) (by decide)) (takes_emptyBrackets (by decide) hmid)
    refine ⟨t, _, ht, tokensOf_array hts, fun whole => ?_⟩
    rw [hparenthesis, chainOf_emptyBrackets, textOf_trees (tokensOf_array hts)]
    rfl
  named htokens hk _ hmid := by
    rw [tokens, List.append_assoc] at htokens
    obtain ⟨t, ts, ht, hts, hnamed⟩ := h.named htokens hk
      (ahead_start (by decide) (by decide)) (takes_emptyBrackets (by decide) hmid)
    refine ⟨t, _, ht, tokensOf_array hts, fun whole => ?_⟩
    rw [hnamed, chainOf_emptyBrackets, textOf_trees (tokensOf_array hts)]
    rfl

end DeclSchema.Canonical
