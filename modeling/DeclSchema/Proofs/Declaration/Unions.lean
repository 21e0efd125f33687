import DeclSchema.Proofs.Declaration.Operands

/-!
# Unions read back

A type is a chain of operands. What follows the first operand is read before it is known what it
means for the type, so the meaning of the rest of a chain is stated for any members that came
before.
A type that starts with a parenthesis takes brackets and bars in another order than one that does
not; the chain that they make is the same.

## Main results

* `takes_operands`: the further operands of a union
* `TypeForm.Reads.union`: a type is read back if its operands are
-/

namespace DeclSchema.Canonical

open Grammar Declaration
open Grammar.Tree (tokensOf)

variable {outer : List Symbol} {k : Token} {input mid rest : List Token}

/-! ### Further operands -/

theorem unionType_of_ne_nil {text : Text} {head : TypeExpr} {more : List TypeExpr}
    (h : more ≠ []) : unionType text head more = .union text (head :: more) := by
  cases more with
  | nil => exact absurd rfl h
  | cons => rfl

theorem mapM_map_ok (ms : List TypeExpr) :
    (ms.map .ok : List (Escape.Decoded TypeExpr)).mapM id = .ok ms := by
  induction ms with
  | nil => rfl
  | cons m ms ih =>
    rw [List.map_cons, List.mapM_cons, ih]
    rfl

/-- A chain without further operands is the union of its members. -/
theorem finish_eq {whole trees : List Tree} {ms : List TypeExpr} {type head : TypeExpr}
    {tail : List TypeExpr} (h : ms ++ [type] = head :: tail) :
    Chain.finish ⟨whole, ms.map .ok, trees, 1, .ok type⟩
      = .ok (unionType (Tree.textOf whole) head tail) := by
  cases ms with
  | nil =>
    cases h
    rfl
  | cons m ms =>
    obtain ⟨rfl, rfl⟩ := List.cons.inj h
    have hall : ((m :: ms).map .ok ++ [.ok type] : List (Escape.Decoded TypeExpr)).mapM id
        = .ok (m :: (ms ++ [type])) := by
      rw [← mapM_map_ok, ← List.cons_append, List.map_append]
      rfl
    rw [unionType_of_ne_nil (by simp)]
    simp only [Chain.finish, List.map_cons, Chain.member, if_true] at hall ⊢
    rw [hall]
    rfl

/-- A bar comes next, or what follows the type. -/
theorem ahead_operands {n : Nonterminal} (os : List Operand) (hahead : Ahead afterType outer rest)
    (hn : n.mayBeEmpty = true ∧ starts n .bar = true) :
    Ahead (.bar :: afterType) (.sub n :: outer) (tokensOfOperands os ++ rest) := by
  cases os with
  | nil => exact (hahead.sub hn.1).mono fun _ => List.mem_cons_of_mem _
  | cons o more =>
    exact ⟨_, _, rfl, (List.mem_cons_self .. : Terminal.bar ∈ _), expects_of_starts hn.2⟩

theorem branch?_intersection :
    ∀ t ∈ typeHeads, branch? .intersection t = some (.via .operator [.sub .moreOperands]) := by
  decide

/-- An operand behind a bar is read back. -/
theorem takes_intersection {o : Operand} (h : o.Reads)
    (hahead : Ahead (.bar :: afterType) outer mid) :
    ∃ t, Takes .intersection outer (o.tokens ++ mid) mid t ∧ intersectionOf t = .ok o.type := by
  obtain ⟨k, ks, hks, hhead⟩ := o.exists_head
  have htokens : o.tokens ++ mid = k :: (ks ++ mid) := by rw [hks, List.cons_append]
  have hmore := hahead.takes (n := .moreOperands) (by decide)
  have hahead' := hahead.sub (n := .moreOperands) rfl
  have hsuffixes := hahead'.takes (n := .suffixes) (by decide)
  obtain ⟨ps, s, ts, hs, -, htype⟩ := h.operator htokens
    ((hahead'.sub rfl).mono (by decide)) hsuffixes
  have hbranch := branch?_intersection _ hhead.terminal_mem
  have hstarts := starts_of_branch? hbranch
  rw [htokens]
  refine ⟨_, .start (hhead.awaits hstarts) hstarts (.via hbranch hs (.sub hmore .nil)), ?_⟩
  simp only [intersectionOf, operatorOf]
  exact htype

theorem chainOf_bar {n m : Nonterminal} {ts : List Tree} {type : TypeExpr} (hk : k.terminal = .bar)
    (htype : intersectionOf (.node m ts) = .ok type) (c : Chain) (r : Tree) :
    chainOf c (.node n [.leaf k, .node m ts, r])
      = chainOf (c.united (.node m ts) (.ok type)) r := by
  simp only [chainOf, hk, htype]

/-- The further operands of a union are read back, whatever members came before them. -/
theorem takes_operands {os : List Operand} (h : ∀ o ∈ os, o.Reads)
    (hahead : Ahead afterType outer rest) :
    ∃ r, Takes (.typeRest true) outer (tokensOfOperands os ++ rest) rest r
      ∧ ∀ (whole trees : List Tree) (ms : List TypeExpr) (type head : TypeExpr)
        (tail : List TypeExpr), ms ++ type :: typesOfOperands os = head :: tail →
        chainOf ⟨whole, ms.map .ok, trees, 1, .ok type⟩ r
          = .ok (unionType (Tree.textOf whole) head tail) := by
  induction os with
  | nil =>
    refine ⟨_, hahead.takes (n := .typeRest true) (by decide), ?_⟩
    intro whole trees ms type head tail hms
    rw [chainOf]
    exact finish_eq hms
  | cons o more ih =>
    obtain ⟨ho, hmore⟩ := List.forall_mem_cons.mp h
    obtain ⟨r, hr, hchain⟩ := ih hmore
    obtain ⟨t, ht, htype⟩ := takes_intersection ho
      (ahead_operands (n := .typeRest true) more hahead (by decide))
    refine ⟨.node (.typeRest true) [.leaf (mark .bar), t, r], ?_, ?_⟩
    · rw [tokensOfOperands, List.cons_append, List.append_assoc]
      exact .led (u := .bar) rfl (by decide) (.sub ht (.sub hr .nil))
    · intro whole trees ms type head tail hms
      obtain ⟨ts, rfl⟩ := ht.isNode
      -- The operand before the bar becomes a member, and the one behind it is in progress.
      have hunited : Chain.united ⟨whole, ms.map .ok, trees, 1, .ok type⟩ (.node .intersection ts)
          (.ok o.type)
          = ⟨whole, (ms ++ [type]).map .ok, [.node .intersection ts], 1, .ok o.type⟩ := by
        rw [List.map_append]
        rfl
      rw [chainOf_bar rfl htype, hunited]
      apply hchain
      rw [← hms, List.append_assoc]
      rfl

/-! ### Types -/

/-- What follows an operand that takes brackets and bars itself. -/
theorem takes_suffixedRest {r : Tree}
    (hahead : Ahead (.bar :: afterType) (.sub (.typeRest true) :: outer) mid)
    (h : Takes (.typeRest true) outer mid rest r) :
    ∃ t, Takes (.suffixedRest true) outer mid rest t ∧ ∀ c, chainOf c t = chainOf c r := by
  obtain ht | ⟨rfl, ht⟩ := hahead.alone (n := .suffixedRest true) h (by decide)
  · exact ⟨_, ht, fun _ => rfl⟩
  · exact ⟨_, ht, fun _ => rfl⟩

/-- What follows the first operand of a type, with brackets or without, makes it the type. -/
theorem takes_union (head : Operand) {more : List Operand} (hmore : ∀ o ∈ more, o.Reads)
    (hahead : Ahead afterType outer rest) :
    ∃ r s, Takes (.typeRest true) outer (tokensOfOperands more ++ rest) rest r
      ∧ Takes (.suffixedRest true) outer (tokensOfOperands more ++ rest) rest s
      ∧ ∀ whole ts, tokensOf whole = (TypeForm.union head more).tokens →
        chainOf (.start whole ts (.ok head.type)) r = .ok (TypeForm.union head more).type
          ∧ chainOf (.start whole ts (.ok head.type)) s = .ok (TypeForm.union head more).type := by
  obtain ⟨r, hr, hchain⟩ := takes_operands hmore hahead
  obtain ⟨s, hs, hsame⟩ := takes_suffixedRest
    (ahead_operands more hahead (by decide)) hr
  refine ⟨r, s, hr, hs, fun whole ts hwhole => ?_⟩
  have htype : chainOf (.start whole ts (.ok head.type)) r
      = .ok (TypeForm.union head more).type := by
    rw [TypeForm.type, ← textOf_trees hwhole]
    exact hchain whole ts [] head.type head.type (typesOfOperands more) rfl
  exact ⟨htype, (hsame _).trans htype⟩

theorem branch?_type :
    ∀ t ∈ typeHeads, t ≠ .openParen →
      branch? (.type true) t = some (.via .operator [.sub (.typeRest true)]) := by
  decide

theorem typeOf_operator {n m p : Nonterminal} {ps : List Tree} {s r : Tree} :
    typeOf (.node n [.node m [.node p ps, s], r])
      = chainOf (.start [.node n [.node m [.node p ps, s], r]] [.node m [.node p ps, s]]
        (suffixesOf [.node p ps] (primaryOf (.node p ps)) s)) r := by
  simp only [typeOf, operatorOf]

theorem typeOf_parenthesis {n : Nonterminal} (hk : k.terminal = .openParen) (t : Tree) :
    typeOf (.node n [.leaf k, t]) = parenthesisOf [.node n [.leaf k, t]] k t := by
  simp only [typeOf, hk, if_true]

/-- A type is read back if its operands are. -/
theorem TypeForm.Reads.union {head : Operand} {more : List Operand} (hhead : head.Reads)
    (hmore : ∀ o ∈ more, o.Reads) : (TypeForm.union head more).Reads where
  type {outer rest k input} htokens hahead := by
    have hk := TypeForm.isHead htokens
    obtain ⟨r, s, hr, hs, htype⟩ := takes_union head hmore hahead
    have hmid : head.tokens ++ (tokensOfOperands more ++ rest) = k :: input := by
      rw [← List.append_assoc]
      exact htokens
    -- A first operand in parentheses is read by the branch that also reads functions.
    by_cases hopen : k.terminal = .openParen
    · obtain ⟨t, ts, ht, hts, hparenthesis⟩ := hhead.parenthesis hmid hopen
        ((ahead_operands more hahead (by decide)).mono (by decide)) hs
      have hu : Unfolds (.type true) outer k input rest (.node (.type true) [.leaf k, t]) :=
        .led hopen (by decide) (.sub ht .nil)
      refine ⟨_, hu, ?_⟩
      rw [typeOf_parenthesis hopen, hparenthesis]
      exact (htype _ _ (tokens_of_unfolds hu htokens)).2
    · have hahead' := ahead_operands (n := .typeRest true) more hahead (by decide)
      have hsuffixes := hahead'.takes (n := .suffixes) (by decide)
      obtain ⟨ps, s, ts, hs, hts, hsuffixed⟩ := hhead.operator hmid
        ((hahead'.sub rfl).mono (by decide)) hsuffixes
      have hu := Unfolds.via (branch?_type _ hk.terminal_mem hopen) hs (.sub hr .nil)
      refine ⟨_, hu, ?_⟩
      rw [typeOf_operator, hsuffixed]
      exact (htype _ _ (tokens_of_unfolds hu htokens)).1
  named htokens hk hahead := by
    obtain ⟨r, s, hr, hs, htype⟩ := takes_union head hmore hahead
    rw [tokens, List.append_assoc] at htokens
    obtain ⟨t, ts, ht, hts, hnamed⟩ := hhead.named htokens hk
      ((ahead_operands more hahead (by decide)).mono (by decide)) hs
    refine ⟨t, ht, fun whole hwhole => ?_⟩
    rw [hnamed]
    exact (htype _ _ hwhole).2

end DeclSchema.Canonical
