import DeclSchema.Proofs.Declaration.Settling

/-!
# Types that settle

A type that stands before a semicolon is read again from its own text, and so are the members of a
union and the elements of an array that share its tree. What follows the first operand of a type has
the shape of further operands, then of further members of a union, then of a test.

## Main definitions

* `FollowsMember`, `FollowsOperand`: what follows a member of a union, or an operand
* `Chain.detached`: the intersection in progress as a type of its own

## Main results

* `united_throughout`: the members of a union settle
* `chainOf_throughout`: the operands of an intersection settle together
* `typeOf_throughout`: a type that stands before a semicolon settles
-/

namespace DeclSchema.Declaration

open Grammar Grammar.Tree Grammar.Terminal Grammar.Nonterminal Escape

variable {symbols outer : List Symbol} {input next mid rest : List Char} {k : Token}
  {o p r s t u x : Tree} {ts trees : List Tree} {T : TypeExpr} {c : Chain}

/-! ### What follows an operand -/

/-- What follows a member of a union up to a semicolon: more members, or the test of a conditional
type. -/
inductive FollowsMember : Tree → Prop where
  | none : FollowsMember (.node (.typeRest true) [])
  | member {k : Token} {x r : Tree} (hk : k.terminal = .bar)
      (hx : Stands .intersection afterOperand x) (h : FollowsMember r) :
      FollowsMember (.node (.typeRest true) [.leaf k, x, r])
  | test {k₁ k₂ k₃ : Token} {t₁ t₂ t₃ : Tree} :
      FollowsMember (.node (.typeRest true) [.leaf k₁, t₁, .leaf k₂, t₂, .leaf k₃, t₃])

/-- What follows an operand up to a semicolon: more operands, and what follows a member of a
union. -/
inductive FollowsOperand : Tree → Prop where
  | operand {k : Token} {o r : Tree} (hk : k.terminal = .ampersand) (h : FollowsOperand r) :
      FollowsOperand (.node (.typeRest true) [.leaf k, o, r])
  | member {r : Tree} (h : FollowsMember r) : FollowsOperand r

/-- Behind all operands there is no other one. -/
theorem omits_moreOperands {outer : List Symbol} {input rest : List Char} {m : Tree}
    (h : Derives (.list [.sub .moreOperands]) outer input [m] rest) :
    Omits .moreOperands outer rest := by
  obtain ⟨k, next, -, -, h⟩ | ⟨-, rfl, homits⟩ := derives_sub_iff.1 h
  · obtain ⟨symbols, us, hb, rfl, h⟩ | ⟨_, _, _, _, _, hb, -⟩ := h.node_cases
    · simp only [branches, List.mem_cons, List.not_mem_nil, or_false, Branch.led.injEq] at hb
      obtain ⟨-, rfl⟩ := hb
      obtain ⟨_, more, _, rfl, -, h⟩ := exists_of_derives_pair h
      exact omits_moreOperands h
    · simp [branches] at hb
  · exact homits
termination_by sizeOf m

/-- What follows all operands of a member of a union is not led by the mark of another one. -/
theorem ne_ampersand_of_omits (homits : Omits .moreOperands afterOperand input)
    (hk : Sees afterOperand input k next) : k.terminal ≠ .ampersand := by
  obtain ⟨-, hend | ⟨k', next', hk', hstarts⟩⟩ := homits
  · exact absurd hend hk.not_atEnd
  · obtain ⟨rfl, rfl⟩ := (hk'.behind hstarts nofun).spots.eq hk.spots
    intro hampersand
    rw [hampersand] at hstarts
    cases hstarts

theorem omits_of_intersection
    (h : Derives (.list [.sub .intersection]) afterOperand input [x] rest) :
    Omits .moreOperands afterOperand rest := by
  obtain ⟨k, next, -, -, hx⟩ | ⟨-, -, ⟨⟩, -⟩ := derives_sub_iff.1 h
  obtain ⟨_, _, _, _, -, hm, -⟩ := exists_operands hx
  exact omits_moreOperands hm

/-- The shape of the test of a conditional type. -/
theorem FollowsMember.of_fits {k : Token} {us : List Tree}
    (h : Fits [.sub (.type false), .tok .question, .sub (.type true), .tok .colon,
      .sub (.type true)] us) : FollowsMember (.node (.typeRest true) (.leaf k :: us)) := by
  simp only [fits_sub_iff, fits_tok_iff, fits_nil_iff] at h
  obtain ⟨_, _, rfl, -, _, _, rfl, -, _, _, rfl, -, _, _, rfl, -, _, _, rfl, -, rfl⟩ := h
  exact .test

/-- Another operand, or another member of the union, may follow an operand. -/
theorem typeRest_cases
    (h : Derives (.list [.sub (.typeRest true)]) [.tok .semicolon] input [r] rest) :
    FollowsMember r ∨ ∃ k next y r' mid, r = .node (.typeRest true) [.leaf k, y, r'] ∧
      Sees afterOperand input k next ∧
      Derives (.list [.sub (.typeRest true)]) [.tok .semicolon] mid [r'] rest ∧
      (k.terminal = .ampersand ∨ k.terminal = .bar ∧
        Derives (.list [.sub .intersection]) afterOperand next [y] mid) := by
  obtain ⟨k, next, hk, -, h⟩ | ⟨rfl, -, -⟩ := derives_sub_iff.1 h
  · obtain ⟨symbols, us, hb, rfl, h⟩ | ⟨_, _, _, _, _, hb, -⟩ := h.node_cases
    · simp only [branches, if_true, List.cons_append, List.nil_append, List.mem_cons,
        List.not_mem_nil, or_false, Branch.led.injEq] at hb
      -- An operand, a member of the union, or what makes the whole a conditional type.
      obtain ⟨hampersand, rfl⟩ | ⟨hbar, rfl⟩ | ⟨-, rfl⟩ := hb
      · obtain ⟨y, r, mid, rfl, -, hr⟩ := exists_of_derives_pair h
        exact .inr ⟨k, next, y, r, mid, rfl, hk, hr, .inl hampersand⟩
      · obtain ⟨y, r, mid, rfl, hy, hr⟩ := exists_of_derives_pair h
        exact .inr ⟨k, next, y, r, mid, rfl, hk, hr, .inr ⟨hbar, hy⟩⟩
      · exact .inl (.of_fits h.fits)
    · simp [branches] at hb
  · exact .inl .none

/-- What follows a member of a union is read as such. -/
theorem followsMember_of_derives {input : List Char} {r : Tree}
    (hr : Derives (.list [.sub (.typeRest true)]) [.tok .semicolon] input [r] rest)
    (homits : Omits .moreOperands afterOperand input) : FollowsMember r := by
  obtain hr | ⟨k, next, x, r', mid, rfl, hk, hr', hampersand | ⟨hbar, hx⟩⟩ := typeRest_cases hr
  · exact hr
  · exact absurd hampersand (ne_ampersand_of_omits homits hk)
  · exact .member hbar (hx.stands (.of_semicolon rfl) rfl)
      (followsMember_of_derives hr' (omits_of_intersection hx))
termination_by sizeOf r

/-- What follows an operand is read as such. -/
theorem followsOperand_of_derives {input : List Char} {r : Tree}
    (hr : Derives (.list [.sub (.typeRest true)]) [.tok .semicolon] input [r] rest) :
    FollowsOperand r := by
  obtain hr | ⟨k, next, x, r', mid, rfl, hk, hr', hampersand | ⟨hbar, hx⟩⟩ := typeRest_cases hr
  · exact .member hr
  · exact .operand hampersand (followsOperand_of_derives hr')
  · exact .member (.member hbar (hx.stands (.of_semicolon rfl) rfl)
      (followsMember_of_derives hr' (omits_of_intersection hx)))
termination_by sizeOf r

/-! ### Unions and intersections -/

/-- The type of a chain that has no more operands settles if the members of the union do. -/
theorem finish_throughout (hmembers : ∀ x ∈ c.members, Gives SettlesThroughout x)
    (hmember : Gives SettlesThroughout c.member)
    (hwhole : ∀ T, c.finish = .ok T → T.text = textOf c.whole → Settles T) :
    Gives SettlesThroughout c.finish := by
  match hc : c.members with
  | [] =>
    rw [Chain.finish, hc]
    exact hmember
  | m :: ms =>
    have hfinish : c.finish
        = (do return .union (textOf c.whole) (← (m :: ms ++ [c.member]).mapM id)) := by
      rw [Chain.finish, hc]
    intro T hT S hS
    have hself := hwhole T hT
    rw [hfinish] at hT
    obtain ⟨Ts, hTs, hT⟩ := exists_of_bind_eq_ok hT
    cases hT
    -- Either the part is the union itself, or it is in one of the members.
    cases hS with
    | refl => exact hself rfl
    | member hm hS =>
      refine (forall_of_mapM (p := SettlesThroughout) (fun x hx => ?_) hTs _ hm) S hS
      obtain hx | hx := List.mem_append.1 hx
      · exact hmembers x (hc ▸ hx)
      · exact List.mem_singleton.1 hx ▸ hmember

/-- The members of a union settle, and so does the type that they and what follows them are. -/
theorem united_throughout (hr : FollowsMember r)
    (hmembers : ∀ x ∈ c.members, Gives SettlesThroughout x)
    (hmember : Gives SettlesThroughout c.member)
    (hwhole : ∀ T, chainOf c r = .ok T → T.text = textOf c.whole → Settles T) :
    Gives SettlesThroughout (chainOf c r) := by
  induction hr generalizing c with
  | none =>
    rw [chainOf] at hwhole ⊢
    exact finish_throughout hmembers hmember hwhole
  | member hk hx _ ih =>
    simp only [chainOf, hk] at hwhole ⊢
    -- The member that is complete joins the others, and the next one takes its place.
    refine ih (fun y hy => ?_) (intersectionOf_throughout hx) hwhole
    obtain hy | hy := List.mem_append.1 hy
    · exact hmembers y hy
    · exact List.mem_singleton.1 hy ▸ hmember
  | test =>
    simp only [chainOf] at hwhole ⊢
    rintro _ ⟨⟩ _ ⟨⟩
    exact hwhole _ rfl rfl

theorem FollowsOperand.exists_node (h : FollowsOperand r) :
    ∃ us, r = .node (.typeRest true) us := by
  cases h with
  | operand => exact ⟨_, rfl⟩
  | member h => cases h <;> exact ⟨_, rfl⟩

/-- The intersection in progress and what follows it, as a type of their own. -/
def Chain.detached (c : Chain) (r : Tree) : Chain :=
  { c with whole := c.trees ++ [r] }

theorem Chain.detached_intersected (c : Chain) (k : Token) (o r : Tree) (n : Nonterminal) :
    ((c.detached (.node n [.leaf k, o, r])).intersected [.leaf k, o]).Alike
      ((c.intersected [.leaf k, o]).detached r) := by
  refine ⟨?_, rfl, .refl _, rfl, rfl⟩
  refine (alike_node c.trees n [.leaf k, o, r]).trans ?_
  rw [Chain.detached, Chain.intersected, List.append_assoc]
  exact .refl _

/-- The operands before the first member of a union that a mark leads are a member together: it
settles because the type may be cut off behind the last of them. -/
theorem chainOf_throughout (hr : FollowsOperand r) (hmembers : c.members = [])
    (hpos : c.operands ≠ 0) (hmember : Gives SettlesThroughout c.member)
    (hwhole : ∀ T, chainOf c r = .ok T → T.text = textOf c.whole → Settles T)
    (hcut : ∀ r', Trims [r] [r'] → ∀ T, chainOf (c.detached r') r' = .ok T →
      T.text = textOf (c.trees ++ [r']) → Settles T) :
    Gives SettlesThroughout (chainOf c r) := by
  induction hr generalizing c with
  | @operand k o r hk hr ih =>
    -- Where the type may be cut off behind the next operand, it may be behind this one.
    have hcut' {r' : Tree} (h : Trims [r] [r']) (T : TypeExpr)
        (hT : chainOf ((c.intersected [.leaf k, o]).detached r') r' = .ok T)
        (htext : T.text = textOf ((c.intersected [.leaf k, o]).trees ++ [r'])) : Settles T := by
      have halike := c.detached_intersected k o r' (.typeRest true)
      refine hcut (.node (.typeRest true) [.leaf k, o, r'])
        (.behind (.inside (.keep (.behind (.keep h))) .nil)) T ?_
        (htext.trans halike.whole.symm.text)
      simp only [chainOf, hk]
      rwa [chainOf_congr halike]
    have hmember' : Gives SettlesThroughout (c.intersected [.leaf k, o]).member := by
      have hmany : (c.intersected [.leaf k, o]).operands ≠ 1 := by
        simpa [Chain.intersected] using hpos
      rw [Chain.member, if_neg hmany]
      obtain ⟨us, rfl⟩ := hr.exists_node
      -- Cut off right behind the operands, the type is the intersection of them.
      rintro _ ⟨⟩ _ ⟨⟩
      refine hcut' (.here (.cons rfl .nil)) _ ?_ (alike_empty _ _).symm.text
      rw [chainOf, Chain.finish, Chain.detached, Chain.intersected, hmembers]
      exact if_neg hmany
    simp only [chainOf, hk] at hwhole ⊢
    exact ih hmembers (Nat.succ_ne_zero _) hmember' hwhole fun r' h => hcut' h
  | member hr =>
    refine united_throughout hr ?_ hmember hwhole
    rw [hmembers]
    exact List.forall_mem_nil _

/-! ### Types -/

/-- A type that is an operand and what follows it settles, if it does with less behind the
operand. -/
theorem operand_throughout (front : List Tree) (h : Stands (.type true) [.tok .semicolon] t)
    (hT : typeOf t = chainOf (.start [t] (front ++ [o]) (operatorOf o)) r)
    (ho : Stands .operator afterOperand o) (hr : FollowsOperand r)
    (hcut : ∀ r', Trims [r] [r'] → ∃ u, Stands (.type true) [.tok .semicolon] u ∧
      Alike [u] (front ++ [o] ++ [r']) ∧
        typeOf u = chainOf (.start [u] (front ++ [o]) (operatorOf o)) r') :
    Gives SettlesThroughout (typeOf t) := by
  rw [hT]
  refine chainOf_throughout hr rfl Nat.one_ne_zero (operatorOf_throughout ho)
    (fun T hT' htext => .inr ⟨t, h, hT.trans hT', htext⟩) fun r' htrims T hT' htext => ?_
  obtain ⟨u, hu, halike, htype⟩ := hcut r' htrims
  refine .inr ⟨u, hu, ?_, htext.trans halike.symm.text⟩
  rw [htype, ← hT']
  exact chainOf_congr (.start halike (.refl _) _) r'

/-- An operand in parentheses and less than what followed it are read as a type. -/
theorem exists_type_of_trims {r' : Tree} (hparen : k.terminal = .openParen)
    (hk : Sees (.sub .operator :: afterOperand) input k next)
    (ho : Derives (.node .operator k) afterOperand next [o] mid)
    (hr : Derives (.list [.sub (.typeRest true)]) [.tok .semicolon] mid [r] rest)
    (h : Trims [r] [r']) :
    ∃ u, Stands (.type true) [.tok .semicolon] u ∧ Alike [u] [o, r'] ∧
      typeOf u = chainOf (.start [u] [o] (operatorOf o)) r' := by
  have hboth : Derives (.list [.sub .operator, .sub (.typeRest true)]) [.tok .semicolon] input
      [o, r] rest := .start hk (by rw [hparen]; rfl) ho hr
  obtain ⟨x, back, -, hx, -⟩ := hboth.trim (.of_semicolon rfl) rfl (.behind (.keep h))
  obtain ⟨_, _, mid', ⟨⟩, ho', hr'⟩ := derives_cons_iff.1 hx
  obtain ⟨k', next', hk', hstarts', ho'⟩ | ⟨-, -, ⟨⟩, -⟩ := derives_sub_iff.1 ho'
  -- The first token is not cut off.
  obtain rfl : k = k' := by
    obtain ⟨ks, hks, -⟩ := ho.exists_tokens
    obtain ⟨ks', hks', -⟩ := ho'.exists_tokens
    exact (List.cons.inj (hks.symm.trans hks')).1
  obtain ⟨u, hu, htype⟩ := exists_type_of_operator hstarts' ho' hr'
  have hk'' : Sees (.sub .intersection :: []) _ k next' := hk'.intersection_of_operator
  have htypeSees : Sees [.sub (.type true), .tok .semicolon] _ k next' :=
    hk''.type_of_intersection (by rw [hparen]; nofun)
  have hderives := derives_sub_iff.2 (.inl ⟨k, next', htypeSees, by rw [hparen]; rfl, hu⟩)
  exact ⟨u, stands_of_derives hderives, alike_of_derives hu ho' hr', htype⟩

/-- A type without parts settles. -/
theorem unsupported_throughout (kind : String) (h : Stands (.type true) [.tok .semicolon] t)
    (hT : typeOf t = unsupported [t] kind) : Gives SettlesThroughout (typeOf t) := by
  rw [hT]
  rintro _ ⟨⟩ _ ⟨⟩
  exact .inr ⟨t, h, hT, rfl⟩

theorem sees_operator (hk : Sees [.sub (.type true), .tok .semicolon] input k next)
    (hstarts : starts .operator k.terminal = true) :
    Sees (.sub .operator :: afterOperand) input k next :=
  hk.narrow_via (show .via .operator [.sub (.typeRest true)] ∈ branches (.type true) by
    simp [branches]) (by decide) rfl hstarts

/-- A type that starts with a parenthesis settles, and so do the types that share its tree. -/
theorem parenthesis_throughout (h : Stands (.type true) [.tok .semicolon] t)
    (hk : Sees [.sub (.type true), .tok .semicolon] input k next)
    (hparen : k.terminal = .openParen)
    (ht : Derives (.node (.type true) k) [.tok .semicolon] next [t] rest) :
    Gives SettlesThroughout (typeOf t) := by
  obtain hfunction | ⟨o, r, mid, ho, hr, hT⟩ := exists_operand_of_parenthesis hparen ht
  · exact unsupported_throughout _ h hfunction
  · have hstarts : starts .operator k.terminal = true := by rw [hparen]; rfl
    have hk' := sees_operator hk hstarts
    exact operand_throughout [] h hT (stands_operator hk' hstarts ho)
      (followsOperand_of_derives hr) fun r' htrims =>
        exists_type_of_trims hparen hk' ho hr htrims

/-- The members of a union that a mark leads. -/
theorem bar_throughout (hbar : k.terminal = .bar)
    (h : Stands (.type true) [.tok .semicolon] (.node (.type true) [.leaf k, x, r]))
    (hx : Stands .intersection afterOperand x) (hr : FollowsMember r) :
    Gives SettlesThroughout (typeOf (.node (.type true) [.leaf k, x, r])) := by
  have hT : typeOf (.node (.type true) [.leaf k, x, r])
      = chainOf (.start [.node (.type true) [.leaf k, x, r]] [x] (intersectionOf x)) r := by
    simp only [typeOf, hbar]
  rw [hT]
  exact united_throughout hr (List.forall_mem_nil _) (intersectionOf_throughout hx)
    fun T hT' htext => .inr ⟨_, h, hT.trans hT', htext⟩

/-- Operands that a mark leads. -/
theorem ampersand_throughout (hampersand : k.terminal = .ampersand)
    (h : Stands (.type true) [.tok .semicolon] (.node (.type true) [.leaf k, o, r]))
    (ho : Stands .operator afterOperand o) (hr : FollowsOperand r) :
    Gives SettlesThroughout (typeOf (.node (.type true) [.leaf k, o, r])) := by
  have hT (r : Tree) : typeOf (.node (.type true) [.leaf k, o, r])
      = chainOf (.start [.node (.type true) [.leaf k, o, r]] [.leaf k, o] (operatorOf o)) r := by
    simp only [typeOf, hampersand]
  exact operand_throughout [.leaf k] h (hT r) ho hr fun r' htrims =>
    ⟨_, h.trim rfl rfl (.behind (.inside (.keep (.behind (.keep htrims))) .nil)),
      alike_node [] (.type true) [.leaf k, o, r'], hT r'⟩

/-- An operand that no mark leads. -/
theorem unmarked_throughout (h : Stands (.type true) [.tok .semicolon] (.node (.type true) [o, r]))
    (ho : Stands .operator afterOperand o) (hr : FollowsOperand r) :
    Gives SettlesThroughout (typeOf (.node (.type true) [o, r])) := by
  obtain ⟨os, rfl, -⟩ := ho.hasShape.exists_branch rfl
  have hT (r : Tree) : typeOf (.node (.type true) [.node .operator os, r])
      = chainOf (.start [.node (.type true) [.node .operator os, r]] [.node .operator os]
          (operatorOf (.node .operator os))) r := by
    simp only [typeOf]
  exact operand_throughout [] h (hT r) ho hr fun r' htrims =>
    ⟨_, h.trim rfl rfl (.behind (.inside (.keep htrims) .nil)),
      alike_node [] (.type true) [.node .operator os, r'], hT r'⟩

/-- A type that stands before a semicolon settles, and so do the types that share its tree. -/
theorem typeOf_throughout (h : Stands (.type true) [.tok .semicolon] t) :
    Gives SettlesThroughout (typeOf t) := by
  obtain ⟨k, ks, -, hk, -, ht⟩ := h.exists_first rfl
  by_cases hparen : k.terminal = .openParen
  · exact parenthesis_throughout h hk hparen ht
  obtain ⟨symbols, us, hb, rfl, hus⟩ | ⟨m, symbols, o, us, mid, hb, hstarts, rfl, ho, hus⟩ :=
    ht.node_cases
  · have hfits := hus.fits
    simp only [branches, List.mem_cons, List.not_mem_nil, or_false, Branch.led.injEq,
      reduceCtorEq] at hb
    -- Functions and constructors have no parts; unions and intersections may be led by their mark.
    obtain ⟨hterminal, rfl⟩ | ⟨-, rfl⟩ | ⟨hterminal, rfl⟩ | ⟨-, rfl⟩ | ⟨hterminal, rfl⟩ |
      ⟨hterminal, rfl⟩ := hb
    · exact absurd hterminal hparen
    · simp only [fits_sub_iff, fits_tok_iff, fits_nil_iff] at hfits
      obtain ⟨_, _, rfl, -, _, _, rfl, -, _, _, rfl, -, _, _, rfl, -, _, _, rfl, -, _, _, rfl, -,
        rfl⟩ := hfits
      exact unsupported_throughout "FunctionType" h (by
        rw [typeOf]
        all_goals
          intros
          rename_i h
          cases h)
    · simp only [fits_sub_iff, fits_tok_iff, fits_nil_iff] at hfits
      obtain ⟨_, _, rfl, -, _, _, rfl, -, rfl⟩ := hfits
      exact unsupported_throughout "ConstructorType" h (by simp only [typeOf, hterminal])
    · simp only [fits_sub_iff, fits_nil_iff] at hfits
      obtain ⟨_, _, rfl, -, rfl⟩ := hfits
      exact unsupported_throughout "ConstructorType" h (by rw [typeOf, if_neg hparen])
    · obtain ⟨x, r, mid, rfl, hx, hr⟩ := exists_of_derives_pair hus
      exact bar_throughout hterminal h (hx.stands (.of_semicolon rfl) rfl)
        (followsMember_of_derives hr (omits_of_intersection hx))
    · obtain ⟨o, r, mid, rfl, ho, hr⟩ := exists_of_derives_pair hus
      exact ampersand_throughout hterminal h (ho.stands (.of_semicolon rfl) rfl)
        (followsOperand_of_derives hr)
  · simp only [branches, List.mem_cons, List.not_mem_nil, or_false, Branch.via.injEq,
      reduceCtorEq, false_or] at hb
    obtain ⟨rfl, rfl⟩ := hb
    obtain ⟨r, rfl, hr⟩ := exists_of_derives_single hus
    exact unmarked_throughout h (stands_operator (sees_operator hk hstarts) hstarts ho)
      (followsOperand_of_derives hr)

end DeclSchema.Declaration
