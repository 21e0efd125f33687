import DeclSchema.Proofs.Grammar.Widening

/-!
# Types read in other places

Names in parentheses, the types that functions return, and the members of a union are read by other
nonterminals than types. Their tokens can be read as a type.

## Main definitions

* `namedTree`: a type that starts with a name
* `nameInParentheses`: a type in parentheses that starts with a name

## Main results

* `Sees.type_of_intersection`: the first token of a member of a union is that of a type
* `derives_namedTree_iff`: types that start with a name
* `Derives.nameInParentheses`, `exists_nameInParentheses`: such types in parentheses
-/

namespace DeclSchema.Grammar

open Terminal Nonterminal Grammar.Tree

variable {n m : Nonterminal} {symbols outer outer' : List Symbol}
  {input next mid mid' rest : List Char} {k c : Token} {q e s r u t : Tree}

/-! ### The first token -/

/-- The next token where a nonterminal is to be read that more terminals start. -/
theorem Sees.widen (hk : Sees (.sub n :: outer) input k rest) (hm : m ≠ .exportListAfterBlock)
    (hexpects : expects (.sub m :: outer') k.terminal = true)
    (hmore : ∀ v, expects (.sub m :: outer') v = true →
      expects (.sub n :: outer) v = true ∨ Apart (expects (.sub n :: outer)) v ∨
        v ∈ words ∧ expects (.sub m :: outer') name = true ∧ v.spelling ≠ k.lexeme) :
    Sees (.sub m :: outer') input k rest :=
  ((ClosesAs.spots_of_sees hk).widen hexpects hmore).sub_sees hexpects hm

/-- Where fewer terminals may come, the next token is the same. -/
theorem Sees.restrict (hk : Sees symbols input k rest) (hm : m ≠ .exportListAfterBlock)
    (hexpects : expects (.sub m :: outer) k.terminal = true)
    (hfewer : ∀ v, expects (.sub m :: outer) v = true → expects symbols v = true) :
    Sees (.sub m :: outer) input k rest :=
  ((ClosesAs.spots_of_sees hk).of_admits hexpects (.of_imp hfewer)).sub_sees hexpects hm

/-- A nonterminal that starts with fewer terminals has the same first token. -/
theorem Sees.narrow (hk : Sees symbols input k rest) (hm : m ≠ .exportListAfterBlock)
    (hempty : m.mayBeEmpty = false) (hstarts : starts m k.terminal = true)
    (hmore : ∀ v, starts m v = true → expects symbols v = true) :
    Sees (.sub m :: outer) input k rest :=
  hk.restrict hm (expects_of_starts hstarts) fun v hv =>
    hmore v (expects_eq_starts hempty outer ▸ hv)

/-- A nonterminal that another one may start with has the same first token. -/
theorem Sees.narrow_via (hk : Sees (.sub n :: outer) input k rest)
    (hvia : .via m symbols ∈ branches n) (hm : m ≠ .exportListAfterBlock)
    (hempty : m.mayBeEmpty = false) (hstarts : starts m k.terminal = true) :
    Sees (.sub m :: outer') input k rest :=
  hk.narrow hm hempty hstarts fun _ hv => expects_of_starts (starts_of_via hvia hv)

/-- The first token of a nonterminal is that of another one that more terminals start. -/
theorem Sees.widen_starts (hk : Sees (.sub n :: outer) input k rest)
    (hempty : n.mayBeEmpty = false ∧ m.mayBeEmpty = false) (hm : m ≠ .exportListAfterBlock)
    (himp : ∀ v, starts n v = true → starts m v = true)
    (hmore : ∀ v, starts m v = true → starts n v = true ∨ Apart (starts n) v ∨
      v ∈ words ∧ starts m name = true ∧ v.spelling ≠ k.lexeme) :
    Sees (.sub m :: outer') input k rest := by
  have hexpected := hk.expected
  rw [expects_eq_starts hempty.1] at hexpected
  refine hk.widen hm (expects_of_starts (himp _ hexpected)) ?_
  rw [expects_eq_starts hempty.1, expects_eq_starts hempty.2]
  exact hmore

/-- A bracket or a semicolon comes next wherever it may. -/
theorem Sees.of_tok {v : Terminal} (hv : v ∈ closedMarks)
    (hk : Sees (.tok v :: symbols) input k rest) (hm : m ≠ .exportListAfterBlock)
    (hexpects : expects (.sub m :: outer) v = true) : Sees (.sub m :: outer) input k rest := by
  have hspots := ClosesAs.spots_of_sees hk
  have hterminal : k.terminal = v := (beq_iff_eq.1 hk.expected).symm
  have hnil : v.spelling ≠ [] := by
    obtain ⟨d, hd, -⟩ := exists_of_mem_closedMarks hv
    rw [hd]
    exact List.cons_ne_nil d []
  obtain ⟨w, hw, hlength, hpos, -⟩ := exists_of_lexeme? hspots.lexeme?_eq
  obtain rfl : v = w := beq_iff_eq.1 hw
  obtain ⟨back, hback⟩ := Terminal.spelling_isPrefix hnil (hlength ▸ hpos)
  refine (hspots.of_admits (hterminal ▸ hexpects) fun x _ => ?_).sub_sees
    (hterminal ▸ hexpects) hm
  -- No other terminal takes anything there, so it does not matter which are admitted.
  by_cases hx : x = v
  · exact .inl (hx ▸ beq_self_eq_true v)
  · rw [← hback, lexemeLength_closedMark hv hx]
    exact .inr (.inl rfl)

theorem starts_type_cases (v : Terminal) (hv : starts (.type true) v = true) :
    starts .intersection v = true ∨ v ∈ [less, bar] ∨ v ∈ [abstractWord, newWord] := by
  cases v <;> first
    | exact absurd hv Bool.false_ne_true
    | exact .inl rfl
    | exact .inr (.inl (by decide))
    | exact .inr (.inr (by decide))

theorem apart_intersection : ∀ v ∈ [less, bar], Apart (starts .intersection) v := by
  decide

/-- The first token of a member of a union is that of a type, unless it is a word that types start
with. -/
theorem Sees.type_of_intersection (hk : Sees (.sub .intersection :: outer) input k rest)
    (hwords : k.terminal = name → ∀ v ∈ [abstractWord, newWord], k.lexeme ≠ v.spelling) :
    Sees (.sub (.type true) :: outer') input k rest := by
  have hspots := ClosesAs.spots_of_sees hk
  rw [expects_eq_starts rfl] at hspots
  have himp (v : Terminal) (hv : starts .intersection v = true) : starts (.type true) v = true := by
    cases v <;> first | exact absurd hv Bool.false_ne_true | rfl
  refine hk.widen_starts ⟨rfl, rfl⟩ (by decide) himp fun v hv => ?_
  obtain hold | hmark | hword := starts_type_cases v hv
  · exact .inl hold
  · exact .inr (.inl (apart_intersection v hmark))
  · have hv' : v ∈ words ∧ starts .intersection v = false := by
      simp only [List.mem_cons, List.not_mem_nil, or_false] at hword
      obtain rfl | rfl := hword <;> exact ⟨by decide, rfl⟩
    -- Inside a union the words of constructors are names, which the token is not.
    refine .inr (.inr ⟨hv'.1, rfl, fun hsame => ?_⟩)
    exact hwords (hspots.terminal_eq_name rfl hv'.1 hv'.2 hsame.symm) v hword hsame.symm

/-- The first token of an operand is that of a member of a union. -/
theorem Sees.intersection_of_operator (hk : Sees (.sub .operator :: outer) input k rest) :
    Sees (.sub .intersection :: outer') input k rest := by
  have himp (v : Terminal) (hv : starts .operator v = true) : starts .intersection v = true :=
    starts_of_via (show .via .operator [.sub .moreOperands] ∈ branches .intersection by
      simp [branches]) hv
  have hapart : Apart (starts .operator) ampersand := by decide
  refine hk.widen_starts ⟨rfl, rfl⟩ (by decide) himp fun v hv => ?_
  cases v <;> first
    | exact absurd hv Bool.false_ne_true
    | exact .inl rfl
    | exact .inr (.inl hapart)

theorem starts_parenthesis_of_type (v : Terminal) (hv : starts (.type true) v = true) :
    starts (.parenthesis true) v = true :=
  have hvia : .via (.type true) [.tok .closeParen, .sub (.parenthesisEnd true)]
      ∈ branches (.parenthesis true) := by simp [branches]
  starts_of_via hvia hv

/-- The first token behind an opening parenthesis is the same at the start of a type. -/
theorem Sees.parenthesis_of_type (hk : Sees (.sub (.type true) :: outer) input k rest) :
    Sees (.sub (.parenthesis true) :: outer') input k rest := by
  have hapart : ∀ v ∈ [closeParen, ellipsis], Apart (starts (.type true)) v := by decide
  refine hk.widen_starts ⟨rfl, rfl⟩ (by decide) starts_parenthesis_of_type fun v hv => ?_
  cases v <;> first
    | exact absurd hv Bool.false_ne_true
    | exact .inl rfl
    | exact .inr (.inl (hapart _ (by decide)))

/-! ### Names -/

/-- A type that starts with a name: its dotted names, type arguments and brackets, and what follows
them. -/
def namedTree (k : Token) (d a s r : Tree) : Tree :=
  .node (.type true) [.node .operator [.node .primary [.leaf k, d, a], s], r]

/-- A type that starts with a name is read part by part. -/
theorem derives_namedTree_iff (hk : Sees (.sub (.type true) :: outer) input k next)
    (hname : k.terminal = .name) :
    Derives (.list [.sub (.type true)]) outer input [u] rest ↔
      ∃ d a s r, u = namedTree k d a s r ∧
        Derives (.list [.sub .dotted, .sub .typeArguments, .sub .suffixes, .sub (.typeRest true)])
          outer next [d, a, s, r] rest := by
  have hstarts : starts (.type true) k.terminal = true := by rw [hname]; rfl
  have htype : branch? (.type true) k.terminal = some (.via .operator [.sub (.typeRest true)]) := by
    rw [hname]; rfl
  have hoperator : branch? .operator k.terminal = some (.via .primary [.sub .suffixes]) := by
    rw [hname]; rfl
  have hprimary : branch? .primary k.terminal
      = some (.led .name [.sub .dotted, .sub .typeArguments]) := by rw [hname]; rfl
  constructor
  · intro h
    obtain ⟨k', next', hk', -, h⟩ | ⟨-, -, ⟨⟩, -⟩ := derives_sub_iff.1 h
    obtain ⟨rfl, rfl⟩ := hk.spots.eq hk'.spots
    obtain ⟨o, _, mid, rfl, ho, hr⟩ := (derives_via_iff htype).1 h
    obtain ⟨r, rfl, hr⟩ := exists_of_derives_single hr
    obtain ⟨p, _, mid', rfl, hp, hs⟩ := (derives_via_iff hoperator).1 ho
    obtain ⟨s, rfl, hs⟩ := exists_of_derives_single hs
    obtain ⟨us, rfl, hus⟩ := (derives_led_iff hprimary).1 hp
    obtain ⟨d, a, _, rfl, hd, ha⟩ := exists_of_derives_pair hus
    exact ⟨d, a, s, r, rfl, derives_cons_iff.2 ⟨d, _, _, rfl, hd, derives_cons_iff.2
      ⟨a, _, _, rfl, ha, derives_cons_iff.2 ⟨s, _, _, rfl, hs, hr⟩⟩⟩⟩
  · rintro ⟨d, a, s, r, rfl, h⟩
    obtain ⟨_, _, _, ⟨⟩, hd, h⟩ := derives_cons_iff.1 h
    obtain ⟨_, _, _, ⟨⟩, ha, h⟩ := derives_cons_iff.1 h
    obtain ⟨_, _, _, ⟨⟩, hs, hr⟩ := derives_cons_iff.1 h
    have hp := (derives_led_iff hprimary).2 ⟨_, rfl, derives_cons_iff.2 ⟨d, _, _, rfl, hd, ha⟩⟩
    have ho := (derives_via_iff hoperator).2 ⟨_, [s], _, rfl, hp, hs⟩
    exact derives_sub_iff.2 (.inl ⟨k, next, hk, hstarts,
      (derives_via_iff htype).2 ⟨_, [r], _, rfl, ho, hr⟩⟩)

/-! ### Parentheses -/

theorem leads_parenthesisEnd : Leads (.parenthesisEnd true) (.suffixedRest true) [.arrow] where
  mayBeEmpty := ⟨rfl, rfl⟩
  ne := ⟨nofun, nofun⟩
  starts_imp u hu := by cases u <;> first | rfl | exact absurd hu Bool.false_ne_true
  starts_eq u hu := by cases u <;> first | rfl | exact absurd (List.mem_singleton_self _) hu
  branch u hu hstarts := by
    cases u <;> first | rfl | exact absurd hstarts Bool.false_ne_true

/-- What follows a type in parentheses that is no arrow. -/
theorem Derives.parenthesisEnd
    (h : Derives (.list [.sub (.suffixedRest true)]) [.tok .semicolon] input [t] rest) :
    Derives (.list [.sub (.parenthesisEnd true)]) [.tok .semicolon] input
      [alone (.parenthesisEnd true) t] rest := by
  have hsees {k : Token} {next : List Char}
      (hk : Sees [.sub (.suffixedRest true), .tok .semicolon] input k next) :
      Leads.Avoids (.parenthesisEnd true) [.arrow] [.tok .semicolon] input := by
    have hexpected := hk.expected
    have hapart : Apart (expects [.sub (.suffixedRest true), .tok .semicolon]) .arrow := by
      decide
    -- The arrow may come besides, and nothing that may come without it starts like it.
    refine .inr ⟨k, next, hk.widen (by decide) ?_ fun v hv => ?_, ?_⟩
    · generalize k.terminal = v at hexpected
      cases v <;> first | exact absurd hexpected Bool.false_ne_true | rfl
    · cases v <;> first
        | exact absurd hv Bool.false_ne_true
        | exact .inl rfl
        | exact .inr (.inl hapart)
    · rw [List.mem_singleton]
      intro harrow
      rw [harrow] at hexpected
      cases hexpected
  refine (leads_parenthesisEnd.derives_iff ?_).2 ⟨t, rfl, h⟩
  obtain ⟨k, next, hk, -⟩ | ⟨-, -, -, hend | ⟨k, next, hk, -⟩⟩ := derives_sub_iff.1 h
  · exact hsees hk
  · exact .inl hend
  · exact hsees hk

/-- What follows an opening parenthesis and a name, up to the end of the type: what belongs to the
name, the closing parenthesis, and what follows that. -/
def nameInParentheses (q closing e : Tree) : Tree :=
  match q with
  | .node _ [] => .node (.parenthesisName true) [closing, e]
  | q => .node (.parenthesisName true) [q, closing, e]

theorem Sees.tok_congr {v : Terminal} (hk : Sees (.tok v :: symbols) input k rest)
    (symbols' : List Symbol) : Sees (.tok v :: symbols') input k rest :=
  ⟨hk.input_eq, hk.triviaLength_eq, hk.nonempty, hk.lexeme?_eq, hk.expected⟩

theorem Sees.tok_of_skip {v : Terminal} (hk : Sees (.sub n :: .tok v :: outer) input k rest)
    (hn : starts n k.terminal = false) : Sees (.tok v :: outer) input k rest := by
  have hspots := ClosesAs.spots_of_skip hk hn
  have hexpected := hk.expected
  rw [expects, hn, Bool.false_or, Bool.and_eq_true] at hexpected
  refine (hspots.of_admits (by rw [hexpected.2, Bool.true_or]) (.of_imp fun u hu => ?_)).sees
    hexpected.2
  rwa [reserves, Bool.or_false] at hu
  rintro _ ⟨⟩

theorem starts_parenthesisName_cases (v : Terminal) (hv : starts (.parenthesisName true) v = true) :
    starts (.namedRest true) v = true ∨ v ∈ [question, colon, comma] ∨ v = closeParen := by
  cases v <;> first
    | exact absurd hv Bool.false_ne_true
    | exact .inl rfl
    | exact .inr (.inl (by decide))
    | exact .inr (.inr rfl)

/-- A name in parentheses is read in two parts. -/
theorem Derives.nameInParentheses
    (hq : Derives (.list [.sub (.namedRest true)]) (.tok .closeParen :: outer) input [q] mid)
    (hc : Sees (.tok .closeParen :: outer) mid c mid')
    (he : Derives (.list [.sub (.parenthesisEnd true)]) outer' mid' [e] rest) :
    Derives (.list [.sub (.parenthesisName true)]) outer' input
      [nameInParentheses q (.leaf c) e] rest := by
  have hback : Derives (.list [.tok .closeParen, .sub (.parenthesisEnd true)]) outer' mid
      [.leaf c, e] rest :=
    .tok (hc.tok_congr _) he
  obtain ⟨k, next, hk, hstarts, hq⟩ | ⟨rfl, rfl, -⟩ := derives_sub_iff.1 hq
  · have hbranch : branch? (.parenthesisName true) k.terminal = some (.via (.namedRest true)
        [.tok .closeParen, .sub (.parenthesisEnd true)]) := by
      generalize k.terminal = v at hstarts
      cases v <;> first | rfl | exact absurd hstarts Bool.false_ne_true
    have hapart : ∀ v ∈ [question, colon, comma],
        Apart (expects (.sub (.namedRest true) :: .tok .closeParen :: outer)) v := by
      -- Nothing behind the closing parenthesis may come next.
      show ∀ v ∈ _, Apart (expects [.sub (.namedRest true), .tok .closeParen]) v
      decide
    have hsees : Sees (.sub (.parenthesisName true) :: outer') input k next := by
      refine hk.widen (by decide) (expects_of_starts (starts_of_branch? hbranch)) fun v hv => ?_
      rw [expects_eq_starts rfl] at hv
      obtain hold | hmark | rfl := starts_parenthesisName_cases v hv
      · exact .inl (expects_of_starts hold)
      · exact .inr (.inl (hapart v hmark))
      · exact .inl rfl
    have hname : Grammar.nameInParentheses q (.leaf c) e
        = .node (.parenthesisName true) [q, .leaf c, e] := by
      cases hq <;> rfl
    rw [hname]
    exact .start hsees (starts_of_branch? hbranch)
      (.via hbranch (hq.congr (by funext v; cases v <;> rfl)) hback) .nil
  · -- Nothing belongs to the name, so the closing parenthesis leads.
    have hterminal : c.terminal = .closeParen := (beq_iff_eq.1 hc.expected).symm
    have hbranch : branch? (.parenthesisName true) c.terminal
        = some (.led .closeParen [.sub (.parenthesisEnd true)]) := by rw [hterminal]; rfl
    exact .start (hc.of_tok (by decide) (by decide) rfl) (starts_of_branch? hbranch)
      (.led hbranch he) .nil

/-- A name behind an opening parenthesis is a parameter of a function, or it starts a type in
parentheses that is read in two parts. -/
theorem exists_nameInParentheses
    (hk : Sees (.sub (.parenthesisName true) :: outer) input k next)
    (h : Derives (.node (.parenthesisName true) k) outer next [t] rest) (outer' : List Symbol) :
    (∃ a b, t = .node (.parenthesisName true) [.leaf k, a, b]) ∨
      ∃ q c e mid mid', t = nameInParentheses q (.leaf c) e ∧
        Derives (.list [.sub (.namedRest true)]) (.tok .closeParen :: outer') input [q] mid ∧
        Sees (.tok .closeParen :: outer') mid c mid' ∧
        Derives (.list [.sub (.parenthesisEnd true)]) outer mid' [e] rest := by
  have hsees (hexpects : expects (.sub (.namedRest true) :: .tok .closeParen :: outer')
      k.terminal = true) :
      Sees (.sub (.namedRest true) :: .tok .closeParen :: outer') input k next := by
    refine hk.restrict (by decide) hexpects fun v hv => ?_
    rw [expects_eq_starts rfl]
    cases v <;> first | rfl | exact absurd hv Bool.false_ne_true
  obtain ⟨symbols, us, hb, rfl, h⟩ | ⟨m, symbols, v, us, mid, hb, hstarts, rfl, hq, h⟩ :=
    h.node_cases
  · simp only [branches, List.mem_cons, List.not_mem_nil, or_false, Branch.led.injEq,
      reduceCtorEq] at hb
    obtain ⟨-, rfl⟩ | ⟨-, rfl⟩ | ⟨-, rfl⟩ | ⟨hterminal, rfl⟩ := hb
    -- A question mark, a colon or a comma makes the name a parameter.
    iterate 3
      · obtain ⟨a, b, -, rfl, -, -⟩ := exists_of_derives_pair h
        exact .inl ⟨a, b, rfl⟩
    · obtain ⟨e, rfl, he⟩ := exists_of_derives_single h
      have hstarts : starts (.namedRest true) k.terminal = false := by rw [hterminal]; rfl
      have hk' := hsees (by rw [hterminal]; rfl)
      exact .inr ⟨.node (.namedRest true) [], k, e, input, next, rfl, .skip hk' hstarts .nil,
        hk'.tok_of_skip hstarts, he⟩
  · simp only [branches, List.mem_cons, List.not_mem_nil, or_false, Branch.via.injEq,
      reduceCtorEq, false_or] at hb
    obtain ⟨rfl, rfl⟩ := hb
    obtain ⟨_, _, mid', rfl, hc, he⟩ := derives_cons_iff.1 h
    obtain ⟨c, rfl, hclosing⟩ := derives_tok_iff.1 hc
    obtain ⟨e, rfl, he⟩ := exists_of_derives_single he
    refine .inr ⟨_, c, e, _, mid', ?_, derives_sub_iff.2 (.inl ⟨k, next,
      hsees (expects_of_starts hstarts), hstarts, hq.congr (by funext v; rfl)⟩),
      hclosing.tok_congr _, he⟩
    cases hq <;> rfl

/-! ### Types that functions return -/

theorem leads_returnName : Leads .returnName (.namedRest true) [.isWord] where
  mayBeEmpty := ⟨rfl, rfl⟩
  ne := ⟨nofun, nofun⟩
  starts_imp u hu := by cases u <;> first | rfl | exact absurd hu Bool.false_ne_true
  starts_eq u hu := by cases u <;> first | rfl | exact absurd (List.mem_singleton_self _) hu
  branch u hu hstarts := by
    cases u <;> first | rfl | exact absurd hstarts Bool.false_ne_true

end DeclSchema.Grammar
