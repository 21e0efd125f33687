import DeclSchema.Proofs.Declaration.Operands

/-!
# Names read back

An operand that starts with a name goes on with more names, with type arguments, or with what may
follow any operand. Between bars the grammar reads all of a dotted name at once, and in parentheses
one name after the other, since the first one may turn out to be a parameter.

## Main results

* `reads_arguments`: type arguments and the closing bracket
* `takes_dotted`, `takes_namedRest_dotted`: a dotted name, in both places
* `Operand.Reads.simple`, `Operand.Reads.generic`, `Operand.Reads.qualified`: operands that start
  with a name
-/

namespace DeclSchema.Canonical

open Grammar Declaration
open Grammar.Tree (tokensOf)

variable {symbols outer : List Symbol} {n : Nonterminal} {k : Token} {input mid rest : List Token}

/-! ### Type arguments -/

theorem ahead_moreTypes (more : List TypeForm) (symbols : List Symbol) (mid : List Token) :
    Ahead afterType (.sub .moreTypes :: .tok .greater :: symbols)
      (tokensOfTypes more ++ mark .greater :: mid) := by
  cases more with
  | nil => exact (ahead_mark (by decide)).sub rfl
  | cons f more => exact ahead_start (by decide) (by decide)

theorem takes_moreTypes {more : List TypeForm} (h : ∀ f ∈ more, f.Reads)
    (symbols : List Symbol) (mid : List Token) :
    ∃ t, Takes .moreTypes (.tok .greater :: symbols) (tokensOfTypes more ++ mark .greater :: mid)
        (mark .greater :: mid) t
      ∧ moreTypesOf t = .ok (typesOf more) := by
  induction more with
  | nil =>
    exact ⟨_, .omitted (u := .greater) rfl (by decide) rfl, rfl⟩
  | cons f more ih =>
    obtain ⟨hf, hmore⟩ := List.forall_mem_cons.mp h
    obtain ⟨t, ht, htype⟩ := hf.takes (ahead_moreTypes more symbols mid)
    obtain ⟨m, hm, htypes⟩ := ih hmore
    refine ⟨.node .moreTypes [.leaf (mark .comma), t, m], ?_, ?_⟩
    · rw [tokensOfTypes, List.cons_append, List.append_assoc]
      exact .led (u := .comma) rfl (by decide) (.sub ht (.sub hm .nil))
    · simp only [moreTypesOf, htype, htypes]
      rfl

/-- Type arguments and the closing bracket, with whatever symbols come next. -/
theorem reads_arguments {first : TypeForm} {more : List TypeForm} (hfirst : first.Reads)
    (hmore : ∀ f ∈ more, f.Reads) {ts : List Tree} (hrest : Reads symbols outer mid rest ts) :
    ∃ f m, Reads (.sub (.type true) :: .sub .moreTypes :: .tok .greater :: symbols) outer
        (first.tokens ++ (tokensOfTypes more ++ mark .greater :: mid)) rest
        (f :: m :: .leaf (mark .greater) :: ts)
      ∧ tokensOf [f, m] = first.tokens ++ tokensOfTypes more
      ∧ typeOf f = .ok first.type ∧ moreTypesOf m = .ok (typesOf more) := by
  obtain ⟨f, hf, htype⟩ := hfirst.takes (ahead_moreTypes more (symbols ++ outer) mid)
  obtain ⟨m, hm, htypes⟩ := takes_moreTypes hmore (symbols ++ outer) mid
  refine ⟨f, m, .sub hf (.sub hm (.tok rfl hrest)), ?_, htype, htypes⟩
  rw [tokensOf, tokensOf, tokensOf, tokens_of_takes hf, tokens_of_takes hm, List.append_nil]

/-! ### Names -/

/-- The rest of a dotted name, if what follows it is left. -/
theorem takes_dotted (ws : List Word) (hmid : Takes .dotted symbols mid mid (.node .dotted [])) :
    ∃ t, Takes .dotted symbols (continued .dot (ws.map ([·.token])) ++ mid) mid t
      ∧ dottedNames t = ws.map (·.text) := by
  induction ws with
  | nil => exact ⟨_, hmid, rfl⟩
  | cons w ws ih =>
    obtain ⟨t, ht, hnames⟩ := ih
    refine ⟨.node .dotted [.leaf (mark .dot), .leaf w.token, t], ?_, ?_⟩
    · exact .led (u := .dot) rfl (by decide) (.tok (u := .name) rfl (.sub ht .nil))
    · rw [dottedNames, hnames]
      rfl

theorem referenceType_qualified (text scope member : Text) (middle : List Text) :
    referenceType text (scope :: (middle ++ [member])) []
      = .qualified text (.joined (.ofString ".") (scope :: middle)) member := by
  obtain ⟨before, front, h⟩ := List.exists_cons_of_ne_nil
    (List.reverse_ne_nil_iff.mpr (List.cons_ne_nil scope middle))
  have hreverse : (scope :: (middle ++ [member])).reverse = member :: before :: front := by
    rw [← List.cons_append, List.reverse_append, h]
    rfl
  have hback : (before :: front).reverse = scope :: middle := by rw [← h, List.reverse_reverse]
  unfold referenceType
  rw [hreverse]
  simp only [hback]

theorem namedType_of_notMem {text name : Text} (h : name ∉ literalNames) :
    namedType text name
      = if keywordTypes.contains name then .keyword text name else .reference text name [] := by
  simp only [literalNames, List.map_cons, List.map_nil, List.mem_cons, List.not_mem_nil, or_false,
    not_or] at h
  rw [namedType, if_neg h.1, if_neg h.2.1, if_neg h.2.2]

theorem Simple.namedType_chars (s : Simple) :
    namedType (.ofChars s.chars) (.ofChars s.chars) = s.type := by
  have hdisjoint : ∀ t ∈ keywordTypes, t ∉ literalNames := by decide
  cases s with
  | keyword word =>
    have hname := word.predefined
    exact (namedType_of_notMem (hdisjoint _ hname)).trans (if_pos (List.contains_iff_mem.mpr hname))
  | truth b => cases b <;> rfl
  | null => rfl
  | reference name =>
    obtain ⟨hliteral, hkeyword⟩ := not_or.mp (mt List.mem_append.mpr name.notPredefined)
    exact (namedType_of_notMem hliteral).trans (if_neg (by simpa using hkeyword))

/-- The type of a single name, whatever trees it stands in. -/
theorem Simple.referenceType_single (s : Simple) (ts : List Tree)
    (hts : tokensOf ts = [spaced .name s.chars]) :
    referenceType (Tree.textOf ts) [.ofChars s.chars] [] = s.type := by
  rw [textOf_trees hts, textOf_single]
  exact s.namedType_chars

/-- What follows a name, if it goes on with brackets or bars. -/
theorem takes_namedRest {r : Tree}
    (hahead : Ahead afterOperand (.sub (.suffixedRest true) :: outer) mid)
    (h : Takes (.suffixedRest true) outer mid rest r) :
    ∃ t, Takes (.namedRest true) outer mid rest t
      ∧ ∀ whole trees names, namedOf whole trees names t
        = chainOf (.start whole trees (.ok (referenceType (Tree.textOf trees) names []))) r := by
  obtain ht | ⟨rfl, ht⟩ := hahead.alone (n := .namedRest true) h (by decide)
  · exact ⟨_, ht, fun _ _ _ => by rw [namedOf]⟩
  · exact ⟨_, ht, fun _ _ _ => rfl⟩

/-- What follows a name, if it goes on with more names. -/
theorem takes_namedRest_dotted (ws : List Word) {t : Tree}
    (hmid : Takes (.namedRest true) outer mid rest t) :
    ∃ t' ts, Takes (.namedRest true) outer (continued .dot (ws.map ([·.token])) ++ mid) rest t'
      ∧ tokensOf ts = continued .dot (ws.map ([·.token]))
      ∧ ∀ whole trees names, namedOf whole trees names t'
        = namedOf whole (trees ++ ts) (names ++ ws.map (·.text)) t := by
  induction ws with
  | nil => exact ⟨t, [], hmid, rfl, by simp⟩
  | cons w ws ih =>
    -- The first of the names stands in front of those that the rest is read for.
    obtain ⟨t', ts, ht, hts, hnamed⟩ := ih
    refine ⟨.node (.namedRest true) [.leaf (mark .dot), .leaf w.token, t'],
      .leaf (mark .dot) :: .leaf w.token :: ts, ?_, ?_, ?_⟩
    · exact .led (u := .dot) rfl (by decide) (.tok (u := .name) rfl (.sub ht .nil))
    · simp only [tokensOf, Tree.tokens, hts]
      rfl
    · intro whole trees names
      rw [namedOf, hnamed, List.append_assoc, List.append_assoc]
      rfl

/-! ### Operands that start with a name -/

theorem Operand.Reads.simple (s : Simple) : (Operand.simple s).Reads where
  operator htokens hahead hmid := by
    refine operator_of_primary htokens ?_ hmid
    obtain ⟨rfl, rfl⟩ := head_tokens rfl htokens
    have harguments := hahead.takes (n := .typeArguments) (by decide)
    have hdotted := (hahead.sub (n := .typeArguments) rfl).takes (n := .dotted) (by decide)
    refine ⟨_, .led (u := .name) rfl (by decide) (.sub hdotted (.sub harguments .nil)),
      fun hts => ?_⟩
    exact congrArg Except.ok (s.referenceType_single _ hts)
  parenthesis htokens hk _ _ := by
    obtain ⟨rfl, -⟩ := head_tokens rfl htokens
    cases hk
  named htokens hk hahead hmid := by
    obtain ⟨rfl, rfl⟩ := head_tokens rfl htokens
    obtain ⟨t, ht, hnamed⟩ := takes_namedRest hahead hmid
    refine ⟨t, [.leaf (spaced .name s.chars)], ht, rfl, fun whole => ?_⟩
    have htype := s.referenceType_single [.leaf (spaced .name s.chars)] rfl
    rw [hnamed]
    exact congrArg (fun type => chainOf (.start whole _ (.ok type)) _) htype

theorem typeArgumentsOf_eq {f m opening closing : Tree} {first : TypeExpr} {more : List TypeExpr}
    (hf : typeOf f = .ok first) (hm : moreTypesOf m = .ok more) :
    typeArgumentsOf (.node n [opening, f, m, closing]) = .ok (first :: more) := by
  simp only [typeArgumentsOf, hf, hm]
  rfl

theorem primaryOf_name {d a : Nonterminal} {ds as : List Tree} {types : List TypeExpr}
    (hk : k.terminal = .name) (htypes : typeArgumentsOf (.node a as) = .ok types) :
    primaryOf (.node n [.leaf k, .node d ds, .node a as])
      = .ok (referenceType (Tree.textOf [.node n [.leaf k, .node d ds, .node a as]])
        (lexemeOf k :: dottedNames (.node d ds)) types) := by
  simp only [primaryOf, hk, htypes]
  rfl

theorem namedOf_arguments {f m r opening closing : Tree} {first : TypeExpr} {more : List TypeExpr}
    (hf : typeOf f = .ok first) (hm : moreTypesOf m = .ok more) (whole trees : List Tree)
    (names : List Text) :
    namedOf whole trees names (.node n [opening, f, m, closing, r])
      = chainOf (.start whole (trees ++ [opening, f, m, closing])
        (.ok (referenceType (Tree.textOf (trees ++ [opening, f, m, closing])) names
          (first :: more)))) r := by
  simp only [namedOf, hf, hm]
  rfl

theorem Operand.Reads.generic (name : Identifier) {first : TypeForm} {more : List TypeForm}
    (hfirst : first.Reads) (hmore : ∀ f ∈ more, f.Reads) :
    (Operand.generic name first more).Reads where
  operator {outer mid _ _ _ _} htokens _ hmid := by
    refine operator_of_primary htokens ?_ hmid
    obtain ⟨rfl, hinput⟩ := head_tokens rfl htokens
    simp only [List.cons_append, List.append_assoc, List.nil_append] at hinput
    subst hinput
    have hnil : Grammar.Reads [] (.sub .suffixes :: outer) mid mid [] := .nil
    obtain ⟨f, m, hread, -, hf, hm⟩ := reads_arguments hfirst hmore hnil
    have harguments := Takes.led (k := mark .less) (n := .typeArguments) (u := .less) rfl
      (by decide) hread
    refine ⟨_, .led (u := .name) rfl (by decide) (.sub (.omitted (k := mark .less)
      (n := .dotted) (u := .less) rfl (by decide) (expects_of_starts (by decide)))
      (.sub harguments .nil)), fun hts => ?_⟩
    rw [primaryOf_name rfl (typeArgumentsOf_eq hf hm), textOf_trees hts]
    rfl
  parenthesis htokens hk _ _ := by
    obtain ⟨rfl, -⟩ := head_tokens rfl htokens
    cases hk
  named {outer mid rest r _ _} htokens hk hahead hmid := by
    obtain ⟨rfl, hinput⟩ := head_tokens rfl htokens
    simp only [List.cons_append, List.append_assoc, List.nil_append] at hinput
    subst hinput
    have hmid' : Grammar.Reads [.sub (.suffixedRest true)] outer mid rest [r] := .sub hmid .nil
    obtain ⟨f, m, hread, hts, hf, hm⟩ := reads_arguments hfirst hmore hmid'
    have hnamed := Takes.led (k := mark .less) (n := .namedRest true) (u := .less) rfl
      (by decide) hread
    have htext : tokensOf ([.leaf name.token] ++ [.leaf (mark .less), f, m, .leaf (mark .greater)])
        = (Operand.generic name first more).tokens := by
      have : tokensOf ([f, m] ++ [.leaf (mark .greater)])
          = first.tokens ++ tokensOfTypes more ++ [mark .greater] := by
        rw [tokensOf_append, hts]
        rfl
      exact congrArg (name.token :: mark .less :: ·) this
    refine ⟨_, _, hnamed, htext, fun whole => ?_⟩
    rw [namedOf_arguments hf hm, textOf_trees htext]
    rfl

theorem Operand.Reads.qualified (scope : Identifier) (middle : List Word) (member : Word) :
    (Operand.qualified scope middle member).Reads where
  operator {outer mid _ _ _ _} htokens hahead hmid := by
    refine operator_of_primary htokens ?_ hmid
    obtain ⟨rfl, rfl⟩ := head_tokens rfl htokens
    have harguments := hahead.takes (n := .typeArguments) (by decide)
    have hend := (hahead.sub (n := .typeArguments) rfl).takes (n := .dotted) (by decide)
    obtain ⟨t, ht, hnames⟩ := takes_dotted (middle ++ [member]) hend
    obtain ⟨ds, rfl⟩ := ht.isNode
    refine ⟨_, .led (u := .name) rfl (by decide) (.sub ht (.sub harguments .nil)),
      fun hts => ?_⟩
    rw [primaryOf_name rfl rfl, textOf_trees hts, hnames, List.map_append]
    exact congrArg Except.ok (referenceType_qualified ..)
  parenthesis htokens hk _ _ := by
    obtain ⟨rfl, -⟩ := head_tokens rfl htokens
    cases hk
  named htokens hk hahead hmid := by
    obtain ⟨rfl, rfl⟩ := head_tokens rfl htokens
    obtain ⟨t, ht, hnamed⟩ := takes_namedRest hahead hmid
    obtain ⟨t', ts, ht', hts, hdotted⟩ := takes_namedRest_dotted (middle ++ [member]) ht
    have htext : tokensOf ([.leaf scope.token] ++ ts)
        = (Operand.qualified scope middle member).tokens :=
      congrArg (scope.token :: ·) hts
    refine ⟨t', _, ht', htext, fun whole => ?_⟩
    rw [hdotted, hnamed, textOf_trees htext, List.map_append]
    exact congrArg (fun type => chainOf (.start whole _ (.ok type)) _) (referenceType_qualified ..)

end DeclSchema.Canonical
