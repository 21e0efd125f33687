import DeclSchema.Declaration.Source
import DeclSchema.Proofs.Declaration.Sound

/-!
# Building declarations

All nodes of the declarations that are built from the tree of a file are sound: the branches of the
builders for nodes that lack a part are never taken on a tree that was read, and each text is found
among the tokens of the trees that it is built from. A failure is the failure of a string token.

There is one lemma for each builder, and in it one case for each branch of its nonterminal.

## Main definitions

* `ChainFound`: what holds of a chain while its operands are being read

## Main results

* `typeOf_found_of_below`, `memberOf_found`: the types and members of trees are found in their
  tokens
* `buildsBelow`: so they are at all levels
-/

namespace DeclSchema.Declaration

open Grammar Grammar.Tree Grammar.Terminal Grammar.Nonterminal Escape

variable {ks ls : List Token} {t : Tree} {T : TypeExpr}

/-! ### Raw texts -/

section Raw

/-- The text has characters only. -/
def IsRaw (t : Text) : Prop :=
  ∃ cs, t = .ofChars cs

theorem IsRaw.spelled {t : Text} (h : IsRaw t) (ks : List Token) : Spelled ks t :=
  .inl h

theorem isRaw_ofString (s : String) : IsRaw (.ofString s) :=
  ⟨_, rfl⟩

theorem isRaw_lexemeOf (k : Token) : IsRaw (lexemeOf k) :=
  ⟨_, rfl⟩

theorem isRaw_textOf (ts : List Tree) : IsRaw (textOf ts) :=
  ⟨_, rfl⟩

theorem IsRaw.append {t u : Text} (ht : IsRaw t) (hu : IsRaw u) : IsRaw (t ++ u) := by
  obtain ⟨cs, rfl⟩ := ht
  obtain ⟨ds, rfl⟩ := hu
  exact ⟨cs ++ ds, (List.map_append ..).symm⟩

theorem isRaw_joined {separator : Text} (hseparator : IsRaw separator) {ts : List Text}
    (h : ∀ t ∈ ts, IsRaw t) : IsRaw (.joined separator ts) := by
  induction ts with
  | nil => exact ⟨[], rfl⟩
  | cons t ts ih =>
    obtain ⟨ht, hts⟩ := List.forall_mem_cons.1 h
    cases ts with
    | nil => simpa [Text.joined, List.intercalate] using ht
    | cons u us =>
      rw [Text.joined, List.intercalate_cons_cons]
      exact (ht.append hseparator).append (ih hts)

theorem isRaw_dottedNames (t : Tree) : ∀ name ∈ dottedNames t, IsRaw name := by
  fun_induction dottedNames t with
  | case1 n dot k rest ih => exact List.forall_mem_cons.2 ⟨isRaw_lexemeOf k, ih⟩
  | case2 => exact List.forall_mem_nil _

theorem isRaw_parameterNames (t : Tree) : ∀ name ∈ parameterNames t, IsRaw name := by
  fun_induction parameterNames t with
  | case1 _ list ih => exact ih
  | case2 _ _ _ ih₁ ih₂ => exact List.forall_mem_append.2 ⟨ih₁, ih₂⟩
  | case3 _ _ _ ih₁ ih₂ => exact List.forall_mem_append.2 ⟨ih₁, ih₂⟩
  | case4 k => exact List.forall_mem_singleton.2 (isRaw_lexemeOf k)
  | case5 => exact List.forall_mem_nil _

end Raw

/-! ### Types without parts -/

section Leaves

variable {trees : List Tree}

/-- A type that has no parts is found in the tokens that it is the text of. -/
theorem foundType_leaf (trees : List Tree) (htext : T.text = textOf trees)
    (htrees : tokensOf trees <:+: ls)
    (hwhole : (Node.type T).IsWhole) (hparts : (Node.type T).parts = [])
    (hnames : ∀ t ∈ (Node.type T).names, Spelled ks t) : FoundType ks ls T :=
  .of_trees _ htext htrees hwhole hnames (by rw [hparts]; nofun)

theorem yields_unsupported (htrees : tokensOf trees <:+: ls) (kind : String) :
    Yields ks (FoundType ks ls) (unsupported trees kind) :=
  foundType_leaf trees rfl htrees trivial rfl
    (List.forall_mem_singleton.2 ((isRaw_ofString kind).spelled ks))

theorem yields_stringLiteral (htrees : tokensOf trees <:+: ls) {k : Token}
    (hk : k.terminal = .string) (hks : k ∈ ks) :
    Yields ks (FoundType ks ls) (stringLiteral (textOf trees) k) := by
  rw [stringLiteral]
  cases hvalue : unquote k.lexeme with
  | error f => exact ⟨k, hks, hk, hvalue⟩
  | ok value =>
    refine foundType_leaf trees rfl htrees trivial rfl ?_
    exact List.forall_mem_cons.2 ⟨(isRaw_ofString _).spelled ks,
      List.forall_mem_singleton.2 (.inr ⟨k, hks, hk, hvalue⟩)⟩

theorem foundType_numberLiteral (htrees : tokensOf trees <:+: ls) (k : Token) :
    FoundType ks ls (numberLiteral (textOf trees) k) := by
  refine foundType_leaf trees rfl htrees trivial rfl ?_
  exact List.forall_mem_cons.2 ⟨(isRaw_ofString _).spelled ks,
    List.forall_mem_singleton.2 ((isRaw_textOf trees).spelled ks)⟩

theorem foundType_namedType (htrees : tokensOf trees <:+: ls) {name : Text} (hname : IsRaw name) :
    FoundType ks ls (namedType (textOf trees) name) := by
  have hkind (s : String) : Spelled ks (.ofString s) := (isRaw_ofString s).spelled ks
  unfold namedType
  -- The words for types without a schema of their own, and then any other name.
  split
  · exact foundType_leaf trees rfl htrees trivial rfl
      (List.forall_mem_singleton.2 (hkind _))
  split
  · exact foundType_leaf trees rfl htrees trivial rfl
      (List.forall_mem_singleton.2 (hkind _))
  split
  · exact foundType_leaf trees rfl htrees trivial rfl
      (List.forall_mem_singleton.2 (hkind _))
  split
  · exact foundType_leaf trees rfl htrees trivial rfl
      (List.forall_mem_singleton.2 (hname.spelled ks))
  · exact foundType_leaf trees rfl htrees trivial rfl
      (List.forall_mem_singleton.2 (hname.spelled ks))

/-- A dotted name with type arguments that are found among its tokens. -/
theorem foundType_referenceType (htrees : tokensOf trees <:+: ls) {names : List Text}
    (hne : names ≠ []) (hnames : ∀ name ∈ names, IsRaw name) {arguments : List TypeExpr}
    (harguments : ∀ A ∈ arguments, Found ks (tokensOf trees) (.type A)) :
    FoundType ks ls (referenceType (textOf trees) names arguments) := by
  unfold referenceType
  -- The last name is apart from those before it, which are joined by dots.
  split
  · next last before front hreverse =>
    have hall : ∀ name ∈ last :: before :: front, IsRaw name := fun name h =>
      hnames name (List.mem_reverse.1 (hreverse ▸ h))
    obtain ⟨hlast, hfront⟩ := List.forall_mem_cons.1 hall
    refine foundType_leaf trees rfl htrees trivial rfl ?_
    refine List.forall_mem_cons.2 ⟨?_, List.forall_mem_singleton.2 (hlast.spelled ks)⟩
    exact (isRaw_joined (isRaw_ofString _) fun name h =>
      hfront name (List.mem_reverse.1 h)).spelled ks
  · next name hreverse =>
    have hname : IsRaw name :=
      hnames name (List.mem_reverse.1 (hreverse ▸ List.mem_singleton.2 rfl))
    exact foundType_namedType htrees hname
  · next name hreverse _ =>
    have hname : IsRaw name :=
      hnames name (List.mem_reverse.1 (hreverse ▸ List.mem_singleton.2 rfl))
    refine .of_trees trees rfl htrees trivial
      (List.forall_mem_singleton.2 (hname.spelled ks)) fun p hp => ?_
    obtain ⟨A, hA, rfl⟩ := List.mem_map.1 hp
    exact harguments A hA
  · next hreverse => exact absurd (List.reverse_eq_nil_iff.1 hreverse) hne

end Leaves

/-! ### Chains -/

/-- The members, the trees and the operand of a chain are found, and the tokens `after` are those
of its last trees. -/
structure ChainFound (ks : List Token) (c : Chain) (after : List Token) : Prop where
  members : ∀ m ∈ c.members, Yields ks (FoundType ks (tokensOf c.whole)) m
  trees : tokensOf c.trees ++ after <:+ tokensOf c.whole
  operand : Yields ks (FoundType ks (tokensOf c.trees)) c.operand

namespace ChainFound

variable {c : Chain} {after : List Token}

theorem start {whole trees : List Tree} {operand : Decoded TypeExpr}
    (htrees : tokensOf trees ++ after <:+ tokensOf whole)
    (hoperand : Yields ks (FoundType ks (tokensOf trees)) operand) :
    ChainFound ks (.start whole trees operand) after :=
  ⟨nofun, htrees, hoperand⟩

theorem trees_isInfix (h : ChainFound ks c after) : tokensOf c.trees <:+: tokensOf c.whole :=
  (List.prefix_append ..).isInfix.trans h.trees.isInfix

theorem member (h : ChainFound ks c after) :
    Yields ks (FoundType ks (tokensOf c.whole)) c.member := by
  rw [Chain.member]
  split
  · exact h.operand.imp fun T hT => hT.mono h.trees_isInfix
  · exact yields_unsupported h.trees_isInfix _

theorem finish (h : ChainFound ks c after) :
    Yields ks (FoundType ks (tokensOf c.whole)) c.finish := by
  rw [Chain.finish]
  split
  · exact h.member
  · have hall : ∀ m ∈ c.members ++ [c.member], Yields ks (FoundType ks (tokensOf c.whole)) m :=
      List.forall_mem_append.2 ⟨h.members, List.forall_mem_singleton.2 h.member⟩
    exact (yields_mapM hall).bind fun members hmembers => .union hmembers List.infix_rfl

theorem suffixed {more : List Tree} {operand : Decoded TypeExpr}
    (h : ChainFound ks c (tokensOf more ++ after))
    (hoperand : Yields ks (FoundType ks (tokensOf (c.trees ++ more))) operand) :
    ChainFound ks (c.suffixed (c.trees ++ more) operand) after where
  members := h.members
  trees := by
    have htrees := h.trees
    rwa [← List.append_assoc, ← tokensOf_append] at htrees
  operand := hoperand

theorem intersected {more : List Tree} (h : ChainFound ks c (tokensOf more ++ after)) :
    ChainFound ks (c.intersected more) after where
  members := h.members
  trees := by
    have htrees := h.trees
    rwa [← List.append_assoc, ← tokensOf_append] at htrees
  operand := h.operand.imp fun T hT => hT.mono (by
    rw [Chain.intersected, tokensOf_append]
    exact (List.prefix_append ..).isInfix)

theorem united {k : Token} {next : Tree} {operand : Decoded TypeExpr}
    (h : ChainFound ks c (k :: next.tokens ++ after))
    (hnext : Yields ks (FoundType ks next.tokens) operand) :
    ChainFound ks (c.united next operand) after where
  members := List.forall_mem_append.2 ⟨h.members, List.forall_mem_singleton.2 h.member⟩
  trees := by
    refine List.IsSuffix.trans ⟨tokensOf c.trees ++ [k], ?_⟩ h.trees
    simp [Chain.united, tokensOf]
  operand := by simpa [Chain.united, tokensOf] using hnext

end ChainFound

/-- Brackets after an operand make an array of it, or a form that has no schema. -/
theorem yields_suffixedType (trees : List Tree) (next : Tree) {front : List Tree}
    {operand : Decoded TypeExpr}
    (hfront : tokensOf front <:+: tokensOf trees)
    (hoperand : Yields ks (FoundType ks (tokensOf front)) operand) :
    Yields ks (FoundType ks (tokensOf trees)) (suffixedType trees operand next) := by
  unfold suffixedType
  split
  · exact hoperand.bind fun T hT => (hT.mono hfront).array List.infix_rfl
  · exact yields_unsupported List.infix_rfl _

/-! ### Types and members -/

section Trees

variable {n : Nonterminal} {us ts : List Tree} {u : Tree}

theorem textOf_leaf (k : Token) : textOf [.leaf k] = lexemeOf k := by
  simp [textOf, tokensOf, Tree.tokens, Tree.spelling, lexemeOf]

theorem tokensOf_singleton (t : Tree) : tokensOf [t] = t.tokens := by
  rw [tokensOf, tokensOf, List.append_nil]

theorem tokensOf_node (n : Nonterminal) (us : List Tree) : tokensOf [.node n us] = tokensOf us := by
  rw [tokensOf, tokensOf, Tree.tokens, List.append_nil]

theorem tokensOf_isInfix (h : ts <:+: us) : tokensOf ts <:+: tokensOf us := by
  obtain ⟨front, back, rfl⟩ := h
  exact ⟨tokensOf front, tokensOf back, by simp only [tokensOf_append]⟩

/-- The tokens of a child are among those of the tree. -/
theorem child_isInfix (hu : u ∈ us) : tokensOf [u] <:+: tokensOf [.node n us] := by
  rw [tokensOf_node]
  exact tokensOf_isInfix ((List.singleton_infix_iff ..).2 hu)

theorem exists_node_of_hasShape (h : HasShape n t) : ∃ us, t = .node n us := by
  obtain ⟨-, ht⟩ | ⟨us, ht, -⟩ := h.exists_cases
  · exact ⟨[], ht⟩
  · exact ⟨us, ht⟩

end Trees

/-! ### Members -/

section Members

variable {name : MemberName} {trees : List Tree} {n : Nonterminal}

theorem readAs_of_hasShape (h : HasShape n t) (hn : n.mayBeEmpty = false) : ReadAs n t := by
  obtain ⟨us, -, hread, -⟩ := h.exists_branch hn
  exact hread

/-- A type that a tree is read for is found. -/
theorem Yields.found {x : Decoded TypeExpr} (h : Yields ks (FoundType ks ls) x)
    (horigin : ∀ T, x = .ok T → Origin ks T) : Yields ks (fun T => Found ks ls (.type T)) x := by
  cases x with
  | error f => exact h
  | ok T => exact FoundType.found h (horigin T rfl)

theorem foundType_parenthesized (htrees : tokensOf trees <:+: ls)
    (h : Found ks (tokensOf trees) (.type T)) :
    FoundType ks ls (.parenthesized (textOf trees) (some T)) :=
  .of_trees trees rfl htrees rfl (List.forall_mem_nil _) (List.forall_mem_singleton.2 h)

/-- A member that is found among tokens is found among more of them. -/
theorem Yields.member_mono {ms : List Token} {x : Decoded Member}
    (h : Yields ks (fun m => Found ks ms (.member m)) x) (hms : ms <:+: ls) :
    Yields ks (fun m => Found ks ls (.member m)) x :=
  h.imp fun _ hm => hm.mono hms

/-- The texts of a key are raw or spelled by string tokens, and its node is found. -/
def KeyFound (ks ls : List Token) (name : MemberName) : Prop :=
  (∀ t ∈ name.strings, Spelled ks t) ∧ ∀ p ∈ name.nodes, Found ks ls p

theorem yields_keyOf {k : Token} (hk : k ∈ ks) : Yields ks (Spelled ks) (keyOf k) := by
  unfold keyOf
  split
  · next hstring =>
    cases hvalue : unquote k.lexeme with
    | error f => exact ⟨k, hk, hstring, hvalue⟩
    | ok t => exact .inr ⟨k, hk, hstring, hvalue⟩
  · exact (isRaw_lexemeOf k).spelled ks

theorem yields_plainKey {k : Token} (hk : k ∈ ks) (ls : List Token) :
    Yields ks (KeyFound ks ls) (MemberName.plain <$> keyOf k) :=
  (yields_keyOf hk).map fun _ ht => ⟨List.forall_mem_singleton.2 ht, nofun⟩

theorem keyFound_plain (k : Token) (ks ls : List Token) :
    KeyFound ks ls (.plain (lexemeOf k)) :=
  ⟨List.forall_mem_singleton.2 ((isRaw_lexemeOf k).spelled ks), nofun⟩

theorem keyFound_kindKey (k k' : Token) (ks ls : List Token) :
    KeyFound ks ls (.kindKey (lexemeOf k) (lexemeOf k')) :=
  ⟨List.forall_mem_cons.2 ⟨(isRaw_lexemeOf k).spelled ks,
    List.forall_mem_singleton.2 ((isRaw_lexemeOf k').spelled ks)⟩, nofun⟩

theorem keyFound_computed (htrees : tokensOf trees <:+: ls) :
    KeyFound ks ls (.computed (textOf trees)) := by
  refine ⟨List.forall_mem_singleton.2 ((isRaw_textOf trees).spelled ks), fun p hp => ?_⟩
  obtain rfl := List.mem_singleton.1 hp
  exact .of_trees trees nofun rfl htrees trivial nofun nofun

theorem KeyFound.mono {ms : List Token} (h : KeyFound ks ms name) (hms : ms <:+: ls) :
    KeyFound ks ls name :=
  ⟨h.1, fun p hp => (h.2 p hp).mono hms⟩

/-- The type of a member, if there is one, is found. -/
def FoundOptional (ks ls : List Token) (type : Option TypeExpr) : Prop :=
  ∀ p ∈ Node.ofOptional type, Found ks ls p

theorem foundOptional_none : FoundOptional ks ls none :=
  nofun

theorem foundOptional_some (h : Found ks ls (.type T)) : FoundOptional ks ls (some T) :=
  List.forall_mem_singleton.2 h

theorem found_property {u : List Tree} {type : Option TypeExpr} {optional readonly : Bool}
    (hu : tokensOf u <:+: ls) (hname : KeyFound ks (tokensOf u) name)
    (htype : FoundOptional ks (tokensOf u) type) :
    Found ks ls (.member (.property (textOf u) name type optional readonly)) :=
  .of_trees u nofun rfl hu trivial hname.1
    (List.forall_mem_append.2 ⟨hname.2, htype⟩)

theorem found_method {type : Option TypeExpr} (htrees : tokensOf trees <:+: ls)
    (hname : KeyFound ks (tokensOf trees) name) (htype : FoundOptional ks (tokensOf trees) type) :
    Found ks ls (.member (.method (textOf trees) name type)) :=
  .of_trees trees nofun rfl htrees trivial hname.1
    (List.forall_mem_append.2 ⟨hname.2, htype⟩)

theorem found_call {type : Option TypeExpr} (htrees : tokensOf trees <:+: ls)
    (htype : FoundOptional ks (tokensOf trees) type) :
    Found ks ls (.member (.call (textOf trees) type)) :=
  .of_trees trees nofun rfl htrees trivial nofun htype

theorem found_index {key : Token} {keyType type : TypeExpr} (htrees : tokensOf trees <:+: ls)
    (hkey : Found ks (tokensOf trees) (.type keyType))
    (htype : Found ks (tokensOf trees) (.type type)) :
    Found ks ls (.member (.index (textOf trees) (lexemeOf key) (some keyType) (some type))) :=
  .of_trees trees nofun rfl htrees ⟨rfl, rfl⟩
    (List.forall_mem_singleton.2 ((isRaw_lexemeOf key).spelled ks))
    (List.forall_mem_cons.2 ⟨hkey, List.forall_mem_singleton.2 htype⟩)

theorem found_readonlyKey {k : Token} (hk : [k] <:+: ls) :
    Found ks ls (.member (readonlyKey k)) :=
  found_property (u := [.leaf k]) hk (keyFound_plain k ks _) foundOptional_none

/-- The members of an object shape are found. -/
def FoundMembers (ks ls : List Token) (members : List Member) : Prop :=
  ∀ m ∈ members, Found ks ls (.member m)

theorem FoundMembers.mono {ms : List Token} {members : List Member}
    (h : FoundMembers ks ms members) (hms : ms <:+: ls) : FoundMembers ks ls members :=
  fun m hm => (h m hm).mono hms

theorem foundType_object {members : List Member} (h : FoundMembers ks (tokensOf trees) members) :
    FoundType ks (tokensOf trees) (.object (textOf trees) members) := by
  refine .of_trees trees rfl List.infix_rfl trivial (List.forall_mem_nil _) fun p hp => ?_
  obtain ⟨m, hm, rfl⟩ := List.mem_map.1 hp
  exact h m hm

theorem restOfKey_eq (ro : Bool) : restOfKey ro = .keyRest ∨ restOfKey ro = .propertyRest := by
  cases ro
  · exact .inl rfl
  · exact .inr rfl

end Members

/-! ### Smaller trees -/

/-- The tokens of the tree are among `ks`, and the types in smaller trees are found. A type is found
where those of smaller trees are, and so are the members and operands on the way to them. -/
structure BuildsBelow (ks : List Token) (t : Tree) : Prop where
  tokens : tokensOf [t] <:+: ks
  types : ∀ u, sizeOf u < sizeOf t → HasShape (.type true) u → tokensOf [u] <:+: ks →
    Yields ks (FoundType ks (tokensOf [u])) (typeOf u)
  returns : ∀ u, sizeOf u < sizeOf t → HasShape .returnType u → tokensOf [u] <:+: ks →
    Yields ks (FoundType ks (tokensOf [u])) (returnTypeOf u)

namespace BuildsBelow

variable {n : Nonterminal} {us : List Tree} {u : Tree} (hin : BuildsBelow ks (.node n us))

theorem sizeOf_child (hu : u ∈ us) : sizeOf u < sizeOf (Grammar.Tree.node n us) := by
  have := List.sizeOf_lt_of_mem hu
  simp only [Grammar.Tree.node.sizeOf_spec]
  omega

include hin

theorem child (hu : u ∈ us) : BuildsBelow ks u where
  tokens := (child_isInfix hu).trans hin.tokens
  types v hv := hin.types v (Nat.lt_trans hv (sizeOf_child hu))
  returns v hv := hin.returns v (Nat.lt_trans hv (sizeOf_child hu))

theorem leaf_mem {k : Token} (hk : .leaf k ∈ us) : k ∈ ks :=
  (hin.child hk).tokens.subset (List.mem_singleton.2 rfl)

/-- A type in a child is found, since a tree is read for it. -/
theorem type (hu : u ∈ us) (h : HasShape (.type true) u) :
    Yields ks (fun T => Found ks (tokensOf [u]) (.type T)) (typeOf u) :=
  (hin.types u (sizeOf_child hu) h (hin.child hu).tokens).found fun _ =>
    .type (readAs_of_hasShape h rfl) (hin.child hu).tokens

theorem returned (hu : u ∈ us) (h : HasShape .returnType u) :
    Yields ks (fun T => Found ks (tokensOf [u]) (.type T)) (returnTypeOf u) :=
  (hin.returns u (sizeOf_child hu) h (hin.child hu).tokens).found fun _ =>
    .returned (readAs_of_hasShape h rfl) (hin.child hu).tokens

end BuildsBelow

/-! ### Types and members of trees -/

theorem resultOf_found {t : Tree} (h : HasShape .result t) (hin : BuildsBelow ks t) :
    Yields ks (FoundOptional ks (tokensOf [t])) (resultOf t) := by
  obtain ⟨-, ht⟩ | ⟨us, ht, -, b, hb, hus⟩ := h.exists_cases
  · rw [ht]
    simp only [resultOf]
    exact foundOptional_none
  rw [ht] at hin ⊢
  simp only [branches, List.mem_cons, List.not_mem_nil, or_false] at hb
  obtain rfl := hb
  simp only [Branch.symbols, fits_tok_iff, fits_sub_iff, fits_nil_iff] at hus
  obtain ⟨k, _, rfl, -, r, _, rfl, hr, rfl⟩ := hus
  obtain ⟨rs, rfl⟩ := exists_node_of_hasShape hr
  simp only [resultOf]
  refine (hin.returned (by simp) hr).bind fun T hT => ?_
  exact foundOptional_some (hT.mono (child_isInfix (by simp)))

theorem signatureOf_found {front : List Tree} {name : Decoded MemberName} {optional ro : Bool}
    {n : Nonterminal} {t : Tree} (hn : n = .signatureRest ∨ n = Nonterminal.annotation)
    (h : HasShape n t) (hname : Yields ks (KeyFound ks (tokensOf front)) name)
    (hin : BuildsBelow ks t) :
    Yields ks (fun m => Found ks (tokensOf (front ++ [t])) (.member m))
      (signatureOf front name optional ro t) := by
  have hfront : tokensOf front <:+: tokensOf (front ++ [t]) :=
    tokensOf_isInfix (List.prefix_append ..).isInfix
  have hback : tokensOf [t] <:+: tokensOf (front ++ [t]) :=
    tokensOf_isInfix (List.suffix_append ..).isInfix
  have hname' : Yields ks (KeyFound ks (tokensOf (front ++ [t]))) name :=
    hname.imp fun key hkey => hkey.mono hfront
  obtain ⟨-, ht⟩ | ⟨us, ht, -, b, hb, hus⟩ := h.exists_cases
  · rw [ht] at hname' ⊢
    simp only [signatureOf]
    exact hname'.bind fun key hkey => found_property List.infix_rfl hkey foundOptional_none
  rw [ht] at hin hback hname' ⊢
  -- An annotation has only the first of the three branches.
  have hshape : b = .led .colon [.sub (.type true)] ∨ b = .led .openParen signature ∨
      b = .led .less genericSignature := by
    obtain rfl | rfl := hn
    · simpa [branches] using hb
    · exact .inl (by simpa [branches] using hb)
  obtain rfl | rfl | rfl := hshape
  all_goals
    simp only [Branch.symbols, signature, genericSignature, List.cons_append, List.nil_append,
      fits_tok_iff, fits_sub_iff, fits_nil_iff] at hus
  · obtain ⟨k, _, rfl, -, type, _, rfl, htype, rfl⟩ := hus
    obtain ⟨types, rfl⟩ := exists_node_of_hasShape htype
    simp only [signatureOf]
    refine (hin.type (by simp) htype).bind fun T hT => ?_
    exact hname'.bind fun key hkey => found_property List.infix_rfl hkey
      (foundOptional_some (hT.mono ((child_isInfix (by simp)).trans hback)))
  · obtain ⟨k, _, rfl, -, p, _, rfl, hp, k', _, rfl, -, r, _, rfl, hr, rfl⟩ := hus
    obtain ⟨ps, rfl⟩ := exists_node_of_hasShape hp
    obtain ⟨rs, rfl⟩ := exists_node_of_hasShape hr
    simp only [signatureOf]
    refine (resultOf_found hr (hin.child (by simp))).bind fun type htype => ?_
    exact hname'.bind fun key hkey => found_method List.infix_rfl hkey fun p hp =>
      (htype p hp).mono ((child_isInfix (by simp)).trans hback)
  · obtain ⟨k, _, rfl, -, l, _, rfl, hl, k', _, rfl, -, p, _, rfl, hp, k'', _, rfl, -, r, _, rfl,
      hr, rfl⟩ := hus
    obtain ⟨ls, rfl⟩ := exists_node_of_hasShape hl
    obtain ⟨ps, rfl⟩ := exists_node_of_hasShape hp
    obtain ⟨rs, rfl⟩ := exists_node_of_hasShape hr
    simp only [signatureOf]
    refine (resultOf_found hr (hin.child (by simp))).bind fun type htype => ?_
    exact hname'.bind fun key hkey => found_method List.infix_rfl hkey fun p hp =>
      (htype p hp).mono ((child_isInfix (by simp)).trans hback)

theorem keyRestOf_found {front : List Tree} {x : Decoded MemberName} {ro : Bool}
    {n : Nonterminal} {t : Tree} (hn : n = .keyRest ∨ n = .propertyRest) (h : HasShape n t)
    (hname : Yields ks (KeyFound ks (tokensOf front)) x) (hin : BuildsBelow ks t) :
    Yields ks (fun m => Found ks (tokensOf (front ++ [t])) (.member m))
      (keyRestOf front x ro t) := by
  obtain ⟨-, ht⟩ | ⟨us, ht, -, b, hb, hus⟩ := h.exists_cases
  · rw [ht]
    simp only [keyRestOf]
    exact hname.bind fun key hkey => found_property
      (tokensOf_isInfix (List.prefix_append ..).isInfix) hkey foundOptional_none
  rw [ht] at hin ⊢
  -- What may follow the mark depends on the sort of the key, and is read alike.
  have hshape : ∃ m, (m = .signatureRest ∨ m = Nonterminal.annotation) ∧
      (b = .led .question [.sub m] ∨ b = .via m []) := by
    obtain rfl | rfl := hn
    · exact ⟨.signatureRest, .inl rfl, by simpa [branches] using hb⟩
    · exact ⟨Nonterminal.annotation, .inr rfl, by simpa [branches] using hb⟩
  obtain ⟨m, hm, rfl | rfl⟩ := hshape
  all_goals simp only [Branch.symbols, fits_tok_iff, fits_sub_iff, fits_nil_iff] at hus
  · obtain ⟨k, _, rfl, -, r, _, rfl, hr, rfl⟩ := hus
    obtain ⟨rs, rfl⟩ := exists_node_of_hasShape hr
    simp only [keyRestOf]
    have hname' : Yields ks (KeyFound ks (tokensOf (front ++ [.leaf k]))) x :=
      hname.imp fun key hkey => hkey.mono (tokensOf_isInfix (List.prefix_append ..).isInfix)
    exact (signatureOf_found hm hr hname' (hin.child (by simp))).member_mono
      ⟨[], [], by simp [tokensOf, Tree.tokens, tokensOf_append]⟩
  · obtain ⟨r, _, rfl, hr, rfl⟩ := hus
    obtain ⟨rs, rfl⟩ := exists_node_of_hasShape hr
    simp only [keyRestOf]
    exact (signatureOf_found hm hr hname (hin.child (by simp))).member_mono
      ⟨[], [], by simp [tokensOf, Tree.tokens, tokensOf_append]⟩

theorem bracketedNameOf_found (front : List Tree) (bracket name : Token) {ro : Bool} {t : Tree}
    (h : HasShape (.bracketedName ro) t) (hin : BuildsBelow ks t) :
    Yields ks (fun m => Found ks (tokensOf (front ++ [.leaf bracket, .leaf name, t])) (.member m))
      (bracketedNameOf front bracket ro name t) := by
  obtain ⟨us, ht, -, b, hb, hus⟩ := h.exists_branch rfl
  rw [ht] at hin ⊢
  have hn := restOfKey_eq ro
  simp only [branches, List.mem_cons, List.not_mem_nil, or_false] at hb
  obtain rfl | rfl | rfl := hb
  all_goals simp only [Branch.symbols, fits_tok_iff, fits_sub_iff, fits_nil_iff] at hus
  · obtain ⟨k, _, rfl, -, key, _, rfl, hkey, k', _, rfl, -, k'', _, rfl, -, type, _, rfl, htype,
      rfl⟩ := hus
    obtain ⟨keys, rfl⟩ := exists_node_of_hasShape hkey
    obtain ⟨types, rfl⟩ := exists_node_of_hasShape htype
    simp only [bracketedNameOf]
    refine (hin.type (by simp) htype).bind fun T hT => ?_
    refine (hin.type (by simp) hkey).bind fun K hK => ?_
    have hsuffix : tokensOf [.node (.bracketedName ro) [.leaf k, .node (.type true) keys, .leaf k',
        .leaf k'', .node (.type true) types]] <:+: tokensOf (front ++ [.leaf bracket, .leaf name,
        .node (.bracketedName ro) [.leaf k, .node (.type true) keys, .leaf k', .leaf k'',
          .node (.type true) types]]) :=
      tokensOf_isInfix ⟨front ++ [.leaf bracket, .leaf name], [], by simp⟩
    exact found_index List.infix_rfl (hK.mono ((child_isInfix (by simp)).trans hsuffix))
      (hT.mono ((child_isInfix (by simp)).trans hsuffix))
  · obtain ⟨k, _, rfl, -, a, _, rfl, ha, rfl⟩ := hus
    obtain ⟨as, rfl⟩ := exists_node_of_hasShape ha
    simp only [bracketedNameOf]
    have hkey : KeyFound ks (tokensOf (front ++ [.leaf bracket, .leaf name, .leaf k]))
        (.computed (textOf [.leaf bracket, .leaf name, .leaf k])) :=
      keyFound_computed (tokensOf_isInfix (List.suffix_append ..).isInfix)
    refine (keyRestOf_found hn ha (x := .ok _) hkey (hin.child (by simp))).member_mono ?_
    exact ⟨[], [], by simp [tokensOf, Tree.tokens, tokensOf_append]⟩
  · obtain ⟨k, _, rfl, -, k', _, rfl, -, d, _, rfl, hd, c, _, rfl, -, a, _, rfl, ha, rfl⟩ := hus
    obtain ⟨ds, rfl⟩ := exists_node_of_hasShape hd
    obtain ⟨as, rfl⟩ := exists_node_of_hasShape ha
    have hcomputed : KeyFound ks (tokensOf (front ++ [.leaf bracket, .leaf name, .leaf k, .leaf k',
        .node .dotted ds, .leaf c])) (.computed (textOf [.leaf bracket, .leaf name, .leaf k,
          .leaf k', .node .dotted ds, .leaf c])) :=
      keyFound_computed (tokensOf_isInfix (List.suffix_append ..).isInfix)
    cases ds with
    | nil =>
      simp only [bracketedNameOf]
      have hkey := keyFound_kindKey name k' ks (tokensOf (front ++ [.leaf bracket, .leaf name,
        .leaf k, .leaf k', .node .dotted [], .leaf c]))
      exact (keyRestOf_found (x := .ok _) hn ha hkey (hin.child (by simp))).member_mono
        ⟨[], [], by simp [tokensOf, Tree.tokens, tokensOf_append]⟩
    | cons d ds =>
      simp only [bracketedNameOf]
      exact (keyRestOf_found (x := .ok _) hn ha hcomputed
        (hin.child (by simp))).member_mono
          ⟨[], [], by simp [tokensOf, Tree.tokens, tokensOf_append]⟩

theorem bracketedOf_found (front : List Tree) {bracket : Token} {ro : Bool} {t : Tree}
    (h : HasShape (.bracketed ro) t) (hin : BuildsBelow ks t) :
    Yields ks (fun m => Found ks (tokensOf (front ++ [.leaf bracket, t])) (.member m))
      (bracketedOf front bracket ro t) := by
  obtain ⟨us, ht, -, b, hb, hus⟩ := h.exists_branch rfl
  rw [ht] at hin ⊢
  simp only [branches, List.mem_cons, List.not_mem_nil, or_false] at hb
  obtain rfl | rfl | rfl := hb
  all_goals simp only [Branch.symbols, fits_tok_iff, fits_sub_iff, fits_nil_iff] at hus
  · obtain ⟨name, _, rfl, -, r, _, rfl, hr, rfl⟩ := hus
    obtain ⟨rs, rfl⟩ := exists_node_of_hasShape hr
    simp only [bracketedOf]
    exact (bracketedNameOf_found front bracket name hr (hin.child (by simp))).imp fun m hm =>
      hm.mono ⟨[], [], by simp [tokensOf, Tree.tokens, tokensOf_append]⟩
  iterate 2
    · obtain ⟨key, _, rfl, -, c, _, rfl, -, a, _, rfl, ha, rfl⟩ := hus
      have hn := restOfKey_eq ro
      obtain ⟨as, rfl⟩ := exists_node_of_hasShape ha
      simp only [bracketedOf]
      have hkey : KeyFound ks (tokensOf (front ++ [.leaf bracket, .leaf key, .leaf c]))
          (.computed (textOf [.leaf bracket, .leaf key, .leaf c])) :=
        keyFound_computed (tokensOf_isInfix (List.suffix_append ..).isInfix)
      refine (keyRestOf_found hn ha (x := .ok _) hkey (hin.child (by simp))).member_mono ?_
      exact ⟨[], [], by simp [tokensOf, Tree.tokens, tokensOf_append]⟩

theorem readonlyRestOf_found (word : Token) {t : Tree} (h : HasShape .readonlyRest t)
    (hin : BuildsBelow ks t) :
    Yields ks (fun m => Found ks (tokensOf [.leaf word, t]) (.member m))
      (readonlyRestOf word t) := by
  obtain ⟨-, ht⟩ | ⟨us, ht, -, b, hb, hus⟩ := h.exists_cases
  · rw [ht]
    simp only [readonlyRestOf]
    exact found_readonlyKey ⟨[], _, rfl⟩
  rw [ht] at hin ⊢
  simp only [branches, propertyKey, List.cons_append, List.nil_append, List.mem_cons,
    List.not_mem_nil, or_false] at hb
  obtain rfl | rfl | rfl | rfl | rfl | rfl := hb
  all_goals simp only [Branch.symbols, fits_tok_iff, fits_sub_iff, fits_nil_iff] at hus
  -- A name, a string, a number and the word itself are keys after the modifier.
  iterate 4
    · obtain ⟨k, _, rfl, hk, r, _, rfl, hr, rfl⟩ := hus
      obtain ⟨rs, rfl⟩ := exists_node_of_hasShape hr
      simp only [readonlyRestOf, hk, reduceCtorEq, if_false]
      have hkey := yields_plainKey (hin.leaf_mem (List.mem_cons_self ..))
        (tokensOf [.leaf word, .leaf k])
      exact (keyRestOf_found (.inr rfl) hr hkey (hin.child (by simp))).member_mono
        ⟨[], [], by simp [tokensOf, Tree.tokens]⟩
  · obtain ⟨k, _, rfl, hk, r, _, rfl, hr, rfl⟩ := hus
    obtain ⟨rs, rfl⟩ := exists_node_of_hasShape hr
    simp only [readonlyRestOf, hk, if_true]
    exact (bracketedOf_found [.leaf word] hr (hin.child (by simp))).member_mono
      ⟨[], [], by simp [tokensOf, Tree.tokens]⟩
  · obtain ⟨r, _, rfl, hr, rfl⟩ := hus
    obtain ⟨rs, rfl⟩ := exists_node_of_hasShape hr
    simp only [readonlyRestOf]
    have hkey : KeyFound ks (tokensOf [.leaf word]) (.plain (lexemeOf word)) :=
      keyFound_plain word ks _
    exact (keyRestOf_found (x := .ok _) (.inl rfl) hr hkey
      (hin.child (by simp))).member_mono ⟨[], [], by simp [tokensOf, Tree.tokens]⟩

theorem memberOf_found {t : Tree} (h : HasShape .member t) (hin : BuildsBelow ks t) :
    Yields ks (fun m => Found ks (tokensOf [t]) (.member m)) (memberOf t) := by
  obtain ⟨us, ht, -, b, hb, hus⟩ := h.exists_branch rfl
  rw [ht] at hin ⊢
  simp only [branches, propertyKey, List.cons_append, List.nil_append, List.mem_cons,
    List.not_mem_nil, or_false] at hb
  obtain rfl | rfl | rfl | rfl | rfl | rfl | rfl := hb
  all_goals
    simp only [Branch.symbols, signature, genericSignature, List.cons_append, List.nil_append,
      fits_tok_iff, fits_sub_iff, fits_nil_iff] at hus
  -- A name, a string and a number are the same sort of key.
  iterate 3
    · obtain ⟨k, _, rfl, hk, r, _, rfl, hr, rfl⟩ := hus
      obtain ⟨rs, rfl⟩ := exists_node_of_hasShape hr
      simp only [memberOf, hk]
      have hkey := yields_plainKey (hin.leaf_mem (List.mem_cons_self ..)) (tokensOf [.leaf k])
      exact (keyRestOf_found (.inl rfl) hr hkey (hin.child (by simp))).member_mono
        ⟨[], [], by simp [tokensOf, Tree.tokens]⟩
  · obtain ⟨k, _, rfl, hk, r, _, rfl, hr, rfl⟩ := hus
    obtain ⟨rs, rfl⟩ := exists_node_of_hasShape hr
    simp only [memberOf, hk]
    exact (readonlyRestOf_found _ hr (hin.child (by simp))).member_mono
      ⟨[], [], by simp [tokensOf, Tree.tokens]⟩
  · obtain ⟨k, _, rfl, hk, r, _, rfl, hr, rfl⟩ := hus
    obtain ⟨rs, rfl⟩ := exists_node_of_hasShape hr
    simp only [memberOf, hk]
    exact (bracketedOf_found [] hr (hin.child (by simp))).member_mono
      ⟨[], [], by simp [tokensOf, Tree.tokens]⟩
  · obtain ⟨k, _, rfl, hk, p, _, rfl, hp, k', _, rfl, -, r, _, rfl, hr, rfl⟩ := hus
    obtain ⟨ps, rfl⟩ := exists_node_of_hasShape hp
    obtain ⟨rs, rfl⟩ := exists_node_of_hasShape hr
    simp only [memberOf]
    refine (resultOf_found hr (hin.child (by simp))).bind fun type htype => ?_
    exact found_call List.infix_rfl fun p hp => (htype p hp).mono (child_isInfix (by simp))
  · obtain ⟨k, _, rfl, hk, l, _, rfl, hl, k', _, rfl, -, p, _, rfl, hp, k'', _, rfl, -, r, _, rfl,
      hr, rfl⟩ := hus
    obtain ⟨ls, rfl⟩ := exists_node_of_hasShape hl
    obtain ⟨ps, rfl⟩ := exists_node_of_hasShape hp
    obtain ⟨rs, rfl⟩ := exists_node_of_hasShape hr
    simp only [memberOf]
    refine (resultOf_found hr (hin.child (by simp))).bind fun type htype => ?_
    exact found_call List.infix_rfl fun p hp => (htype p hp).mono (child_isInfix (by simp))

mutual

theorem membersOf_found {t : Tree} (h : HasShape .members t) (hin : BuildsBelow ks t) :
    Yields ks (FoundMembers ks (tokensOf [t])) (membersOf t) := by
  obtain ⟨-, ht⟩ | ⟨us, ht, -, b, hb, hus⟩ := h.exists_cases
  · rw [ht]
    simp only [membersOf]
    exact List.forall_mem_nil _
  rw [ht] at hin ⊢
  simp only [branches, List.mem_cons, List.not_mem_nil, or_false] at hb
  obtain rfl := hb
  simp only [Branch.symbols, fits_sub_iff, fits_nil_iff] at hus
  obtain ⟨m, _, rfl, hm, e, _, rfl, he, rfl⟩ := hus
  simp only [membersOf]
  refine (memberOf_found hm (hin.child (by simp))).bind fun first hfirst => ?_
  refine (memberEndOf_found he (hin.child (by simp))).bind fun more hmore => ?_
  exact List.forall_mem_cons.2 ⟨hfirst.mono (child_isInfix (by simp)),
    hmore.mono (child_isInfix (by simp))⟩
termination_by sizeOf t
decreasing_by all_goals (subst ht; exact BuildsBelow.sizeOf_child (by simp))

theorem memberEndOf_found {t : Tree} (h : HasShape .memberEnd t) (hin : BuildsBelow ks t) :
    Yields ks (FoundMembers ks (tokensOf [t])) (memberEndOf t) := by
  obtain ⟨-, ht⟩ | ⟨us, ht, -, b, hb, hus⟩ := h.exists_cases
  · rw [ht]
    simp only [memberEndOf]
    exact List.forall_mem_nil _
  rw [ht] at hin ⊢
  simp only [branches, List.mem_cons, List.not_mem_nil, or_false] at hb
  obtain rfl | rfl := hb
  all_goals
    simp only [Branch.symbols, fits_tok_iff, fits_sub_iff, fits_nil_iff] at hus
    obtain ⟨k, _, rfl, -, m, _, rfl, hm, rfl⟩ := hus
    simp only [memberEndOf]
    exact (membersOf_found hm (hin.child (by simp))).imp fun members hmembers =>
      hmembers.mono (child_isInfix (by simp))
termination_by sizeOf t
decreasing_by all_goals (subst ht; exact BuildsBelow.sizeOf_child (by simp))

end

/-- The members of a shape in braces are a first one and those behind it. -/
theorem yields_object {whole : List Tree} {first : Decoded Member} {more : Decoded (List Member)}
    (hfirst : Yields ks (fun m => Found ks (tokensOf whole) (.member m)) first)
    (hmore : Yields ks (FoundMembers ks (tokensOf whole)) more) :
    Yields ks (FoundType ks (tokensOf whole))
      (do return .object (textOf whole) ((← first) :: (← more))) :=
  hfirst.bind fun _ hm => hmore.bind fun _ hms =>
    foundType_object (List.forall_mem_cons.2 ⟨hm, hms⟩)

/-- The members behind the first one in a tree are found among any tokens that hold those of the
tree. -/
theorem BuildsBelow.furtherMembers {n : Nonterminal} {us : List Tree} {e : Tree}
    (hin : BuildsBelow ks (.node n us)) (he : e ∈ us) (h : HasShape .memberEnd e)
    (hls : tokensOf [.node n us] <:+: ls) : Yields ks (FoundMembers ks ls) (memberEndOf e) :=
  (memberEndOf_found h (hin.child he)).imp fun _ hms => hms.mono ((child_isInfix he).trans hls)

/-- A bracket and a name start a mapped type, or the first member of a shape. -/
theorem bracedNameOf_found {whole front : List Tree} {bracket name : Token} {ro : Bool}
    {n : Nonterminal} {t : Tree} (h : HasShape (.bracedName ro) t)
    (hwhole : tokensOf (front ++ [.leaf bracket, .leaf name, t]) <:+: tokensOf whole)
    (hin : BuildsBelow ks t) :
    Yields ks (FoundType ks (tokensOf whole))
      (bracedBracketedOf whole front bracket ro (.node n [.leaf name, t])) := by
  obtain ⟨us, ht, -, b, hb, hus⟩ := h.exists_branch rfl
  rw [ht] at hwhole hin ⊢
  simp only [branches, List.mem_cons, List.not_mem_nil, or_false] at hb
  obtain rfl | rfl := hb
  all_goals
    simp only [Branch.symbols, furtherMembers, fits_tok_iff, fits_sub_iff, fits_nil_iff] at hus
  · obtain ⟨k, _, rfl, -, m, _, rfl, hm, rfl⟩ := hus
    obtain ⟨ms, rfl⟩ := exists_node_of_hasShape hm
    simp only [bracedBracketedOf]
    exact yields_unsupported List.infix_rfl _
  · obtain ⟨m, _, rfl, hm, e, _, rfl, he, k, _, rfl, -, rfl⟩ := hus
    obtain ⟨ms, rfl⟩ := exists_node_of_hasShape hm
    obtain ⟨es, rfl⟩ := exists_node_of_hasShape he
    simp only [bracedBracketedOf]
    refine yields_object ?_ (hin.furtherMembers (by simp) he (.trans ?_ hwhole))
    · refine (bracketedNameOf_found front bracket name hm (hin.child (by simp))).member_mono
        (.trans ?_ hwhole)
      exact ⟨[], tokensOf [.node .memberEnd es, .leaf k],
        by simp [tokensOf, Tree.tokens, tokensOf_append]⟩
    · exact tokensOf_isInfix ⟨front ++ [.leaf bracket, .leaf name], [], by simp⟩

theorem bracedBracketedOf_found {whole front : List Tree} {bracket : Token} {ro : Bool} {t : Tree}
    (h : HasShape (.bracedBracketed ro) t)
    (hwhole : tokensOf (front ++ [.leaf bracket, t]) <:+: tokensOf whole)
    (hin : BuildsBelow ks t) :
    Yields ks (FoundType ks (tokensOf whole)) (bracedBracketedOf whole front bracket ro t) := by
  obtain ⟨us, ht, -, b, hb, hus⟩ := h.exists_branch rfl
  rw [ht] at hwhole hin ⊢
  simp only [branches, List.mem_cons, List.not_mem_nil, or_false] at hb
  obtain rfl | rfl | rfl := hb
  all_goals
    simp only [Branch.symbols, furtherMembers, List.cons_append, List.nil_append, fits_tok_iff,
      fits_sub_iff, fits_nil_iff] at hus
  · obtain ⟨name, _, rfl, -, bn, _, rfl, hbn, rfl⟩ := hus
    refine bracedNameOf_found hbn (.trans ?_ hwhole) (hin.child (by simp))
    exact ⟨[], [], by simp [tokensOf, Tree.tokens, tokensOf_append]⟩
  -- A string and a number are the same sort of key.
  iterate 2
    · obtain ⟨key, _, rfl, -, c, _, rfl, -, a, _, rfl, ha, e, _, rfl, he, k, _, rfl, -, rfl⟩ := hus
      have hn := restOfKey_eq ro
      obtain ⟨as, rfl⟩ := exists_node_of_hasShape ha
      obtain ⟨es, rfl⟩ := exists_node_of_hasShape he
      simp only [bracedBracketedOf]
      have hkey : KeyFound ks (tokensOf (front ++ [.leaf bracket, .leaf key, .leaf c]))
          (.computed (textOf [.leaf bracket, .leaf key, .leaf c])) :=
        keyFound_computed (tokensOf_isInfix (List.suffix_append ..).isInfix)
      refine yields_object ?_ (hin.furtherMembers (by simp) he (.trans ?_ hwhole))
      · refine (keyRestOf_found hn ha (x := .ok _) hkey (hin.child (by simp))).member_mono
          (.trans ?_ hwhole)
        exact ⟨[], tokensOf [.node .memberEnd es, .leaf k],
          by simp [tokensOf, Tree.tokens, tokensOf_append]⟩
      · exact tokensOf_isInfix ⟨front ++ [.leaf bracket], [], by simp⟩

theorem bracedReadonlyOf_found {whole : List Tree} {word : Token} {t : Tree}
    (h : HasShape .bracedReadonly t) (hwhole : tokensOf [.leaf word, t] <:+: tokensOf whole)
    (hin : BuildsBelow ks t) :
    Yields ks (FoundType ks (tokensOf whole)) (bracedReadonlyOf whole word t) := by
  obtain ⟨us, ht, -, b, hb, hus⟩ := h.exists_branch rfl
  rw [ht] at hwhole hin ⊢
  have hword : [word] <:+: tokensOf whole := List.IsInfix.trans ⟨[], _, rfl⟩ hwhole
  have hrest : tokensOf [.node .bracedReadonly us] <:+: tokensOf whole :=
    (List.suffix_cons ..).isInfix.trans hwhole
  simp only [branches, List.mem_cons, List.not_mem_nil, or_false] at hb
  obtain rfl | rfl | rfl | rfl := hb
  all_goals
    simp only [Branch.symbols, furtherMembers, fits_tok_iff, fits_sub_iff, fits_nil_iff] at hus
  · obtain ⟨k, _, rfl, hk, r, _, rfl, hr, rfl⟩ := hus
    obtain ⟨rs, rfl⟩ := exists_node_of_hasShape hr
    simp only [bracedReadonlyOf]
    refine bracedBracketedOf_found hr (.trans ?_ hwhole) (hin.child (by simp))
    exact ⟨[], [], by simp [tokensOf, Tree.tokens]⟩
  · obtain ⟨m, _, rfl, hm, e, _, rfl, he, k, _, rfl, -, rfl⟩ := hus
    obtain ⟨ms, rfl⟩ := exists_node_of_hasShape hm
    obtain ⟨es, rfl⟩ := exists_node_of_hasShape he
    simp only [bracedReadonlyOf]
    refine yields_object ?_ (hin.furtherMembers (by simp) he hrest)
    refine (readonlyRestOf_found word hm (hin.child (by simp))).member_mono (.trans ?_ hwhole)
    exact ⟨[], tokensOf [.node .memberEnd es, .leaf k], by simp [tokensOf, Tree.tokens]⟩
  · obtain ⟨e, _, rfl, he, k, _, rfl, -, rfl⟩ := hus
    obtain ⟨es, rfl⟩ := exists_node_of_hasShape he
    simp only [bracedReadonlyOf]
    refine (hin.furtherMembers (by simp) he hrest).bind fun more hmore => ?_
    exact foundType_object (List.forall_mem_cons.2 ⟨found_readonlyKey hword, hmore⟩)
  · obtain ⟨k, _, rfl, -, rfl⟩ := hus
    simp only [bracedReadonlyOf]
    exact foundType_object (List.forall_mem_singleton.2 (found_readonlyKey hword))

theorem bracedOf_found {whole : List Tree} {t : Tree} (h : HasShape .braced t)
    (hwhole : tokensOf [t] <:+: tokensOf whole) (hin : BuildsBelow ks t) :
    Yields ks (FoundType ks (tokensOf whole)) (bracedOf whole t) := by
  obtain ⟨us, ht, -, b, hb, hus⟩ := h.exists_branch rfl
  rw [ht] at hwhole hin ⊢
  simp only [branches, List.mem_cons, List.not_mem_nil, or_false] at hb
  obtain rfl | rfl | rfl | rfl | rfl | rfl := hb
  all_goals
    simp only [Branch.symbols, furtherMembers, fits_tok_iff, fits_sub_iff, fits_nil_iff] at hus
  · obtain ⟨k, _, rfl, hk, rfl⟩ := hus
    simp only [bracedOf]
    exact foundType_object (List.forall_mem_nil _)
  -- A sign starts a mapped type.
  iterate 2
    · obtain ⟨k, _, rfl, -, _, _, rfl, -, _, _, rfl, -, _, _, rfl, -, _, _, rfl, -, m, _, rfl, -,
        rfl⟩ := hus
      simp only [bracedOf]
      exact yields_unsupported List.infix_rfl _
  · obtain ⟨k, _, rfl, hk, r, _, rfl, hr, rfl⟩ := hus
    obtain ⟨rs, rfl⟩ := exists_node_of_hasShape hr
    simp only [bracedOf, hk, reduceCtorEq, if_false]
    refine bracedReadonlyOf_found hr (.trans ?_ hwhole) (hin.child (by simp))
    exact ⟨[], [], by simp [tokensOf, Tree.tokens]⟩
  · obtain ⟨k, _, rfl, hk, r, _, rfl, hr, rfl⟩ := hus
    obtain ⟨rs, rfl⟩ := exists_node_of_hasShape hr
    simp only [bracedOf, hk, if_true]
    refine bracedBracketedOf_found hr (.trans ?_ hwhole) (hin.child (by simp))
    exact ⟨[], [], by simp [tokensOf, Tree.tokens]⟩
  · obtain ⟨m, _, rfl, hm, e, _, rfl, he, k, _, rfl, -, rfl⟩ := hus
    obtain ⟨ms, rfl⟩ := exists_node_of_hasShape hm
    obtain ⟨es, rfl⟩ := exists_node_of_hasShape he
    simp only [bracedOf]
    refine yields_object ?_ (hin.furtherMembers (by simp) he hwhole)
    exact (memberOf_found hm (hin.child (by simp))).member_mono
      ((child_isInfix (by simp)).trans hwhole)

theorem moreTypesOf_found {t : Tree} (h : HasShape .moreTypes t) (hin : BuildsBelow ks t) :
    Yields ks (fun As => ∀ A ∈ As, Found ks (tokensOf [t]) (.type A)) (moreTypesOf t) := by
  obtain ⟨-, ht⟩ | ⟨us, ht, -, b, hb, hus⟩ := h.exists_cases
  · rw [ht]
    simp only [moreTypesOf]
    exact List.forall_mem_nil _
  rw [ht] at hin ⊢
  simp only [branches, List.mem_cons, List.not_mem_nil, or_false] at hb
  obtain rfl := hb
  simp only [Branch.symbols, fits_tok_iff, fits_sub_iff, fits_nil_iff] at hus
  obtain ⟨k, _, rfl, hk, f, _, rfl, hf, m, _, rfl, hm, rfl⟩ := hus
  simp only [moreTypesOf]
  refine (hin.type (by simp) hf).bind fun T hT => ?_
  refine (moreTypesOf_found hm (hin.child (by simp))).bind fun As hAs => ?_
  exact List.forall_mem_cons.2 ⟨hT.mono (child_isInfix (by simp)),
    fun A hA => (hAs A hA).mono (child_isInfix (by simp))⟩
termination_by sizeOf t
decreasing_by all_goals (subst ht; exact BuildsBelow.sizeOf_child (by simp))

/-- A first type and those behind it are found among any tokens that hold theirs. -/
theorem BuildsBelow.typesFrom {n : Nonterminal} {us : List Tree} {f m : Tree}
    (hin : BuildsBelow ks (.node n us)) (hf : f ∈ us) (hm : m ∈ us)
    (hfirst : HasShape (.type true) f) (hmore : HasShape .moreTypes m)
    (hfls : tokensOf [f] <:+: ls) (hmls : tokensOf [m] <:+: ls) :
    Yields ks (fun As => ∀ A ∈ As, Found ks ls (.type A))
      (do return (← typeOf f) :: (← moreTypesOf m)) := by
  refine (hin.type hf hfirst).bind fun T hT => ?_
  refine (moreTypesOf_found hmore (hin.child hm)).bind fun As hAs => ?_
  exact List.forall_mem_cons.2 ⟨hT.mono hfls, fun A hA => (hAs A hA).mono hmls⟩

theorem typeArgumentsOf_found {t : Tree} (h : HasShape .typeArguments t)
    (hin : BuildsBelow ks t) :
    Yields ks (fun As => ∀ A ∈ As, Found ks (tokensOf [t]) (.type A)) (typeArgumentsOf t) := by
  obtain ⟨-, ht⟩ | ⟨us, ht, -, b, hb, hus⟩ := h.exists_cases
  · rw [ht]
    simp only [typeArgumentsOf]
    exact List.forall_mem_nil _
  rw [ht] at hin ⊢
  simp only [branches, List.mem_cons, List.not_mem_nil, or_false] at hb
  obtain rfl := hb
  simp only [Branch.symbols, fits_tok_iff, fits_sub_iff, fits_nil_iff] at hus
  obtain ⟨k, _, rfl, hk, f, _, rfl, hf, m, _, rfl, hm, k', _, rfl, -, rfl⟩ := hus
  simp only [typeArgumentsOf]
  exact hin.typesFrom (by simp) (by simp) hf hm (child_isInfix (by simp)) (child_isInfix (by simp))

theorem primaryOf_found {t : Tree} (h : HasShape .primary t) (hin : BuildsBelow ks t) :
    Yields ks (FoundType ks (tokensOf [t])) (primaryOf t) := by
  obtain ⟨us, ht, -, b, hb, hus⟩ := h.exists_branch rfl
  rw [ht] at hin ⊢
  simp only [branches, List.mem_cons, List.not_mem_nil, or_false] at hb
  obtain rfl | rfl | rfl | rfl | rfl | rfl | rfl | rfl | rfl | rfl := hb
  all_goals simp only [Branch.symbols, fits_tok_iff, fits_sub_iff, fits_nil_iff] at hus
  · obtain ⟨k, _, rfl, hk, i, _, rfl, hi, k', _, rfl, -, rfl⟩ := hus
    obtain ⟨is, rfl⟩ := exists_node_of_hasShape hi
    simp only [primaryOf, hk]
    refine (hin.type (by simp) hi).bind fun T hT => ?_
    exact foundType_parenthesized List.infix_rfl (hT.mono (child_isInfix (by simp)))
  · obtain ⟨k, _, rfl, hk, rfl⟩ := hus
    simp only [primaryOf, hk]
    exact yields_stringLiteral List.infix_rfl hk (hin.leaf_mem (by simp))
  · obtain ⟨k, _, rfl, hk, rfl⟩ := hus
    simp only [primaryOf, hk]
    exact foundType_numberLiteral List.infix_rfl k
  · obtain ⟨k, _, rfl, hk, rfl⟩ := hus
    simp only [primaryOf, hk]
    exact yields_unsupported List.infix_rfl _
  · obtain ⟨k, _, rfl, hk, k', _, rfl, -, rfl⟩ := hus
    simp only [primaryOf]
    exact foundType_numberLiteral List.infix_rfl k'
  · obtain ⟨k, _, rfl, hk, d, _, rfl, hd, a, _, rfl, ha, rfl⟩ := hus
    obtain ⟨ds, rfl⟩ := exists_node_of_hasShape hd
    obtain ⟨as, rfl⟩ := exists_node_of_hasShape ha
    simp only [primaryOf, hk]
    refine (typeArgumentsOf_found ha (hin.child (by simp))).bind fun As hAs => ?_
    have hnames : ∀ name ∈ lexemeOf k :: dottedNames (.node .dotted ds), IsRaw name :=
      List.forall_mem_cons.2 ⟨isRaw_lexemeOf k, isRaw_dottedNames _⟩
    exact foundType_referenceType List.infix_rfl (by simp) hnames fun A hA =>
      (hAs A hA).mono (child_isInfix (by simp))
  · obtain ⟨k, _, rfl, hk, c, _, rfl, hc, rfl⟩ := hus
    obtain ⟨cs, rfl⟩ := exists_node_of_hasShape hc
    simp only [primaryOf, hk]
    exact bracedOf_found hc (child_isInfix (by simp)) (hin.child (by simp))
  · obtain ⟨k, _, rfl, hk, e, _, rfl, he, k', _, rfl, -, rfl⟩ := hus
    obtain ⟨es, rfl⟩ := exists_node_of_hasShape he
    simp only [primaryOf, hk]
    exact yields_unsupported List.infix_rfl _
  · obtain ⟨k, _, rfl, hk, q, _, rfl, hq, rfl⟩ := hus
    obtain ⟨qs, rfl⟩ := exists_node_of_hasShape hq
    simp only [primaryOf, hk]
    exact yields_unsupported List.infix_rfl _
  · obtain ⟨k, _, rfl, hk, q, _, rfl, hq, rfl⟩ := hus
    obtain ⟨qs, rfl⟩ := exists_node_of_hasShape hq
    simp only [primaryOf, hk]
    exact yields_unsupported List.infix_rfl _

theorem suffixesOf_found {trees : List Tree} {operand : Decoded TypeExpr} {t : Tree}
    (h : HasShape .suffixes t) (hoperand : Yields ks (FoundType ks (tokensOf trees)) operand)
    (hin : BuildsBelow ks t) :
    Yields ks (FoundType ks (tokensOf trees ++ tokensOf [t])) (suffixesOf trees operand t) := by
  obtain ⟨-, ht⟩ | ⟨us, ht, -, b, hb, hus⟩ := h.exists_cases
  · rw [ht]
    simp only [suffixesOf]
    exact hoperand.imp fun T hT => hT.mono (List.prefix_append ..).isInfix
  rw [ht] at hin ⊢
  simp only [branches, List.mem_cons, List.not_mem_nil, or_false] at hb
  obtain rfl := hb
  simp only [Branch.symbols, fits_tok_iff, fits_sub_iff, fits_nil_iff] at hus
  obtain ⟨k, _, rfl, hk, a, _, rfl, -, s, _, rfl, hs, rfl⟩ := hus
  simp only [suffixesOf]
  have hoperand' := yields_suffixedType (trees ++ [.leaf k, a]) a
    (tokensOf_isInfix (List.prefix_append ..).isInfix) hoperand
  have hfound := suffixesOf_found hs hoperand' (hin.child (by simp))
  exact hfound.imp fun T hT => hT.mono ⟨[], [], by simp [tokensOf_append, tokensOf, Tree.tokens]⟩
termination_by sizeOf t
decreasing_by all_goals (subst ht; exact BuildsBelow.sizeOf_child (by simp))

theorem operatorOf_found {t : Tree} (h : HasShape .operator t) (hin : BuildsBelow ks t) :
    Yields ks (FoundType ks (tokensOf [t])) (operatorOf t) := by
  obtain ⟨us, ht, -, b, hb, hus⟩ := h.exists_branch rfl
  rw [ht] at hin ⊢
  simp only [branches, List.mem_cons, List.not_mem_nil, or_false] at hb
  obtain rfl | rfl | rfl | rfl | rfl := hb
  all_goals simp only [Branch.symbols, fits_tok_iff, fits_sub_iff, fits_nil_iff] at hus
  -- The words in front of an operand make a form that has no schema.
  iterate 3
    · obtain ⟨k, _, rfl, hk, o, _, rfl, -, rfl⟩ := hus
      simp only [operatorOf]
      exact yields_unsupported List.infix_rfl _
  · obtain ⟨k, _, rfl, hk, k', _, rfl, -, rfl⟩ := hus
    simp only [operatorOf]
    exact yields_unsupported List.infix_rfl _
  · obtain ⟨p, _, rfl, hp, s, _, rfl, hs, rfl⟩ := hus
    obtain ⟨ps, rfl⟩ := exists_node_of_hasShape hp
    simp only [operatorOf]
    have hfound := suffixesOf_found hs (primaryOf_found hp (hin.child (by simp)))
      (hin.child (by simp))
    exact hfound.imp fun T hT => hT.mono ⟨[], [], by simp [tokensOf, Tree.tokens]⟩

theorem intersectionOf_found {t : Tree} (h : HasShape .intersection t) (hin : BuildsBelow ks t) :
    Yields ks (FoundType ks (tokensOf [t])) (intersectionOf t) := by
  obtain ⟨us, ht, -, b, hb, hus⟩ := h.exists_branch rfl
  rw [ht] at hin ⊢
  simp only [branches, List.mem_cons, List.not_mem_nil, or_false] at hb
  obtain rfl | rfl := hb
  all_goals simp only [Branch.symbols, fits_tok_iff, fits_sub_iff, fits_nil_iff] at hus
  · obtain ⟨k, _, rfl, -, o, _, rfl, ho, m, _, rfl, hm, rfl⟩ := hus
    obtain ⟨ms, rfl⟩ := exists_node_of_hasShape hm
    cases ms with
    | nil =>
      simp only [intersectionOf]
      exact (operatorOf_found ho (hin.child (by simp))).imp fun T hT =>
        hT.mono (child_isInfix (by simp))
    | cons m ms =>
      simp only [intersectionOf]
      exact yields_unsupported List.infix_rfl _
  · obtain ⟨o, _, rfl, ho, m, _, rfl, hm, rfl⟩ := hus
    obtain ⟨os, rfl⟩ := exists_node_of_hasShape ho
    obtain ⟨ms, rfl⟩ := exists_node_of_hasShape hm
    cases ms with
    | nil =>
      simp only [intersectionOf]
      exact (operatorOf_found ho (hin.child (by simp))).imp fun T hT =>
        hT.mono (child_isInfix (by simp))
    | cons m ms =>
      simp only [intersectionOf]
      exact yields_unsupported List.infix_rfl _

theorem chainOf_found {c : Chain} {n : Nonterminal} {t : Tree}
    (hn : n = .typeRest true ∨ n = .suffixedRest true) (h : HasShape n t)
    (hc : ChainFound ks c (tokensOf [t])) (hin : BuildsBelow ks t) :
    Yields ks (FoundType ks (tokensOf c.whole)) (chainOf c t) := by
  obtain ⟨-, ht⟩ | ⟨us, ht, -, b, hb, hus⟩ := h.exists_cases
  · rw [ht] at hc ⊢
    simp only [chainOf]
    exact hc.finish
  rw [ht] at hc hin ⊢
  rw [tokensOf_node] at hc
  obtain rfl | rfl := hn
  · simp only [branches, if_true, List.cons_append, List.nil_append, List.mem_cons,
      List.not_mem_nil, or_false] at hb
    obtain rfl | rfl | rfl := hb
    all_goals simp only [Branch.symbols, fits_tok_iff, fits_sub_iff, fits_nil_iff] at hus
    · obtain ⟨k, _, rfl, hk, o, _, rfl, ho, r, _, rfl, hr, rfl⟩ := hus
      simp only [chainOf, hk]
      have hc' : ChainFound ks (c.intersected [.leaf k, o]) (tokensOf [r]) :=
        .intersected (by simpa [tokensOf] using hc)
      exact chainOf_found (.inl rfl) hr hc' (hin.child (by simp))
    · obtain ⟨k, _, rfl, hk, i, _, rfl, hi, r, _, rfl, hr, rfl⟩ := hus
      simp only [chainOf, hk]
      have hc' : ChainFound ks (c.united i (intersectionOf i)) (tokensOf [r]) :=
        .united (k := k) (by simpa [tokensOf, Tree.tokens] using hc)
          (tokensOf_singleton i ▸ intersectionOf_found hi (hin.child (by simp)))
      exact chainOf_found (.inl rfl) hr hc' (hin.child (by simp))
    · obtain ⟨k, _, rfl, -, -, _, rfl, -, -, _, rfl, -, -, _, rfl, -, -, _, rfl, -, -, _, rfl, -,
        rfl⟩ := hus
      simp only [chainOf]
      exact yields_unsupported List.infix_rfl _
  · simp only [branches, List.mem_cons, List.not_mem_nil, or_false] at hb
    obtain rfl | rfl := hb
    all_goals simp only [Branch.symbols, fits_tok_iff, fits_sub_iff, fits_nil_iff] at hus
    · obtain ⟨k, _, rfl, hk, a, _, rfl, -, r, _, rfl, hr, rfl⟩ := hus
      simp only [chainOf, hk]
      have hc' : ChainFound ks (c.suffixed (c.trees ++ [.leaf k, a])
          (suffixedType (c.trees ++ [.leaf k, a]) c.operand a)) (tokensOf [r]) :=
        .suffixed (by simpa [tokensOf] using hc)
          (yields_suffixedType _ _ (tokensOf_isInfix (List.prefix_append ..).isInfix) hc.operand)
      exact chainOf_found (.inr rfl) hr hc' (hin.child (by simp))
    · obtain ⟨r, _, rfl, hr, rfl⟩ := hus
      obtain ⟨rs, rfl⟩ := exists_node_of_hasShape hr
      simp only [chainOf]
      exact chainOf_found (.inl rfl) hr hc (hin.child (by simp))
termination_by sizeOf t
decreasing_by all_goals (subst ht; exact BuildsBelow.sizeOf_child (by simp))

/-- A dotted name and what may follow it, of which `names` have been read from `trees`. -/
theorem namedOf_found (whole trees : List Tree) {names : List Text} {t : Tree}
    (h : HasShape (.namedRest true) t) (hne : names ≠ []) (hnames : ∀ name ∈ names, IsRaw name)
    (htrees : tokensOf trees ++ tokensOf [t] <:+ tokensOf whole) (hin : BuildsBelow ks t) :
    Yields ks (FoundType ks (tokensOf whole)) (namedOf whole trees names t) := by
  have hfront : tokensOf trees <:+: tokensOf whole :=
    (List.prefix_append ..).isInfix.trans htrees.isInfix
  obtain ⟨-, ht⟩ | ⟨us, ht, -, b, hb, hus⟩ := h.exists_cases
  · rw [ht]
    simp only [namedOf]
    exact foundType_referenceType hfront hne hnames (List.forall_mem_nil _)
  rw [ht] at htrees hin ⊢
  rw [tokensOf_node] at htrees
  simp only [branches, List.mem_cons, List.not_mem_nil, or_false] at hb
  obtain rfl | rfl | rfl := hb
  all_goals simp only [Branch.symbols, fits_tok_iff, fits_sub_iff, fits_nil_iff] at hus
  · obtain ⟨k, _, rfl, -, name, _, rfl, -, r, _, rfl, hr, rfl⟩ := hus
    obtain ⟨rs, rfl⟩ := exists_node_of_hasShape hr
    simp only [namedOf]
    have hnames' : ∀ name' ∈ names ++ [lexemeOf name], IsRaw name' :=
      List.forall_mem_append.2 ⟨hnames, List.forall_mem_singleton.2 (isRaw_lexemeOf name)⟩
    refine namedOf_found _ _ hr (by simp) hnames' ?_ (hin.child (by simp))
    simpa [tokensOf, tokensOf_append] using htrees
  · obtain ⟨k, _, rfl, -, f, _, rfl, hf, m, _, rfl, hm, k', _, rfl, -, r, _, rfl, hr, rfl⟩ := hus
    obtain ⟨fs, rfl⟩ := exists_node_of_hasShape hf
    obtain ⟨ms, rfl⟩ := exists_node_of_hasShape hm
    obtain ⟨rs, rfl⟩ := exists_node_of_hasShape hr
    simp only [namedOf]
    refine chainOf_found (.inr rfl) hr (.start ?_ ?_) (hin.child (by simp))
    · simpa [tokensOf, tokensOf_append] using htrees
    · refine (hin.typesFrom (by simp) (by simp) hf hm ?_ ?_).map fun As hAs =>
        foundType_referenceType List.infix_rfl hne hnames hAs
      · exact tokensOf_isInfix ⟨trees ++ [.leaf k], [.node .moreTypes ms, .leaf k'], by simp⟩
      · exact tokensOf_isInfix ⟨trees ++ [.leaf k, .node (.type true) fs], [.leaf k'], by simp⟩
  · obtain ⟨r, _, rfl, hr, rfl⟩ := hus
    obtain ⟨rs, rfl⟩ := exists_node_of_hasShape hr
    simp only [namedOf]
    refine chainOf_found (.inr rfl) hr (.start htrees ?_) (hin.child (by simp))
    exact foundType_referenceType List.infix_rfl hne hnames (List.forall_mem_nil _)
termination_by sizeOf t
decreasing_by all_goals (subst ht; exact BuildsBelow.sizeOf_child (by simp))

/-- What follows a type in parentheses, which are `trees`, at the start of a type. -/
theorem afterParenthesisOf_found {whole trees : List Tree} {inner : Decoded TypeExpr} {t : Tree}
    (h : HasShape (.parenthesisEnd true) t)
    (hinner : Yields ks (fun T => Found ks (tokensOf trees) (.type T)) inner)
    (htrees : tokensOf trees ++ tokensOf [t] <:+ tokensOf whole) (hin : BuildsBelow ks t) :
    Yields ks (FoundType ks (tokensOf whole)) (afterParenthesisOf whole trees inner t) := by
  have hfront : tokensOf trees <:+: tokensOf whole :=
    (List.prefix_append ..).isInfix.trans htrees.isInfix
  obtain ⟨-, ht⟩ | ⟨us, ht, -, b, hb, hus⟩ := h.exists_cases
  · rw [ht]
    simp only [afterParenthesisOf]
    exact hinner.bind fun T hT => foundType_parenthesized hfront hT
  rw [ht] at htrees hin ⊢
  rw [tokensOf_node] at htrees
  simp only [branches, List.mem_cons, List.not_mem_nil, or_false] at hb
  obtain rfl | rfl := hb
  all_goals simp only [Branch.symbols, fits_tok_iff, fits_sub_iff, fits_nil_iff] at hus
  · obtain ⟨k, _, rfl, -, r, _, rfl, hr, rfl⟩ := hus
    obtain ⟨rs, rfl⟩ := exists_node_of_hasShape hr
    simp only [afterParenthesisOf]
    exact yields_unsupported List.infix_rfl _
  · obtain ⟨r, _, rfl, hr, rfl⟩ := hus
    obtain ⟨rs, rfl⟩ := exists_node_of_hasShape hr
    simp only [afterParenthesisOf]
    refine chainOf_found (.inr rfl) hr (.start htrees ?_) (hin.child (by simp))
    exact hinner.bind fun T hT => foundType_parenthesized List.infix_rfl hT

/-- A name after the parenthesis `opening` at the start of a type is a type in parentheses, starts
one, or is the first parameter of a function. -/
theorem parenthesisNameOf_found {whole : List Tree} {opening name : Token} {t : Tree}
    (h : HasShape (.parenthesisName true) t)
    (hread : ReadAs (.parenthesis true) (.node (.parenthesis true) [.leaf name, t]))
    (hwhole : tokensOf whole = opening :: tokensOf [.node (.parenthesis true) [.leaf name, t]])
    (hin : BuildsBelow ks (.node (.parenthesis true) [.leaf name, t])) :
    Yields ks (FoundType ks (tokensOf whole))
      (parenthesisOf whole opening (.node (.parenthesis true) [.leaf name, t])) := by
  have hname : ∀ name' ∈ [lexemeOf name], IsRaw name' :=
    List.forall_mem_singleton.2 (isRaw_lexemeOf name)
  have hin' : BuildsBelow ks t := hin.child (by simp)
  obtain ⟨us, ht, -, b, hb, hus⟩ := h.exists_branch rfl
  rw [ht] at hread hwhole hin hin' ⊢
  simp only [branches, List.mem_cons, List.not_mem_nil, or_false] at hb
  obtain rfl | rfl | rfl | rfl | rfl := hb
  all_goals simp only [Branch.symbols, fits_tok_iff, fits_sub_iff, fits_nil_iff] at hus
  -- A mark, a type or a parameter behind the name makes it the first parameter of a function.
  iterate 3
    · obtain ⟨k, _, rfl, -, m, _, rfl, hm, f, _, rfl, hf, rfl⟩ := hus
      obtain ⟨ms, rfl⟩ := exists_node_of_hasShape hm
      obtain ⟨fs, rfl⟩ := exists_node_of_hasShape hf
      simp only [parenthesisOf]
      exact yields_unsupported List.infix_rfl _
  · obtain ⟨k, _, rfl, -, e, _, rfl, he, rfl⟩ := hus
    obtain ⟨es, rfl⟩ := exists_node_of_hasShape he
    simp only [parenthesisOf]
    refine afterParenthesisOf_found he ?_ ⟨[], by simp [hwhole, tokensOf, Tree.tokens]⟩
      (hin'.child (by simp))
    have hfound : FoundType ks (tokensOf [.leaf name])
        (referenceType (textOf [.leaf name]) [lexemeOf name] []) :=
      foundType_referenceType List.infix_rfl (by simp) hname (List.forall_mem_nil _)
    rw [textOf_leaf] at hfound
    have hks : [name] <:+: ks := (hin.child (List.mem_cons_self ..)).tokens
    exact (hfound.found (.name hread hks)).mono
      (tokensOf_isInfix ⟨[.leaf opening], [.leaf k], rfl⟩)
  · obtain ⟨m, _, rfl, hm, k, _, rfl, -, e, _, rfl, he, rfl⟩ := hus
    obtain ⟨ms, rfl⟩ := exists_node_of_hasShape hm
    obtain ⟨es, rfl⟩ := exists_node_of_hasShape he
    simp only [parenthesisOf]
    refine afterParenthesisOf_found he ?_ ⟨[], by simp [hwhole, tokensOf, Tree.tokens]⟩
      (hin'.child (by simp))
    have hfound := namedOf_found [.leaf name, .node (.namedRest true) ms] [.leaf name] hm
      (by simp) hname ⟨[], by simp [tokensOf]⟩ (hin'.child (by simp))
    have hnamed : tokensOf [.leaf name, .node (.namedRest true) ms] <:+: ks :=
      List.IsInfix.trans ⟨[], tokensOf [.leaf k, .node (.parenthesisEnd true) es],
        by simp [tokensOf, Tree.tokens]⟩ hin.tokens
    exact (hfound.found fun T => .named hread hnamed).imp fun T hT =>
      hT.mono (tokensOf_isInfix ⟨[.leaf opening], [.leaf k], rfl⟩)

/-- The type after the parenthesis `opening` at the start of a type. -/
theorem parenthesisOf_found {whole : List Tree} {opening : Token} {t : Tree}
    (h : HasShape (.parenthesis true) t)
    (hwhole : tokensOf whole = opening :: tokensOf [t]) (hin : BuildsBelow ks t) :
    Yields ks (FoundType ks (tokensOf whole)) (parenthesisOf whole opening t) := by
  obtain ⟨us, ht, hread, b, hb, hus⟩ := h.exists_branch rfl
  rw [ht] at hread hwhole hin ⊢
  simp only [branches, List.mem_cons, List.not_mem_nil, or_false] at hb
  obtain rfl | rfl | rfl | rfl := hb
  all_goals simp only [Branch.symbols, fits_tok_iff, fits_sub_iff, fits_nil_iff] at hus
  · obtain ⟨k, _, rfl, -, k', _, rfl, -, r, _, rfl, hr, rfl⟩ := hus
    obtain ⟨rs, rfl⟩ := exists_node_of_hasShape hr
    simp only [parenthesisOf]
    exact yields_unsupported List.infix_rfl _
  · obtain ⟨k, _, rfl, -, m, _, rfl, hm, p, _, rfl, hp, f, _, rfl, hf, rfl⟩ := hus
    obtain ⟨ms, rfl⟩ := exists_node_of_hasShape hm
    obtain ⟨ps, rfl⟩ := exists_node_of_hasShape hp
    obtain ⟨fs, rfl⟩ := exists_node_of_hasShape hf
    simp only [parenthesisOf.eq_def]
    exact yields_unsupported List.infix_rfl _
  · obtain ⟨name, _, rfl, -, p, _, rfl, hp, rfl⟩ := hus
    exact parenthesisNameOf_found hp hread hwhole hin
  · obtain ⟨i, _, rfl, hi, k, _, rfl, -, e, _, rfl, he, rfl⟩ := hus
    obtain ⟨is, rfl⟩ := exists_node_of_hasShape hi
    obtain ⟨es, rfl⟩ := exists_node_of_hasShape he
    simp only [parenthesisOf]
    refine afterParenthesisOf_found he ?_ ⟨[], by simp [hwhole, tokensOf, Tree.tokens]⟩
      (hin.child (by simp))
    exact (hin.type (by simp) hi).imp fun T hT =>
      hT.mono (tokensOf_isInfix ⟨[.leaf opening], [.leaf k], rfl⟩)

theorem typeOf_found_of_below {t : Tree} (h : HasShape (.type true) t) (hin : BuildsBelow ks t) :
    Yields ks (FoundType ks (tokensOf [t])) (typeOf t) := by
  obtain ⟨us, ht, -, b, hb, hus⟩ := h.exists_branch rfl
  rw [ht] at hin ⊢
  simp only [branches, List.mem_cons, List.not_mem_nil, or_false] at hb
  obtain rfl | rfl | rfl | rfl | rfl | rfl | rfl := hb
  all_goals simp only [Branch.symbols, fits_tok_iff, fits_sub_iff, fits_nil_iff] at hus
  · obtain ⟨k, _, rfl, hk, r, _, rfl, hr, rfl⟩ := hus
    simp only [typeOf, hk, if_true]
    exact parenthesisOf_found hr (by simp [tokensOf, Tree.tokens]) (hin.child (by simp))
  · obtain ⟨k, _, rfl, hk, -, _, rfl, -, -, _, rfl, -, -, _, rfl, -, -, _, rfl, -, -, _, rfl, -, -, _,
      rfl, -, rfl⟩ := hus
    simp only [typeOf]
    exact yields_unsupported List.infix_rfl _
  · obtain ⟨k, _, rfl, hk, k', _, rfl, -, r, _, rfl, -, rfl⟩ := hus
    simp only [typeOf, hk]
    exact yields_unsupported List.infix_rfl _
  · obtain ⟨k, _, rfl, hk, r, _, rfl, -, rfl⟩ := hus
    simp only [typeOf, hk, reduceCtorEq, if_false]
    exact yields_unsupported List.infix_rfl _
  · obtain ⟨k, _, rfl, hk, i, _, rfl, hi, r, _, rfl, hr, rfl⟩ := hus
    simp only [typeOf, hk]
    refine chainOf_found (.inl rfl) hr (.start ⟨[k], by simp [tokensOf, Tree.tokens]⟩ ?_)
      (hin.child (by simp))
    exact intersectionOf_found hi (hin.child (by simp))
  · obtain ⟨k, _, rfl, hk, o, _, rfl, ho, r, _, rfl, hr, rfl⟩ := hus
    simp only [typeOf, hk]
    refine chainOf_found (.inl rfl) hr (.start ⟨[], by simp [tokensOf, Tree.tokens]⟩ ?_)
      (hin.child (by simp))
    exact (operatorOf_found ho (hin.child (by simp))).imp fun T hT =>
      hT.mono (tokensOf_isInfix ⟨[.leaf k], [], rfl⟩)
  · obtain ⟨o, _, rfl, ho, r, _, rfl, hr, rfl⟩ := hus
    obtain ⟨os, rfl⟩ := exists_node_of_hasShape ho
    simp only [typeOf]
    refine chainOf_found (.inl rfl) hr (.start ⟨[], by simp [tokensOf, Tree.tokens]⟩ ?_)
      (hin.child (by simp))
    exact operatorOf_found ho (hin.child (by simp))

theorem returnTypeOf_found_of_below {t : Tree} (h : HasShape .returnType t)
    (hin : BuildsBelow ks t) :
    Yields ks (FoundType ks (tokensOf [t])) (returnTypeOf t) := by
  obtain ⟨us, ht, -, b, hb, hus⟩ := h.exists_branch rfl
  rw [ht] at hin ⊢
  simp only [branches, List.mem_cons, List.not_mem_nil, or_false] at hb
  obtain rfl | rfl | rfl := hb
  all_goals simp only [Branch.symbols, fits_tok_iff, fits_sub_iff, fits_nil_iff] at hus
  · obtain ⟨k, _, rfl, -, k', _, rfl, -, a, _, rfl, ha, rfl⟩ := hus
    obtain ⟨as, rfl⟩ := exists_node_of_hasShape ha
    simp only [returnTypeOf]
    exact yields_unsupported List.infix_rfl _
  · obtain ⟨name, _, rfl, -, r, _, rfl, hr, rfl⟩ := hus
    obtain ⟨-, rfl⟩ | ⟨rs, rfl, -, b, hb, hrs⟩ := hr.exists_cases
    · simp only [returnTypeOf]
      exact foundType_referenceType List.infix_rfl (by simp)
        (List.forall_mem_singleton.2 (isRaw_lexemeOf name)) (List.forall_mem_nil _)
    simp only [branches, List.mem_cons, List.not_mem_nil, or_false] at hb
    obtain rfl | rfl := hb
    all_goals simp only [Branch.symbols, fits_tok_iff, fits_sub_iff, fits_nil_iff] at hrs
    · obtain ⟨k, _, rfl, -, type, _, rfl, htype, rfl⟩ := hrs
      obtain ⟨types, rfl⟩ := exists_node_of_hasShape htype
      simp only [returnTypeOf]
      exact yields_unsupported List.infix_rfl _
    · obtain ⟨m, _, rfl, hm, rfl⟩ := hrs
      obtain ⟨ms, rfl⟩ := exists_node_of_hasShape hm
      simp only [returnTypeOf]
      have hin' := hin.child (List.mem_cons_of_mem _ (List.mem_cons_self ..))
      exact namedOf_found _ _ hm (by simp) (List.forall_mem_singleton.2 (isRaw_lexemeOf name))
        ⟨[], by simp [tokensOf, Tree.tokens]⟩ (hin'.child (by simp))
  · obtain ⟨type, _, rfl, htype, rfl⟩ := hus
    obtain ⟨types, rfl⟩ := exists_node_of_hasShape htype
    simp only [returnTypeOf]
    exact (hin.types _ (BuildsBelow.sizeOf_child (by simp)) htype
      (hin.child (by simp)).tokens).imp fun T hT => hT.mono (child_isInfix (by simp))

theorem buildsBelow (t : Tree) (hks : tokensOf [t] <:+: ks) : BuildsBelow ks t :=
  ⟨hks, fun u _ h hu => typeOf_found_of_below h (buildsBelow u hu),
    fun u _ h hu => returnTypeOf_found_of_below h (buildsBelow u hu)⟩
termination_by sizeOf t

end DeclSchema.Declaration
