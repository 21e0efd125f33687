import DeclSchema.Declaration.OfTree
import DeclSchema.Proofs.Declaration.Texts
import DeclSchema.Proofs.Grammar.Layout

/-!
# Types of trees with other blanks

The builders look at the terminals and the lexemes of tokens, and put what stands between them into
texts only; so trees that are the same but for that are built into types that are the same but for
their texts.

There is one lemma for each builder, and in it one case for each branch of the builder.

## Main definitions

* `AgreesBelow`: the types of smaller trees agree
* `AgreeChain`: chains whose operands agree

## Main results

* `typeOf_bare`, `returnTypeOf_bare`: the builders of types, where those of smaller trees agree
* `agreesBelow`: so they agree for all trees
-/

namespace DeclSchema.Declaration

open Grammar Grammar.Tree Escape

/-! ### Leaves -/

section Leaves

variable {text text' : Text} {k : Token}

/-- Two types, or what there is in their place, agree where their texts are left out. -/
abbrev AgreeType : Decoded TypeExpr → Decoded TypeExpr → Prop :=
  Agree TypeExpr.withoutTexts

abbrev AgreeMember : Decoded Member → Decoded Member → Prop :=
  Agree Member.withoutTexts

theorem agree_unsupported (trees trees' : List Tree) (kind : String) :
    AgreeType (unsupported trees kind) (unsupported trees' kind) :=
  .ok rfl

theorem agree_stringLiteral (text text' : Text) (k : Token) :
    AgreeType (stringLiteral text k.bare) (stringLiteral text' k) :=
  (Agree.refl (f := id) (unquote k.lexeme)).bind fun a b hab => by
    obtain rfl : a = b := hab
    exact .ok rfl

theorem numberLiteral_bare (text text' : Text) (k : Token) :
    (numberLiteral text k.bare).withoutTexts = (numberLiteral text' k).withoutTexts := by
  have hkind : ∀ kind ∈ ["number", "bigint"],
      (TypeExpr.literal text (.ofString kind) (.text text)).withoutTexts
        = (TypeExpr.literal text' (.ofString kind) (.text text')).withoutTexts := by
    simp only [List.forall_mem_cons, TypeExpr.withoutTexts, true_or, or_true, if_true,
      List.not_mem_nil, false_implies, implies_true, and_self]
  refine hkind _ ?_
  split
  · exact List.mem_cons_of_mem _ List.mem_cons_self
  · exact List.mem_cons_self

theorem withoutTexts_namedType (text text' name : Text) :
    (namedType text name).withoutTexts = (namedType text' name).withoutTexts := by
  simp only [namedType]
  split
  · rfl
  split
  · rfl
  split
  · rfl
  split
  · rfl
  · rfl

theorem withoutTexts_referenceType (text text' : Text) (names : List Text)
    {arguments arguments' : List TypeExpr}
    (h : arguments.map TypeExpr.withoutTexts = arguments'.map TypeExpr.withoutTexts) :
    (referenceType text names arguments).withoutTexts
      = (referenceType text' names arguments').withoutTexts := by
  unfold referenceType
  match names.reverse with
  | [] => rfl
  | last :: before :: front => rfl
  | [name] =>
    match arguments, arguments', h with
    | [], [], _ => exact withoutTexts_namedType text text' name
    | a :: as, b :: bs, h =>
      simp only [TypeExpr.withoutTexts, TypeExpr.withoutTextsOfTypes_eq, h]

theorem agree_parenthesized (trees trees' : List Tree) {x y : Decoded TypeExpr}
    (h : AgreeType x y) :
    AgreeType (do return .parenthesized (textOf trees) (some (← x)))
      (do return .parenthesized (textOf trees') (some (← y))) :=
  h.bind fun _ _ hab => .ok (congrArg (fun T => TypeExpr.parenthesized [] (some T)) hab)

theorem agree_suffixedType (trees trees' : List Tree) {x y : Decoded TypeExpr}
    (h : AgreeType x y) (t : Tree) :
    AgreeType (suffixedType trees x t.bare) (suffixedType trees' y t) :=
  match t with
  | .node _ [_] => by
    simp only [Tree.bare, bareOf, suffixedType]
    exact h.bind fun _ _ hab => .ok (congrArg (fun T => TypeExpr.array [] (some T)) hab)
  | .leaf _ | .node _ [] | .node _ (_ :: _ :: _) => agree_unsupported trees trees' _

theorem dottedNames_bare (t : Tree) : dottedNames t.bare = dottedNames t :=
  match t with
  | .node _ [_, .leaf k, rest] => by
    simp only [Tree.bare, bareOf, dottedNames, dottedNames_bare rest]
    rfl
  | .leaf _ | .node _ [] | .node _ [_] | .node _ [_, _] | .node _ [_, .node _ _, _]
  | .node _ (_ :: _ :: _ :: _ :: _) => by
    simp [Tree.bare, bareOf, dottedNames]

end Leaves

/-! ### Smaller trees -/

/-- What stands before the tokens of smaller trees is in the raw texts of their types alone. -/
structure AgreesBelow (t : Tree) : Prop where
  types : ∀ u : Tree, sizeOf u < sizeOf t → AgreeType (typeOf u.bare) (typeOf u)
  returns : ∀ u : Tree, sizeOf u < sizeOf t → AgreeType (returnTypeOf u.bare) (returnTypeOf u)

namespace AgreesBelow

variable {n : Nonterminal} {us : List Tree} {u : Tree}

theorem sizeOf_lt (hu : u ∈ us) : sizeOf u < sizeOf (Grammar.Tree.node n us) := by
  have := List.sizeOf_lt_of_mem hu
  simp only [Grammar.Tree.node.sizeOf_spec]
  omega

variable (hin : AgreesBelow (.node n us))

include hin

theorem child (hu : u ∈ us) : AgreesBelow u where
  types v hv := hin.types v (Nat.lt_trans hv (sizeOf_lt hu))
  returns v hv := hin.returns v (Nat.lt_trans hv (sizeOf_lt hu))

theorem type (hu : u ∈ us) : AgreeType (typeOf u.bare) (typeOf u) :=
  hin.types u (sizeOf_lt hu)

theorem returned (hu : u ∈ us) : AgreeType (returnTypeOf u.bare) (returnTypeOf u) :=
  hin.returns u (sizeOf_lt hu)

end AgreesBelow

/-! ### Members -/

section Members

variable {t : Tree} {name name' : Decoded MemberName}

abbrev AgreeKey : Decoded MemberName → Decoded MemberName → Prop :=
  Agree MemberName.withoutTexts

theorem agree_plainKey (k : Token) :
    AgreeKey (MemberName.plain <$> keyOf k.bare) (MemberName.plain <$> keyOf k) :=
  .refl _

theorem agree_computed (text text' : Text) :
    AgreeKey (.ok (.computed text)) (.ok (.computed text')) :=
  .ok rfl

theorem map_some_congr {T T' : TypeExpr} (h : T.withoutTexts = T'.withoutTexts) :
    (some T).map TypeExpr.withoutTexts = (some T').map TypeExpr.withoutTexts :=
  congrArg some h

theorem withoutTexts_property {text text' : Text} {key key' : MemberName}
    {type type' : Option TypeExpr} (hkey : key.withoutTexts = key'.withoutTexts)
    (htype : type.map TypeExpr.withoutTexts = type'.map TypeExpr.withoutTexts)
    (optional readonly : Bool) :
    (Member.property text key type optional readonly).withoutTexts
      = (Member.property text' key' type' optional readonly).withoutTexts := by
  simp only [Member.withoutTexts, TypeExpr.withoutTextsOfOptional_eq, hkey, htype]

theorem withoutTexts_method {text text' : Text} {key key' : MemberName}
    {type type' : Option TypeExpr} (hkey : key.withoutTexts = key'.withoutTexts)
    (htype : type.map TypeExpr.withoutTexts = type'.map TypeExpr.withoutTexts) :
    (Member.method text key type).withoutTexts = (Member.method text' key' type').withoutTexts := by
  simp only [Member.withoutTexts, TypeExpr.withoutTextsOfOptional_eq, hkey, htype]

theorem withoutTexts_call {text text' : Text} {type type' : Option TypeExpr}
    (htype : type.map TypeExpr.withoutTexts = type'.map TypeExpr.withoutTexts) :
    (Member.call text type).withoutTexts = (Member.call text' type').withoutTexts := by
  simp only [Member.withoutTexts, TypeExpr.withoutTextsOfOptional_eq, htype]

theorem agree_bare (text text' : Text) : AgreeMember (.ok (.bare text)) (.ok (.bare text')) :=
  .ok rfl

theorem resultOf_bare (hin : AgreesBelow t) :
    Agree (Option.map TypeExpr.withoutTexts) (resultOf t.bare) (resultOf t) :=
  match t, hin with
  | .node _ [_, _], hin => (hin.returned (by simp)).bind fun _ _ hab => .ok (map_some_congr hab)
  | .leaf _, _ | .node _ [], _ | .node _ [_], _ | .node _ (_ :: _ :: _ :: _), _ => .ok rfl

theorem signatureOf_bare (front front' : List Tree) (hname : AgreeKey name name')
    (optional ro : Bool) (hin : AgreesBelow t) :
    AgreeMember (signatureOf front name optional ro t.bare)
      (signatureOf front' name' optional ro t) :=
  match t, hin with
  | .node _ [_, _], hin =>
    (hin.type (by simp)).bind fun _ _ htype => hname.bind fun _ _ hkey =>
      .ok (withoutTexts_property hkey (map_some_congr htype) _ _)
  | .node _ [_, _, _, _], hin | .node _ [_, _, _, _, _, _], hin =>
    (resultOf_bare (hin.child (by simp))).bind fun _ _ htype => hname.bind fun _ _ hkey =>
      .ok (withoutTexts_method hkey htype)
  | .leaf _, _ | .node _ [], _ | .node _ [_], _ | .node _ [_, _, _], _
  | .node _ [_, _, _, _, _], _ | .node _ (_ :: _ :: _ :: _ :: _ :: _ :: _ :: _), _ =>
    hname.bind fun _ _ hkey => .ok (withoutTexts_property hkey rfl _ _)

theorem keyRestOf_bare (front front' : List Tree) (hname : AgreeKey name name') (ro : Bool)
    (hin : AgreesBelow t) :
    AgreeMember (keyRestOf front name ro t.bare) (keyRestOf front' name' ro t) :=
  match t, hin with
  | .node _ [.leaf _, _], hin => signatureOf_bare _ _ hname _ _ (hin.child (by simp))
  | .node _ [.leaf k], hin => signatureOf_bare _ _ hname _ _ (hin.child (u := .leaf k) (by simp))
  | .node _ [.node _ _], hin => signatureOf_bare _ _ hname _ _ (hin.child (by simp))
  | .leaf _, _ | .node _ [], _ | .node _ [.node _ _, _], _ | .node _ (.leaf _ :: _ :: _ :: _), _
  | .node _ (.node _ _ :: _ :: _ :: _), _ =>
    hname.bind fun _ _ hkey => .ok (withoutTexts_property hkey rfl _ _)

/-- An index signature, whose type comes before that of its key. -/
theorem agree_index (text text' : Text) (k : Token) {x x' y y' : Decoded TypeExpr}
    (hkey : AgreeType x x') (htype : AgreeType y y') :
    AgreeMember
      (do
        let type ← y
        return .index text (lexemeOf k.bare) (some (← x)) (some type))
      (do
        let type ← y'
        return .index text' (lexemeOf k) (some (← x')) (some type)) :=
  htype.bind fun T T' hT => hkey.bind fun K K' hK => .ok (by
    simp only [Member.withoutTexts, TypeExpr.withoutTextsOfOptional, hT, hK]
    rfl)

theorem bracketedNameOf_bare (front front' : List Tree) (bracket bracket' : Token) (ro : Bool)
    (k : Token) (hin : AgreesBelow t) :
    AgreeMember (bracketedNameOf front bracket ro k.bare t.bare)
      (bracketedNameOf front' bracket' ro k t) := by
  fun_cases bracketedNameOf front' bracket' ro k t with
  | case1 n closing after =>
    cases closing <;> exact keyRestOf_bare _ _ (agree_computed _ _) _ (hin.child (by simp))
  | case2 n mark second dotted closing after =>
    have hafter : AgreesBelow after := hin.child (by simp)
    cases dotted with
    | leaf l => exact keyRestOf_bare _ _ (agree_computed _ _) _ hafter
    | node m us =>
      cases us with
      | nil => exact keyRestOf_bare _ _ (.refl _) _ hafter
      | cons v vs => exact keyRestOf_bare _ _ (agree_computed _ _) _ hafter
  | case3 n u keyType v w type hname =>
    have hindex (text text' : Text) := agree_index text text' k
      (hin.type (u := keyType) (by simp)) (hin.type (u := type) (by simp))
    cases u with
    | node m us => cases keyType <;> exact hindex _ _
    | leaf l =>
      cases keyType with
      | node m us => exact hindex _ _
      | leaf l' => exact (hname _ _ rfl rfl).elim
  | case4 hcomputed hname hindex =>
    -- The bare tree has the form of another branch only if the tree has it.
    unfold bracketedNameOf
    split
    · simp_all [bare_eq_node_iff, bareOf_eq_cons_iff, bareOf_eq_nil_iff]
    · simp_all [bare_eq_node_iff, bareOf_eq_cons_iff, bareOf_eq_nil_iff, bare_eq_leaf_iff]
    · simp_all [bare_eq_node_iff, bareOf_eq_cons_iff, bareOf_eq_nil_iff]
    · exact agree_bare _ _

theorem bracketedOf_bare (front front' : List Tree) (bracket bracket' : Token) (ro : Bool)
    (hin : AgreesBelow t) :
    AgreeMember (bracketedOf front bracket ro t.bare) (bracketedOf front' bracket' ro t) :=
  match t, hin with
  | .node _ [.leaf _, _], hin => bracketedNameOf_bare _ _ _ _ _ _ (hin.child (by simp))
  | .node _ [.leaf _, _, _], hin | .node _ [.node _ _, _, _], hin =>
    keyRestOf_bare _ _ (agree_computed _ _) _ (hin.child (by simp))
  | .leaf _, _ | .node _ [], _ | .node _ [.leaf _], _ | .node _ [.node _ _], _
  | .node _ [.node _ _, _], _ | .node _ (.leaf _ :: _ :: _ :: _ :: _), _
  | .node _ (.node _ _ :: _ :: _ :: _ :: _), _ => agree_bare _ _

theorem readonlyRestOf_bare (word : Token) (hin : AgreesBelow t) :
    AgreeMember (readonlyRestOf word.bare t.bare) (readonlyRestOf word t) :=
  match t, hin with
  | .node _ [.leaf key, _], hin => by
    unfold readonlyRestOf
    dsimp only [Tree.bare, bareOf, Token.bare]
    split
    · exact bracketedOf_bare _ _ _ _ _ (hin.child (by simp))
    · exact keyRestOf_bare _ _ (agree_plainKey key) _ (hin.child (by simp))
  | .node _ [.leaf k], hin => keyRestOf_bare _ _ (.refl _) _ (hin.child (u := .leaf k) (by simp))
  | .node _ [.node _ _], hin => keyRestOf_bare _ _ (.refl _) _ (hin.child (by simp))
  | .leaf _, _ | .node _ [], _ | .node _ [.node _ _, _], _
  | .node _ (.leaf _ :: _ :: _ :: _), _ | .node _ (.node _ _ :: _ :: _ :: _), _ => .ok rfl

theorem memberOf_bare (hin : AgreesBelow t) : AgreeMember (memberOf t.bare) (memberOf t) :=
  match t, hin with
  | .node _ [.leaf head, _], hin => by
    unfold memberOf
    dsimp only [Tree.bare, bareOf, Token.bare]
    split
    · exact readonlyRestOf_bare _ (hin.child (by simp))
    · exact bracketedOf_bare _ _ _ _ _ (hin.child (by simp))
    · exact keyRestOf_bare _ _ (agree_plainKey head) _ (hin.child (by simp))
  | .node _ [.leaf _, _, _, _], hin | .node _ [.node _ _, _, _, _], hin
  | .node _ [.leaf _, _, _, _, _, _], hin | .node _ [.node _ _, _, _, _, _, _], hin =>
    (resultOf_bare (hin.child (by simp))).bind fun _ _ htype => .ok (withoutTexts_call htype)
  | .leaf _, _ | .node _ [], _ | .node _ [.node _ _, _], _ => agree_bare _ _
  | .node _ [.leaf _], _ | .node _ [.leaf _, _, _], _ | .node _ [.leaf _, _, _, _, _], _
  | .node _ (.leaf _ :: _ :: _ :: _ :: _ :: _ :: _ :: _), _ => agree_bare _ _
  | .node _ [.node _ _], _ | .node _ [.node _ _, _, _], _ | .node _ [.node _ _, _, _, _, _], _
  | .node _ (.node _ _ :: _ :: _ :: _ :: _ :: _ :: _ :: _), _ => agree_bare _ _

/-- The members of two object shapes agree where their texts are left out. -/
abbrev AgreeMembers : Decoded (List Member) → Decoded (List Member) → Prop :=
  Agree (List.map Member.withoutTexts)

theorem agree_cons {x x' : Decoded Member} {xs xs' : Decoded (List Member)}
    (h : AgreeMember x x') (hs : AgreeMembers xs xs') :
    AgreeMembers (do return (← x) :: (← xs)) (do return (← x') :: (← xs')) :=
  h.bind fun m m' hm => hs.bind fun ms ms' hms => .ok (by
    rw [List.map_cons, List.map_cons, hm, hms])

mutual

theorem membersOf_bare (t : Tree) (hin : AgreesBelow t) :
    AgreeMembers (membersOf t.bare) (membersOf t) :=
  match t, hin with
  | .node _ [_, rest], hin =>
    agree_cons (memberOf_bare (hin.child (by simp))) (memberEndOf_bare rest (hin.child (by simp)))
  | .leaf _, _ | .node _ [], _ | .node _ [_], _ | .node _ (_ :: _ :: _ :: _), _ => .ok rfl
termination_by sizeOf t

theorem memberEndOf_bare (t : Tree) (hin : AgreesBelow t) :
    AgreeMembers (memberEndOf t.bare) (memberEndOf t) :=
  match t, hin with
  | .node _ [_, rest], hin => membersOf_bare rest (hin.child (by simp))
  | .leaf _, _ | .node _ [], _ | .node _ [_], _ | .node _ (_ :: _ :: _ :: _), _ => .ok rfl
termination_by sizeOf t

end

theorem agree_object (text text' : Text) {x x' : Decoded Member} {xs xs' : Decoded (List Member)}
    (h : AgreeMember x x') (hs : AgreeMembers xs xs') :
    AgreeType (do return .object text ((← x) :: (← xs)))
      (do return .object text' ((← x') :: (← xs'))) :=
  h.bind fun m m' hm => hs.bind fun ms ms' hms => .ok (by
    simp only [TypeExpr.withoutTexts, TypeExpr.withoutTextsOfMembers_eq, List.map_cons, hm, hms])

/-! ### Types in braces -/

theorem bracedBracketedOf_bare (whole whole' front front' : List Tree) (bracket bracket' : Token)
    (ro : Bool) (hin : AgreesBelow t) :
    AgreeType (bracedBracketedOf whole front bracket ro t.bare)
      (bracedBracketedOf whole' front' bracket' ro t) := by
  fun_cases bracedBracketedOf whole' front' bracket' ro t with
  | case1 n k m first rest u =>
    have hin' := hin.child (List.mem_cons_of_mem _ List.mem_cons_self)
    exact agree_object _ _ (bracketedNameOf_bare _ _ _ _ _ _ (hin'.child (by simp)))
      (memberEndOf_bare _ (hin'.child (by simp)))
  | case2 n key closing after rest u =>
    unfold bracedBracketedOf
    split
    · simp_all [bare_eq_node_iff, bareOf_eq_cons_iff, bareOf_eq_nil_iff]
    · rename_i heq
      obtain ⟨rfl, heq⟩ := Grammar.Tree.node.inj heq
      obtain ⟨rfl, rfl, rfl, rfl, -⟩ := by simpa [bareOf] using heq
      exact agree_object _ _ (keyRestOf_bare _ _ (agree_computed _ _) _ (hin.child (by simp)))
        (memberEndOf_bare _ (hin.child (by simp)))
    · rename_i hother
      exact (hother _ _ _ _ _ _ rfl).elim
  | case3 hname hkey =>
    -- The bare tree has the form of another branch only if the tree has it.
    unfold bracedBracketedOf
    split
    · simp_all [bare_eq_node_iff, bareOf_eq_cons_iff, bareOf_eq_nil_iff, bare_eq_leaf_iff]
    · simp_all [bare_eq_node_iff, bareOf_eq_cons_iff, bareOf_eq_nil_iff]
    · exact agree_unsupported _ _ _

theorem bracedReadonlyOf_bare (whole whole' : List Tree) (word : Token) (hin : AgreesBelow t) :
    AgreeType (bracedReadonlyOf whole word.bare t.bare) (bracedReadonlyOf whole' word t) :=
  match t, hin with
  | .node _ [.leaf _, _], hin => bracedBracketedOf_bare _ _ _ _ _ _ _ (hin.child (by simp))
  | .node _ [.leaf k, _, _], hin =>
    agree_object _ _ (readonlyRestOf_bare word (hin.child (u := .leaf k) (by simp)))
      (memberEndOf_bare _ (hin.child (by simp)))
  | .node _ [.node _ _, _, _], hin =>
    agree_object _ _ (readonlyRestOf_bare word (hin.child (by simp)))
      (memberEndOf_bare _ (hin.child (by simp)))
  | .node _ [.node _ _, _], hin =>
    (memberEndOf_bare _ (hin.child (by simp))).bind fun ms ms' hms => .ok (by
      simp only [TypeExpr.withoutTexts, TypeExpr.withoutTextsOfMembers_eq, List.map_cons, hms]
      rfl)
  | .leaf _, _ | .node _ [], _ | .node _ [.leaf _], _ | .node _ [.node _ _], _
  | .node _ (.leaf _ :: _ :: _ :: _ :: _), _ | .node _ (.node _ _ :: _ :: _ :: _ :: _), _ => .ok rfl

theorem bracedOf_bare (whole whole' : List Tree) (hin : AgreesBelow t) :
    AgreeType (bracedOf whole t.bare) (bracedOf whole' t) :=
  match t, hin with
  | .node _ [.leaf _], _ | .node _ [.node _ _], _ => .ok rfl
  | .node _ [.leaf _, _], hin => by
    unfold bracedOf
    dsimp only [Tree.bare, bareOf, Token.bare]
    -- What the first token is decides, and it is the same in the bare tree.
    split
    · exact bracedBracketedOf_bare _ _ _ _ _ _ _ (hin.child (by simp))
    · exact bracedReadonlyOf_bare _ _ _ (hin.child (by simp))
  | .node _ [.leaf k, _, _], hin =>
    agree_object _ _ (memberOf_bare (hin.child (u := .leaf k) (by simp)))
      (memberEndOf_bare _ (hin.child (by simp)))
  | .node _ [.node _ _, _, _], hin =>
    agree_object _ _ (memberOf_bare (hin.child (by simp)))
      (memberEndOf_bare _ (hin.child (by simp)))
  | .leaf _, _ | .node _ [], _ | .node _ [.node _ _, _], _
  | .node _ (.leaf _ :: _ :: _ :: _ :: _), _ | .node _ (.node _ _ :: _ :: _ :: _ :: _), _ =>
    agree_unsupported _ _ _

end Members

/-! ### Operands -/

section Operands

variable {t : Tree}

/-- The types of two lists agree where their texts are left out. -/
abbrev AgreeTypes : Decoded (List TypeExpr) → Decoded (List TypeExpr) → Prop :=
  Agree (List.map TypeExpr.withoutTexts)

theorem agreeTypes_cons {x x' : Decoded TypeExpr} {xs xs' : Decoded (List TypeExpr)}
    (h : AgreeType x x') (hs : AgreeTypes xs xs') :
    AgreeTypes (do return (← x) :: (← xs)) (do return (← x') :: (← xs')) :=
  h.bind fun T T' hT => hs.bind fun Ts Ts' hTs => .ok (by
    rw [List.map_cons, List.map_cons, hT, hTs])

theorem moreTypesOf_bare (t : Tree) (hin : AgreesBelow t) :
    AgreeTypes (moreTypesOf t.bare) (moreTypesOf t) :=
  match t, hin with
  | .node _ [_, _, more], hin =>
    agreeTypes_cons (hin.type (by simp)) (moreTypesOf_bare more (hin.child (by simp)))
  | .leaf _, _ | .node _ [], _ | .node _ [_], _ | .node _ [_, _], _
  | .node _ (_ :: _ :: _ :: _ :: _), _ => .ok rfl
termination_by sizeOf t

theorem typeArgumentsOf_bare (hin : AgreesBelow t) :
    AgreeTypes (typeArgumentsOf t.bare) (typeArgumentsOf t) :=
  match t, hin with
  | .node _ [_, _, more, _], hin =>
    agreeTypes_cons (hin.type (by simp)) (moreTypesOf_bare more (hin.child (by simp)))
  | .leaf _, _ | .node _ [], _ | .node _ [_], _ | .node _ [_, _], _ | .node _ [_, _, _], _
  | .node _ (_ :: _ :: _ :: _ :: _ :: _), _ => .ok rfl

theorem primaryOf_bare (hin : AgreesBelow t) : AgreeType (primaryOf t.bare) (primaryOf t) :=
  match t, hin with
  | .node _ [.leaf token], _ => by
    unfold primaryOf
    dsimp only [Tree.bare, bareOf, Token.bare]
    -- The terminals of the bare tokens are the same, so the same branch is taken.
    split
    · exact agree_stringLiteral _ _ token
    · exact .ok (numberLiteral_bare _ _ token)
    · exact agree_unsupported _ _ _
  | .node _ [.leaf _, .leaf token], _ => .ok (numberLiteral_bare _ _ token)
  | .node _ [.leaf head, .node n us], hin => by
    unfold primaryOf
    dsimp only [Tree.bare, bareOf, Token.bare]
    split
    · exact bracedOf_bare _ _ (hin.child (u := .node n us) (by simp))
    · exact agree_unsupported _ _ _
    · exact agree_unsupported _ _ _
  | .node _ [.leaf head, next, last], hin => by
    have hnames := dottedNames_bare next
    have hinner := hin.type (u := next) (by simp)
    have hargs := typeArgumentsOf_bare (hin.child (u := last) (by simp))
    cases next with
    | leaf k | node n us =>
      unfold primaryOf
      dsimp only [Tree.bare, bareOf, Token.bare] at hnames hinner ⊢
      split
      · exact agree_parenthesized _ _ hinner
      · rw [hnames]
        exact hargs.bind fun _ _ hab => .ok (withoutTexts_referenceType _ _ _ hab)
      · exact agree_unsupported _ _ _
  | .leaf _, _ | .node _ [], _ | .node _ [.node _ _], _ | .node _ [.node _ _, _], _
  | .node _ [.node _ _, _, _], _ | .node _ (.leaf _ :: .leaf _ :: _ :: _ :: _), _
  | .node _ (.leaf _ :: .node _ _ :: _ :: _ :: _), _
  | .node _ (.node _ _ :: _ :: _ :: _ :: _), _ => agree_unsupported _ _ _

theorem suffixesOf_bare (trees trees' : List Tree) {x y : Decoded TypeExpr} (h : AgreeType x y)
    (t : Tree) : AgreeType (suffixesOf trees x t.bare) (suffixesOf trees' y t) :=
  match t with
  | .node _ [_, next, rest] => suffixesOf_bare _ _ (agree_suffixedType _ _ h next) rest
  | .leaf _ | .node _ [] | .node _ [_] | .node _ [_, _] | .node _ (_ :: _ :: _ :: _ :: _) => h

theorem operatorOf_bare (hin : AgreesBelow t) : AgreeType (operatorOf t.bare) (operatorOf t) :=
  match t, hin with
  | .node _ [.leaf _, _], _ => agree_unsupported _ _ _
  | .node _ [.node _ _, rest], hin =>
    suffixesOf_bare _ _ (primaryOf_bare (hin.child (by simp))) rest
  | .leaf _, _ | .node _ [], _ | .node _ [.leaf _], _ | .node _ [.node _ _], _
  | .node _ (.leaf _ :: _ :: _ :: _), _ | .node _ (.node _ _ :: _ :: _ :: _), _ =>
    agree_unsupported _ _ _

theorem intersectionOf_bare (hin : AgreesBelow t) :
    AgreeType (intersectionOf t.bare) (intersectionOf t) := by
  fun_cases intersectionOf t with
  | case1 n k first m => exact operatorOf_bare (hin.child (by simp))
  | case2 n first m =>
    have hfirst := operatorOf_bare (hin.child (u := first) (by simp))
    cases first <;> exact hfirst
  | case3 hled hplain =>
    unfold intersectionOf
    split
    · simp_all [bare_eq_node_iff, bareOf_eq_cons_iff, bareOf_eq_nil_iff, bare_eq_leaf_iff]
    · simp_all [bare_eq_node_iff, bareOf_eq_cons_iff, bareOf_eq_nil_iff]
    · exact agree_unsupported _ _ _

end Operands

/-! ### Chains of operands -/

/-- Two chains of as many operands whose members agree where their texts are left out. -/
structure AgreeChain (c c' : Chain) : Prop where
  members : List.Forall₂ AgreeType c.members c'.members
  operands : c.operands = c'.operands
  operand : AgreeType c.operand c'.operand

namespace AgreeChain

variable {c c' : Chain} {x x' : Decoded TypeExpr}

theorem start (whole whole' trees trees' : List Tree) (h : AgreeType x x') :
    AgreeChain (.start whole trees x) (.start whole' trees' x') :=
  ⟨.nil, rfl, h⟩

variable (h : AgreeChain c c')

include h

theorem member : AgreeType c.member c'.member := by
  unfold Chain.member
  rw [h.operands]
  split
  · exact h.operand
  · exact agree_unsupported _ _ _

theorem suffixed (trees trees' : List Tree) (hx : AgreeType x x') :
    AgreeChain (c.suffixed trees x) (c'.suffixed trees' x') :=
  ⟨h.members, h.operands, hx⟩

theorem intersected (more more' : List Tree) :
    AgreeChain (c.intersected more) (c'.intersected more') :=
  ⟨h.members, congrArg (· + 1) h.operands, h.operand⟩

theorem united (tree tree' : Tree) (hx : AgreeType x x') :
    AgreeChain (c.united tree x) (c'.united tree' x') :=
  ⟨List.rel_append h.members (.cons h.member .nil), rfl, hx⟩

theorem finish : AgreeType c.finish c'.finish := by
  have hmembers := h.members
  have hlast := h.member
  unfold Chain.finish
  generalize c.members = ms at hmembers ⊢
  generalize c'.members = ms' at hmembers ⊢
  cases hmembers with
  | nil => exact hlast
  | cons hfirst hrest =>
    refine (Agree.mapM (List.rel_append (.cons hfirst hrest) (.cons hlast .nil))).bind
      fun Ts Ts' hTs => .ok ?_
    simp only [TypeExpr.withoutTexts, TypeExpr.withoutTextsOfTypes_eq, hTs]

end AgreeChain

/-! ### Types -/

section Types

variable {t : Tree}

theorem chainOf_bare (t : Tree) (hin : AgreesBelow t) {c c' : Chain} (h : AgreeChain c c') :
    AgreeType (chainOf c t.bare) (chainOf c' t) :=
  match t, hin with
  | .node _ [], _ => h.finish
  | .node _ [rest], hin => chainOf_bare rest (hin.child (by simp)) h
  | .node _ [.leaf head, next, rest], hin => by
    have ih {c c' : Chain} (h : AgreeChain c c') := chainOf_bare rest (hin.child (by simp)) h
    rw [Tree.bare, bareOf, bareOf, bareOf, bareOf, Tree.bare]
    unfold chainOf
    dsimp only [Token.bare]
    split
    · exact ih (h.suffixed _ _ (agree_suffixedType _ _ h.operand next))
    · exact ih (h.intersected _ _)
    · exact ih (h.united _ _ (intersectionOf_bare (hin.child (by simp))))
  | .leaf _, _ | .node _ [_, _], _ | .node _ [.node _ _, _, _], _
  | .node _ (.leaf _ :: _ :: _ :: _ :: _), _ | .node _ (.node _ _ :: _ :: _ :: _ :: _), _ =>
    agree_unsupported _ _ _
termination_by sizeOf t

theorem agree_reference (text text' : Text) (names : List Text) :
    AgreeType (.ok (referenceType text names [])) (.ok (referenceType text' names [])) :=
  .ok (withoutTexts_referenceType _ _ _ rfl)

theorem namedOf_bare (t : Tree) (hin : AgreesBelow t) (whole whole' trees trees' : List Tree)
    (names : List Text) :
    AgreeType (namedOf whole trees names t.bare) (namedOf whole' trees' names t) := by
  fun_cases namedOf whole' trees' names t with
  | case1 n mark name rest => exact namedOf_bare rest (hin.child (by simp)) _ _ _ _ _
  | case2 n opening first more closing rest =>
    have hrest (whole whole' : List Tree) {x y : Decoded TypeExpr} (trees trees' : List Tree)
        (h : AgreeType x y) :=
      chainOf_bare rest (hin.child (by simp)) (.start whole whole' trees trees' h)
    have hargs := agreeTypes_cons (hin.type (u := first) (by simp))
      (moreTypesOf_bare more (hin.child (by simp)))
    have hreference (text text' : Text) :=
      hargs.map (m := referenceType text names) (n := referenceType text' names)
        fun _ _ hab => withoutTexts_referenceType _ _ _ hab
    cases opening with
    | node m us => exact hrest _ _ _ _ (hreference _ _)
    | leaf k => cases first <;> exact hrest _ _ _ _ (hreference _ _)
  | case3 n rest =>
    have hrest (whole whole' : List Tree) {x y : Decoded TypeExpr} (trees trees' : List Tree)
        (h : AgreeType x y) :=
      chainOf_bare rest (hin.child (by simp)) (.start whole whole' trees trees' h)
    cases rest <;> exact hrest _ _ _ _ (agree_reference _ _ _)
  | case4 hdotted harguments hplain =>
    -- The bare tree has the form of another branch only if the tree has it.
    unfold namedOf
    split
    · simp_all [bare_eq_node_iff, bareOf_eq_cons_iff, bareOf_eq_nil_iff, bare_eq_leaf_iff]
    · simp_all [bare_eq_node_iff, bareOf_eq_cons_iff, bareOf_eq_nil_iff]
    · simp_all [bare_eq_node_iff, bareOf_eq_cons_iff, bareOf_eq_nil_iff]
    · exact agree_reference _ _ _
termination_by sizeOf t

theorem afterParenthesisOf_bare (whole whole' trees trees' : List Tree) {x y : Decoded TypeExpr}
    (h : AgreeType x y) (hin : AgreesBelow t) :
    AgreeType (afterParenthesisOf whole trees x t.bare) (afterParenthesisOf whole' trees' y t) :=
  match t, hin with
  | .node _ [], _ => agree_parenthesized _ _ h
  | .node _ [rest], hin =>
    chainOf_bare rest (hin.child (by simp)) (.start _ _ _ _ (agree_parenthesized _ _ h))
  | .leaf _, _ | .node _ (_ :: _ :: _), _ => agree_unsupported _ _ _

theorem parenthesisOf_leaf (whole : List Tree) (opening : Token) (n : Nonterminal) (k : Token)
    (t u : Tree) (rest : List Tree) :
    parenthesisOf whole opening (.node n (.leaf k :: t :: u :: rest))
      = unsupported whole "FunctionType" := by
  unfold parenthesisOf
  split
  all_goals grind

theorem parenthesisOf_bare (whole whole' : List Tree) (opening : Token) (hin : AgreesBelow t) :
    AgreeType (parenthesisOf whole opening.bare t.bare) (parenthesisOf whole' opening t) := by
  fun_cases parenthesisOf whole' opening t with
  | case1 n name m closing rest =>
    have hin' := hin.child (List.mem_cons_of_mem _ List.mem_cons_self)
    exact afterParenthesisOf_bare _ _ _ _ (agree_reference _ _ _) (hin'.child (by simp))
  | case2 => exact agree_unsupported _ _ _
  | case3 n name m named closing rest hnamed =>
    have hin' := hin.child (List.mem_cons_of_mem _ List.mem_cons_self)
    cases named with
    | leaf k => exact (hnamed k rfl).elim
    | node l us =>
      exact afterParenthesisOf_bare _ _ _ _ (namedOf_bare _ (hin'.child (by simp)) _ _ _ _ _)
        (hin'.child (by simp))
  | case4 n k first second =>
    rw [Tree.bare, bareOf, bareOf, bareOf, Tree.bare, parenthesisOf_leaf]
    exact agree_unsupported _ _ _
  | case5 n inner closing rest hinner =>
    cases inner with
    | leaf k => exact (hinner k rfl).elim
    | node m us =>
      exact afterParenthesisOf_bare _ _ _ _ (hin.type (by simp)) (hin.child (by simp))
  | case6 h1 h2 h3 h4 h5 =>
    -- The bare tree has the form of another branch only if the tree has it.
    unfold parenthesisOf
    split
    · simp_all [bare_eq_node_iff, bareOf_eq_cons_iff, bareOf_eq_nil_iff, bare_eq_leaf_iff]
    · exact agree_unsupported _ _ _
    · simp_all [bare_eq_node_iff, bareOf_eq_cons_iff, bareOf_eq_nil_iff, bare_eq_leaf_iff]
    · exact agree_unsupported _ _ _
    · simp_all [bare_eq_node_iff, bareOf_eq_cons_iff, bareOf_eq_nil_iff]
    · exact agree_unsupported _ _ _

theorem typeOf_bare (hin : AgreesBelow t) : AgreeType (typeOf t.bare) (typeOf t) :=
  match t, hin with
  | .node _ [.leaf head, rest], hin => by
    have hrest (whole whole' : List Tree) :=
      parenthesisOf_bare whole whole' head (hin.child (u := rest) (by simp))
    unfold typeOf
    dsimp only [Tree.bare, bareOf, Token.bare] at hrest ⊢
    -- The terminals of the bare tokens are the same, so the same branch is taken.
    split
    · exact hrest _ _
    · exact agree_unsupported _ _ _
  | .node _ [.leaf head, first, rest], hin => by
    have hchain {c c' : Chain} (h : AgreeChain c c') :=
      chainOf_bare rest (hin.child (by simp)) h
    unfold typeOf
    dsimp only [Tree.bare, bareOf, Token.bare]
    split
    · exact hchain (.start _ _ _ _ (intersectionOf_bare (hin.child (by simp))))
    · exact hchain (.start _ _ _ _ (operatorOf_bare (hin.child (by simp))))
    · exact agree_unsupported _ _ _
  | .node _ [.node n us, rest], hin =>
    chainOf_bare rest (hin.child (by simp))
      (.start _ _ _ _ (operatorOf_bare (hin.child (u := .node n us) (by simp))))
  | .leaf _, _ | .node _ [], _ | .node _ [.leaf _], _ | .node _ [.node _ _], _
  | .node _ [.node _ _, _, _], _ | .node _ (.leaf _ :: _ :: _ :: _ :: _), _
  | .node _ (.node _ _ :: _ :: _ :: _ :: _), _ => agree_unsupported _ _ _

theorem returnTypeOf_bare (hin : AgreesBelow t) :
    AgreeType (returnTypeOf t.bare) (returnTypeOf t) := by
  fun_cases returnTypeOf t with
  | case1 n name m => exact agree_reference _ _ _
  | case2 n name m rest =>
    have hin' := hin.child (List.mem_cons_of_mem _ List.mem_cons_self)
    exact namedOf_bare rest (hin'.child (by simp)) _ _ _ _ _
  | case3 n type =>
    have htype := hin.type (u := type) (by simp)
    cases type <;> exact htype
  | case4 hname hnamed htype =>
    unfold returnTypeOf
    split
    · simp_all [bare_eq_node_iff, bareOf_eq_cons_iff, bareOf_eq_nil_iff, bare_eq_leaf_iff]
    · simp_all [bare_eq_node_iff, bareOf_eq_cons_iff, bareOf_eq_nil_iff, bare_eq_leaf_iff]
    · simp_all [bare_eq_node_iff, bareOf_eq_cons_iff, bareOf_eq_nil_iff]
    · exact agree_unsupported _ _ _

/-- By induction on the tree: what the builders need is about smaller trees. -/
theorem agreesBelow (t : Tree) : AgreesBelow t :=
  ⟨fun u _ => typeOf_bare (agreesBelow u), fun u _ => returnTypeOf_bare (agreesBelow u)⟩
termination_by sizeOf t

end Types

end DeclSchema.Declaration
