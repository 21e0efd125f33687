import DeclSchema.Proofs.Declaration.Sound

/-!
# Types without parts in the same tree

What a primary type is read as is no union and no array, so that it shares its tree with no other
type. If it is a literal, it is a string, a number, a large integer, a truth value or `null`.

## Main definitions

* `literalKinds`: the kinds of literals
* `TypeExpr.IsSimple`: a type of one of these forms, with a given text

## Main results

* `primaryOf_simple`: the type of a primary type
-/

namespace DeclSchema

/-- The kinds of literals. -/
def literalKinds : List Text :=
  ["string", "number", "bigint", "boolean", "null"].map .ofString

/-- The type has the text and is neither a union nor an array, nor the type of a constructor. -/
inductive TypeExpr.IsSimple (text : Text) : TypeExpr → Prop where
  | literal {kind : Text} {value : LiteralValue} (h : kind ∈ literalKinds) :
      IsSimple text (.literal text kind value)
  | reference (name : Text) (arguments : List TypeExpr) :
      IsSimple text (.reference text name arguments)
  | qualified (scope member : Text) : IsSimple text (.qualified text scope member)
  | keyword (word : Text) : IsSimple text (.keyword text word)
  | parenthesized (inner : Option TypeExpr) : IsSimple text (.parenthesized text inner)
  | object (members : List Member) : IsSimple text (.object text members)
  | bare : IsSimple text (.bare text)
  | unsupported {kind : Text} (h : kind ≠ .ofString "ConstructorType") :
      IsSimple text (.unsupported text kind)

namespace Declaration

open Grammar Grammar.Tree TypeExpr

variable {text : Text} {trees : List Tree} {T S : TypeExpr}

theorem text_of_isSimple (h : T.IsSimple text) : T.text = text := by
  cases h <;> rfl

theorem eq_of_isSimple (h : T.IsSimple text) (hspine : T.Spine S) : S = T := by
  cases h <;> cases hspine <;> rfl

/-! ### Names and numbers -/

theorem isSimple_numberLiteral (text : Text) (k : Token) : (numberLiteral text k).IsSimple text := by
  refine .literal ?_
  split
  · decide
  · decide

theorem isSimple_namedType (text name : Text) : (namedType text name).IsSimple text := by
  unfold namedType
  split
  · exact .literal (by decide)
  split
  · exact .literal (by decide)
  split
  · exact .literal (by decide)
  -- A word or a reference.
  split
  · exact .keyword _
  · exact .reference _ _

theorem isSimple_referenceType (text : Text) (names : List Text) (arguments : List TypeExpr) :
    (referenceType text names arguments).IsSimple text := by
  unfold referenceType
  split
  · exact .qualified _ _
  · exact isSimple_namedType _ _
  · exact .reference _ _
  · exact .bare

/-! ### Primary types -/

theorem unsupported_simple {kind : String} (hkind : Text.ofString kind ≠ .ofString "ConstructorType") :
    Gives (IsSimple (textOf trees)) (unsupported trees kind) :=
  gives_ok (.unsupported hkind)

theorem bracedBracketedOf_simple (front : List Tree) (bracket : Token) (ro : Bool) (t : Tree) :
    Gives (IsSimple (textOf trees)) (bracedBracketedOf trees front bracket ro t) := by
  unfold bracedBracketedOf
  split
  · exact gives_bind fun _ => gives_bind fun _ => gives_ok (.object _)
  · exact gives_bind fun _ => gives_bind fun _ => gives_ok (.object _)
  · exact unsupported_simple (by decide)

theorem bracedReadonlyOf_simple (word : Token) (t : Tree) :
    Gives (IsSimple (textOf trees)) (bracedReadonlyOf trees word t) := by
  unfold bracedReadonlyOf
  split
  · exact bracedBracketedOf_simple _ _ _ _
  · exact gives_bind fun _ => gives_bind fun _ => gives_ok (.object _)
  · exact gives_bind fun _ => gives_ok (.object _)
  · exact gives_ok (.object _)

theorem bracedOf_simple (t : Tree) : Gives (IsSimple (textOf trees)) (bracedOf trees t) := by
  unfold bracedOf
  split
  · exact gives_ok (.object _)
  · split
    · exact bracedBracketedOf_simple _ _ _ _
    · exact bracedReadonlyOf_simple _ _
  · exact gives_bind fun _ => gives_bind fun _ => gives_ok (.object _)
  · exact unsupported_simple (by decide)

theorem primaryOf_simple (t : Tree) : Gives (IsSimple (textOf [t])) (primaryOf t) := by
  unfold primaryOf
  split
  · split
    · exact gives_bind fun _ => gives_ok (.literal (by decide))
    · exact gives_ok (isSimple_numberLiteral _ _)
    · exact unsupported_simple (by decide)
  · exact gives_ok (isSimple_numberLiteral _ _)
  · split
    · exact bracedOf_simple _
    · exact unsupported_simple (by decide)
    · exact unsupported_simple (by decide)
  · split
    · exact gives_bind fun _ => gives_ok (.parenthesized _)
    · exact gives_bind fun _ => gives_ok (isSimple_referenceType _ _ _)
    · exact unsupported_simple (by decide)
  · exact unsupported_simple (by decide)

end Declaration

end DeclSchema
