import DeclSchema.Declaration
import DeclSchema.Declaration.Escape
import Mathlib.Data.List.Forall2

/-!
# Declarations without their raw texts

The raw texts of declarations, types, heritage entries, members and bracketed keys repeat what the
source has there, blanks and comments included. So do the values of numbers. Results that are the
same but for them agree.

## Main definitions

* `TypeExpr.withoutTexts`, `Declaration.withoutTexts`: nodes without their raw texts
* `Agree`: two results that are the same under a map
-/

namespace DeclSchema

/-! ### Without raw texts -/

/-- A key without its raw text, which a computed key consists of. -/
def MemberName.withoutTexts : MemberName → MemberName
  | plain t => plain t
  | kindKey scope m => kindKey scope m
  | computed _ => computed []

mutual

/-- A type expression whose raw texts and those of its parts are left out. The value of a number is
a raw text too. -/
def TypeExpr.withoutTexts : TypeExpr → TypeExpr
  | .array _ element => .array [] (TypeExpr.withoutTextsOfOptional element)
  | .union _ members => .union [] (TypeExpr.withoutTextsOfTypes members)
  | .literal _ kind value =>
    .literal [] kind
      (if kind = .ofString "number" ∨ kind = .ofString "bigint" then .text [] else value)
  | .reference _ name arguments => .reference [] name (TypeExpr.withoutTextsOfTypes arguments)
  | .qualified _ scope member => .qualified [] scope member
  | .heritage base => .heritage base.withoutTexts
  | .parenthesized _ inner => .parenthesized [] (TypeExpr.withoutTextsOfOptional inner)
  | .keyword _ word => .keyword [] word
  | .unsupported _ kind => .unsupported [] kind
  | .object _ members => .object [] (TypeExpr.withoutTextsOfMembers members)
  | .bare _ => .bare []
  | .declared d => .declared d.withoutTexts

def TypeExpr.withoutTextsOfOptional : Option TypeExpr → Option TypeExpr
  | none => none
  | some type => some type.withoutTexts

def TypeExpr.withoutTextsOfTypes : List TypeExpr → List TypeExpr
  | [] => []
  | type :: rest => type.withoutTexts :: TypeExpr.withoutTextsOfTypes rest

def TypeExpr.withoutTextsOfMembers : List Member → List Member
  | [] => []
  | member :: rest => member.withoutTexts :: TypeExpr.withoutTextsOfMembers rest

def TypeExpr.withoutTextsOfBases : List Heritage → List Heritage
  | [] => []
  | base :: rest => base.withoutTexts :: TypeExpr.withoutTextsOfBases rest

def Heritage.withoutTexts : Heritage → Heritage
  | .mk _ name arguments => .mk [] name (TypeExpr.withoutTextsOfTypes arguments)

def Member.withoutTexts : Member → Member
  | .property _ name type optional readonly =>
    .property [] name.withoutTexts (TypeExpr.withoutTextsOfOptional type) optional readonly
  | .index _ keyName keyType type =>
    .index [] keyName (TypeExpr.withoutTextsOfOptional keyType)
      (TypeExpr.withoutTextsOfOptional type)
  | .method _ name returnType =>
    .method [] name.withoutTexts (TypeExpr.withoutTextsOfOptional returnType)
  | .call _ returnType => .call [] (TypeExpr.withoutTextsOfOptional returnType)
  | .bare _ => .bare []

/-- A declaration whose raw texts and those of its parts are left out. -/
def Declaration.withoutTexts : Declaration → Declaration
  | .interface name _ parameters bases members =>
    .interface name [] parameters (TypeExpr.withoutTextsOfBases bases)
      (TypeExpr.withoutTextsOfMembers members)
  | .enumeration name _ members => .enumeration name [] members
  | .typeAlias name _ parameters type =>
    .typeAlias name [] parameters (TypeExpr.withoutTextsOfOptional type)
  | .bare name _ => .bare name []

end

namespace TypeExpr

theorem withoutTextsOfOptional_eq (type : Option TypeExpr) :
    withoutTextsOfOptional type = type.map withoutTexts := by
  cases type <;> rfl

theorem withoutTextsOfTypes_eq (types : List TypeExpr) :
    withoutTextsOfTypes types = types.map withoutTexts := by
  induction types with
  | nil => rfl
  | cons type rest ih => rw [withoutTextsOfTypes, ih, List.map_cons]

theorem withoutTextsOfMembers_eq (members : List Member) :
    withoutTextsOfMembers members = members.map Member.withoutTexts := by
  induction members with
  | nil => rfl
  | cons member rest ih => rw [withoutTextsOfMembers, ih, List.map_cons]

theorem withoutTextsOfBases_eq (bases : List Heritage) :
    withoutTextsOfBases bases = bases.map Heritage.withoutTexts := by
  induction bases with
  | nil => rfl
  | cons base rest ih => rw [withoutTextsOfBases, ih, List.map_cons]

end TypeExpr

namespace Declaration

open Escape

/-! ### Results that agree -/

/-- Two results are the same failure, or values with the same image. -/
inductive Agree {α β : Type} (f : α → β) : Decoded α → Decoded α → Prop where
  | error (e : Fault) : Agree f (.error e) (.error e)
  | ok {a b : α} (h : f a = f b) : Agree f (.ok a) (.ok b)

namespace Agree

variable {α β γ δ : Type} {f : α → β} {g : γ → δ} {x y z : Decoded α}

theorem refl (x : Decoded α) : Agree f x x := by
  cases x with
  | error e => exact .error e
  | ok a => exact .ok rfl

theorem symm (h : Agree f x y) : Agree f y x := by
  cases h with
  | error e => exact .error e
  | ok h => exact .ok h.symm

theorem trans (h : Agree f x y) (h' : Agree f y z) : Agree f x z := by
  cases h with
  | error e => exact h'
  | ok h =>
    cases h' with
    | ok h' => exact .ok (h.trans h')

theorem bind {k l : α → Decoded γ} (h : Agree f x y)
    (hk : ∀ a b, f a = f b → Agree g (k a) (l b)) : Agree g (x >>= k) (y >>= l) := by
  cases h with
  | error e => exact .error e
  | ok h => exact hk _ _ h

theorem map {m n : α → γ} (h : Agree f x y) (hm : ∀ a b, f a = f b → g (m a) = g (n b)) :
    Agree g (m <$> x) (n <$> y) := by
  cases h with
  | error e => exact .error e
  | ok h => exact .ok (hm _ _ h)

theorem mapM {xs ys : List (Decoded α)} (h : List.Forall₂ (Agree f) xs ys) :
    Agree (List.map f) (xs.mapM id) (ys.mapM id) := by
  induction h with
  | nil => exact .ok rfl
  | cons hx _ ih =>
    rw [List.mapM_cons, List.mapM_cons]
    refine hx.bind fun a b hab => ih.bind fun as bs habs => .ok ?_
    rw [List.map_cons, List.map_cons, hab, habs]

theorem exists_ok {a : α} (h : Agree f (.ok a) y) : ∃ b, y = .ok b ∧ f a = f b := by
  cases h with
  | ok h => exact ⟨_, rfl, h⟩

end Agree

end Declaration

end DeclSchema
