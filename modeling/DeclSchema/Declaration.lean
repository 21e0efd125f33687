import DeclSchema.Text

/-!
# Declarations and type expressions

The abstract form of a declaration file: interfaces, enums and type aliases, with the type
expressions and members in them. Every type expression, member and declaration keeps the raw text
it was read from, since diagnostics and placeholder references quote it.

A part that is absent from a hand-made node (the element of an array, the type of an alias) is
`none`. The constructors named `bare` hold a raw text and nothing else.

## Main definitions

* `TypeExpr`, `Heritage`, `Member`, `Declaration`: the abstract form
* `MemberName`, `LiteralValue`: the key of a member and the value of a literal type
-/

namespace DeclSchema

/-- The value of a literal type: a text, a truth value, or nothing for `null`. -/
inductive LiteralValue where
  | text (t : Text)
  | truth (b : Bool)
  | null
deriving DecidableEq

inductive MemberName where
  /-- An identifier, a string or a number, as the property name that it denotes. -/
  | plain (text : Text)
  /-- A bracketed key `[Namespace.Member]`. -/
  | kindKey (scope member : Text)
  /-- Any other bracketed key, as raw text. -/
  | computed (text : Text)
deriving DecidableEq

namespace MemberName

/-- The text that diagnostics show for a key. -/
def shown : MemberName → Text
  | plain t => t
  | kindKey scope m => Text.ofString "[" ++ scope ++ Text.ofString "." ++ m ++ Text.ofString "]"
  | computed t => t

end MemberName

mutual

/-- Type expressions. -/
inductive TypeExpr where
  /-- The array type `T[]`. -/
  | array (text : Text) (element : Option TypeExpr)
  /-- The union `A | B`. -/
  | union (text : Text) (members : List TypeExpr)
  /-- A literal such as `"x"`, `1`, `true` or `null`; `kind` names the sort of literal. -/
  | literal (text : Text) (kind : Text) (value : LiteralValue)
  | reference (text : Text) (name : Text) (arguments : List TypeExpr)
  /-- A member of a namespace, used as a type. -/
  | qualified (text : Text) (scope member : Text)
  | heritage (base : Heritage)
  | parenthesized (text : Text) (inner : Option TypeExpr)
  /-- A predefined type word such as `string`. -/
  | keyword (text : Text) (word : Text)
  /-- A form that has no schema; `kind` names it. -/
  | unsupported (text : Text) (kind : Text)
  | object (text : Text) (members : List Member)
  /-- A raw text without structure. -/
  | bare (text : Text)
  /-- A whole declaration in the place of a type. -/
  | declared (declaration : Declaration)

/-- An entry of an `extends` clause: a dotted name with type arguments. -/
inductive Heritage where
  | mk (text name : Text) (arguments : List TypeExpr)

/-- Members of an object shape. -/
inductive Member where
  /-- A property `readonly? name?: T`. -/
  | property (text : Text) (name : MemberName) (type : Option TypeExpr) (optional readonly : Bool)
  /-- An index signature `[key: K]: T`. -/
  | index (text : Text) (keyName : Text) (keyType type : Option TypeExpr)
  /-- A method `name(…): T`. -/
  | method (text : Text) (name : MemberName) (returnType : Option TypeExpr)
  /-- A call signature `(…): T`. -/
  | call (text : Text) (returnType : Option TypeExpr)
  /-- A raw text without structure. -/
  | bare (text : Text)

/-- Named declarations. -/
inductive Declaration where
  | interface (name text : Text) (typeParameters : List Text) (heritage : List Heritage)
      (members : List Member)
  | enumeration (name text : Text) (members : List Text)
  | typeAlias (name text : Text) (typeParameters : List Text) (type : Option TypeExpr)
  /-- A name with a raw text. -/
  | bare (name text : Text)

end

instance : Inhabited TypeExpr := ⟨.bare []⟩

instance : Inhabited Heritage := ⟨.mk [] [] []⟩

instance : Inhabited Member := ⟨.bare []⟩

instance : Inhabited Declaration := ⟨.bare [] []⟩

namespace Heritage

def text : Heritage → Text
  | mk t _ _ => t

def name : Heritage → Text
  | mk _ n _ => n

def arguments : Heritage → List TypeExpr
  | mk _ _ as => as

end Heritage

namespace Declaration

def name : Declaration → Text
  | interface n .. => n
  | enumeration n .. => n
  | typeAlias n .. => n
  | bare n _ => n

/-- The type that a declaration stands for: an alias for its type, and any other for itself. -/
def asType : Declaration → Option TypeExpr
  | typeAlias _ _ _ type => type
  | d => some (.declared d)

def text : Declaration → Text
  | interface _ t .. => t
  | enumeration _ t .. => t
  | typeAlias _ t .. => t
  | bare _ t => t

end Declaration

namespace TypeExpr

def text : TypeExpr → Text
  | array t _ => t
  | union t _ => t
  | literal t .. => t
  | reference t .. => t
  | qualified t .. => t
  | heritage h => h.text
  | parenthesized t _ => t
  | keyword t _ => t
  | unsupported t _ => t
  | object t _ => t
  | bare t => t
  | declared d => d.text

end TypeExpr

namespace Member

def text : Member → Text
  | property t .. => t
  | index t .. => t
  | method t .. => t
  | call t _ => t
  | bare t => t

end Member

end DeclSchema
