import DeclSchema.Declaration

/-!
# Nodes of declarations

A declaration is a tree of nodes of several sorts: types, entries of `extends` clauses, members and
bracketed keys. What holds of all nodes of a declaration, whatever their sort, is stated once for
them.

## Main definitions

* `Node`: the nodes
* `Node.text`, `Node.parts`: the text of a node, and the nodes that it is built from
* `Node.names`, `Node.strings`: the other texts of a node, and all that are in none of its parts
* `Node.IsWhole`: no part that a node needs is absent
* `Node.Everywhere`: what holds of a node and of all nodes within it
-/

namespace DeclSchema

/-- A node of a declaration. A bracketed key that is kept as raw text is a node of its own. -/
inductive Node where
  | type (type : TypeExpr)
  | heritage (base : Heritage)
  | member (member : Member)
  | key (text : Text)
  | declaration (declaration : Declaration)

/-- The texts of the value of a literal type. -/
def LiteralValue.strings : LiteralValue → List Text
  | text t => [t]
  | _ => []

/-- The texts of a key. -/
def MemberName.strings : MemberName → List Text
  | plain t => [t]
  | kindKey scope member => [scope, member]
  | computed t => [t]

/-- The node of a bracketed key that is kept as raw text. -/
def MemberName.nodes : MemberName → List Node
  | computed t => [.key t]
  | _ => []

namespace Node

def text : Node → Text
  | type t => t.text
  | heritage base => base.text
  | member m => m.text
  | key t => t
  | declaration d => d.text

/-- The node of a type that may be absent. -/
def ofOptional (t : Option TypeExpr) : List Node :=
  t.toList.map type

/-- The nodes that a type is built from. -/
def partsOfType : TypeExpr → List Node
  | .array _ element => ofOptional element
  | .union _ members => members.map type
  | .reference _ _ arguments => arguments.map type
  | .heritage base => [heritage base]
  | .parenthesized _ inner => ofOptional inner
  | .object _ members => members.map member
  | .declared d => [declaration d]
  | _ => []

/-- The nodes that a member is built from. -/
def partsOfMember : Member → List Node
  | .property _ name t _ _ => name.nodes ++ ofOptional t
  | .index _ _ keyType t => ofOptional keyType ++ ofOptional t
  | .method _ name t => name.nodes ++ ofOptional t
  | .call _ t => ofOptional t
  | .bare _ => []

/-- The nodes that a node is built from. -/
def parts : Node → List Node
  | type t => partsOfType t
  | heritage base => base.arguments.map type
  | member m => partsOfMember m
  | key _ => []
  | declaration (.interface _ _ _ bases members) => bases.map heritage ++ members.map member
  | declaration (.typeAlias _ _ _ t) => ofOptional t
  | declaration _ => []

/-- The texts of a type besides its raw text and those of its parts. -/
def namesOfType : TypeExpr → List Text
  | .literal _ kind value => kind :: value.strings
  | .reference _ name _ => [name]
  | .qualified _ scope name => [scope, name]
  | .keyword _ word => [word]
  | .unsupported _ kind => [kind]
  | _ => []

/-- The texts of a member besides its raw text and those of its parts. -/
def namesOfMember : Member → List Text
  | .property _ name _ _ _ => name.strings
  | .index _ keyName _ _ => [keyName]
  | .method _ name _ => name.strings
  | _ => []

/-- The texts of a declaration besides its raw text and those of its parts. -/
def namesOfDeclaration : Declaration → List Text
  | .interface name _ parameters _ _ => name :: parameters
  | .enumeration name _ members => name :: members
  | .typeAlias name _ parameters _ => name :: parameters
  | .bare name _ => [name]

/-- The texts of a node besides its raw text and those of its parts. -/
def names : Node → List Text
  | type t => namesOfType t
  | heritage base => [base.name]
  | member m => namesOfMember m
  | key _ => []
  | declaration d => namesOfDeclaration d

/-- The texts of a node that are in none of its parts. -/
def strings (n : Node) : List Text :=
  n.text :: n.names

/-- No part that the node needs is absent, and nothing stands in another one's place. -/
def IsWhole : Node → Prop
  | type (.array _ element) => element.isSome
  | type (.parenthesized _ inner) => inner.isSome
  | type (.heritage _) | type (.bare _) | type (.declared _) => False
  | member (.index _ _ keyType t) => keyType.isSome ∧ t.isSome
  | member (.bare _) => False
  | declaration (.typeAlias _ _ _ t) => t.isSome
  | declaration (.bare ..) => False
  | _ => True

theorem heritage_ne_type (base : Heritage) (t : TypeExpr) : heritage base ≠ type t :=
  nofun

theorem declaration_ne_type (d : Declaration) (t : TypeExpr) : declaration d ≠ type t :=
  nofun

/-- What holds of a node and of all nodes within it. -/
inductive Everywhere (p : Node → Prop) : Node → Prop where
  | intro {n : Node} (here : p n) (within : ∀ m ∈ n.parts, Everywhere p m) : Everywhere p n

namespace Everywhere

variable {p q : Node → Prop} {n m : Node}

theorem here (h : Everywhere p n) : p n := by
  cases h
  assumption

theorem part (h : Everywhere p n) (hm : m ∈ n.parts) : Everywhere p m := by
  cases h with
  | intro _ within => exact within m hm

theorem imp (h : Everywhere p n) (hpq : ∀ n, p n → q n) : Everywhere q n := by
  induction h with
  | intro here _ ih => exact .intro (hpq _ here) ih

end Everywhere

end Node

end DeclSchema
