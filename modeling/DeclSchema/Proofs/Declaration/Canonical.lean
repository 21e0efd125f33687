import DeclSchema.Declaration.OfTree
import DeclSchema.Proofs.Declaration.Quoted

/-!
# Canonical sources

Interfaces, enums and type aliases of a plain form, with the declarations that they are and the
source that they are written as. Between two tokens of a canonical source stands a single space.
Every member of an object shape ends with a semicolon, and so does a type alias. A string stands
between double quotes; only what could not stand there as itself is escaped.

The text of a part is the source of its tokens, from the first lexeme to the last one.

## Main definitions

* `Word`, `Identifier`, `Keyword`, `ReferenceName`, `Numeral`: names and numbers as they are written
* `Operand`, `TypeForm`, `Property`: types and members
* `Statement`: declarations
* `Operand.tokens`, `Statement.tokens`, `print`: what they are written as
* `Operand.type`, `Statement.declaration`: what they are
-/

namespace DeclSchema.Canonical

open Grammar

/-! ### Words and numbers -/

/-- A name as it is written; it may be spelled like a word of the grammar. -/
structure Word where
  chars : List Char
  nonempty : chars ≠ []
  nameLength_eq : nameLength chars = chars.length

def Word.text (w : Word) : Text :=
  .ofChars w.chars

/-- A name that is no word of the grammar. -/
structure Identifier extends Word where
  plain : ∀ w ∈ Terminal.words, w.spelling ≠ chars

/-- A predefined type word. -/
structure Keyword extends Identifier where
  predefined : Text.ofChars chars ∈ Declaration.keywordTypes

/-- The names of the literal types. -/
def literalNames : List Text :=
  ["true", "false", "null"].map .ofString

/-- The name of a declaration, as a type. -/
structure ReferenceName extends Identifier where
  notPredefined : Text.ofChars chars ∉ literalNames ++ Declaration.keywordTypes

/-- A number as it is written. -/
structure Numeral where
  chars : List Char
  nonempty : chars ≠ []
  numberLength_eq : numberLength chars = chars.length

/-! ### Tokens -/

/-- A lexeme with a space before it. -/
def spaced (t : Terminal) (lexeme : List Char) : Token :=
  ⟨t, [' '], lexeme⟩

/-- A word or mark of the grammar. -/
def mark (t : Terminal) : Token :=
  spaced t t.spelling

def Word.token (w : Word) : Token :=
  spaced .name w.chars

def Numeral.token (n : Numeral) : Token :=
  spaced .number n.chars

def stringToken (t : Text) : Token :=
  spaced .string (Escape.quoted t)

/-- The text of tokens. -/
def textOf (ks : List Token) : Text :=
  .ofChars (Tree.spelling ks)

/-- Lists of tokens, each after a separator. -/
def continued (separator : Terminal) (items : List (List Token)) : List Token :=
  items.flatMap (mark separator :: ·)

/-! ### Keys -/

/-- The key of a property or an enum member that stands in no brackets. -/
inductive PlainKey where
  | word (w : Word)
  | string (t : Text)
  | number (n : Numeral)

namespace PlainKey

/-- The word `readonly` is a token of its own in front of a member. -/
def token : PlainKey → Token
  | word w => if w.chars = Terminal.readonlyWord.spelling then mark .readonlyWord else w.token
  | string t => stringToken t
  | number n => n.token

def text : PlainKey → Text
  | word w => w.text
  | string t => t
  | number n => .ofChars n.chars

end PlainKey

inductive Key where
  | plain (key : PlainKey)
  /-- The key `[scope.member]`. -/
  | member (scope member : Word)
  /-- The key `[name]`. -/
  | computed (name : Word)

namespace Key

def tokens : Key → List Token
  | plain key => [key.token]
  | member scope m =>
    [mark .openBracket, scope.token, mark .dot, m.token, mark .closeBracket]
  | computed name => [mark .openBracket, name.token, mark .closeBracket]

def name : Key → MemberName
  | plain key => .plain key.text
  | member scope m => .kindKey scope.text m.text
  | computed n => .computed (textOf (computed n).tokens)

end Key

/-! ### Types -/

/-- The types that are written as a single name. -/
inductive Simple where
  | keyword (word : Keyword)
  | truth (b : Bool)
  | null
  | reference (name : ReferenceName)

namespace Simple

def chars : Simple → List Char
  | keyword word => word.chars
  | truth true => "true".toList
  | truth false => "false".toList
  | null => "null".toList
  | reference name => name.chars

def type (s : Simple) : TypeExpr :=
  let text := Text.ofChars s.chars
  match s with
  | keyword _ => .keyword text text
  | truth b => .literal text (.ofString "boolean") (.truth b)
  | null => .literal text (.ofString "null") .null
  | reference _ => .reference text text []

end Simple

mutual

/-- Types that may stand in front of brackets and between the bars of a union. -/
inductive Operand where
  | simple (s : Simple)
  /-- The type `name<first, …>`. -/
  | generic (name : Identifier) (first : TypeForm) (more : List TypeForm)
  /-- The type `scope.….member`. -/
  | qualified (scope : Identifier) (middle : List Word) (member : Word)
  | string (value : Text)
  | number (n : Numeral)
  | negative (n : Numeral)
  | parenthesized (inner : TypeForm)
  | array (element : Operand)
  | object (members : List Property)

/-- A union of operands; without further ones it is the first operand itself. -/
inductive TypeForm where
  | union (head : Operand) (more : List Operand)

/-- Properties of an object shape. -/
inductive Property where
  | mk (readonly : Bool) (key : Key) (optional : Bool) (type : Option TypeForm)

end

mutual

def Operand.tokens (o : Operand) : List Token :=
  match o with
  | .simple s => [spaced .name s.chars]
  | .generic name first more =>
    name.token :: mark .less :: (first.tokens ++ tokensOfTypes more ++ [mark .greater])
  | .qualified scope middle member =>
    scope.token :: continued .dot ((middle ++ [member]).map ([·.token]))
  | .string value => [stringToken value]
  | .number n => [n.token]
  | .negative n => [mark .minus, n.token]
  | .parenthesized inner => mark .openParen :: (inner.tokens ++ [mark .closeParen])
  | .array element => element.tokens ++ [mark .openBracket, mark .closeBracket]
  | .object members => mark .openBrace :: (tokensOfProperties members ++ [mark .closeBrace])
termination_by structural o

def TypeForm.tokens (t : TypeForm) : List Token :=
  match t with
  | .union head more => head.tokens ++ tokensOfOperands more
termination_by structural t

/-- The further operands of a union, each after a bar. -/
def tokensOfOperands (os : List Operand) : List Token :=
  match os with
  | [] => []
  | o :: more => mark .bar :: (o.tokens ++ tokensOfOperands more)
termination_by structural os

/-- Further type arguments, each after a comma. -/
def tokensOfTypes (ts : List TypeForm) : List Token :=
  match ts with
  | [] => []
  | t :: more => mark .comma :: (t.tokens ++ tokensOfTypes more)
termination_by structural ts

def Property.tokens (p : Property) : List Token :=
  match p with
  | .mk readonly key optional type =>
    (if readonly then [mark .readonlyWord] else []) ++ key.tokens
      ++ ((if optional then [mark .question] else []) ++ tokensOfAnnotated type)
termination_by structural p

def tokensOfAnnotated (t : Option TypeForm) : List Token :=
  match t with
  | none => []
  | some t => mark .colon :: t.tokens
termination_by structural t

/-- Properties, each with its semicolon. -/
def tokensOfProperties (ps : List Property) : List Token :=
  match ps with
  | [] => []
  | p :: more => p.tokens ++ mark .semicolon :: tokensOfProperties more
termination_by structural ps

end

/-- The literal type of a number that is written as `text`. -/
def Numeral.type (n : Numeral) (text : Text) : TypeExpr :=
  .literal text (.ofString (if n.chars.getLast? == some 'n' then "bigint" else "number"))
    (.text text)

/-- The union of types that is written as `text`, if there is more than one of them. -/
def unionType (text : Text) (head : TypeExpr) : List TypeExpr → TypeExpr
  | [] => head
  | more => .union text (head :: more)

mutual

def Operand.type (o : Operand) : TypeExpr :=
  match o with
  | .simple s => s.type
  | .generic name first more =>
    .reference (textOf o.tokens) name.text (first.type :: typesOf more)
  | .qualified scope middle member =>
    .qualified (textOf o.tokens)
      (.joined (.ofString ".") (scope.text :: middle.map (·.text))) member.text
  | .string value => .literal (textOf o.tokens) (.ofString "string") (.text value)
  | .number n => n.type (textOf o.tokens)
  | .negative n => n.type (textOf o.tokens)
  | .parenthesized inner => .parenthesized (textOf o.tokens) (some inner.type)
  | .array element => .array (textOf o.tokens) (some element.type)
  | .object members => .object (textOf o.tokens) (membersOf members)
termination_by structural o

def TypeForm.type (t : TypeForm) : TypeExpr :=
  match t with
  | .union head more => unionType (textOf t.tokens) head.type (typesOfOperands more)
termination_by structural t

def typesOfOperands (os : List Operand) : List TypeExpr :=
  match os with
  | [] => []
  | o :: more => o.type :: typesOfOperands more
termination_by structural os

def typesOf (ts : List TypeForm) : List TypeExpr :=
  match ts with
  | [] => []
  | t :: more => t.type :: typesOf more
termination_by structural ts

def Property.member (p : Property) : Member :=
  match p with
  | .mk readonly key optional type =>
    .property (textOf p.tokens) key.name (annotationOf type) optional readonly
termination_by structural p

def annotationOf (t : Option TypeForm) : Option TypeExpr :=
  match t with
  | none => none
  | some t => some t.type
termination_by structural t

def membersOf (ps : List Property) : List Member :=
  match ps with
  | [] => []
  | p :: more => p.member :: membersOf more
termination_by structural ps

end

/-! ### Declarations -/

/-- Type parameters or type arguments between angle brackets, if there are any. -/
def bracketed : List (List Token) → List Token
  | [] => []
  | first :: more => mark .less :: (first ++ continued .comma more ++ [mark .greater])

/-- Entries of an `extends` clause. -/
structure HeritageForm where
  first : Word
  more : List Word
  arguments : List TypeForm

namespace HeritageForm

def tokens (h : HeritageForm) : List Token :=
  h.first.token :: continued .dot (h.more.map ([·.token]))
    ++ bracketed (h.arguments.map (·.tokens))

def heritage (h : HeritageForm) : Heritage :=
  ⟨textOf h.tokens, .joined (.ofString ".") (h.first.text :: h.more.map (·.text)),
    h.arguments.map (·.type)⟩

end HeritageForm

/-- An `extends` clause, if there are any entries. -/
def extending : List HeritageForm → List Token
  | [] => []
  | first :: more => mark .extendsWord :: (first.tokens ++ continued .comma (more.map (·.tokens)))

/-- The members of an enum. -/
def enumerated : List PlainKey → List Token
  | [] => []
  | first :: more => first.token :: continued .comma (more.map ([·.token]))

/-- Declarations. -/
inductive Statement where
  | interface (name : Word) (parameters : List Word) (heritage : List HeritageForm)
      (members : List Property)
  | enumeration (name : Word) (members : List PlainKey)
  | typeAlias (name : Word) (parameters : List Word) (type : TypeForm)

namespace Statement

/-- The word that a declaration starts with. -/
def head : Statement → Terminal
  | interface .. => .interfaceWord
  | enumeration .. => .enumWord
  | typeAlias .. => .typeWord

/-- What follows the first word of a declaration. -/
def tail : Statement → List Token
  | interface name parameters heritage members =>
    name.token :: (bracketed (parameters.map ([·.token])) ++ extending heritage
      ++ mark .openBrace :: tokensOfProperties members ++ [mark .closeBrace])
  | enumeration name members =>
    name.token :: mark .openBrace :: (enumerated members ++ [mark .closeBrace])
  | typeAlias name parameters type =>
    name.token :: (bracketed (parameters.map ([·.token]))
      ++ mark .equals :: type.tokens ++ [mark .semicolon])

def tokens (s : Statement) : List Token :=
  mark s.head :: s.tail

def declaration (s : Statement) : Declaration :=
  match s with
  | interface name parameters heritage members =>
    .interface name.text (textOf s.tokens) (parameters.map (·.text)) (heritage.map (·.heritage))
      (membersOf members)
  | enumeration name members => .enumeration name.text (textOf s.tokens) (members.map (·.text))
  | typeAlias name parameters type =>
    .typeAlias name.text (textOf s.tokens) (parameters.map (·.text)) (some type.type)

end Statement

/-- The canonical source of declarations. -/
def print (ss : List Statement) : List Char :=
  Tree.spelling (ss.flatMap (·.tokens))

end DeclSchema.Canonical
