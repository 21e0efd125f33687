import DeclSchema.Declaration
import DeclSchema.Declaration.Escape
import DeclSchema.Grammar.Tree

/-!
# Declarations of a syntax tree

Turns the syntax tree of a declaration file into its declarations. Forms of types that have no
schema are kept as raw text with the name of the form, and nothing inside them is looked at. The
text of a union, an array or a type in parentheses runs over all of its tokens; a leading bar in
front of a single type belongs to no type.

## Main definitions

* `Chain`: a type whose operands are being read from left to right
* `typeOf`, `memberOf`, `declarationOf`: types, members and declarations of trees
* `declarations`: the declarations of the statements of a file
-/

namespace DeclSchema.Declaration

open Grammar Grammar.Tree Escape

/-! ### Leaves -/

/-- The lexeme of a token, as a text. -/
def lexemeOf (t : Token) : Text :=
  .ofChars t.lexeme

/-- The property name that a key spells: a string without its quotes, and any other key as it is. -/
def keyOf (t : Token) : Decoded Text :=
  match t.terminal with
  | .string => unquote t.lexeme
  | _ => .ok (lexemeOf t)

def dottedNames : Tree → List Text
  | .node _ [_, .leaf n, rest] => lexemeOf n :: dottedNames rest
  | _ => []

def parameterNames : Tree → List Text
  | .node .typeParameters [_, list] => parameterNames list
  | .node .typeParameterList [first, more, _] => parameterNames first ++ parameterNames more
  | .node .moreTypeParameters [_, first, more] => parameterNames first ++ parameterNames more
  | .node .typeParameter (.leaf n :: _) => [lexemeOf n]
  | _ => []

/-! ### Small type expressions -/

def keywordTypes : List Text :=
  ["any", "bigint", "boolean", "never", "number", "object", "string", "symbol", "undefined",
   "unknown", "void"].map Text.ofString

def stringLiteral (text : Text) (t : Token) : Decoded TypeExpr :=
  return .literal text (.ofString "string") (.text (← unquote t.lexeme))

/-- The literal type of a number, whose value is its raw text. -/
def numberLiteral (text : Text) (t : Token) : TypeExpr :=
  .literal text (.ofString (if t.lexeme.getLast? == some 'n' then "bigint" else "number"))
    (.text text)

/-- The type that a name without type arguments denotes. -/
def namedType (text name : Text) : TypeExpr :=
  if name = .ofString "true" then .literal text (.ofString "boolean") (.truth true)
  else if name = .ofString "false" then .literal text (.ofString "boolean") (.truth false)
  else if name = .ofString "null" then .literal text (.ofString "null") .null
  else if keywordTypes.contains name then .keyword text name
  else .reference text name []

/-- The type that a dotted name with type arguments denotes. -/
def referenceType (text : Text) (names : List Text) (arguments : List TypeExpr) : TypeExpr :=
  match names.reverse, arguments with
  | last :: before :: front, _ =>
    .qualified text (.joined (.ofString ".") (before :: front).reverse) last
  | [name], [] => namedType text name
  | [name], args => .reference text name args
  | [], _ => .bare text

/-- A form of type that has no schema. -/
def unsupported (trees : List Tree) (kind : String) : Decoded TypeExpr :=
  .ok (.unsupported (textOf trees) (.ofString kind))

/-- The property whose key is the word `readonly` and which has no type. -/
def readonlyKey (word : Token) : Member :=
  .property (textOf [.leaf word]) (.plain (lexemeOf word)) none false false

/-! ### Chains of operands -/

/-- A type whose operands are being read: all of its trees, the members of the union that are
complete, and the intersection in progress with its trees, the number of its operands and the last
of them. -/
structure Chain where
  whole : List Tree
  members : List (Decoded TypeExpr)
  trees : List Tree
  operands : Nat
  operand : Decoded TypeExpr

namespace Chain

/-- A chain that starts with one operand. -/
def start (whole trees : List Tree) (operand : Decoded TypeExpr) : Chain :=
  ⟨whole, [], trees, 1, operand⟩

/-- The intersection in progress, as a member of the union. -/
def member (c : Chain) : Decoded TypeExpr :=
  if c.operands = 1 then c.operand else unsupported c.trees "IntersectionType"

/-- The operand in progress, followed by brackets. -/
def suffixed (c : Chain) (trees : List Tree) (operand : Decoded TypeExpr) : Chain :=
  { c with trees := trees, operand := operand }

/-- The intersection in progress, followed by another operand. -/
def intersected (c : Chain) (more : List Tree) : Chain :=
  { c with trees := c.trees ++ more, operands := c.operands + 1 }

/-- The union in progress, followed by another member. -/
def united (c : Chain) (tree : Tree) (next : Decoded TypeExpr) : Chain :=
  { c with members := c.members ++ [c.member], trees := [tree], operands := 1, operand := next }

/-- The type of a chain that has no more operands. -/
def finish (c : Chain) : Decoded TypeExpr :=
  match c.members with
  | [] => c.member
  | ms => return .union (textOf c.whole) (← (ms ++ [c.member]).mapM id)

end Chain

/-- The type that an operand becomes when brackets follow it: an array if they are empty. -/
def suffixedType (trees : List Tree) (operand : Decoded TypeExpr) : Tree → Decoded TypeExpr
  | .node _ [_] => return .array (textOf trees) (some (← operand))
  | _ => unsupported trees "IndexedAccessType"

/-! ### Types and members -/

mutual

def typeOf (t : Tree) : Decoded TypeExpr :=
  match t with
  | .node _ [.leaf head, rest] =>
    if head.terminal = .openParen then parenthesisOf [t] head rest
    else unsupported [t] "ConstructorType"
  | .node _ [.leaf head, first, rest] =>
    match head.terminal with
    | .bar => chainOf (.start [t] [first] (intersectionOf first)) rest
    | .ampersand => chainOf (.start [t] [.leaf head, first] (operatorOf first)) rest
    | _ => unsupported [t] "ConstructorType"
  | .node _ [first, rest] => chainOf (.start [t] [first] (operatorOf first)) rest
  | _ => unsupported [t] "FunctionType"
termination_by structural t

/-- The type of a chain and what may follow its operand. -/
def chainOf (c : Chain) (t : Tree) : Decoded TypeExpr :=
  match t with
  | .node _ [] => c.finish
  | .node _ [rest] => chainOf c rest
  | .node _ [.leaf head, next, rest] =>
    match head.terminal with
    | .openBracket =>
      let trees := c.trees ++ [.leaf head, next]
      chainOf (c.suffixed trees (suffixedType trees c.operand next)) rest
    | .ampersand => chainOf (c.intersected [.leaf head, next]) rest
    | _ => chainOf (c.united next (intersectionOf next)) rest
  | _ => unsupported c.whole "ConditionalType"
termination_by structural t

/-- The type of a dotted name and what may follow it, where `names` have been read from `trees` and
`whole` are the trees of the type. -/
def namedOf (whole trees : List Tree) (names : List Text) (t : Tree) : Decoded TypeExpr :=
  match t with
  | .node _ [.leaf mark, .leaf name, rest] =>
    namedOf whole (trees ++ [.leaf mark, .leaf name]) (names ++ [lexemeOf name]) rest
  | .node _ [opening, first, more, closing, rest] =>
    let trees := trees ++ [opening, first, more, closing]
    let arguments := do return (← typeOf first) :: (← moreTypesOf more)
    chainOf (.start whole trees (referenceType (textOf trees) names <$> arguments)) rest
  | .node _ [rest] =>
    chainOf (.start whole trees (.ok (referenceType (textOf trees) names []))) rest
  | _ => .ok (referenceType (textOf trees) names [])
termination_by structural t

/-- The type after an opening parenthesis at the start of a type. -/
def parenthesisOf (whole : List Tree) (opening : Token) (t : Tree) : Decoded TypeExpr :=
  match t with
  | .node _ [.leaf name, .node _ [.leaf closing, rest]] =>
    afterParenthesisOf whole [.leaf opening, .leaf name, .leaf closing]
      (.ok (referenceType (lexemeOf name) [lexemeOf name] [])) rest
  | .node _ [.leaf _, .node _ [.leaf _, _, _]] => unsupported whole "FunctionType"
  | .node _ [.leaf name, .node _ [named, closing, rest]] =>
    afterParenthesisOf whole [.leaf opening, .leaf name, named, closing]
      (namedOf [.leaf name, named] [.leaf name] [lexemeOf name] named) rest
  | .node _ [.leaf _, _, _] => unsupported whole "FunctionType"
  | .node _ [inner, closing, rest] =>
    afterParenthesisOf whole [.leaf opening, inner, closing] (typeOf inner) rest
  | _ => unsupported whole "FunctionType"
termination_by structural t

/-- The type after a type in parentheses, which are `trees`, at the start of a type. -/
def afterParenthesisOf (whole trees : List Tree) (inner : Decoded TypeExpr) (t : Tree) :
    Decoded TypeExpr :=
  let operand := do return TypeExpr.parenthesized (textOf trees) (some (← inner))
  match t with
  | .node _ [] => operand
  | .node _ [rest] => chainOf (.start whole trees operand) rest
  | _ => unsupported whole "FunctionType"
termination_by structural t

def intersectionOf (t : Tree) : Decoded TypeExpr :=
  match t with
  | .node _ [.leaf _, first, .node _ []] => operatorOf first
  | .node _ [first, .node _ []] => operatorOf first
  | _ => unsupported [t] "IntersectionType"
termination_by structural t

def operatorOf (t : Tree) : Decoded TypeExpr :=
  match t with
  | .node _ [.leaf head, _] =>
    unsupported [t] (if head.terminal = .inferWord then "InferType" else "TypeOperator")
  | .node _ [first, rest] => suffixesOf [first] (primaryOf first) rest
  | _ => unsupported [t] "TypeOperator"
termination_by structural t

/-- The type of an operand and the brackets that follow it. -/
def suffixesOf (trees : List Tree) (operand : Decoded TypeExpr) (t : Tree) : Decoded TypeExpr :=
  match t with
  | .node _ [opening, next, rest] =>
    let trees := trees ++ [opening, next]
    suffixesOf trees (suffixedType trees operand next) rest
  | _ => operand
termination_by structural t

def primaryOf (t : Tree) : Decoded TypeExpr :=
  match t with
  | .node _ [.leaf token] =>
    match token.terminal with
    | .string => stringLiteral (textOf [t]) token
    | .number => .ok (numberLiteral (textOf [t]) token)
    | _ => unsupported [t] "TemplateLiteralType"
  | .node _ [.leaf _, .leaf token] => .ok (numberLiteral (textOf [t]) token)
  | .node _ [.leaf head, next] =>
    match head.terminal with
    | .openBrace => bracedOf [t] next
    | .typeofWord => unsupported [t] "TypeQuery"
    | _ => unsupported [t] "ImportType"
  | .node _ [.leaf head, next, last] =>
    match head.terminal with
    | .openParen => return .parenthesized (textOf [t]) (some (← typeOf next))
    | .name =>
      return referenceType (textOf [t]) (lexemeOf head :: dottedNames next)
        (← typeArgumentsOf last)
    | _ => unsupported [t] "TupleType"
  | _ => unsupported [t] "TupleType"
termination_by structural t

def typeArgumentsOf (t : Tree) : Decoded (List TypeExpr) :=
  match t with
  | .node _ [_, first, more, _] => return (← typeOf first) :: (← moreTypesOf more)
  | _ => .ok []
termination_by structural t

def moreTypesOf (t : Tree) : Decoded (List TypeExpr) :=
  match t with
  | .node _ [_, first, more] => return (← typeOf first) :: (← moreTypesOf more)
  | _ => .ok []
termination_by structural t

/-- The type in braces of a tree of `braced`, where `whole` has the opening brace too. -/
def bracedOf (whole : List Tree) (t : Tree) : Decoded TypeExpr :=
  match t with
  | .node _ [_] => .ok (.object (textOf whole) [])
  | .node _ [.leaf head, rest] =>
    if head.terminal = .openBracket then bracedBracketedOf whole [] head false rest
    else bracedReadonlyOf whole head rest
  | .node _ [first, rest, _] =>
    return .object (textOf whole) ((← memberOf first) :: (← memberEndOf rest))
  | _ => unsupported whole "MappedType"
termination_by structural t

/-- The type in braces that starts with the word `readonly`. -/
def bracedReadonlyOf (whole : List Tree) (word : Token) (t : Tree) : Decoded TypeExpr :=
  match t with
  | .node _ [.leaf bracket, rest] => bracedBracketedOf whole [.leaf word] bracket true rest
  | .node _ [first, rest, _] =>
    return .object (textOf whole) ((← readonlyRestOf word first) :: (← memberEndOf rest))
  | .node _ [rest, _] =>
    return .object (textOf whole) (readonlyKey word :: (← memberEndOf rest))
  | _ => .ok (.object (textOf whole) [readonlyKey word])
termination_by structural t

/-- The type in braces whose first member starts with a bracket, after the trees `front`. -/
def bracedBracketedOf (whole front : List Tree) (bracket : Token) (ro : Bool) (t : Tree) :
    Decoded TypeExpr :=
  match t with
  | .node _ [.leaf name, .node _ [first, rest, _]] =>
    return .object (textOf whole)
      ((← bracketedNameOf front bracket ro name first) :: (← memberEndOf rest))
  | .node _ [key, closing, after, rest, _] =>
    let computed := MemberName.computed (textOf [.leaf bracket, key, closing])
    return .object (textOf whole)
      ((← keyRestOf (front ++ [.leaf bracket, key, closing]) (.ok computed) ro after)
        :: (← memberEndOf rest))
  | _ => unsupported whole "MappedType"
termination_by structural t

def membersOf (t : Tree) : Decoded (List Member) :=
  match t with
  | .node _ [first, rest] => return (← memberOf first) :: (← memberEndOf rest)
  | _ => .ok []
termination_by structural t

def memberEndOf (t : Tree) : Decoded (List Member) :=
  match t with
  | .node _ [_, rest] => membersOf rest
  | _ => .ok []
termination_by structural t

def memberOf (t : Tree) : Decoded Member :=
  match t with
  | .node _ [.leaf head, rest] =>
    match head.terminal with
    | .readonlyWord => readonlyRestOf head rest
    | .openBracket => bracketedOf [] head false rest
    | _ => keyRestOf [.leaf head] (MemberName.plain <$> keyOf head) false rest
  | .node _ [_, _, _, last] => return .call (textOf [t]) (← resultOf last)
  | .node _ [_, _, _, _, _, last] => return .call (textOf [t]) (← resultOf last)
  | _ => .ok (.bare (textOf [t]))
termination_by structural t

/-- The member that starts with the word `readonly`, which is a modifier or the key itself. -/
def readonlyRestOf (word : Token) (t : Tree) : Decoded Member :=
  match t with
  | .node _ [.leaf key, rest] =>
    if key.terminal = .openBracket then bracketedOf [.leaf word] key true rest
    else keyRestOf [.leaf word, .leaf key] (MemberName.plain <$> keyOf key) true rest
  | .node _ [rest] => keyRestOf [.leaf word] (.ok (.plain (lexemeOf word))) false rest
  | _ => .ok (readonlyKey word)
termination_by structural t

/-- The member that starts with a bracket, after the trees `front`. -/
def bracketedOf (front : List Tree) (bracket : Token) (ro : Bool) (t : Tree) : Decoded Member :=
  match t with
  | .node _ [.leaf name, rest] => bracketedNameOf front bracket ro name rest
  | .node _ [key, closing, after] =>
    keyRestOf (front ++ [.leaf bracket, key, closing])
      (.ok (.computed (textOf [.leaf bracket, key, closing]))) ro after
  | _ => .ok (.bare (textOf (front ++ [.leaf bracket, t])))
termination_by structural t

/-- The member that starts with a bracket and a name, after the trees `front`: an index signature,
or a property or method with a bracketed key. -/
def bracketedNameOf (front : List Tree) (bracket : Token) (ro : Bool) (name : Token) (t : Tree) :
    Decoded Member :=
  match t with
  | .node _ [closing, after] =>
    keyRestOf (front ++ [.leaf bracket, .leaf name, closing])
      (.ok (.computed (textOf [.leaf bracket, .leaf name, closing]))) ro after
  | .node _ [.leaf mark, .leaf second, dotted, closing, after] =>
    let trees := [.leaf bracket, .leaf name, .leaf mark, .leaf second, dotted, closing]
    let key :=
      match dotted with
      | .node _ [] => MemberName.kindKey (lexemeOf name) (lexemeOf second)
      | _ => .computed (textOf trees)
    keyRestOf (front ++ trees) (.ok key) ro after
  | .node _ [_, keyType, _, _, type] => do
    let type ← typeOf type
    return .index (textOf (front ++ [.leaf bracket, .leaf name, t])) (lexemeOf name)
      (some (← typeOf keyType)) (some type)
  | _ => .ok (.bare (textOf (front ++ [.leaf bracket, .leaf name, t])))
termination_by structural t

/-- The member whose key is the trees `front`, `readonly` or not, and what follows the key. -/
def keyRestOf (front : List Tree) (name : Decoded MemberName) (ro : Bool) (t : Tree) :
    Decoded Member :=
  match t with
  | .node _ [.leaf mark, rest] => signatureOf (front ++ [.leaf mark]) name true ro rest
  | .node _ [rest] => signatureOf front name false ro rest
  | _ => return .property (textOf front) (← name) none false ro
termination_by structural t

/-- The member whose key and optional mark are the trees `front`, and what follows them: the type of
a property, or the parameters and the result of a method. The type comes before the key. -/
def signatureOf (front : List Tree) (name : Decoded MemberName) (optional ro : Bool) (t : Tree) :
    Decoded Member :=
  let text := textOf (front ++ [t])
  match t with
  | .node _ [_, type] => do
    let type ← typeOf type
    return .property text (← name) (some type) optional ro
  | .node _ [_, _, _, last] => do
    let result ← resultOf last
    return .method text (← name) result
  | .node _ [_, _, _, _, _, last] => do
    let result ← resultOf last
    return .method text (← name) result
  | _ => return .property text (← name) none optional ro
termination_by structural t

/-- The type of a tree of `result`, if there is one. -/
def resultOf (t : Tree) : Decoded (Option TypeExpr) :=
  match t with
  | .node _ [_, type] => return some (← returnTypeOf type)
  | _ => .ok none
termination_by structural t

def returnTypeOf (t : Tree) : Decoded TypeExpr :=
  match t with
  | .node _ [.leaf name, .node _ []] => .ok (referenceType (textOf [t]) [lexemeOf name] [])
  | .node _ [.leaf name, .node _ [rest]] => namedOf [t] [.leaf name] [lexemeOf name] rest
  | .node _ [type] => typeOf type
  | _ => unsupported [t] "TypePredicate"
termination_by structural t

end

/-! ### Declarations -/

def heritageOf (t : Tree) : Decoded Heritage :=
  match t with
  | .node _ [.leaf name, dotted, arguments] =>
    return ⟨textOf [t], .joined (.ofString ".") (lexemeOf name :: dottedNames dotted),
      ← typeArgumentsOf arguments⟩
  | _ => .ok ⟨textOf [t], [], []⟩

/-- The entries of an `extends` clause, or of what follows one of its entries. -/
def heritageListOf : Tree → Decoded (List Heritage)
  | .node _ [_, first, more] => return (← heritageOf first) :: (← heritageListOf more)
  | _ => .ok []

/-- The member names of an enum, or of what follows one of its members. -/
def enumMembersOf : Tree → Decoded (List Text)
  | .node .enumMembers [.node _ [.leaf key], _, more] =>
    return (← keyOf key) :: (← enumMembersOf more)
  | .node .moreEnumMembers [_, rest] => enumMembersOf rest
  | _ => .ok []

/-- The enum whose trees are `whole` and whose name and body are a tree of `enumBody`. -/
def enumerationOf (whole : List Tree) : Tree → Decoded (Option Declaration)
  | .node _ [.leaf name, _, members, _, _] =>
    return some (.enumeration (lexemeOf name) (textOf whole) (← enumMembersOf members))
  | _ => .ok none

/-- The type alias whose trees are `whole` and whose name and type are a tree of `aliasBody`. -/
def aliasOf (whole : List Tree) : Tree → Decoded (Option Declaration)
  | .node .aliasBody [.leaf name, parameters, _, type, _] =>
    return some (.typeAlias (lexemeOf name) (textOf whole) (parameterNames parameters)
      (some (← typeOf type)))
  | _ => .ok none

/-- The declaration of a statement without its modifiers, if it is no skipped statement. -/
def declarationOf (t : Tree) : Decoded (Option Declaration) :=
  match t with
  | .node .exported [.leaf _, rest] => declarationOf rest
  | .node .exported [rest] => declarationOf rest
  | .node .exportedPlain [rest] => declarationOf rest
  | .node .declared [.leaf word, .node _ [body]] => aliasOf [.leaf word, body] body
  | .node .declared [rest] => declarationOf rest
  | .node .definition [_, .leaf name, parameters, heritage, _, members, _, _] => do
    let heritage ← heritageListOf heritage
    return some (.interface (lexemeOf name) (textOf [t]) (parameterNames parameters) heritage
      (← membersOf members))
  | .node .definition [_, .node .enumBody children] =>
    enumerationOf [t] (.node .enumBody children)
  | .node .definition [_, .node .constant [_, body]] => enumerationOf [t] body
  | _ => .ok none

/-- The declarations of a tree of `statements`, in order. -/
def declarationsOf : Tree → Decoded (List Declaration)
  | .node _ [.leaf word, body, rest] => do
    let d ←
      if word.terminal = .typeWord then aliasOf [.leaf word, body] body
      else declarationOf body
    return d.toList ++ (← declarationsOf rest)
  | .node _ [body, rest] => do
    let d ← declarationOf body
    return d.toList ++ (← declarationsOf rest)
  | _ => .ok []

end DeclSchema.Declaration
