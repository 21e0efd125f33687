import DeclSchema.Grammar.Terminal

/-!
# The grammar of declaration files

The grammar is predictive: the next terminal alone decides which branch of a nonterminal is
taken. A branch is led either by a terminal of its own or by another nonterminal, and the
first branch that the terminal can start is the one that is taken. Names end where they may
turn out to be the start of something else, so that `(a` and `[a` are decided one terminal later.

Interfaces, enums and type aliases are read in full. Every other statement is read as a run of
lexemes in balanced brackets that ends at a semicolon or after a block.

## Main definitions

* `Nonterminal`, `Symbol`, `Branch`: the parts of the grammar
* `Nonterminal.branches`, `Nonterminal.mayBeEmpty`: the rules
* `starts`, `expects`: the terminals that may come next
* `branch?`: the branch that a terminal selects
-/

namespace DeclSchema.Grammar

/-- The nonterminals of the grammar. -/
inductive Nonterminal where
  /-- All statements of a file. -/
  | statements
  | exported
  /-- What follows `export default`, and `export` where no other word follows. -/
  | exportedPlain
  | declared
  /-- An interface, an enum, or what starts with `const`. -/
  | definition
  | constant
  | enumBody
  /-- The name, the parameters and the type of a type alias. -/
  | aliasBody
  /-- What follows `type` after a modifier. -/
  | modifiedType
  /-- A statement that is skipped, from its word on. -/
  | skippedStatement
  /-- The rest of a statement that is skipped. -/
  | skipped
  /-- What may still follow a block at the top of a skipped statement. -/
  | skippedAfterBlock
  /-- The rest of a list of types that is exported, up to its semicolon. -/
  | exportList
  /-- The rest of a list of types after a block, where the statement words are reserved. -/
  | exportListAfterBlock
  /-- Anything in balanced brackets. -/
  | inner
  | typeParameters
  /-- Type parameters from the opening angle bracket's right side on. -/
  | typeParameterList
  | typeParameter
  | moreTypeParameters
  | bound
  | defaultType
  | heritage
  | heritageType
  | moreHeritage
  /-- The rest of a dotted name. -/
  | dotted
  | typeArguments
  | moreTypes
  | optionalSemicolon
  | enumMembers
  | enumMember
  | moreEnumMembers
  | initializer
  | initializerWords
  | moreInitializerWords
  /-- Members of an object shape, up to its closing brace. -/
  | members
  | member
  /-- The separator after a member and the members that follow. -/
  | memberEnd
  /-- What follows the key of a member. -/
  | keyRest
  /-- What follows the key and the optional mark of a member. -/
  | signatureRest
  /-- What follows the word `readonly` at the start of a member. -/
  | readonlyRest
  /-- What follows the key of a property that cannot be a method. -/
  | propertyRest
  | annotation
  /-- What follows an opening bracket at the start of a member, with or without `readonly`. -/
  | bracketed (afterReadonly : Bool)
  /-- What follows an opening bracket and a name at the start of a member. -/
  | bracketedName (afterReadonly : Bool)
  /-- What follows an opening brace in the place of a type. -/
  | braced
  /-- What follows an opening brace and `readonly` in the place of a type. -/
  | bracedReadonly
  /-- What follows an opening bracket at the start of the first member in the place of a type. -/
  | bracedBracketed (afterReadonly : Bool)
  /-- What follows an opening bracket and a name at the start of the first member in the place of
  a type. -/
  | bracedName (afterReadonly : Bool)
  /-- A mapped type, from the set of its keys on. -/
  | mapped
  /-- The renamed key of a mapped type, if any. -/
  | renamed
  /-- The optional mark of a mapped type, if any. -/
  | mappedOptional
  | optionalSeparator
  | parameters
  | parameter
  | parameterRest
  | moreParameters
  /-- What a parameter binds. -/
  | binding
  | result
  /-- The type or the predicate that a function returns. -/
  | returnType
  /-- What follows a name at the start of the type that a function returns. -/
  | returnName
  /-- What `asserts` claims of a name, if it names a type. -/
  | asserted
  /-- A type. The branch of a conditional type that is tested against is no conditional type. -/
  | type (mayBeConditional : Bool)
  /-- What may follow an operand of a type: more operands, or the test of a conditional type. -/
  | typeRest (mayBeConditional : Bool)
  /-- What may follow an operand that is a name or in parentheses: brackets come first. -/
  | suffixedRest (mayBeConditional : Bool)
  /-- What may follow a name at the start of a type. -/
  | namedRest (mayBeConditional : Bool)
  /-- What follows an opening parenthesis at the start of a type. -/
  | parenthesis (mayBeConditional : Bool)
  /-- What follows an opening parenthesis and a name at the start of a type. -/
  | parenthesisName (mayBeConditional : Bool)
  /-- What follows a closing parenthesis around a type at the start of a type. -/
  | parenthesisEnd (mayBeConditional : Bool)
  /-- Parameters after the first one of a function type, its result included. -/
  | functionRest
  /-- What follows `new`. -/
  | constructorRest
  /-- A member of a union. -/
  | intersection
  | moreOperands
  /-- A member of an intersection. -/
  | operator
  | primary
  /-- What follows a primary type in brackets. -/
  | suffixes
  /-- What follows an opening bracket after a type. -/
  | arrayOrIndex
  | typeQuery
  /-- What follows `import` in a type. -/
  | importType
  /-- Elements of a tuple type, up to its closing bracket. -/
  | tupleElements
  | moreTupleElements
  | tupleElement
  /-- An element of a tuple type after its rest mark. -/
  | tupleItem
  /-- What follows a name at the start of a tuple element. -/
  | tupleName
  | optionalMark
deriving DecidableEq

inductive Symbol where
  | tok (t : Terminal)
  | sub (n : Nonterminal)
deriving DecidableEq

/-- A branch of a nonterminal: what leads it, and the symbols that follow. -/
inductive Branch where
  | led (t : Terminal) (rest : List Symbol)
  | via (n : Nonterminal) (rest : List Symbol)
deriving DecidableEq

/-- The symbols that follow what leads a branch. -/
def Branch.rest : Branch → List Symbol
  | led _ rest => rest
  | via _ rest => rest

namespace Nonterminal

open Grammar.Symbol Grammar.Terminal Grammar.Branch

/-- The lexemes that a skipped part holds outside brackets, each followed by `rest`. -/
def anyLexeme (rest : List Symbol) : List Branch :=
  [led name rest, led string rest, led number rest, led template rest, led other rest]

/-- The lexemes that name a property, each followed by `rest`. -/
def propertyKey (rest : List Symbol) : List Branch :=
  [led name rest, led string rest, led number rest]

/-- Anything in balanced parentheses or square brackets, followed by `rest`. -/
def groups (rest : List Symbol) : List Branch :=
  [led openParen ([sub inner, tok closeParen] ++ rest),
   led openBracket ([sub inner, tok closeBracket] ++ rest)]

/-- The parameters and the result of a signature. -/
def signature : List Symbol :=
  [sub parameters, tok closeParen, sub result]

/-- The type parameters, the parameters and the result of a generic signature. -/
def genericSignature : List Symbol :=
  [sub typeParameterList, tok openParen] ++ signature

/-- What follows the key of a property or of any member. -/
def restOfKey (afterReadonly : Bool) : Nonterminal :=
  if afterReadonly then propertyRest else keyRest

/-- The members that follow the first one, and the closing brace. -/
def furtherMembers : List Symbol :=
  [sub memberEnd, tok closeBrace]

/-- The branches of a nonterminal, besides the empty one. -/
def branches : Nonterminal → List Branch
  | statements =>
    [led exportWord [sub exported, sub statements],
     led declareWord [sub declared, sub statements],
     led typeWord [sub aliasBody, sub statements],
     via definition [sub statements],
     via skippedStatement [sub statements]]
  | exported =>
    [led declareWord [sub declared], led defaultWord [sub exportedPlain], via exportedPlain []]
  | exportedPlain => [via declared [], via skipped []]
  | declared =>
    [led typeWord [sub modifiedType], via definition [], via skippedStatement []]
  | definition =>
    [led interfaceWord
      [tok name, sub typeParameters, sub heritage, tok openBrace, sub members, tok closeBrace,
       sub optionalSemicolon],
     led enumWord [sub enumBody],
     led constWord [sub constant]]
  | constant => [led enumWord [sub enumBody], via skipped []]
  | enumBody =>
    [led name [tok openBrace, sub enumMembers, tok closeBrace, sub optionalSemicolon]]
  | aliasBody =>
    [led name [sub typeParameters, tok equals, sub (type true), tok semicolon]]
  | modifiedType =>
    [via aliasBody [],
     led openBrace [sub inner, tok closeBrace, sub exportListAfterBlock],
     led other [sub exportList]]
  | skippedStatement =>
    [functionWord, classWord, abstractWord, namespaceWord, moduleWord, globalWord, letWord,
     varWord, importWord].map fun word => led word [sub skipped]
  | skipped =>
    [led semicolon [], led openBrace [sub inner, tok closeBrace, sub skippedAfterBlock]]
      ++ anyLexeme [sub skipped] ++ groups [sub skipped]
  | skippedAfterBlock => [via skipped []]
  | exportList =>
    [led semicolon [], led openBrace [sub inner, tok closeBrace, sub exportListAfterBlock]]
      ++ anyLexeme [sub exportList] ++ groups [sub exportList]
  | exportListAfterBlock => [via exportList []]
  | inner =>
    [led semicolon [sub inner], led openBrace [sub inner, tok closeBrace, sub inner]]
      ++ anyLexeme [sub inner] ++ groups [sub inner]
  | typeParameters => [led less [sub typeParameterList]]
  | typeParameterList => [via typeParameter [sub moreTypeParameters, tok greater]]
  | typeParameter => [led name [sub bound, sub defaultType]]
  | moreTypeParameters => [led comma [sub typeParameter, sub moreTypeParameters]]
  | bound => [led extendsWord [sub (type true)]]
  | defaultType => [led equals [sub (type true)]]
  | heritage => [led extendsWord [sub heritageType, sub moreHeritage]]
  | heritageType => [led name [sub dotted, sub typeArguments]]
  | moreHeritage => [led comma [sub heritageType, sub moreHeritage]]
  | dotted => [led dot [tok name, sub dotted]]
  | typeArguments => [led less [sub (type true), sub moreTypes, tok greater]]
  | moreTypes => [led comma [sub (type true), sub moreTypes]]
  | optionalSemicolon => [led semicolon []]
  | enumMembers => [via enumMember [sub initializer, sub moreEnumMembers]]
  | enumMember => propertyKey [] ++ [led readonlyWord []]
  | moreEnumMembers => [led comma [sub enumMembers]]
  | initializer => [led equals [sub initializerWords]]
  | initializerWords =>
    anyLexeme [sub moreInitializerWords] ++
      [led openParen [sub inner, tok closeParen, sub moreInitializerWords]]
  | moreInitializerWords => [via initializerWords []]
  | members => [via member [sub memberEnd]]
  | member =>
    propertyKey [sub keyRest] ++
      [led readonlyWord [sub readonlyRest],
       led openBracket [sub (bracketed false)],
       led openParen signature,
       led less genericSignature]
  | memberEnd => [led semicolon [sub members], led comma [sub members]]
  | keyRest => [led question [sub signatureRest], via signatureRest []]
  | signatureRest =>
    [led colon [sub (type true)], led openParen signature, led less genericSignature]
  | readonlyRest =>
    propertyKey [sub propertyRest] ++
      [led readonlyWord [sub propertyRest],
       led openBracket [sub (bracketed true)],
       via keyRest []]
  | propertyRest => [led question [sub annotation], via annotation []]
  | annotation => [led colon [sub (type true)]]
  | bracketed ro =>
    [led name [sub (bracketedName ro)],
     led string [tok closeBracket, sub (restOfKey ro)],
     led number [tok closeBracket, sub (restOfKey ro)]]
  | bracketedName ro =>
    [led colon [sub (type true), tok closeBracket, tok colon, sub (type true)],
     led closeBracket [sub (restOfKey ro)],
     led dot [tok name, sub dotted, tok closeBracket, sub (restOfKey ro)]]
  | braced =>
    [led closeBrace [],
     led plus [tok readonlyWord, tok openBracket, tok name, tok inWord, sub mapped],
     led minus [tok readonlyWord, tok openBracket, tok name, tok inWord, sub mapped],
     led readonlyWord [sub bracedReadonly],
     led openBracket [sub (bracedBracketed false)],
     via member furtherMembers]
  | bracedReadonly =>
    [led openBracket [sub (bracedBracketed true)],
     via readonlyRest furtherMembers,
     via memberEnd [tok closeBrace],
     led closeBrace []]
  | bracedBracketed ro =>
    [led name [sub (bracedName ro)],
     led string ([tok closeBracket, sub (restOfKey ro)] ++ furtherMembers),
     led number ([tok closeBracket, sub (restOfKey ro)] ++ furtherMembers)]
  | bracedName ro => [led inWord [sub mapped], via (bracketedName ro) furtherMembers]
  | mapped =>
    [via (type true)
      [sub renamed, tok closeBracket, sub mappedOptional, sub annotation, sub optionalSeparator,
       tok closeBrace]]
  | renamed => [led asWord [sub (type true)]]
  | mappedOptional =>
    [led plus [tok question], led minus [tok question], led question []]
  | optionalSeparator => [led semicolon [], led comma []]
  | parameters => [via parameter [sub moreParameters]]
  | parameter =>
    [led ellipsis [sub binding, sub parameterRest], via binding [sub parameterRest]]
  | parameterRest => [led question [sub annotation], via annotation []]
  | moreParameters => [led comma [sub parameters]]
  | binding =>
    [led name [], led openBrace [sub inner, tok closeBrace],
     led openBracket [sub inner, tok closeBracket]]
  | result => [led colon [sub returnType]]
  | returnType =>
    [led assertsWord [tok name, sub asserted], led name [sub returnName], via (type true) []]
  | returnName => [led isWord [sub (type true)], via (namedRest true) []]
  | asserted => [led isWord [sub (type true)]]
  | type c =>
    [led openParen [sub (parenthesis c)],
     led less
      [sub typeParameterList, tok openParen, sub parameters, tok closeParen, tok arrow,
       sub returnType],
     led abstractWord [tok newWord, sub constructorRest],
     led newWord [sub constructorRest],
     led bar [sub intersection, sub (typeRest c)],
     led ampersand [sub operator, sub (typeRest c)],
     via operator [sub (typeRest c)]]
  | typeRest c =>
    [led ampersand [sub operator, sub (typeRest c)],
     led bar [sub intersection, sub (typeRest c)]]
      ++ if c then
        [led extendsWord
          [sub (type false), tok question, sub (type true), tok colon, sub (type true)]]
      else []
  | suffixedRest c =>
    [led openBracket [sub arrayOrIndex, sub (suffixedRest c)], via (typeRest c) []]
  | namedRest c =>
    [led dot [tok name, sub (namedRest c)],
     led less [sub (type true), sub moreTypes, tok greater, sub (suffixedRest c)],
     via (suffixedRest c) []]
  | parenthesis c =>
    [led closeParen [tok arrow, sub returnType],
     led ellipsis [sub binding, sub parameterRest, sub functionRest],
     led name [sub (parenthesisName c)],
     via (type true) [tok closeParen, sub (parenthesisEnd c)]]
  | parenthesisName c =>
    [led question [sub annotation, sub functionRest],
     led colon [sub (type true), sub functionRest],
     led comma [sub parameter, sub functionRest],
     led closeParen [sub (parenthesisEnd c)],
     via (namedRest true) [tok closeParen, sub (parenthesisEnd c)]]
  | parenthesisEnd c => [led arrow [sub returnType], via (suffixedRest c) []]
  | functionRest =>
    [led comma [sub parameters, tok closeParen, tok arrow, sub returnType],
     led closeParen [tok arrow, sub returnType]]
  | constructorRest =>
    [led less
      [sub typeParameterList, tok openParen, sub parameters, tok closeParen, tok arrow,
       sub (type true)],
     led openParen [sub parameters, tok closeParen, tok arrow, sub (type true)]]
  | intersection =>
    [led ampersand [sub operator, sub moreOperands], via operator [sub moreOperands]]
  | moreOperands => [led ampersand [sub operator, sub moreOperands]]
  | operator =>
    [led keyofWord [sub operator], led readonlyWord [sub operator], led uniqueWord [sub operator],
     led inferWord [tok name], via primary [sub suffixes]]
  | primary =>
    [led openParen [sub (type true), tok closeParen],
     led string [], led number [], led template [],
     led minus [tok number],
     led name [sub dotted, sub typeArguments],
     led openBrace [sub braced],
     led openBracket [sub tupleElements, tok closeBracket],
     led typeofWord [sub typeQuery],
     led importWord [sub importType]]
  | suffixes => [led openBracket [sub arrayOrIndex, sub suffixes]]
  | arrayOrIndex => [led closeBracket [], via (type true) [tok closeBracket]]
  | typeQuery =>
    [led importWord [sub importType], led name [sub dotted, sub typeArguments]]
  | importType =>
    [led openParen [tok string, tok closeParen, sub dotted, sub typeArguments]]
  | tupleElements => [via tupleElement [sub moreTupleElements]]
  | moreTupleElements => [led comma [sub tupleElements]]
  | tupleElement => [led ellipsis [sub tupleItem], via tupleItem []]
  | tupleItem => [led name [sub tupleName], via (type true) [sub optionalMark]]
  | tupleName =>
    [led colon [sub (type true)], led question [], via (namedRest true) [sub optionalMark]]
  | optionalMark => [led question []]

def mayBeEmpty : Nonterminal → Bool
  | statements | skippedAfterBlock | inner | typeParameters | moreTypeParameters | bound
  | defaultType | heritage | moreHeritage | dotted | typeArguments | moreTypes
  | optionalSemicolon | enumMembers | moreEnumMembers | initializer | moreInitializerWords
  | members | memberEnd | keyRest | signatureRest | readonlyRest | propertyRest | annotation
  | renamed | mappedOptional | optionalSeparator | parameters | parameterRest | moreParameters
  | result | returnName | asserted | typeRest _ | suffixedRest _ | namedRest _
  | parenthesisEnd _ | moreOperands | suffixes | tupleElements | moreTupleElements | tupleName
  | optionalMark => true
  | _ => false

/-- How deep the first branches of a nonterminal go down to a terminal: a nonterminal that
leads a branch has a smaller rank than the one it stands in. -/
def rank : Nonterminal → Nat
  | statements => 2
  | exported => 4
  | exportedPlain => 3
  | declared => 2
  | constant | modifiedType | skippedAfterBlock | exportListAfterBlock => 1
  | typeParameterList | enumMembers | moreInitializerWords | keyRest => 1
  | readonlyRest => 2
  | members | propertyRest | bracedName _ | parameterRest => 1
  | braced => 1
  | bracedReadonly => 3
  | mapped => 3
  | parameter => 1
  | parameters => 2
  | returnType => 3
  | returnName => 3
  | type _ => 2
  | suffixedRest _ => 1
  | namedRest _ => 2
  | parenthesis _ => 3
  | parenthesisName _ => 3
  | parenthesisEnd _ => 2
  | intersection => 2
  | operator => 1
  | arrayOrIndex => 3
  | tupleElements => 5
  | tupleElement => 4
  | tupleItem => 3
  | tupleName => 3
  | _ => 0

/-- Whether the nonterminal that leads a branch, if one does, has a rank below a bound. -/
def ranksBelow (bound : Nat) : Branch → Bool
  | led _ _ => true
  | via n _ => n.rank < bound

theorem branches_ranksBelow (n : Nonterminal) : n.branches.all (ranksBelow n.rank) = true := by
  cases n <;> first | rfl | (rename_i b; cases b <;> rfl)

/-- A nonterminal that leads a branch ranks below the one it stands in. -/
theorem rank_lt_of_via {n m : Nonterminal} {rest : List Symbol} (h : via m rest ∈ n.branches) :
    m.rank < n.rank := by
  simpa [ranksBelow] using List.all_eq_true.mp (branches_ranksBelow n) _ h

theorem rank_le (n : Nonterminal) : n.rank ≤ 5 := by
  cases n <;> simp [rank]

/-- No branch has more than seven symbols after its lead. -/
theorem branches_lengthAtMost (n : Nonterminal) : n.branches.all (·.rest.length ≤ 7) = true := by
  cases n <;> first | rfl | (rename_i b; cases b <;> rfl)

end Nonterminal

/-- Whether a terminal may be the first one of a nonterminal. What holds of single terminals is
decided by evaluation, for which the recursion has to unfold. -/
@[semireducible]
def starts (n : Nonterminal) (t : Terminal) : Bool :=
  n.branches.attach.any fun
    | ⟨.led t' _, _⟩ => t' == t
    | ⟨.via m _, _⟩ => starts m t
termination_by n.rank
decreasing_by exact Nonterminal.rank_lt_of_via ‹_›

/-- The branch that a terminal selects: the first one that it may start. -/
def branch? (n : Nonterminal) (t : Terminal) : Option Branch :=
  n.branches.find? fun
    | .led t' _ => t' == t
    | .via m _ => starts m t

theorem rank_lt_of_branch? {n m : Nonterminal} {t : Terminal} {rest : List Symbol}
    (h : branch? n t = some (.via m rest)) : m.rank < n.rank :=
  Nonterminal.rank_lt_of_via (List.mem_of_find?_eq_some h)

theorem rest_length_le_of_branch? {n : Nonterminal} {t : Terminal} {b : Branch}
    (h : branch? n t = some b) : b.rest.length ≤ 7 := by
  simpa using List.all_eq_true.mp n.branches_lengthAtMost _ (List.mem_of_find?_eq_some h)

/-- Whether a terminal may come next where a list of symbols is still to be read. -/
def expects : List Symbol → Terminal → Bool
  | [], _ => false
  | .tok t' :: _, t => t' == t
  | .sub n :: rest, t => starts n t || (n.mayBeEmpty && expects rest t)

/-- Whether a terminal is told apart from a name though it may not come next: after a block in a
list of types that is exported, the words that start a statement are. -/
def reserves : List Symbol → Terminal → Bool
  | .sub .exportListAfterBlock :: _, t => starts .statements t
  | _, _ => false

end DeclSchema.Grammar
