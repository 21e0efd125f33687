/-!
# Terminals

The terminals of the declaration grammar: five classes of lexemes, the words of the grammar, and its
marks. A word or a mark has one spelling.

## Main definitions

* `Terminal`: the terminals
* `Terminal.spelling`: the characters of a word or a mark
* `Terminal.words`, `Terminal.longMarks`, `Terminal.plainMarks`, `Terminal.closedMarks`: the words
  and marks, by the way in which they are read
-/

namespace DeclSchema.Grammar

/-- The terminals of the grammar. -/
inductive Terminal where
  | name
  | string
  | number
  /-- A text between backquotes. -/
  | template
  /-- Any other single character, in a part that is skipped. -/
  | other
  | abstractWord | asWord | assertsWord | classWord | constWord | declareWord | defaultWord
  | enumWord | exportWord | extendsWord | functionWord | globalWord | importWord | inWord
  | inferWord | interfaceWord | isWord | keyofWord | letWord | moduleWord | namespaceWord
  | newWord | readonlyWord | typeWord | typeofWord | uniqueWord | varWord
  | openBrace | closeBrace | openParen | closeParen | openBracket | closeBracket
  | less | greater | comma | dot | ellipsis | semicolon | colon | question | equals | arrow
  | bar | ampersand | plus | minus
deriving DecidableEq

namespace Terminal

/-- The characters of a word or a mark; a class of lexemes has none. -/
def spelling : Terminal → List Char
  | name | string | number | template | other => []
  | abstractWord => "abstract".toList
  | asWord => "as".toList
  | assertsWord => "asserts".toList
  | classWord => "class".toList
  | constWord => "const".toList
  | declareWord => "declare".toList
  | defaultWord => "default".toList
  | enumWord => "enum".toList
  | exportWord => "export".toList
  | extendsWord => "extends".toList
  | functionWord => "function".toList
  | globalWord => "global".toList
  | importWord => "import".toList
  | inWord => "in".toList
  | inferWord => "infer".toList
  | interfaceWord => "interface".toList
  | isWord => "is".toList
  | keyofWord => "keyof".toList
  | letWord => "let".toList
  | moduleWord => "module".toList
  | namespaceWord => "namespace".toList
  | newWord => "new".toList
  | readonlyWord => "readonly".toList
  | typeWord => "type".toList
  | typeofWord => "typeof".toList
  | uniqueWord => "unique".toList
  | varWord => "var".toList
  | openBrace => ['{']
  | closeBrace => ['}']
  | openParen => ['(']
  | closeParen => [')']
  | openBracket => ['[']
  | closeBracket => [']']
  | less => ['<']
  | greater => ['>']
  | comma => [',']
  | dot => ['.']
  | ellipsis => ['.', '.', '.']
  | semicolon => [';']
  | colon => [':']
  | question => ['?']
  | equals => ['=']
  | arrow => ['=', '>']
  | bar => ['|']
  | ampersand => ['&']
  | plus => ['+']
  | minus => ['-']

/-- The words of the grammar, longest first. -/
def words : List Terminal :=
  [interfaceWord, namespaceWord, abstractWord, functionWord, readonlyWord, assertsWord,
   declareWord, defaultWord, extendsWord, exportWord, globalWord, importWord, moduleWord,
   typeofWord, uniqueWord, classWord, constWord, inferWord, keyofWord, enumWord, typeWord,
   letWord, newWord, varWord, asWord, inWord, isWord]

/-- The marks of more than one character, longest first. -/
def longMarks : List Terminal :=
  [ellipsis, arrow]

/-- The marks of one character that a skipped part may hold as any other character. -/
def plainMarks : List Terminal :=
  [less, greater, comma, dot, colon, question, equals, bar, ampersand, plus, minus]

/-- The marks of one character that always stand for themselves: brackets and the semicolon. -/
def closedMarks : List Terminal :=
  [openBrace, closeBrace, openParen, closeParen, openBracket, closeBracket, semicolon]

end Terminal

end DeclSchema.Grammar
