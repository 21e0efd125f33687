import DeclSchema.Grammar.Rules
import DeclSchema.Text

/-!
# Syntax trees

A syntax tree keeps every character of the input: each token carries the blanks and comments before
it, so the tokens of a tree, in order, spell the input that it was read from. The text of a node
starts at its first lexeme and ends with its last one.

## Main definitions

* `Token`, `Tree`: tokens with what stands before them, and trees of tokens
* `Tree.tokens`, `Token.source`: the characters that a tree was read from
* `Tree.textOf`: the text of consecutive trees
-/

namespace DeclSchema.Grammar

/-- A token: the terminal that a lexeme stands for, with the blanks and comments before it. -/
structure Token where
  terminal : Terminal
  trivia : List Char
  lexeme : List Char

/-- All characters of a token. -/
def Token.source (t : Token) : List Char :=
  t.trivia ++ t.lexeme

/-- A tree is a token, or a nonterminal with the trees of the branch that was taken; a nonterminal
that took nothing has none. -/
inductive Tree where
  | leaf (t : Token)
  | node (n : Nonterminal) (children : List Tree)

namespace Tree

mutual

def tokens : Tree → List Token
  | leaf t => [t]
  | node _ children => tokensOf children

def tokensOf : List Tree → List Token
  | [] => []
  | t :: ts => tokens t ++ tokensOf ts

end

/-- The characters of tokens from the first lexeme to the last one. -/
def spelling : List Token → List Char
  | [] => []
  | t :: ts => t.lexeme ++ ts.flatMap Token.source

/-- The text of consecutive trees, without what stands before their first lexeme. -/
def textOf (ts : List Tree) : Text :=
  .ofChars (spelling (tokensOf ts))

end Tree

end DeclSchema.Grammar
