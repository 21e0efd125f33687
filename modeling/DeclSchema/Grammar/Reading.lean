import DeclSchema.Grammar.Lexeme
import DeclSchema.Grammar.Tree

/-!
# Reading

Reads the characters of a declaration file into a syntax tree. Which lexeme comes next depends on
the symbols that are still to be read: only the terminals that may come next are tried. Reading
stops at the first lexeme that none of them matches.

A failure is the rest of the input from the place where it is reported: the lexeme that does not
fit, or the last token where the input ends too early.

## Main definitions

* `Cursor`: the input that is left, and where the last token started
* `peek`: the next token
* `readNonterminal`, `readSymbols`: a nonterminal from its first token on, and a list of symbols
* `read`: a whole declaration file
-/

namespace DeclSchema.Grammar

/-- A place in the input: what is left of it, and what was left when the last token started. -/
structure Cursor where
  rest : List Char
  last : List Char

/-- How many characters are left. -/
abbrev Cursor.size (c : Cursor) : Nat :=
  c.rest.length

/-- A token, and the cursor after it. -/
abbrev Next (c : Cursor) :=
  Token × { c' : Cursor // c'.size < c.size }

/-- The trees that were read, and the cursor after them. -/
abbrev After (c : Cursor) (α : Type) :=
  α × { c' : Cursor // c'.size ≤ c.size }

/-- The next token where `symbols` are still to be read, or nothing at the end of the input. -/
def peek (symbols : List Symbol) (c : Cursor) : Except (List Char) (Option (Next c)) :=
  let blank := triviaLength c.rest
  match h : c.rest.drop blank with
  | [] => .ok none
  | first :: rest =>
    match lexeme? (fun t => expects symbols t || reserves symbols t) (first :: rest) with
    | some (t, n + 1) =>
      if expects symbols t then
        .ok (some
          (⟨t, c.rest.take blank, (first :: rest).take (n + 1)⟩,
           ⟨⟨rest.drop n, first :: rest⟩, by
              have := congrArg List.length h
              simp only [Cursor.size, List.length_drop, List.length_cons] at this ⊢
              omega⟩))
      else .error (first :: rest)
    | _ => .error (first :: rest)

/-- A bound for the steps between two characters: a nonterminal leads down to its first terminal
through at most five others, and at most seven symbols follow each of them. -/
def stepsPerCharacter : Nat := 64

mutual

/-- Reads a nonterminal whose first token is `token`, at a cursor after that token. The symbols
`outer` follow it. -/
def readNonterminal (n : Nonterminal) (token : Token) (outer : List Symbol) (c : Cursor) :
    Except (List Char) (After c Tree) :=
  match h : branch? n token.terminal with
  | none => .error c.last
  | some (.led _ rest) => do
    have : rest.length ≤ 7 := rest_length_le_of_branch? h
    let (ts, c') ← readSymbols rest outer c
    return (.node n (.leaf token :: ts), c')
  | some (.via m rest) => do
    have : rest.length ≤ 7 := rest_length_le_of_branch? h
    have := rank_lt_of_branch? h
    let (t, ⟨c₁, h₁⟩) ← readNonterminal m token (rest ++ outer) c
    let (ts, ⟨c₂, h₂⟩) ← readSymbols rest outer c₁
    return (.node n (t :: ts), ⟨c₂, Nat.le_trans h₂ h₁⟩)
termination_by c.size * stepsPerCharacter + (n.rank + 1) * 8
-- A leading nonterminal has a smaller rank, and a rank counts for more steps than there are symbols
-- after the lead.
decreasing_by
  all_goals
    simp only [stepsPerCharacter]
    omega

/-- Reads a list of symbols; the symbols `outer` follow them. -/
def readSymbols (symbols outer : List Symbol) (c : Cursor) :
    Except (List Char) (After c (List Tree)) :=
  match symbols with
  | [] => .ok ([], ⟨c, Nat.le_refl _⟩)
  | .tok t :: rest => do
    match ← peek (.tok t :: rest ++ outer) c with
    | none => .error c.last
    | some (token, ⟨c₁, h₁⟩) =>
      let (ts, ⟨c₂, h₂⟩) ← readSymbols rest outer c₁
      return (.leaf token :: ts, ⟨c₂, by omega⟩)
  | .sub n :: rest => do
    match ← peek (.sub n :: rest ++ outer) c with
    | some (token, ⟨c₁, h₁⟩) =>
      if starts n token.terminal then
        let (t, ⟨c₂, h₂⟩) ← readNonterminal n token (rest ++ outer) c₁
        let (ts, ⟨c₃, h₃⟩) ← readSymbols rest outer c₂
        return (t :: ts, ⟨c₃, by omega⟩)
      else
        let (ts, c') ← readSymbols rest outer c
        return (.node n [] :: ts, c')
    | none =>
      if n.mayBeEmpty then
        let (ts, c') ← readSymbols rest outer c
        return (.node n [] :: ts, c')
      else .error c.last
termination_by c.size * stepsPerCharacter + symbols.length
-- A token is taken, or the list gets shorter.
decreasing_by
  all_goals
    simp only [stepsPerCharacter, List.length_cons]
    try have := n.rank_le
    omega

end

/-- Reads a whole declaration file: the tree of its statements, or the rest of the input from the
place where reading stopped. -/
def read (input : List Char) : Except (List Char) (List Tree) :=
  (·.1) <$> readSymbols [.sub .statements] [] ⟨input, input⟩

end DeclSchema.Grammar
