import DeclSchema.Text

/-!
# Places in a source

A place is known by what is left of the source from there on. Lines end at line feeds only; lines
and columns count from one.

## Main definitions

* `Place`, `Place.of`: offset, line and column of a place
* `excerpt`: the line around a place, with a mark below it
-/

namespace DeclSchema

/-- A place in a source: how many characters precede it, its line and its column. -/
structure Place where
  offset : Nat
  line : Nat
  column : Nat

namespace Place

/-- The characters of a source before the place where `rest` is left. -/
def before (source rest : List Char) : List Char :=
  source.take (source.length - rest.length)

/-- The characters after the last line feed. -/
def lastLine (cs : List Char) : List Char :=
  (cs.reverse.takeWhile (· != '\n')).reverse

/-- The place in `source` where `rest` is left. -/
def of (source rest : List Char) : Place :=
  let front := before source rest
  ⟨front.length, front.count '\n' + 1, (lastLine front).length + 1⟩

/-- The column after a character, where a tabulator goes on to the next multiple of eight. -/
def columnAfter (column : Nat) (c : Char) : Nat :=
  if c == '\t' then column + (8 - column % 8)
  else if c == '\n' || c == '\r' then 0
  else column + 1

/-- How many columns wide a text is when its tabulators are filled with spaces. A line end starts a
new line but counts as a column itself. -/
def width : Nat → List Char → Nat
  | _, [] => 0
  | column, c :: rest =>
    let next := columnAfter column c
    (if c == '\t' then next - column else 1) + width next rest

/-- The line around a place, at most forty characters to each side, and a mark below the place. -/
def excerpt (source rest : List Char) : Text :=
  let front := before source rest
  let left := lastLine (front.drop (front.length - 40))
  let right := (rest.take 40).takeWhile (· != '\n')
  .ofChars (left ++ right ++ '\n' :: List.replicate (width 0 left) ' ' ++ ['^'])

end Place

end DeclSchema
