import DeclSchema.Text

/-!
# Similar texts

How alike two texts are: their longest common piece is matched, then the longest common pieces on
both sides of it, and so on. Of several longest pieces the one that is first in the one text, and
then first in the other text, is taken.

## Main definitions

* `Text.matched`: the number of matched code points
* `Text.closest`: the texts of a list that are similar to a given one, the most similar first
-/

namespace DeclSchema.Text

/-- The length of the longest common front of two texts. -/
def commonFront : Text → Text → Nat
  | a :: as, b :: bs => if a = b then commonFront as bs + 1 else 0
  | _, _ => 0

/-- The longest piece at the front of `a` that is somewhere in `b`: its length and place in `b`. -/
def longestFront (a b : Text) : Nat × Nat :=
  (List.range b.length).foldl (fun best j =>
    let k := commonFront a (b.drop j)
    if best.1 < k then (k, j) else best) (0, 0)

/-- The longest common piece of two texts: its length and its places. -/
def longestPiece (a b : Text) : Nat × Nat × Nat :=
  (List.range a.length).foldl (fun best i =>
    let (k, j) := longestFront (a.drop i) b
    if best.1 < k then (k, i, j) else best) (0, 0, 0)

/-- The number of code points of `a` that are matched with code points of `b`; `fuel` bounds the
number of pieces in a row. -/
def matchedWithin : Nat → Text → Text → Nat
  | 0, _, _ => 0
  | fuel + 1, a, b =>
    let (k, i, j) := longestPiece a b
    if k = 0 then 0
    else
      k + matchedWithin fuel (a.take i) (b.take j)
        + matchedWithin fuel (a.drop (i + k)) (b.drop (j + k))

/-- The number of code points of `a` that are matched with code points of `b`. -/
def matched (a b : Text) : Nat :=
  matchedWithin a.length a b

/-- Texts are similar if the matches make up three fifths of both together. -/
def isSimilar (a b : Text) : Bool :=
  3 * (a.length + b.length) ≤ 10 * matched a b

/-- Whether `a` is as similar to `t` as `b` is, or more so; of equals the greater text is first. -/
def closer (t a b : Text) : Bool :=
  let m := matched a t * (b.length + t.length)
  let n := matched b t * (a.length + t.length)
  n < m || (m = n && b.le a)

/-- At most three texts of a list that are similar to `t`, the most similar first. -/
def closest (t : Text) (ts : List Text) : List Text :=
  ((ts.filter (isSimilar · t)).mergeSort (closer t)).take 3

end DeclSchema.Text
