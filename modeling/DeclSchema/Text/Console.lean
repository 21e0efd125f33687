import DeclSchema.Text.Quoted

/-!
# Texts on a console

What becomes of a text that is printed to something else than a terminal. Sequences that steer a
terminal are left out of messages, surrogates are printed as escapes, and a carriage return before a
line feed is not kept.

## Main definitions

* `Text.steered`, `Text.unsteered`: sequences that steer a terminal, and texts without them
* `Text.printable`: surrogates as escapes
* `Text.lineFeeds`: line ends as line feeds
-/

namespace DeclSchema.Text

/-- Whether a code point is one of a few characters. -/
def isOneOf (p : CodePoint) (cs : List Char) : Bool :=
  cs.any fun c => p = .ofChar c

/-- Whether a code point is a parameter of a sequence that steers a terminal. -/
def isParameter (p : CodePoint) : Bool :=
  isOneOf p [';', '?'] || ('0'.toNat ≤ p.value && p.value ≤ '9'.toNat)

/-- Whether a code point is a letter of ASCII. -/
def isLetter (p : CodePoint) : Bool :=
  (p.char?.map Char.isAlpha).getD false

/-- The number of code points of the sequence at the front of a text that steers a terminal, or zero
if there is none: an escape, a bracket, parameters and a letter. -/
def steered : Text → Nat
  | escape :: bracket :: rest =>
    let parameters := rest.takeWhile isParameter
    match rest.drop parameters.length with
    | letter :: _ =>
      if escape = .ofChar '\x1b' && bracket = .ofChar '[' && isLetter letter then
        parameters.length + 3
      else 0
    | [] => 0
  | _ => 0

/-- A text without the sequences that steer a terminal. -/
def unsteered : Text → Text
  | [] => []
  | p :: rest =>
    match steered (p :: rest) with
    | 0 => p :: unsteered rest
    | n + 1 => unsteered (rest.drop n)
termination_by t => t.length
decreasing_by
  · simp
  · simp only [List.length_drop, List.length_cons]
    omega

/-- A text in which an escape stands for each surrogate. -/
def printable (t : Text) : Text :=
  t.flatMap fun p =>
    if p.isSurrogate then ofChars (['\\', 'u'] ++ hexDigits 4 p.value) else [p]

/-- A text in which a line feed stands for a carriage return with a line feed after it. -/
def lineFeeds : Text → Text
  | p :: q :: rest =>
    if p = .ofChar '\r' && q = .ofChar '\n' then q :: lineFeeds rest
    else p :: lineFeeds (q :: rest)
  | t => t

end DeclSchema.Text
