import DeclSchema.Binary64.Shortest
import DeclSchema.Json
import DeclSchema.Text.Quoted

/-!
# Values in messages

How a message shows a JSON value: texts are quoted, the constants are `None`, `True` and `False`,
and lists and objects stand in brackets and braces. A text that is the whole value is shown as it is
unless the message asks for its quoted form.

## Main definitions

* `Json.quoted`: the form in which a text is quoted
* `Json.shown`: the form in which a text is shown as it is
-/

namespace DeclSchema.Json

mutual

/-- A value in a message, with texts in quotes. -/
def quoted : Json → Text
  | null => .ofString "None"
  | truth b => .ofString (if b then "True" else "False")
  | integer n => .ofInt n
  | real x => x.decimal
  | text t => t.quoted
  | array items => .ofString "[" ++ .joined (.ofString ", ") (quotedItems items) ++ .ofString "]"
  | object fields =>
    .ofString "\x7b" ++ .joined (.ofString ", ") (quotedFields fields) ++ .ofString "\x7d"

/-- The items of a list in a message. -/
def quotedItems : List Json → List Text
  | [] => []
  | x :: xs => quoted x :: quotedItems xs

/-- The fields of an object in a message. -/
def quotedFields : List (Text × Json) → List Text
  | [] => []
  | (k, v) :: fs => (k.quoted ++ .ofString ": " ++ quoted v) :: quotedFields fs

end

/-- A value in a message, where a text is shown as it is. -/
def shown : Json → Text
  | text t => t
  | v => quoted v

end DeclSchema.Json
