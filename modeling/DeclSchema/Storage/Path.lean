import DeclSchema.Fault
import DeclSchema.Text.Quoted
import DeclSchema.Text.Utf8

/-!
# Paths

A path leads from a directory over named entries, where the name `..` leads back. It starts at the
root of all files if it is written with a slash in front; two slashes are kept apart from one.
Empty names and the name `.` lead nowhere and are dropped.

## Main definitions

* `Path`: the paths
* `Path.ofText`, `Path.shown`: how a path is written
* `Path.parent`, `Path.name`: the way to the last entry, and its name
* `Path.check`: whether a path can be passed on at all
-/

namespace DeclSchema

structure Path where
  anchor : Text
  parts : List Text
deriving DecidableEq

namespace Path

/-- The code point that stands between the parts of a path. -/
def slash : CodePoint :=
  .ofChar '/'

/-- The name of the way back. -/
def back : Text :=
  .ofString ".."

/-- The pieces of a text between slashes. -/
def pieces : Text → List Text
  | [] => [[]]
  | p :: rest =>
    if p = slash then [] :: pieces rest
    else
      match pieces rest with
      | [] => [[p]]
      | piece :: others => (p :: piece) :: others

/-- The slashes that count in front of a path: one, or none, or exactly two. -/
def anchorOf (t : Text) : Text :=
  match (t.takeWhile (· = slash)).length with
  | 0 => []
  | 2 => [slash, slash]
  | _ => [slash]

def ofText (t : Text) : Path where
  anchor := anchorOf t
  parts := (pieces t).filter fun piece => piece ≠ [] && piece ≠ Text.ofString "."

/-- Whether a path starts at the root of all files. -/
def isAbsolute (p : Path) : Bool :=
  p.anchor ≠ []

def shown (p : Path) : Text :=
  if p.anchor = [] && p.parts = [] then .ofString "."
  else p.anchor ++ .joined [slash] p.parts

/-- The path without its last part. -/
def parent (p : Path) : Path :=
  { p with parts := p.parts.dropLast }

/-- The last part of a path, or nothing. -/
def name (p : Path) : Text :=
  p.parts.getLastD []

def hasNull (t : Text) : Bool :=
  t.any (·.value = 0)

/-- Whether a text has surrogates that stand for no byte. -/
def hasStray (t : Text) : Bool :=
  t.any fun p => p.isSurrogate && !p.isByte

/-- A text can be part of a path if it has no null characters, and no surrogates other than those
that stand for a byte. -/
def checkText (t : Text) : Except Fault Unit :=
  if hasStray t then .error .unencodable
  else if hasNull t then .error .malformedLocation
  else .ok ()

/-- Whether a path can be passed on. -/
def check (p : Path) : Except Fault Unit :=
  checkText p.shown

/-- The path without ways back, where each of them cancels the part before it. -/
def straightened (parts : List Text) : List Text :=
  parts.foldl (fun way part => if part = back then way.dropLast else way ++ [part]) []

end Path

end DeclSchema
