import DeclSchema.Storage.Path
import DeclSchema.Storage.FileTree
import DeclSchema.Text.Utf8

/-!
# Storage

A tree of files with a working directory. A path is walked name by name: each name but the last must
lead to a directory, and the first obstacle is the fault.

## Main definitions

* `Storage`: the tree and the working directory
* `Storage.locate`: the place that a path leads to
* `Storage.read`: the content of a file
* `Storage.makeDirectory`, `Storage.makeDirectories`: new directories
-/

namespace DeclSchema

/-- A tree of files with a working directory. -/
structure Storage where
  tree : FileTree
  /-- The place of the working directory. -/
  here : List Text

namespace StorageFault

def number : StorageFault → Nat
  | notFound => 2
  | busy => 16
  | occupied => 17
  | notDirectory => 20
  | isDirectory => 21
  | nameTooLong => 36

def wording : StorageFault → String
  | notFound => "No such file or directory"
  | busy => "Device or resource busy"
  | occupied => "File exists"
  | notDirectory => "Not a directory"
  | isDirectory => "Is a directory"
  | nameTooLong => "File name too long"

/-- A fault that concerns a path, in a message. -/
def message (f : StorageFault) (p : Path) : Text :=
  .ofString "[Errno " ++ .ofNat f.number ++ .ofString "] " ++ .ofString f.wording
    ++ .ofString ": " ++ p.shown.quoted

end StorageFault

namespace Storage

/-- The greatest length of a name, in bytes. -/
def nameLimit : Nat := 255

/-- The least length of a path, in bytes, that is too much. -/
def pathLimit : Nat := 4096

/-- The entries of the directory at a place. -/
def entries (s : Storage) (place : List Text) : Except StorageFault (List (Text × FileTree)) :=
  match s.tree.at? place with
  | some (.directory entries) => .ok entries
  | some (.file _) => .error .notDirectory
  | none => .error .notFound

/-- The place that a name in a directory leads to. -/
def enter (s : Storage) (place : List Text) (name : Text) : Except StorageFault (List Text) := do
  let entries ← s.entries place
  if name = Path.back then return place.dropLast
  else if nameLimit < name.byteLength then .error .nameTooLong
  else if (Entries.get? name entries).isSome then return place ++ [name]
  else .error .notFound

/-- The place that names lead to, one after the other. -/
def walk (s : Storage) (place : List Text) (names : List Text) : Except StorageFault (List Text) :=
  names.foldlM s.enter place

/-- The place where a path starts. -/
def origin (s : Storage) (p : Path) : List Text :=
  if p.isAbsolute then [] else s.here

/-- The place that a path leads to. -/
def locate (s : Storage) (p : Path) : Except StorageFault (List Text) :=
  if pathLimit ≤ p.shown.byteLength then .error .nameTooLong
  else s.walk (s.origin p) p.parts

/-- Whether a path leads to a directory. -/
def isDirectory (s : Storage) (p : Path) : Bool :=
  match (do s.entries (← s.locate p)) with
  | .ok _ => true
  | .error _ => false

/-- The content of the file that a path leads to. -/
def read (s : Storage) (p : Path) : Except StorageFault ByteArray := do
  let place ← s.locate p
  match s.tree.at? place with
  | some (.file content) => return content
  | some (.directory _) => .error .isDirectory
  | none => .error .notFound

/-- The place of a new entry that a path names: the way to it must be there, and the entry not. -/
def vacancy (s : Storage) (p : Path) : Except StorageFault (List Text) := do
  if p.parts = [] then .error .occupied
  if pathLimit ≤ p.shown.byteLength then .error .nameTooLong
  let place ← s.locate p.parent
  match s.enter place p.name with
  | .ok _ => .error .occupied
  | .error .notFound => return place ++ [p.name]
  | .error f => .error f

/-- Makes a directory where there is none. -/
def makeDirectory (s : Storage) (p : Path) : Except StorageFault Storage := do
  let place ← s.vacancy p
  return { s with tree := FileTree.put (.directory []) place s.tree }

/-- What an attempt to make a directory leads to, if it is welcome that there is one. -/
def settled (s : Storage) (p : Path) : Except StorageFault Storage → Storage × Option StorageFault
  | .ok made => (made, none)
  | .error f => if s.isDirectory p then (s, none) else (s, some f)

/-- Makes a directory and those on the way to it, unless they are there. -/
def makeDirectories (s : Storage) (p : Path) : Storage × Option StorageFault :=
  match s.makeDirectory p with
  -- Something on the way is not there: it is made first, and then there is one more attempt.
  | .error .notFound =>
    if _h : p.parts = [] then (s, some .notFound)
    else
      let above := makeDirectories s p.parent
      match above.2 with
      | some f => (above.1, some f)
      | none => above.1.settled p (above.1.makeDirectory p)
  | outcome => s.settled p outcome
termination_by p.parts.length
decreasing_by
  have := List.length_pos_iff.2 _h
  simp only [Path.parent, List.length_dropLast]
  omega

end Storage

end DeclSchema
