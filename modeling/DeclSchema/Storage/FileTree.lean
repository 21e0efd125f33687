import DeclSchema.Entries

/-!
# Trees of files

A tree is a file or a directory of named trees. A node is reached by the names on the way to it.

## Main definitions

* `FileTree`: the trees
* `FileTree.at?`, `FileTree.put`, `FileTree.insert`, `FileTree.erase`: the node at a place
* `FileTree.content?`: the content of the file at a place
* `FileTree.files`: all files with their places
-/

namespace DeclSchema

/-- A file or a directory. -/
inductive FileTree where
  | file (content : ByteArray)
  | directory (entries : List (Text × FileTree))

namespace FileTree

instance : Inhabited FileTree :=
  ⟨directory []⟩

def at? : List Text → FileTree → Option FileTree
  | [], t => some t
  | _ :: _, file _ => none
  | name :: rest, directory entries =>
    match Entries.get? name entries with
    | some t => at? rest t
    | none => none

/-- Puts a node at a place, if there is a directory for it. -/
def put (node : FileTree) : List Text → FileTree → FileTree
  | [], _ => node
  | _ :: _, file content => file content
  | [name], directory entries => directory (Entries.put name node entries)
  | name :: rest, directory entries =>
    match Entries.get? name entries with
    | some t => directory (Entries.put name (put node rest t) entries)
    | none => directory entries

/-- Puts a file at a place and makes the directories on the way to it. -/
def insert (content : ByteArray) : List Text → FileTree → FileTree
  | [], _ => file content
  | name :: rest, directory entries =>
    let below := (Entries.get? name entries).getD (directory [])
    directory (Entries.put name (insert content rest below) entries)
  | name :: rest, file _ => directory [(name, insert content rest (directory []))]

def erase : List Text → FileTree → FileTree
  | [], t => t
  | _ :: _, file content => file content
  | [name], directory entries => directory (Entries.remove name entries)
  | name :: rest, directory entries =>
    match Entries.get? name entries with
    | some t => directory (Entries.put name (erase rest t) entries)
    | none => directory entries

/-- The content of the file at a place. -/
def content? (place : List Text) (t : FileTree) : Option ByteArray :=
  match at? place t with
  | some (file content) => some content
  | _ => none

mutual

/-- All files of a tree with their places, where `above` is the place of the tree. -/
def filesFrom (above : List Text) : FileTree → List (List Text × ByteArray)
  | file content => [(above, content)]
  | directory entries => entryFiles above entries

/-- All files of the entries of a directory. -/
def entryFiles (above : List Text) : List (Text × FileTree) → List (List Text × ByteArray)
  | [] => []
  | (name, t) :: rest => filesFrom (above ++ [name]) t ++ entryFiles above rest

end

/-- All files of a tree with their places. -/
def files (t : FileTree) : List (List Text × ByteArray) :=
  filesFrom [] t

end FileTree

end DeclSchema
