import DeclSchema.CommandLine

/-!
# The program

The outer layer of the command. It takes a picture of the files that the arguments name, lets the
command answer on that picture, prints the answer and writes what the command has changed. Remote
sources are out of reach.
-/

namespace DeclSchema.Program

/-- A text as a string; a replacement character stands for each surrogate. -/
def stringOf (t : Text) : String :=
  String.ofList (Location.charsOf t)

/-- How a place is written. -/
def written (place : List Text) : String :=
  stringOf ([Path.slash] ++ .joined [Path.slash] place)

/-- Adds the file or the directory at a place to a picture. -/
def addNode (tree : FileTree) (place : List Text) : IO FileTree := do
  let path := (← IO.currentDir) / written place
  if ← path.isDir then
    return if (tree.at? place).isSome then tree else FileTree.put (.directory []) place tree
  else if ← path.pathExists then
    return FileTree.put (.file (← IO.FS.readBinFile path)) place tree
  else return tree

/-- Adds everything on the way of a path to a picture. -/
def addPath (here : List Text) (tree : FileTree) (p : Path) : IO FileTree := do
  let mut tree := tree
  let mut way := if p.isAbsolute then [] else here
  for part in p.parts do
    way := if part = Path.back then way.dropLast else way ++ [part]
    tree ← addNode tree way
  return tree

/-- The paths that arguments name. -/
def pathsOf (arguments : List Text) : List Path :=
  match Findings.ofArguments arguments with
  | .ok f =>
    (f.values .config ++ f.positional ++ [Command.defaultOutput]).map Path.ofText
  | .error _ => []

/-- A picture of the files that arguments name. -/
def picture (arguments : List Text) : IO Storage := do
  let here := (Path.ofText (.ofString (← IO.currentDir).toString)).parts
  let paths := ⟨[Path.slash], here⟩ :: pathsOf arguments
  let tree ← paths.foldlM (addPath here) (.directory [])
  return ⟨tree, here⟩

/-- Writes a file in one move. -/
def writeFile (place : List Text) (content : ByteArray) : IO Unit := do
  let path := (← IO.currentDir) / written place
  if let some above := path.parent then IO.FS.createDirAll above
  let staged := path.toString ++ ".staged"
  IO.FS.writeBinFile staged content
  IO.FS.rename staged path

/-- Writes the files that differ from a picture. -/
def writeChanges (before after : Storage) : IO Unit :=
  for (place, content) in after.tree.files do
    if (before.tree.content? place).map (·.data) ≠ some content.data then writeFile place content

/-- The wording of a fault that has no message of its own. -/
def wording : Fault → String
  | .storage cause => cause.wording
  | .undecodable => "A file is not UTF-8"
  | .unencodable => "A text has surrogates"
  | .malformedOptions => "The file of options is no JSON text"
  | .optionsNoObject => "The file of options holds no object"
  | .malformedLocation => "A location is malformed"
  | .longInteger => "An integer is too long"
  | .noCodePoint => "An escape is no character"
  | .hugeCodePoint => "An escape is no character"
  | _ => "An option has a value of the wrong sort"

def run (arguments : List Text) : IO UInt32 := do
  let before ← picture arguments
  let reply := .silence (.ofString "remote sources are out of reach")
  let answer := Answer.ofArguments before reply arguments
  IO.eprint (stringOf answer.errors)
  if let some fault := answer.escaped? then IO.eprintln ("Error: " ++ wording fault)
  writeChanges before answer.storage
  IO.print (stringOf answer.output)
  return UInt32.ofNat answer.exitCode

end DeclSchema.Program

/-- The command line of the program. -/
def main (arguments : List String) : IO UInt32 :=
  DeclSchema.Program.run (arguments.map DeclSchema.Text.ofString)
