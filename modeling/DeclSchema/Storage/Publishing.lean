import DeclSchema.Document
import DeclSchema.Json.Reader
import DeclSchema.Storage

/-!
# Publishing documents

A document replaces a file in one move. It is first written in full to a staged file beside its
target, under a name that nothing else has; only a document that passes its examination takes the
place of the target. In every other case the staged file is withdrawn, so that all files are as they
were. Directories on the way to the target may have been made by then.

## Main definitions

* `Document.examine`: the examination of a schema document
* `Storage.Examination`: examinations of a text among files
* `Storage.stage`, `Storage.withdraw`, `Storage.swap`: the life of a staged file
* `Storage.publishWith`, `Storage.publish`: publishes a document
-/

namespace DeclSchema

/-- A text is a schema document if it is a JSON object with a schema key. -/
def Document.examine (content : Text) : Except Fault Unit :=
  match Json.read content with
  | .ok document =>
    if (document.field? Document.schemaKey).isSome then .ok () else .error .noSchemaKey
  | .error f =>
    if f.problem = .longInteger then .error .longInteger
    else .error (.invalidDocument (f.message content))

namespace Storage

/-- An examination of a text, which may look at the files as they are at that time. -/
abbrev Examination := Storage → Text → Except Fault Unit

/-- What publishing leads to. -/
structure Publishing where
  storage : Storage
  /-- The contents that were examined, each with the files at that time. -/
  examinations : List (Storage × Text)
  fault? : Option Fault

/-- The contents that were examined. -/
def Publishing.examined (p : Publishing) : List Text :=
  p.examinations.map (·.2)

/-- The number of bytes that the name of a staged file has more than that of its target. -/
def stagingSurplus : Nat := 14

/-- A name for a staged file: it is longer than the name of every entry. -/
def vacantName (name : Text) (entries : List (Text × FileTree)) : Text :=
  let longest := (entries.map (·.1.length)).foldl max 0
  .ofString "." ++ name ++ .ofString "." ++ List.replicate longest (.ofChar '_')
    ++ .ofString ".tmp"

def stage (staged : List Text) (content : ByteArray) (s : Storage) : Storage :=
  { s with tree := FileTree.put (.file content) staged s.tree }

def withdraw (staged : List Text) (s : Storage) : Storage :=
  { s with tree := s.tree.erase staged }

/-- Moves a staged file to the target in a directory that a path names, which must be no
directory. -/
def swap (staged place : List Text) (p : Path) (content : ByteArray) (s : Storage) :
    Except StorageFault Storage :=
  if pathLimit ≤ p.shown.byteLength then .error .nameTooLong
  else if p.name = [] || p.name = Path.back then .error .busy
  else
    match s.tree.at? (place ++ [p.name]) with
    | some (.directory _) => .error .isDirectory
    | _ => .ok ((s.withdraw staged).stage (place ++ [p.name]) content)

/-- Examines a staged document and moves it to its target. -/
def release (examine? : Option Examination) (staged place : List Text) (p : Path) (text : Text)
    (content : ByteArray) (s : Storage) : Publishing :=
  let examinations := if examine?.isSome then [(s, text)] else []
  let verdict := match examine? with
    | some examine => examine s text
    | none => .ok ()
  match verdict with
  | .error fault => ⟨s.withdraw staged, examinations, some fault⟩
  | .ok () =>
    match s.swap staged place p content with
    | .error fault => ⟨s.withdraw staged, examinations, some (.storage fault)⟩
    | .ok s => ⟨s, examinations, none⟩

/-- Whether the name of a staged file is too long, alone or with the way to it from the root of all
files. -/
def stagesTooLong (place : List Text) (p : Path) : Bool :=
  let target : Path := ⟨if p.isAbsolute then p.anchor else [Path.slash], place ++ [p.name]⟩
  nameLimit < p.name.byteLength + stagingSurplus
    || pathLimit ≤ target.shown.byteLength + stagingSurplus

/-- Publishes a document at a path whose directory is at a place and has given entries. -/
def publishIn (examine? : Option Examination) (p : Path) (place : List Text)
    (entries : List (Text × FileTree)) (text : Text) (s : Storage) : Publishing :=
  if stagesTooLong place p then ⟨s, [], some (.storage .nameTooLong)⟩
  else
    let staged := place ++ [vacantName p.name entries]
    -- The staged file is there before its content can turn out to have no UTF-8 form.
    let s := s.stage staged .empty
    match text.utf8? with
    | none => ⟨s.withdraw staged, [], some .unencodable⟩
    | some content => (s.stage staged content).release examine? staged place p text content

/-- Publishes a document at a path, after an examination if one is asked for. -/
def publishWith (examine? : Option Examination) (p : Path) (text : Text) (s : Storage) :
    Publishing :=
  match p.parent.check with
  | .error fault => ⟨s, [], some fault⟩
  | .ok () =>
    let made := s.makeDirectories p.parent
    match made.2, Path.checkText p.name with
    | some fault, _ => ⟨made.1, [], some (.storage fault)⟩
    | none, .error fault => ⟨made.1, [], some fault⟩
    | none, .ok () =>
      match (do
        let place ← made.1.locate p.parent
        return (place, ← made.1.entries place)) with
      | .error fault => ⟨made.1, [], some (.storage fault)⟩
      | .ok (place, entries) => made.1.publishIn examine? p place entries text

/-- Publishes a document at a path, after an examination of the text alone if one is asked for. -/
def publish (examine? : Option (Text → Except Fault Unit)) (p : Path) (text : Text)
    (s : Storage) : Publishing :=
  s.publishWith (examine?.map fun examine _ => examine) p text

end Storage

end DeclSchema
