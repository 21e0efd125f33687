import DeclSchema.CommandLine.Arguments
import DeclSchema.Generation
import DeclSchema.Source
import DeclSchema.Storage.Publishing
import DeclSchema.Text.Console

/-!
# The command

The command reads its options and a declaration source, generates the schema document and publishes
it. Every fault before the end leaves all files as they are.

## Main definitions

* `Command.options`, `Command.document`: the options and the document of a run
* `Command.run`: the whole run
* `Answer`: what the command prints and answers
* `Answer.ofArguments`: the answer to arguments
-/

namespace DeclSchema

/-- The path that a text writes, from the root of all files on and without ways back. -/
def Storage.realPath (s : Storage) (t : Text) : Path :=
  let p := Path.ofText t
  ⟨[Path.slash], Path.straightened (s.origin p ++ p.parts)⟩

/-- Whether something is at the path that a text writes. -/
def Storage.exist (s : Storage) (t : Text) : Bool :=
  match s.locate (s.realPath t) with
  | .ok _ => true
  | .error _ => false

namespace Command

def fileOptions (s : Storage) (path : Text) : Except Fault Options := do
  match s.read (s.realPath path) with
  | .error f => .error (.storage f)
  | .ok bytes =>
    match Json.read (← Source.decode bytes) with
    | .ok value => Options.ofObject value
    | .error f =>
      .error (if f.problem = .longInteger then .longInteger else .malformedOptions)

/-- The options of a run: what the command sets counts more than what the file sets. -/
def options (c : Command) (s : Storage) : Except Fault Options := do
  let o ← match c.config? with
    | some path => fileOptions s path
    | none => .ok Options.defaults
  let o := match c.root? with
    | some root => o.set .rootName (.text root)
    | none => o
  return if c.seeds = [] then o else o.set .rootNames (.array (c.seeds.map .text))

/-- The text of the document of a run. -/
def document (c : Command) (s : Storage) (reply : Source.Reply) : Traced Notice Text := do
  let o ← .ofExcept (c.options s)
  let source ← Source.load s reply (.written c.source)
  let g := Generation.run source o
  ⟨g.journal, g.text o⟩

end Command

/-- What a run leaves, and how it went. -/
structure Report where
  storage : Storage
  notices : List Notice
  fault? : Option Fault

/-- The whole run of the command. -/
def Command.run (c : Command) (s : Storage) (reply : Source.Reply) : Report :=
  let made := c.document s reply
  match made.outcome with
  | .error fault => ⟨s, made.events, some fault⟩
  | .ok text =>
    let published := s.publish (some Document.examine) (s.realPath c.output) text
    ⟨published.storage, made.events, published.fault?⟩

/-- What the command prints and answers. -/
structure Answer where
  storage : Storage
  /-- Zero for success, one for a fault, two for a misuse. -/
  exitCode : Nat
  output : Text
  errors : Text
  /-- The fault that has no message. -/
  escaped? : Option Fault
  /-- The addresses that were fetched, with the time limit. -/
  fetched : List (Text × Binary64)

namespace Answer

/-- The lines for the notices of a run; the least important ones are for a verbose run. -/
def lines (verbose : Bool) (notices : List Notice) : Text :=
  (notices.filter fun n => verbose || n.level ≠ .debug).flatMap Notice.line

/-- The line for a fault, if it has a message. -/
def faultLine (fault? : Option Fault) : Text :=
  match fault?.bind Fault.message? with
  | some message => (Text.ofString "Error: " ++ message ++ .ofString "\n").unsteered
  | none => []

/-- What is printed among the errors, as it arrives. -/
def printed (t : Text) : Text :=
  t.printable.lineFeeds

/-- The addresses that notices tell of. -/
def addresses (notices : List Notice) : List Text :=
  notices.filterMap fun
    | .fetching location => some location
    | _ => none

def ofReport (c : Command) (r : Report) : Answer where
  storage := r.storage
  exitCode := if r.fault?.isSome then 1 else 0
  output := if r.fault?.isSome then [] else .ofString "done\n"
  errors := printed (lines c.verbose r.notices ++ faultLine r.fault?)
  escaped? := r.fault?.filter fun f => f.message?.isNone
  fetched := (addresses r.notices).map fun location => (location, c.timeout)

def helpPage : Text :=
  Misuse.usage ++ .ofString "
Options:
  -c, --config PATH
  -r, --root TEXT    Declaration merged at the top level of the schema
  -s, --seed TEXT    Name to resolve (repeatable, replaces the default seeds)
  --timeout FLOAT    Seconds to wait when fetching a remote source
  -v, --verbose
  --help             Show this message and exit.
"

def ofArguments (s : Storage) (reply : Source.Reply) (arguments : List Text) : Answer :=
  match Request.ofArguments s.exist arguments with
  | .error (.misuse m) => ⟨s, 2, [], printed m.report.unsteered, none, []⟩
  | .error (.unusable fault) => ⟨s, 1, [], [], some fault, []⟩
  | .ok .help => ⟨s, 0, helpPage, [], none, []⟩
  | .ok (.run c) => ofReport c (c.run s reply)

end Answer

end DeclSchema
