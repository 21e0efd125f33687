import DeclSchema.Binary64.Reader
import DeclSchema.Binary64.Shortest
import DeclSchema.Location
import DeclSchema.Text.Quoted
import DeclSchema.Text.Similarity

/-!
# Arguments of the command

The command takes two arguments, the source and the output, with options before, between and after
them. An option is written in full, `--root`, or as a letter, `-r`; letters may share one dash. The
value of an option is what follows an equals sign or the letter, or the next argument, whatever it
looks like. Two dashes end the options.

The arguments are read from left to right. The first misuse counts; whether the values can be used
is found out afterwards, for the options in the order in which they were first given, then for the
output. A path that cannot be one breaks the command off.

## Main definitions

* `Switch`: the options
* `Misuse`, `Misuse.report`: what is wrong with arguments
* `Obstacle`: why a command is not carried out
* `Command`, `Request`: what the command is asked to do
* `Request.ofArguments`: the meaning of arguments
-/

namespace DeclSchema

/-- The options of the command. -/
inductive Switch where
  | config
  | root
  | seed
  | timeout
  | verbose
  | help
deriving DecidableEq

namespace Switch

def all : List Switch :=
  [config, root, seed, timeout, verbose, help]

def long : Switch → Text
  | config => .ofString "--config"
  | root => .ofString "--root"
  | seed => .ofString "--seed"
  | timeout => .ofString "--timeout"
  | verbose => .ofString "--verbose"
  | help => .ofString "--help"

/-- The letter of an option, if it has one. -/
def letter? : Switch → Option Char
  | config => some 'c'
  | root => some 'r'
  | seed => some 's'
  | timeout => none
  | verbose => some 'v'
  | help => none

def takesValue : Switch → Bool
  | verbose => false
  | help => false
  | _ => true

def ofLong? (t : Text) : Option Switch :=
  all.find? fun s => s.long = t

def ofLetter? (p : CodePoint) : Option Switch :=
  all.find? fun s => s.letter?.map CodePoint.ofChar = some p

end Switch

/-- What is wrong with the arguments of the command. -/
inductive Misuse where
  /-- An option does not exist; some options have a similar name. -/
  | unknown (option : Text) (similar : List Text)
  | valueMissing (option : Text)
  | valueUnwanted (option : Text)
  | noSuchPath (path : Text)
  | noNumber (value : Text)
  | surplus (arguments : List Text)

namespace Misuse

/-- The options that may have been meant. -/
def suggestion : List Text → Text
  | [] => []
  | [option] => .ofString " Did you mean " ++ option.quoted ++ .ofString "?"
  | options =>
    .ofString " (Did you mean one of: "
      ++ .joined (.ofString ", ") ((options.mergeSort Text.le).map Text.quoted) ++ .ofString "?)"

def message : Misuse → Text
  | unknown option similar =>
    .ofString "No such option " ++ option.quoted ++ .ofString "." ++ suggestion similar
  | valueMissing option =>
    .ofString "Option " ++ option.quoted ++ .ofString " requires an argument."
  | valueUnwanted option =>
    .ofString "Option " ++ option.quoted ++ .ofString " does not take a value."
  | noSuchPath path =>
    .ofString "Invalid value for '--config' / '-c': Path " ++ path.quoted
      ++ .ofString " does not exist."
  | noNumber value =>
    .ofString "Invalid value for '--timeout': " ++ value.quoted
      ++ .ofString " is not a valid float."
  | surplus [argument] => .ofString "Got unexpected extra argument (" ++ argument ++ .ofString ")"
  | surplus arguments =>
    .ofString "Got unexpected extra arguments (" ++ .joined (.ofString " ") arguments
      ++ .ofString ")"

/-- Whether the usage of the command is shown with a misuse. -/
def showsUsage : Misuse → Bool
  | valueMissing _ => false
  | valueUnwanted _ => false
  | _ => true

def usage : Text :=
  .ofString "Usage: dts-to-json-schema [OPTIONS] [SOURCE] [OUTPUT]\n"

def hint : Text :=
  .ofString "Try 'dts-to-json-schema --help' for help.\n\n"

def report (m : Misuse) : Text :=
  (if m.showsUsage then usage ++ hint else []) ++ .ofString "Error: " ++ m.message
    ++ .ofString "\n"

end Misuse

/-- Why a command is not carried out. -/
inductive Obstacle where
  | misuse (m : Misuse)
  /-- A path in its arguments cannot be one. -/
  | unusable (f : Fault)

/-- What the command does: where the options, the source and the output are, and what is set beside
the file of options. -/
structure Command where
  config? : Option Text
  root? : Option Text
  seeds : List Text
  timeout : Binary64
  verbose : Bool
  source : Text
  output : Text

/-- What the command is asked for. -/
inductive Request where
  | help
  | run (command : Command)

/-! ### Reading arguments -/

/-- What is found among the arguments. -/
structure Findings where
  /-- The options with their values, in order; an option without a value has the empty text. -/
  options : List (Switch × Text)
  positional : List Text
  /-- The option that waits for its value, as it was written. -/
  waiting? : Option (Switch × Text)
  ended : Bool

namespace Findings

def nothing : Findings :=
  ⟨[], [], none, false⟩

def dash : CodePoint :=
  .ofChar '-'

def addOption (f : Findings) (s : Switch) (value : Text) : Findings :=
  { f with options := f.options ++ [(s, value)] }

def await (f : Findings) (s : Switch) (written : Text) : Findings :=
  { f with waiting? := some (s, written) }

def splitValue (argument : Text) : Text × Option Text :=
  match argument.span (· ≠ CodePoint.ofChar '=') with
  | (option, _ :: value) => (option, some value)
  | (option, []) => (option, none)

/-- Reads an option that is written in full. -/
def addLong (f : Findings) (s : Switch) (written : Text) (value? : Option Text) :
    Except Misuse Findings :=
  match value? with
  | some value =>
    if s.takesValue then .ok (f.addOption s value) else .error (.valueUnwanted written)
  | none => .ok (if s.takesValue then f.await s written else f.addOption s [])

/-- Reads the letters after a dash. -/
def addLetters (f : Findings) : Text → Except Misuse Findings
  | [] => .ok f
  | p :: rest =>
    match Switch.ofLetter? p with
    | none => .error (.unknown [dash, p] [])
    | some s =>
      if !s.takesValue then (f.addOption s []).addLetters rest
      else if rest = [] then .ok (f.await s [dash, p])
      else .ok (f.addOption s rest)

/-- Whether an argument is an option: it starts with a dash and is longer. -/
def isOption : Text → Bool
  | p :: _ :: _ => p = dash
  | _ => false

def isLong : Text → Bool
  | p :: q :: _ => p = dash && q = dash
  | _ => false

def addWritten (f : Findings) (argument : Text) : Except Misuse Findings :=
  let (written, value?) := splitValue argument
  match Switch.ofLong? written with
  | some s => f.addLong s written value?
  | none =>
    if isLong argument then
      .error (.unknown written (Text.closest written (Switch.all.map Switch.long)))
    else f.addLetters (argument.drop 1)

def add (f : Findings) (argument : Text) : Except Misuse Findings :=
  match f.waiting? with
  | some (s, _) => .ok { f.addOption s argument with waiting? := none }
  | none =>
    if f.ended || !isOption argument then
      .ok { f with positional := f.positional ++ [argument] }
    else if argument = [dash, dash] then .ok { f with ended := true }
    else f.addWritten argument

/-- Reads all arguments; an option must not wait for its value at the end. -/
def ofArguments (arguments : List Text) : Except Misuse Findings := do
  let f ← arguments.foldlM add nothing
  match f.waiting? with
  | some (_, written) => .error (.valueMissing written)
  | none => return f

def values (f : Findings) (s : Switch) : List Text :=
  (f.options.filter (·.1 = s)).map (·.2)

/-- The value of an option that counts: the last one. -/
def value? (f : Findings) (s : Switch) : Option Text :=
  (f.values s).getLast?

end Findings

namespace Command

/-- Where the source is if no argument tells it. -/
def defaultSource : Text :=
  .ofString "https://unpkg.com/@typescript-eslint/types@5.41.0/dist/generated/ast-spec.d.ts"

/-- Where the output is if no argument tells it. -/
def defaultOutput : Text :=
  .ofString "ast-spec.json"

/-- The time limit if no option tells it, in seconds. -/
def defaultTimeout : Binary64 :=
  .ofRatio false 30 1

/-- The time limit that is found. -/
def timeoutOf (f : Findings) : Except Obstacle Binary64 :=
  match f.value? .timeout with
  | none => .ok defaultTimeout
  | some value =>
    match Binary64.ofChars? (Location.charsOf value) with
    | some x => .ok x
    | none => .error (.misuse (.noNumber value))

/-- A path must be one. -/
def checkPath (path : Text) : Except Obstacle Unit :=
  (Path.checkText path).mapError .unusable

/-- The file of options that is found; it must exist. -/
def configOf (exist : Text → Bool) (f : Findings) : Except Obstacle (Option Text) :=
  match f.value? .config with
  | none => .ok none
  | some path => do
    checkPath path
    if exist path then return some path
    else .error (.misuse (.noSuchPath path))

/-- The values of the time limit and of the file of options are examined in the order in which the
options were first given. -/
def valuesOf (exist : Text → Bool) (f : Findings) :
    Except Obstacle (Binary64 × Option Text) := do
  let given := f.options.map (·.1)
  if given.idxOf .timeout < given.idxOf .config then
    let timeout ← timeoutOf f
    return (timeout, ← configOf exist f)
  else
    let config? ← configOf exist f
    return (← timeoutOf f, config?)

end Command

/-- What the arguments ask for, where `exist` tells which paths exist. -/
def Request.ofArguments (exist : Text → Bool) (arguments : List Text) :
    Except Obstacle Request := do
  let f ← (Findings.ofArguments arguments).mapError .misuse
  -- Whoever asks for help is not told what else is wrong.
  if (f.value? .help).isSome then return .help
  let (timeout, config?) ← Command.valuesOf exist f
  let output := f.positional[1]?.getD Command.defaultOutput
  Command.checkPath output
  match f.positional.drop 2 with
  | [] =>
    return .run {
      config?, timeout, output
      root? := f.value? .root
      seeds := f.values .seed
      verbose := (f.value? .verbose).isSome
      source := f.positional[0]?.getD Command.defaultSource }
  | surplus => .error (.misuse (.surplus surplus))

end DeclSchema
