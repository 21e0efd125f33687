import DeclSchema.Name

/-!
# Notices

What a run reports while it goes on. A notice is a fact about the run, and it has a level, a place
that it comes from and a message.

## Main definitions

* `Notice`: the facts that are reported
* `Notice.level`, `Notice.origin`, `Notice.message`: how a notice is reported
* `Notice.line`: a notice as a line of a report
-/

namespace DeclSchema

/-- How important a notice is. -/
inductive Level where
  | debug
  | info
  | warning
deriving DecidableEq

def Level.label : Level → String
  | debug => "DEBUG"
  | info => "INFO"
  | warning => "WARNING"

/-- What a run reports. -/
inductive Notice where
  /-- A name is asked for the first time; the requester is absent at the start of a run. -/
  | requested (name : Name) (requester : Option Text)
  /-- A name that was asked for is not declared. -/
  | undeclared (name : Name)
  /-- The definition of a name is made now. -/
  | resolving (name : Text)
  /-- A type expression in a scope has no schema of its own. -/
  | schemaless (scope sort text : Text)
  /-- All declarations are read. -/
  | indexed (count : Nat)
  /-- All names are treated. -/
  | resolved (defined missing : Nat)
  /-- A remote source is fetched now. -/
  | fetching (location : Text)
deriving DecidableEq

namespace Notice

def level : Notice → Level
  | requested .. => .debug
  | undeclared _ => .warning
  | resolving _ => .debug
  | schemaless .. => .warning
  | indexed _ => .debug
  | resolved .. => .info
  | fetching _ => .info

/-- The part of the program that a report names as the place a notice comes from. -/
def origin : Notice → String
  | requested .. => "dts_to_json_schema.pipeline.analyzer.resolver"
  | undeclared _ => "dts_to_json_schema.pipeline.analyzer.resolver"
  | resolving _ => "dts_to_json_schema.pipeline.analyzer.resolver"
  | schemaless .. => "dts_to_json_schema.pipeline.analyzer.translator"
  | indexed _ => "dts_to_json_schema.pipeline.generator"
  | resolved .. => "dts_to_json_schema.pipeline.generator"
  | fetching _ => "dts_to_json_schema.pipeline.source"

/-- Who asks for a name, in a message: a nameless requester counts as none. -/
def requesterShown : Option Text → Text
  | none => .ofString "<root>"
  | some [] => .ofString "<root>"
  | some r => r

def message : Notice → Text
  | requested name requester =>
    name.shown ++ .ofString " requested by " ++ requesterShown requester
  | undeclared name => .ofString "missing declaration for " ++ name.shown
  | resolving name => .ofString "resolving " ++ name
  | schemaless scope sort text =>
    scope ++ .ofString ": no schema translation for " ++ sort ++ .ofString " \x60" ++ text
      ++ .ofString "\x60"
  | indexed count => .ofString "indexed " ++ .ofNat count ++ .ofString " declarations"
  | resolved defined missing =>
    .ofString "resolved " ++ .ofNat defined ++ .ofString " definitions, " ++ .ofNat missing
      ++ .ofString " missing"
  | fetching location => .ofString "fetching " ++ location

/-- A notice as a line of a report. -/
def line (n : Notice) : Text :=
  .ofString n.level.label ++ .ofString " " ++ .ofString n.origin ++ .ofString ": " ++ n.message
    ++ .ofString "\n"

end Notice

end DeclSchema
