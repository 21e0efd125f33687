import DeclSchema.Notice
import DeclSchema.Remaining
import DeclSchema.Schema.OfType

/-!
# Worklists

Definitions are made on demand. A worklist holds the names that were asked for and are not treated
yet, as a stack, and what became of the others. To treat a name is to take it from the stack and to
make its definition, during which other names are asked for; a name that is not declared is missing.

A name is asked for once in the life of a worklist. So a run ends: each step takes a name from the
stack, and only finitely many names can ever be asked for, because those are mentioned in the table.

## Main definitions

* `Worklist`: the names and definitions of a run, with its journal
* `Worklist.Drafts`, `Worklist.drafts`: what the definitions of the declared names come to
* `Worklist.request`, `Worklist.treat`: the steps
* `Worklist.start`: the worklist that the options ask for
* `Worklist.resolve`: treats all names, or ends with the first fault
-/

namespace DeclSchema

/-- The names and the definitions of a run. -/
structure Worklist where
  /-- The definitions that are made, in the order in which they were. -/
  definitions : Entries Schema
  /-- The names that are not declared, in the order in which they were treated. -/
  missing : List Name
  /-- The names that are not treated, the next one first. -/
  stack : List Name
  /-- The names that were asked for, in order. -/
  requested : List Name
  journal : List Notice

namespace Worklist

def empty : Worklist :=
  ⟨[], [], [], [], []⟩

/-- The names that are not treated, in the order in which they were asked for. -/
def pending (w : Worklist) : List Name :=
  w.stack.reverse

def report (n : Notice) (w : Worklist) : Worklist :=
  { w with journal := w.journal ++ [n] }

/-- The same worklist with an empty journal. -/
def turnPage (w : Worklist) : Worklist :=
  { w with journal := [] }

/-- Whether a name was asked for. -/
def isRequested (w : Worklist) (name : Name) : Bool :=
  w.requested.any name.same

/-- Asks for a name. Nothing happens if it was asked for before. -/
def request (name : Name) (requester : Option Text) (w : Worklist) : Worklist :=
  if w.isRequested name then w
  else
    { w with
      stack := name :: w.stack
      requested := w.requested ++ [name]
      journal := w.journal ++ [.requested name requester] }

/-- What an event in the definition of `scope` does to the worklist. -/
def note (scope : Text) (w : Worklist) : Schema.Event → Worklist
  | .asked name => w.request (.text name) (some scope)
  | .schemaless sort text => w.report (.schemaless scope sort text)

/-- What the events in the definition of `scope` do to the worklist. -/
def noteAll (scope : Text) (events : List Schema.Event) (w : Worklist) : Worklist :=
  events.foldl (note scope) w

/-- A definition in the making: what is reported on the way, and the schema or the fault at its
end. -/
abbrev Draft := Traced Schema.Event Schema

/-- The drafts of the declared names. -/
abbrev Drafts := Text → Option Draft

/-- Makes the definition of a name from its draft. -/
def define (name : Text) (draft : Draft) (w : Worklist) : Worklist × Option Fault :=
  let w := (w.report (.resolving name)).noteAll name draft.events
  match draft.outcome with
  | .ok schema => ({ w with definitions := w.definitions.put name schema }, none)
  | .error fault => (w, some fault)

def miss (name : Name) (w : Worklist) : Worklist :=
  { w.report (.undeclared name) with missing := w.missing ++ [name] }

/-- The draft of a name; only a text is declared. -/
def draft? (d : Drafts) : Name → Option (Text × Draft)
  | .text name => (d name).map (name, ·)
  | _ => none

/-- Treats a name that was taken from the stack. -/
def treat (d : Drafts) (name : Name) (w : Worklist) : Worklist × Option Fault :=
  match draft? d name with
  | some (name, draft) => define name draft w
  | none => (w.miss name, none)

variable (t : Table) (o : Options)

/-- The drafts that the declarations of a table give. -/
def drafts : Drafts := fun name =>
  (t.get? name).map (Schema.ofDeclaration ⟨t, o, name⟩)

/-! ### The end of a run -/

/-- The names that the events of a definition ask for. -/
def askedNames (events : List Schema.Event) : List Text :=
  events.filterMap fun
    | .asked name => some name
    | .schemaless .. => none

/-- The names that any definition asks for. -/
def mentioned : List Text :=
  t.entries.flatMap fun p => askedNames (Schema.ofDeclaration ⟨t, o, p.1⟩ p.2).events

/-- The number of steps that a worklist can still take. -/
def size (w : Worklist) : Nat :=
  (mentioned t o).countP (fun n => !w.isRequested (.text n)) + w.stack.length

theorem isRequested_text {w : Worklist} {name : Text} :
    w.isRequested (.text name) = true ↔ .text name ∈ w.requested := by
  simp [isRequested, Name.same_text]

theorem size_request_le {name : Text} (h : name ∈ mentioned t o) (requester : Option Text)
    (w : Worklist) : (w.request (.text name) requester).size t o ≤ w.size t o := by
  unfold request
  split
  · exact Nat.le_refl _
  · next hr =>
    have fewer : (mentioned t o).countP
        (fun n => !(w.requested ++ [Name.text name]).any (Name.same (.text n))) <
          (mentioned t o).countP (fun n => !w.isRequested (.text n)) := by
      refine countP_lt_countP (fun n _ hn => ?_) h ?_ (by simpa using hr)
      · simp only [List.any_append, Bool.not_eq_true', Bool.or_eq_false_iff] at hn
        simp [isRequested, hn.1]
      · simp [Name.same_text]
    change (mentioned t o).countP
      (fun n => !(w.requested ++ [Name.text name]).any (Name.same (.text n))) + _ ≤ _
    simp only [List.length_cons, size]
    omega

theorem size_noteAll_le {events : List Schema.Event}
    (h : ∀ n ∈ askedNames events, n ∈ mentioned t o) (scope : Text) (w : Worklist) :
    (w.noteAll scope events).size t o ≤ w.size t o := by
  induction events generalizing w with
  | nil => exact Nat.le_refl _
  | cons e rest ih =>
    refine Nat.le_trans (ih (fun n hn => h n ?_) (note scope w e)) ?_
    · cases e <;> simp_all [askedNames]
    · cases e with
      | asked name => exact size_request_le t o (h name (by simp [askedNames])) _ w
      | schemaless sort text => exact Nat.le_refl _

theorem size_treat_le (name : Name) (w : Worklist) :
    (treat (drafts t o) name w).1.size t o ≤ w.size t o := by
  unfold treat
  split
  · next name' draft h =>
    have hdraft : drafts t o name' = some draft := by
      cases name with
      | text u =>
        obtain ⟨draft', hd, hp⟩ := Option.map_eq_some_iff.1 h
        cases hp
        exact hd
      | _ => cases h
    obtain ⟨declared, hget, rfl⟩ := Option.map_eq_some_iff.1 hdraft
    have asked : ∀ n ∈ askedNames (Schema.ofDeclaration ⟨t, o, name'⟩ declared).events,
        n ∈ mentioned t o := fun n hn =>
      List.mem_flatMap.2 ⟨_, Entries.mem_of_get? hget, hn⟩
    have := size_noteAll_le t o asked name' (w.report (.resolving name'))
    simp only [define]
    split <;> exact this
  · exact Nat.le_refl _

/-! ### Runs -/

/-- Treats all names of a worklist, the last one first. A fault ends the run; the name in whose
definition it arose is not treated again. -/
def resolve (w : Worklist) : Worklist × Option Fault :=
  match _h : w.stack with
  | [] => (w, none)
  | name :: rest =>
    let treated := treat (drafts t o) name { w with stack := rest }
    match treated.2 with
    | some fault => (treated.1, some fault)
    | none => resolve treated.1
termination_by w.size t o
-- Taking the name from the stack makes the worklist smaller, and treating it does not undo that:
-- what is pushed was not requested before.
decreasing_by
  have := size_treat_le t o name { w with stack := rest }
  have : ({ w with stack := rest } : Worklist).size t o < w.size t o := by
    simp [size, isRequested, _h]
  omega

/-- Asks for the values of a list, as far as they are names. -/
def requestAll (w : Worklist) : List Json → Worklist × Option Fault
  | [] => (w, none)
  | v :: rest =>
    match Name.ofJson? v with
    | some name => (w.request name none).requestAll rest
    | none => (w, some .mistypedOption)

/-- The worklist in which the names that the options list are asked for. -/
def start : Worklist × Option Fault :=
  match (do o.check; o.seeds) with
  | .ok seeds => empty.requestAll seeds
  | .error fault => (empty, some fault)

end Worklist

end DeclSchema
