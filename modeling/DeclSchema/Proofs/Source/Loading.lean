import DeclSchema.Proofs.CommandLine.Run

/-!
# Loading a source

What comes of loading a source, whatever its location is, whatever the files are and whatever comes
of a request. Where the request or the storage has a problem, the source is reported with its
location and the problem. Three things go wrong beside these two: the address is malformed, the path
cannot be passed on, or the bytes of the file are no UTF-8. A fault for one of them has no message,
and it breaks the command off.

## Main definitions

* `Location.IsMalformed`, `Location.IsRemote`, `Location.IsStored`: the sorts of locations
* `Source.Obtained`, `Source.Reported`, `Source.Unreported`: what comes of loading a source

## Main results

* `Source.load_eq_ok_iff`, `Source.load_eq_error_iff`: a source is obtained, reported or neither
* `Source.load_settles`: what the command makes of a source that is not obtained
-/

namespace DeclSchema

/-! ### Sorts of locations -/

namespace Location

variable {L : Location}

/-- The scheme of a location in lower case, which is empty if there is none. -/
def scheme : Location → List Char
  | written t => (splitScheme (significant (charsOf t))).1
  | path _ => []

/-- The authority of a location, if it has one. -/
def authority : Location → Option (List Char)
  | written t => authority? (splitScheme (significant (charsOf t))).2
  | path _ => none

/-- The location has an authority that is not well-formed. -/
def IsMalformed (L : Location) : Prop :=
  ∃ a, L.authority = some a ∧ isAuthority a = false

/-- The location is the address of a remote source. -/
def IsRemote (L : Location) : Prop :=
  ¬ L.IsMalformed ∧ L.scheme ∈ ["http".toList, "https".toList]

/-- The location is a path. -/
def IsStored (L : Location) : Prop :=
  ¬ L.IsMalformed ∧ L.scheme ∉ ["http".toList, "https".toList]

/-- A location that is not malformed is remote or stored by its scheme. -/
theorem isRemote_eq_ok (h : ¬ L.IsMalformed) :
    L.isRemote = .ok (decide (L.scheme ∈ ["http".toList, "https".toList])) := by
  cases L with
  | path p => rfl
  | written t =>
    have hpair (cs a b : List Char) :
        decide (cs ∈ [a, b]) = (decide (cs = a) || decide (cs = b)) := by
      simp
    rw [hpair]
    cases ha : (written t).authority with
    | none =>
      simp only [isRemote, isRemoteText, authority] at ha ⊢
      simp only [ha]
      rfl
    | some a =>
      -- The authority is looked at only where there is one, and then it is not malformed.
      have ha' : isAuthority a = true := by
        by_contra hne
        exact h ⟨a, ha, Bool.eq_false_iff.2 hne⟩
      simp only [isRemote, isRemoteText, authority] at ha ⊢
      simp only [ha, ha']
      rfl

theorem isRemote_eq_error (h : L.IsMalformed) : L.isRemote = .error .malformedLocation := by
  obtain ⟨a, ha, hfalse⟩ := h
  cases L with
  | path p => cases ha
  | written t =>
    simp only [isRemote, isRemoteText, authority] at ha ⊢
    simp only [ha, hfalse]
    rfl

end Location

/-! ### What comes of loading a source -/

/-- The path can be passed on. -/
def Path.IsPassable (p : Path) : Prop :=
  hasStray p.shown = false ∧ hasNull p.shown = false

namespace Source

/-- The problem of a request that gave no page. -/
def Reply.problem? : Reply → Option Text
  | silence problem => some problem
  | refusal problem => some problem
  | page _ => none

/-- The text of a source that is obtained. -/
inductive Obtained (s : Storage) (reply : Reply) (L : Location) : List Char → Prop where
  | page {text : List Char} (hremote : L.IsRemote) (hreply : reply = .page text) :
      Obtained s reply L text
  | file {cs : List Char} (hstored : L.IsStored) (hpath : L.toPath.IsPassable)
      (hread : s.read L.toPath = .ok (Utf8.encode cs)) : Obtained s reply L (Utf8.unixLines cs)

/-- The fault for a source that is not obtained where the request or the storage has a problem. -/
inductive Reported (s : Storage) (reply : Reply) (L : Location) : Fault → Prop where
  | request {problem : Text} (hremote : L.IsRemote) (hreply : reply.problem? = some problem) :
      Reported s reply L (.unreachableSource L.shown problem)
  | reading {cause : StorageFault} (hstored : L.IsStored) (hpath : L.toPath.IsPassable)
      (hread : s.read L.toPath = .error cause) :
      Reported s reply L (.unreadableSource L.shown (cause.message L.toPath))

/-- The fault for a source that is not obtained though neither the request nor the storage has a
problem. -/
inductive Unreported (s : Storage) (L : Location) : Fault → Prop where
  | address (h : L.IsMalformed) : Unreported s L .malformedLocation
  | stray (hstored : L.IsStored) (h : Path.hasStray L.toPath.shown = true) :
      Unreported s L .unencodable
  | null (hstored : L.IsStored) (hstray : Path.hasStray L.toPath.shown = false)
      (h : Path.hasNull L.toPath.shown = true) : Unreported s L .malformedLocation
  | bytes {bytes : ByteArray} (hstored : L.IsStored) (hpath : L.toPath.IsPassable)
      (hread : s.read L.toPath = .ok bytes) (h : ∀ cs, Utf8.encode cs ≠ bytes) :
      Unreported s L .undecodable

variable {s : Storage} {reply : Reply} {L : Location} {f : Fault} {text : List Char}

theorem load_of_isMalformed (h : L.IsMalformed) :
    load s reply L = ⟨[], .error .malformedLocation⟩ := by
  rw [load, Location.isRemote_eq_error h]
  rfl

theorem load_of_isRemote (h : L.IsRemote) :
    load s reply L = ⟨[.fetching L.shown], fetch L.shown reply⟩ := by
  rw [load, Location.isRemote_eq_ok h.1, decide_eq_true h.2]
  rfl

theorem load_of_isStored (h : L.IsStored) : load s reply L = ⟨[], readStored s L⟩ := by
  rw [load, Location.isRemote_eq_ok h.1, decide_eq_false h.2]
  rfl

theorem readStored_of_isPassable (h : L.toPath.IsPassable) :
    readStored s L = match s.read L.toPath with
      | .ok bytes => decode bytes
      | .error cause => .error (.unreadableSource L.shown (cause.message L.toPath)) := by
  have hcheck : L.toPath.check = .ok () := by simp [Path.check, Path.checkText, h.1, h.2]
  rw [readStored, hcheck]
  rfl

theorem Obtained.outcome_eq (h : Obtained s reply L text) :
    (load s reply L).outcome = .ok text := by
  cases h with
  | page hremote hreply =>
    rw [load_of_isRemote hremote, hreply]
    rfl
  | file hstored hpath hread =>
    rw [load_of_isStored hstored, readStored_of_isPassable hpath, hread]
    simp only [decode, Utf8.decode?_encode]

theorem Reported.outcome_eq (h : Reported s reply L f) :
    (load s reply L).outcome = .error f := by
  cases h with
  | request hremote hreply =>
    rw [load_of_isRemote hremote]
    cases reply with
    | page text => cases hreply
    | silence problem =>
      cases hreply
      rfl
    | refusal problem =>
      cases hreply
      rfl
  | reading hstored hpath hread =>
    rw [load_of_isStored hstored, readStored_of_isPassable hpath, hread]

theorem Unreported.outcome_eq (h : Unreported s L f) : (load s reply L).outcome = .error f := by
  cases h with
  | address h => rw [load_of_isMalformed h]
  | stray hstored h =>
    have hcheck : L.toPath.check = .error .unencodable := by simp [Path.check, Path.checkText, h]
    rw [load_of_isStored hstored, readStored, hcheck]
    rfl
  | null hstored hstray h =>
    have hcheck : L.toPath.check = .error .malformedLocation := by
      simp [Path.check, Path.checkText, hstray, h]
    rw [load_of_isStored hstored, readStored, hcheck]
    rfl
  | bytes hstored hpath hread h =>
    rw [load_of_isStored hstored, readStored_of_isPassable hpath, hread]
    simp only [decode, Utf8.decode?_eq_none_iff.2 h]

/-- A source is obtained, or it is reported or not reported why it is not. -/
theorem obtained_or_fault (s : Storage) (reply : Reply) (L : Location) :
    (∃ text, Obtained s reply L text) ∨ ∃ f, Reported s reply L f ∨ Unreported s L f := by
  -- The steps of loading in their order: each one that fails is a fault of its own.
  by_cases hmalformed : L.IsMalformed
  · exact .inr ⟨_, .inr (.address hmalformed)⟩
  by_cases hremote : L.scheme ∈ ["http".toList, "https".toList]
  · cases hreply : reply.problem? with
    | some problem => exact .inr ⟨_, .inl (.request ⟨hmalformed, hremote⟩ hreply)⟩
    | none =>
      cases reply with
      | page text => exact .inl ⟨_, .page ⟨hmalformed, hremote⟩ rfl⟩
      | silence problem => cases hreply
      | refusal problem => cases hreply
  have hstored : L.IsStored := ⟨hmalformed, hremote⟩
  cases hstray : Path.hasStray L.toPath.shown with
  | true => exact .inr ⟨_, .inr (.stray hstored hstray)⟩
  | false =>
    cases hnull : Path.hasNull L.toPath.shown with
    | true => exact .inr ⟨_, .inr (.null hstored hstray hnull)⟩
    | false =>
      have hpath : L.toPath.IsPassable := ⟨hstray, hnull⟩
      cases hread : s.read L.toPath with
      | error cause => exact .inr ⟨_, .inl (.reading hstored hpath hread)⟩
      | ok bytes =>
        by_cases hbytes : ∃ cs, Utf8.encode cs = bytes
        · obtain ⟨cs, rfl⟩ := hbytes
          exact .inl ⟨_, .file hstored hpath hread⟩
        · exact .inr ⟨_, .inr (.bytes hstored hpath hread (not_exists.1 hbytes))⟩

theorem load_eq_ok_iff : (load s reply L).outcome = .ok text ↔ Obtained s reply L text := by
  refine ⟨fun h => ?_, fun h => h.outcome_eq⟩
  obtain ⟨text', htext⟩ | ⟨f, hf | hf⟩ := obtained_or_fault s reply L
  · cases h.symm.trans htext.outcome_eq
    exact htext
  · cases h.symm.trans hf.outcome_eq
  · cases h.symm.trans hf.outcome_eq

theorem load_eq_error_iff :
    (load s reply L).outcome = .error f ↔ Reported s reply L f ∨ Unreported s L f := by
  refine ⟨fun h => ?_, fun h => h.elim (·.outcome_eq) (·.outcome_eq)⟩
  obtain ⟨text, htext⟩ | ⟨f', hf⟩ := obtained_or_fault s reply L
  · cases h.symm.trans htext.outcome_eq
  · have hf' : (load s reply L).outcome = .error f' := hf.elim (·.outcome_eq) (·.outcome_eq)
    cases h.symm.trans hf'
    exact hf

/-! ### Messages -/

theorem Reported.exists_message (h : Reported s reply L f) :
    ∃ message, f.message? = some message := by
  cases h <;> exact ⟨_, rfl⟩

theorem Unreported.message?_eq_none (h : Unreported s L f) : f.message? = none := by
  cases h <;> rfl

/-- A command that gets no source ends with the fault for it, and leaves the files alone. -/
theorem run_of_load_error {c : Command} {o : Options} (ho : c.options s = .ok o)
    (h : (load s reply (.written c.source)).outcome = .error f) :
    c.run s reply = ⟨s, (load s reply (.written c.source)).events, some f⟩ := by
  have hdocument : c.document s reply = ⟨(load s reply (.written c.source)).events, .error f⟩ := by
    rw [Command.document, Traced.bind_ok (x := Traced.ofExcept (c.options s)) ho,
      Traced.bind_error h]
    rfl
  rw [Command.run_of_error (by rw [hdocument]), hdocument]

/-- **A source is obtained, or it is reported, or one of three things is wrong beside the request
and the storage.** A fault of the first sort has a message, with which the command ends; one of the
second sort has none, and the command is broken off without any line on the source. In either case
the exit code is one, nothing is put out and no file is changed. -/
theorem load_settles (s : Storage) (reply : Reply) :
    (∀ L text, (load s reply L).outcome = .ok text ↔ Obtained s reply L text) ∧
    (∀ L f, (load s reply L).outcome = .error f ↔ Reported s reply L f ∨ Unreported s L f) ∧
    (∀ L f, Reported s reply L f → ∃ message, f.message? = some message) ∧
    (∀ L f, Unreported s L f → f.message? = none) ∧
    ∀ (c : Command) (o : Options) (f : Fault), c.options s = .ok o →
      (load s reply (.written c.source)).outcome = .error f →
      let answer := Answer.ofReport c (c.run s reply)
      let notices := Answer.lines c.verbose (load s reply (.written c.source)).events
      answer.storage = s ∧ answer.exitCode = 1 ∧ answer.output = [] ∧
        (Reported s reply (.written c.source) f → answer.escaped? = none ∧
          ∃ message, f.message? = some message ∧ answer.errors = Answer.printed
            (notices ++ (.ofString "Error: " ++ message ++ .ofString "\n").unsteered)) ∧
        (Unreported s (.written c.source) f →
          answer.escaped? = some f ∧ answer.errors = Answer.printed notices) := by
  refine ⟨fun _ _ => load_eq_ok_iff, fun _ _ => load_eq_error_iff,
    fun _ _ h => h.exists_message, fun _ _ h => h.message?_eq_none, ?_⟩
  intro c o f ho hf
  -- The run ends where the source is loaded, so only how the fault is shown is left.
  rw [run_of_load_error ho hf]
  refine ⟨rfl, rfl, rfl, fun h => ?_, fun h => ?_⟩
  · obtain ⟨message, hmessage⟩ := h.exists_message
    refine ⟨?_, message, hmessage, ?_⟩
    · simp [Answer.ofReport, hmessage]
    · simp [Answer.ofReport, Answer.faultLine, hmessage]
  · have hmessage := h.message?_eq_none
    constructor
    · simp [Answer.ofReport, hmessage]
    · simp [Answer.ofReport, Answer.faultLine, hmessage]

/-- A file of one byte that is no UTF-8. -/
def undecodableStorage : Storage :=
  ⟨.directory [(.ofString "s", .file ⟨#[255]⟩)], []⟩

theorem unreported_undecodable :
    Unreported undecodableStorage (.written (.ofString "s")) .undecodable := by
  have hstored : (Location.written (.ofString "s")).IsStored := by
    constructor
    · rintro ⟨a, ha, -⟩
      cases ha
    · decide
  have hbytes : ∀ cs, Utf8.encode cs ≠ ⟨#[255]⟩ := Utf8.decode?_eq_none_iff.1 (by decide)
  exact .bytes hstored ⟨by decide, by decide⟩ rfl hbytes

/-- The command is broken off by a file that is no UTF-8. -/
theorem load_settles_undecodable :
    (load undecodableStorage (.silence []) (.written (.ofString "s"))).outcome = .error .undecodable ∧
      (Answer.ofReport (Command.sampleCommand "o")
        ((Command.sampleCommand "o").run undecodableStorage (.silence []))).escaped?
          = some .undecodable := by
  obtain ⟨-, herror, -, -, hcommand⟩ := load_settles undecodableStorage (.silence [])
  have hload := (herror _ _).2 (.inr unreported_undecodable)
  obtain ⟨-, -, -, -, hescapes⟩ :=
    hcommand (Command.sampleCommand "o") _ _ (Command.options_eq _ _) hload
  exact ⟨hload, (hescapes unreported_undecodable).1⟩

end Source

end DeclSchema
