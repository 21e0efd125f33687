import DeclSchema.Proofs.Storage.Contents
import Mathlib

/-!
# Publishing changes one file or none

To publish a document can fail at every stage: directories cannot be made, the staged file cannot,
the document has no UTF-8 form or is rejected, or the target is a directory. In each case all files
are as they were, and no staged file is left; otherwise the target has the document, and all other
files are as they were. An examination sees the files as they were but for one new file.

This holds call by call, so it holds for any number of calls in a row, whatever fails among them.

## Main definitions

* `Publishes`: everything that publishing can do
* `Call`, `Call.run`, `runAll`: publishing several documents in a row
* `writes`: the files that the successful calls of a list write

## Main results

* `publishes_publishWith`: publishing does nothing else
* `fault?_publishWith_eq_none`: where one text can be published, so can every other one
* `contents_runAll`: what any number of calls leave
-/

namespace DeclSchema.Storage

variable {s s' : Storage} {place : List Text} {entries : Entries FileTree} {name : Text}

/-! ### The name of a staged file -/

theorem le_foldl_max (ns : List Nat) (n : Nat) : n ≤ ns.foldl max n ∧ ∀ m ∈ ns, m ≤ ns.foldl max n := by
  induction ns generalizing n with
  | nil => simp
  | cons first rest ih =>
    obtain ⟨hn, hrest⟩ := ih (max n first)
    refine ⟨by rw [List.foldl_cons]; omega, fun m hm => ?_⟩
    rw [List.foldl_cons]
    rcases List.mem_cons.1 hm with rfl | hm
    · omega
    · exact hrest m hm

theorem length_vacantName (name : Text) (entries : Entries FileTree) :
    (vacantName name entries).length =
      name.length + ((entries.map (·.1.length)).foldl max 0) + 6 := by
  have hdot : (Text.ofString ".").length = 1 := rfl
  have hend : (Text.ofString ".tmp").length = 4 := rfl
  simp only [vacantName, List.length_append, List.length_replicate, hdot, hend]
  omega

/-- The name of a staged file is new. -/
theorem vacantName_notMem (name : Text) (entries : Entries FileTree) :
    vacantName name entries ∉ Entries.keys entries := by
  intro h
  obtain ⟨p, hp, hname⟩ := List.mem_map.1 h
  have hle := (le_foldl_max (entries.map (·.1.length)) 0).2 _ (List.mem_map.2 ⟨p, hp, rfl⟩)
  have := length_vacantName name entries
  rw [← hname] at this
  omega

theorem vacantName_ne (name : Text) (entries : Entries FileTree) :
    vacantName name entries ≠ name := by
  intro h
  have := length_vacantName name entries
  rw [h] at this
  omega

/-! ### One document -/

/-- Everything that publishing a document can do. It can fail before there is anything to examine,
or with the staged document, or it writes the target. -/
inductive Publishes (examine? : Option Examination) (p : Path) (text : Text) (s : Storage) :
    Publishing → Prop where
  | unstaged {s' : Storage} {fault : Fault} (hs : Keeps s s') :
      Publishes examine? p text s ⟨s', [], some fault⟩
  | withdrawn {s' seen : Storage} {staged : List Text} {content : ByteArray} {fault : Fault}
      (hs : Keeps s s') (ht : text.utf8? = some content) (hnew : s.contents staged = none)
      (hne : staged ≠ s.target p)
      (hseen : seen.contents = Function.update s.contents staged (some content)) :
      Publishes examine? p text s ⟨s', (examine?.map fun _ => (seen, text)).toList, some fault⟩
  | moved {s' seen : Storage} {staged : List Text} {content : ByteArray}
      (hs : s'.contents = Function.update s.contents (s.target p) (some content))
      (hhere : s'.here = s.here) (ht : text.utf8? = some content)
      (hnew : s.contents staged = none) (hne : staged ≠ s.target p)
      (hseen : seen.contents = Function.update s.contents staged (some content))
      (hverdict : ∀ examine ∈ examine?, examine seen text = .ok ()) :
      Publishes examine? p text s ⟨s', (examine?.map fun _ => (seen, text)).toList, none⟩

section Stages

variable {examine? : Option Examination} {p : Path} {text : Text} {content : ByteArray}
  (hs : Keeps s s') (hplace : place = s.target p.parent)
  (hd : s'.tree.at? place = some (.directory entries))

include hs hplace hd

/-- Only a file can be at the target of a move, and it is replaced. -/
theorem contents_swap {moved : Storage} (hne : name ≠ p.name)
    (hnew : name ∉ Entries.keys entries)
    (h : (s'.stage (place ++ [name]) content).swap (place ++ [name]) place p content = .ok moved) :
    moved.contents = Function.update s.contents (s.target p) (some content) ∧
      moved.here = s.here := by
  unfold swap at h
  split at h
  · cases h
  split at h
  · cases h
  next hname =>
  rw [Bool.or_eq_true, not_or] at hname
  have htarget : s.target p = place ++ [p.name] := by
    rw [hplace]
    exact target_of_name (by simpa using hname.1) (by simpa using hname.2)
  -- The staged file stands beside the target, so it does not hide what is there.
  rw [at?_append_name (at?_stage hd content), Entries.get?_put_of_ne (Ne.symm hne)] at h
  split at h
  · cases h
  · next hfile =>
    cases h
    rw [withdraw_stage hd hnew, htarget, contents_stage hd hfile, hs.contents]
    exact ⟨rfl, hs.here⟩

theorem publishes_release (ht : text.utf8? = some content) (hne : name ≠ p.name)
    (hnew : name ∉ Entries.keys entries) :
    Publishes examine? p text s
      ((s'.stage (place ++ [name]) content).release examine? (place ++ [name]) place p text
        content) := by
  have hvacant : Entries.get? name entries = none := Entries.get?_eq_none_iff.2 hnew
  have hold : s.contents (place ++ [name]) = none := by
    rw [← hs.contents, contents_append hd, hvacant, Option.bind_none]
  have hbeside : place ++ [name] ≠ s.target p := by
    rw [hplace]
    exact target_ne hne
  have hseen : (s'.stage (place ++ [name]) content).contents =
      Function.update s.contents (place ++ [name]) (some content) := by
    rw [contents_stage hd (by simp [hvacant]), hs.contents]
  have hback : (s'.stage (place ++ [name]) content).withdraw (place ++ [name]) = s' :=
    withdraw_stage hd hnew content
  -- Without the staged file the storage is as before, so a step that fails behind it leaves no
  -- trace.
  unfold release
  rw [hback]
  cases examine? with
  | none =>
    dsimp only
    split
    · exact .withdrawn hs ht hold hbeside hseen
    · next moved hswap =>
      obtain ⟨hmoved, hhere⟩ := contents_swap hs hplace hd hne hnew hswap
      exact .moved hmoved hhere ht hold hbeside hseen (by simp)
  | some examine =>
    dsimp only
    split
    · exact .withdrawn hs ht hold hbeside hseen
    · next hverdict =>
      split
      · exact .withdrawn hs ht hold hbeside hseen
      · next moved hswap =>
        obtain ⟨hmoved, hhere⟩ := contents_swap hs hplace hd hne hnew hswap
        exact .moved hmoved hhere ht hold hbeside hseen
          (by simpa using hverdict)

theorem publishes_publishIn :
    Publishes examine? p text s (s'.publishIn examine? p place entries text) := by
  unfold publishIn
  split
  · exact .unstaged hs
  · dsimp only
    cases ht : text.utf8? with
    | none =>
      dsimp only
      rw [withdraw_stage hd (vacantName_notMem _ _)]
      exact .unstaged hs
    | some content =>
      dsimp only
      rw [stage_stage]
      exact publishes_release hs hplace hd ht (vacantName_ne _ _) (vacantName_notMem _ _)

end Stages

/-- Publishing a document does nothing else. -/
theorem publishes_publishWith (examine? : Option Examination) (p : Path) (text : Text)
    (s : Storage) : Publishes examine? p text s (s.publishWith examine? p text) := by
  unfold publishWith
  split
  · exact .unstaged (.refl s)
  -- The directories on the way hold no files, so nothing is changed until a file is staged.
  · have hmade := keeps_makeDirectories s p.parent
    dsimp only
    split
    · exact .unstaged hmade
    · exact .unstaged hmade
    · split
      · exact .unstaged hmade
      · next place entries hlocated =>
        obtain ⟨place', hlocate, hentries⟩ := exists_of_bind_eq_ok hlocated
        obtain ⟨entries', hentries, he⟩ := exists_of_bind_eq_ok hentries
        cases he
        refine publishes_publishIn hmade ?_ (entries_eq hentries)
        rw [locate_eq_target hlocate, hmade.target]

/-! ### Writable places -/

section Writable

variable {examine? : Option Examination} {p : Path} {text other : Text}
  {content old : ByteArray}

/-- Whether a staged file can be moved to a target beside it does not depend on its content. -/
theorem exists_swap_eq_ok (hd : s.tree.at? place = some (.directory entries)) (hne : name ≠ p.name)
    {moved : Storage}
    (h : (s.stage (place ++ [name]) old).swap (place ++ [name]) place p old = .ok moved)
    (content : ByteArray) :
    ∃ moved', (s.stage (place ++ [name]) content).swap (place ++ [name]) place p content =
      .ok moved' := by
  have hat (c : ByteArray) : (s.stage (place ++ [name]) c).tree.at? (place ++ [p.name]) =
      Entries.get? p.name entries := by
    rw [at?_append_name (at?_stage hd c), Entries.get?_put_of_ne (Ne.symm hne)]
  -- The move only looks at the entry of the target, which the staged file leaves alone.
  unfold swap at h ⊢
  rw [hat] at h ⊢
  split at h
  · cases h
  · next hlimit =>
    rw [if_neg hlimit]
    split at h
    · cases h
    · next hname =>
      rw [if_neg hname]
      split at h
      · cases h
      · exact ⟨_, rfl⟩

theorem fault?_publishIn_eq_none (hd : s.tree.at? place = some (.directory entries))
    (h : (s.publishIn none p place entries other).fault? = none) (ht : text.utf8? = some content)
    (hexamine : ∀ examine ∈ examine?, ∀ s', examine s' text = .ok ()) :
    (s.publishIn examine? p place entries text).fault? = none := by
  unfold publishIn at h ⊢
  split at h
  · cases h
  · next hlength =>
    rw [if_neg hlength]
    cases hother : other.utf8? with
    | none =>
      rw [hother] at h
      cases h
    | some old =>
      rw [hother] at h
      rw [ht]
      dsimp only at h ⊢
      rw [stage_stage] at h ⊢
      unfold release at h ⊢
      dsimp only at h
      cases hswap : (s.stage (place ++ [vacantName p.name entries]) old).swap
          (place ++ [vacantName p.name entries]) place p old with
      | error fault =>
        rw [hswap] at h
        cases h
      | ok moved =>
        -- What is staged differs in its content only, and so does what is moved.
        obtain ⟨moved', hswap'⟩ := exists_swap_eq_ok hd (vacantName_ne _ _) hswap content
        cases examine? with
        | none =>
          dsimp only
          rw [hswap']
        | some examine =>
          dsimp only
          rw [hexamine examine rfl]
          dsimp only
          rw [hswap']

/-- Where one text can be published without an examination, so can every text that has a UTF-8 form
and passes its examination. -/
theorem fault?_publishWith_eq_none (h : (s.publishWith none p other).fault? = none)
    (ht : text.utf8? = some content)
    (hexamine : ∀ examine ∈ examine?, ∀ s', examine s' text = .ok ()) :
    (s.publishWith examine? p text).fault? = none := by
  unfold publishWith at h ⊢
  split at h
  · cases h
  · dsimp only at h ⊢
    split at h
    · cases h
    · cases h
    · split at h
      · cases h
      · next place entries hlocated =>
        obtain ⟨place', -, hentries⟩ := exists_of_bind_eq_ok hlocated
        obtain ⟨entries', hentries, he⟩ := exists_of_bind_eq_ok hentries
        cases he
        -- Up to here nothing depends on the text.
        exact fault?_publishIn_eq_none (entries_eq hentries) h ht hexamine

end Writable
/-! ### Documents in a row -/

/-- A document for a path, with an examination that is made only if it is asked for. -/
structure Call where
  path : Path
  text : Text
  examine : Examination
  examines : Bool

def Call.run (c : Call) (s : Storage) : Publishing :=
  s.publishWith (if c.examines then some c.examine else none) c.path c.text

/-- The storage after calls in a row, whether they succeed or not. -/
def runAll (s : Storage) (calls : List Call) : Storage :=
  calls.foldl (fun s c => (c.run s).storage) s

/-- What the successful calls write, in order: the places with their contents. -/
def writes (s : Storage) : List Call → List (List Text × ByteArray)
  | [] => []
  | c :: rest =>
    let written := if (c.run s).fault?.isNone then
        c.text.utf8?.toList.map fun content => (s.target c.path, content)
      else []
    written ++ writes (c.run s).storage rest

/-- Files with other contents at some places. -/
def rewritten (files : List Text → Option ByteArray) (ws : List (List Text × ByteArray)) :
    List Text → Option ByteArray :=
  ws.foldl (fun files w => Function.update files w.1 (some w.2)) files

theorem publishes_run (c : Call) (s : Storage) :
    Publishes (if c.examines then some c.examine else none) c.path c.text s (c.run s) :=
  publishes_publishWith _ _ _ _

/-- A call writes one file if it succeeds, and none if it fails. -/
theorem contents_run (c : Call) (s : Storage) :
    ((c.run s).fault? = none → ∃ content, c.text.utf8? = some content ∧
      (c.run s).storage.contents = Function.update s.contents (s.target c.path) (some content)) ∧
    ((c.run s).fault? ≠ none → (c.run s).storage.contents = s.contents) := by
  have h := publishes_run c s
  generalize c.run s = out at h
  cases h with
  | unstaged hs => exact ⟨nofun, fun _ => hs.contents⟩
  | withdrawn hs => exact ⟨nofun, fun _ => hs.contents⟩
  | moved hs _ ht => exact ⟨fun _ => ⟨_, ht, hs⟩, fun h => absurd rfl h⟩

/-- A call makes at most one examination, of its text, while all files are as they were but for a
new one that is not the target; and it succeeds only if this examination does. -/
theorem examinations_run (c : Call) (s : Storage) :
    ((c.run s).examinations = [] ∨
      c.examines = true ∧ ∃ seen staged content, (c.run s).examinations = [(seen, c.text)] ∧
        c.text.utf8? = some content ∧ s.contents staged = none ∧ staged ≠ s.target c.path ∧
        seen.contents = Function.update s.contents staged (some content)) ∧
    (c.examines = true → (c.run s).fault? = none →
      ∃ seen, (c.run s).examinations = [(seen, c.text)] ∧ c.examine seen c.text = .ok ()) := by
  have h := publishes_run c s
  -- Only the outcome matters from here on, whatever the call was.
  generalize c.run s = out at h
  cases he : c.examines with
  | false =>
    rw [he, if_neg (by simp)] at h
    cases h with
    | unstaged => exact ⟨Or.inl rfl, nofun⟩
    | withdrawn => exact ⟨Or.inl rfl, nofun⟩
    | moved => exact ⟨Or.inl rfl, nofun⟩
  | true =>
    rw [he, if_pos rfl] at h
    cases h with
    | unstaged => exact ⟨Or.inl rfl, nofun⟩
    | withdrawn _ ht hnew hne hseen =>
      exact ⟨Or.inr ⟨rfl, _, _, _, rfl, ht, hnew, hne, hseen⟩, nofun⟩
    | moved _ _ ht hnew hne hseen hverdict =>
      exact ⟨Or.inr ⟨rfl, _, _, _, rfl, ht, hnew, hne, hseen⟩,
        fun _ _ => ⟨_, rfl, hverdict _ rfl⟩⟩

/-- Any number of calls write what the successful ones write, in order. -/
theorem contents_runAll (s : Storage) (calls : List Call) :
    (runAll s calls).contents = rewritten s.contents (writes s calls) := by
  induction calls generalizing s with
  | nil => rfl
  | cons c rest ih =>
    have hrun := contents_run c s
    change (runAll (c.run s).storage rest).contents = _
    rw [ih, writes]
    cases hf : (c.run s).fault? with
    | none =>
      obtain ⟨content, ht, hc⟩ := hrun.1 hf
      simp [ht, hc, rewritten]
    | some fault =>
      have hc := hrun.2 (by simp [hf])
      simp [hc, rewritten]

/-- Every write is one of a successful call. -/
theorem exists_of_mem_writes {calls : List Call} {w : List Text × ByteArray}
    (h : w ∈ writes s calls) :
    ∃ c ∈ calls, ∃ s', (c.run s').fault? = none ∧ c.text.utf8? = some w.2 := by
  induction calls generalizing s with
  | nil => cases h
  | cons c rest ih =>
    rw [writes] at h
    rcases List.mem_append.1 h with h | h
    · split at h
      · next hf =>
        obtain ⟨content, ht, rfl⟩ := List.mem_map.1 h
        exact ⟨c, List.mem_cons_self, s, Option.isNone_iff_eq_none.1 hf, Option.mem_toList.1 ht⟩
      · cases h
    · obtain ⟨c', hc, hs'⟩ := ih h
      exact ⟨c', List.mem_cons_of_mem _ hc, hs'⟩

/-- A place that was written has the content of some write. -/
theorem rewritten_of_mem (files : List Text → Option ByteArray) {ws : List (List Text × ByteArray)}
    {place : List Text} (h : place ∈ ws.map (·.1)) :
    ∃ w ∈ ws, rewritten files ws place = some w.2 := by
  -- Induction from the end: the last write of a place counts.
  induction ws using List.reverseRecOn with
  | nil => cases h
  | append_singleton rest w ih =>
    have hlast : rewritten files (rest ++ [w]) =
        Function.update (rewritten files rest) w.1 (some w.2) := by
      rw [rewritten, List.foldl_append]
      rfl
    rw [hlast]
    by_cases hp : place = w.1
    · exact ⟨w, by simp, by rw [hp, Function.update_self]⟩
    · rw [List.map_append, List.mem_append] at h
      have hrest : place ∈ rest.map (·.1) := h.resolve_right (by simpa using hp)
      obtain ⟨w', hw', he⟩ := ih hrest
      exact ⟨w', List.mem_append_left _ hw', by rw [Function.update_of_ne hp, he]⟩

/-- A text that passes the examination of documents is an object with a schema key. -/
theorem exists_of_examine {text : Text} (h : Document.examine text = .ok ()) :
    ∃ fields, Json.read text = .ok (.object fields) ∧
      (Entries.get? Document.schemaKey fields).isSome := by
  unfold Document.examine at h
  split at h
  · next document hread =>
    split at h
    · next hkey =>
      cases document with
      | object fields => exact ⟨fields, hread, hkey⟩
      | _ => cases hkey
    · cases h
  · split at h <;> cases h

/-- **Publishing changes one file or none.** Any number of calls, with any examinations, leave the
files with what the successful calls write, in order. A call that succeeds writes the UTF-8 form of
its text to its target; one that fails leaves all files as they were. An examination is made only if
it is asked for, and once, of that text, before the target changes. So where documents are examined
as such, whatever was written is an object with a schema key. -/
theorem calls_write_or_leave (s : Storage) (calls : List Call) :
    (runAll s calls).contents = rewritten s.contents (writes s calls) ∧
    (∀ before c after, calls = before ++ c :: after →
      let now := runAll s before
      let out := c.run now
      (out.fault? = none → ∃ content, c.text.utf8? = some content ∧
        out.storage.contents =
          Function.update now.contents (now.target c.path) (some content)) ∧
      (out.fault? ≠ none → out.storage.contents = now.contents) ∧
      (out.examinations = [] ∨
        c.examines = true ∧ ∃ seen staged content, out.examinations = [(seen, c.text)] ∧
          c.text.utf8? = some content ∧ now.contents staged = none ∧
          staged ≠ now.target c.path ∧
          seen.contents = Function.update now.contents staged (some content)) ∧
      (c.examines = true → out.fault? = none →
        ∃ seen, out.examinations = [(seen, c.text)] ∧ c.examine seen c.text = .ok ())) ∧
    ((∀ c ∈ calls, c.examines = true ∧ c.examine = fun _ => Document.examine) →
      ∀ place ∈ (writes s calls).map (·.1), ∃ text content fields,
        (runAll s calls).contents place = some content ∧ text.utf8? = some content ∧
        Json.read text = .ok (.object fields) ∧
        (Entries.get? Document.schemaKey fields).isSome) := by
  refine ⟨contents_runAll s calls, fun before c after _ => ?_, fun hall place hplace => ?_⟩
  · obtain ⟨hwrite, hleave⟩ := contents_run c (runAll s before)
    obtain ⟨honce, hpass⟩ := examinations_run c (runAll s before)
    exact ⟨hwrite, hleave, honce, hpass⟩
  · obtain ⟨w, hw, hcontent⟩ := rewritten_of_mem s.contents hplace
    obtain ⟨c, hc, s', hf, ht⟩ := exists_of_mem_writes hw
    obtain ⟨hexamines, hexamine⟩ := hall c hc
    obtain ⟨seen, -, hpass⟩ := (examinations_run c s').2 hexamines hf
    rw [hexamine] at hpass
    obtain ⟨fields, hread, hkey⟩ := exists_of_examine hpass
    exact ⟨c.text, w.2, fields, by rw [contents_runAll, hcontent], ht, hread, hkey⟩

/-- A file and a directory. -/
def sampleStorage : Storage :=
  ⟨.directory [(.ofString "a", .file (ByteArray.mk #[120])), (.ofString "d", .directory [])], []⟩

/-- A document for a path, examined as such. -/
def documentCall (path text : String) : Call :=
  ⟨.ofText (.ofString path), .ofString text, fun _ => Document.examine, true⟩

/-- No document, a file on the way, a directory as the target, and at last a document. -/
def sampleCalls : List Call :=
  [documentCall "a" "[]", documentCall "a/b" "\x7b\"$schema\":1\x7d",
    documentCall "d" "\x7b\"$schema\":1\x7d", documentCall "d/../a" "\x7b\"$schema\":1\x7d"]

/-- The call for a directory fails and leaves all files as they were; the last call, whose path leads
back to the file, writes a document. -/
theorem calls_write_or_leave_sample :
    (runAll sampleStorage (sampleCalls.take 3)).contents =
        (runAll sampleStorage (sampleCalls.take 2)).contents ∧
      ∃ text content fields,
        (runAll sampleStorage sampleCalls).contents [.ofString "a"] = some content ∧
        text.utf8? = some content ∧ Json.read text = .ok (.object fields) ∧
        (Entries.get? Document.schemaKey fields).isSome := by
  obtain ⟨-, hcalls, hdocuments⟩ := calls_write_or_leave sampleStorage sampleCalls
  have hwrites : (writes sampleStorage sampleCalls).map (·.1) = [[.ofString "a"]] := by cbv
  refine ⟨(hcalls (sampleCalls.take 2) _ _ rfl).2.1 ?_, hdocuments ?_ _ (by simp [hwrites])⟩
  · have hfault : ((documentCall "d" "\x7b\"$schema\":1\x7d").run
        (runAll sampleStorage (sampleCalls.take 2))).fault?.isSome = true := by cbv
    exact Option.isSome_iff_ne_none.1 hfault
  · simp [sampleCalls, documentCall]

end DeclSchema.Storage
