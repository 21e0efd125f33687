import DeclSchema.Proofs.Storage.Publishing

/-!
# Publishing at the same path again

A path at which a document could be published leads to that document afterwards: the way to it is
still there, since a file that is put where no directory is takes no name from any directory. So the
path can be read, and every text that has a UTF-8 form can be published there again.

## Main definitions

* `Storage.Widens`: all directories and the names in them are still there
* `Storage.Admits`: documents can be published at a path, whose directory is there

## Main results

* `Storage.Widens.locate`: a path that leads somewhere still leads there
* `Storage.exists_admits`: where publishing has succeeded, the path admitted documents
* `Storage.Admits.publishWith_eq`: where a path admits documents, publishing succeeds
* `Storage.Admits.stage`, `Storage.Admits.read_eq`: then the path still admits documents, and what
  was published is read
-/

namespace DeclSchema

/-! ### Paths as they are written -/

namespace Text

theorem foldl_byteLength (t : Text) (n : Nat) :
    t.foldl (fun n p =>
      n + if p.value < 0x80 || p.isByte then 1 else if p.value < 0x800 then 2
        else if p.value < 0x10000 then 3 else 4) n = n + t.byteLength := by
  induction t generalizing n with
  | nil => rfl
  | cons p t ih =>
    rw [byteLength, List.foldl_cons, List.foldl_cons, ih, ih (0 + _)]
    omega

theorem byteLength_append (t u : Text) : byteLength (t ++ u) = t.byteLength + u.byteLength := by
  rw [byteLength, List.foldl_append, foldl_byteLength]
  rfl

theorem joined_concat {ts : List Text} (h : ts ≠ []) (separator t : Text) :
    joined separator (ts ++ [t]) = joined separator ts ++ (separator ++ t) := by
  induction ts with
  | nil => exact absurd rfl h
  | cons first ts ih =>
    cases ts with
    | nil => simp [joined]
    | cons second ts =>
      have hmore := ih (by simp)
      simp only [joined, List.cons_append, List.intercalate_cons_cons, List.append_assoc]
        at hmore ⊢
      rw [hmore]

end Text

namespace Path

variable {p : Path}

theorem parts_ne_nil (h : p.name ≠ []) : p.parts ≠ [] := by
  intro hnil
  exact h (by rw [name, hnil]; rfl)

theorem parts_eq (h : p.parts ≠ []) : p.parts = p.parent.parts ++ [p.name] := by
  rw [name, List.getLastD_eq_getLast?, List.getLast?_eq_some_getLast h]
  exact (List.dropLast_concat_getLast h).symm

/-- A path is written as the way to its last entry, perhaps with a slash, and then the name of the
entry. The directory where paths start is not written then. -/
theorem exists_shown_eq (h : p.parts ≠ []) :
    ∃ front, p.shown = front ++ p.name ∧ (front = [] ∧ p.parent.shown = .ofString "." ∨
      front = p.parent.shown ∨ front = p.parent.shown ++ [slash]) := by
  have hparts := parts_eq h
  have hanchor : p.parent.anchor = p.anchor := rfl
  have hshown : p.shown = p.anchor ++ .joined [slash] (p.parent.parts ++ [p.name]) := by
    simp [shown, hparts]
  by_cases hparent : p.parent.parts = []
  · refine ⟨p.anchor, by rw [hshown, hparent]; simp [Text.joined], ?_⟩
    by_cases hnil : p.anchor = []
    · exact .inl ⟨hnil, by simp [shown, hparent, hanchor, hnil]⟩
    · exact .inr (.inl (by simp [shown, hparent, hanchor, hnil, Text.joined]))
  · refine ⟨p.parent.shown ++ [slash], ?_, .inr (.inr rfl)⟩
    rw [hshown, Text.joined_concat hparent, shown, if_neg (by simp [hparent])]
    simp only [List.append_assoc, hanchor]

/-- The way to the last entry is no longer than the path, or it is a single point. -/
theorem byteLength_parent_le (h : p.parts ≠ []) :
    p.parent.shown.byteLength ≤ max 1 p.shown.byteLength := by
  obtain ⟨front, hshown, ⟨-, hpoint⟩ | rfl | rfl⟩ := exists_shown_eq h
  · rw [hpoint]
    exact Nat.le_max_left ..
  all_goals
    rw [hshown]
    simp only [Text.byteLength_append]
    omega

theorem checkText_eq_ok_iff {t : Text} :
    checkText t = .ok () ↔ ∀ q ∈ t, (q.isSurrogate = true → q.isByte = true) ∧ q.value ≠ 0 := by
  unfold checkText
  split
  · next hstray =>
    obtain ⟨q, hq, hbad⟩ := List.any_eq_true.1 hstray
    simp only [Bool.and_eq_true, Bool.not_eq_true'] at hbad
    refine ⟨nofun, fun h => ?_⟩
    exact absurd ((h q hq).1 hbad.1) (by simp [hbad.2])
  · next hstray =>
    split
    · next hnull =>
      obtain ⟨q, hq, hbad⟩ := List.any_eq_true.1 hnull
      exact ⟨nofun, fun h => absurd (of_decide_eq_true hbad) (h q hq).2⟩
    · next hnull =>
      refine ⟨fun _ q hq => ⟨fun hsurrogate => ?_, fun hzero => ?_⟩, fun _ => rfl⟩
      -- A surrogate that stands for no byte would have been found by the first test.
      · refine Decidable.by_contra fun hbyte => hstray ?_
        exact List.any_eq_true.2 ⟨q, hq, by simp [hsurrogate, hbyte]⟩
      · exact hnull (List.any_eq_true.2 ⟨q, hq, decide_eq_true hzero⟩)

theorem check_of_parent (hname : p.name ≠ []) (hparent : p.parent.check = .ok ())
    (hcheck : checkText p.name = .ok ()) : p.check = .ok () := by
  rw [check, checkText_eq_ok_iff] at hparent ⊢
  rw [checkText_eq_ok_iff] at hcheck
  obtain ⟨front, hshown, hfront⟩ := exists_shown_eq (parts_ne_nil hname)
  rw [hshown, List.forall_mem_append]
  refine ⟨?_, hcheck⟩
  obtain ⟨rfl, -⟩ | rfl | rfl := hfront
  · exact List.forall_mem_nil _
  · exact hparent
  · exact List.forall_mem_append.2 ⟨hparent, List.forall_mem_singleton.2 (by decide)⟩

end Path

/-! ### Directories that are still there -/

namespace Entries

variable {α : Type}

theorem keys_subset_put (key : Text) (value : α) (entries : Entries α) :
    keys entries ⊆ keys (put key value entries) := by
  intro k hk
  by_cases h : key ∈ keys entries
  · rwa [keys_put_of_mem h]
  · rw [keys_put_of_notMem h]
    exact List.mem_append_left _ hk

end Entries

namespace FileTree

variable {place q : List Text} {t node : FileTree} {entries : Entries FileTree} {name : Text}

/-- What is on the way to a directory is a directory. -/
theorem exists_of_at?_cons {k : Text} {rest : List Text} {others : Entries FileTree}
    (h : at? (k :: rest) (directory others) = some (directory entries)) :
    ∃ below, Entries.get? k others = some (directory below) := by
  rw [at?] at h
  cases hget : Entries.get? k others with
  | none =>
    rw [hget] at h
    cases h
  | some node =>
    cases node with
    | directory below => exact ⟨below, rfl⟩
    | file content =>
      rw [hget] at h
      cases rest <;> cases h

/-- A node that is put where no directory is leaves all directories and the names in them. -/
theorem exists_at?_put (h : at? q t = some (directory entries))
    (hfile : ∀ es below, at? place t = some (directory es) →
      Entries.get? name es ≠ some (directory below)) :
    ∃ entries', at? q (put node (place ++ [name]) t) = some (directory entries') ∧
      Entries.keys entries ⊆ Entries.keys entries' := by
  rw [put_eq_revise]
  induction place generalizing t q with
  | nil =>
    cases t with
    | file content => exact ⟨entries, h, List.Subset.refl _⟩
    | directory others =>
      cases q with
      | nil =>
        cases h
        exact ⟨_, rfl, Entries.keys_subset_put ..⟩
      | cons k rest =>
        -- Nothing is below the name where the node is put.
        have hk : k ≠ name := by
          rintro rfl
          obtain ⟨below, hget⟩ := exists_of_at?_cons h
          exact hfile others below rfl hget
        refine ⟨entries, ?_, List.Subset.refl _⟩
        rwa [revise, at?, Entries.get?_put_of_ne hk]
  | cons first above ih =>
    cases t with
    | file content => exact ⟨entries, h, List.Subset.refl _⟩
    | directory others =>
      cases hget : Entries.get? first others with
      | none =>
        rw [revise, hget]
        exact ⟨entries, h, List.Subset.refl _⟩
      | some below =>
        rw [revise, hget]
        cases q with
        | nil =>
          cases h
          exact ⟨_, rfl, Entries.keys_subset_put ..⟩
        | cons k rest =>
          by_cases hk : k = first
          · subst hk
            simp only [at?, hget] at h
            simp only [at?, Entries.get?_put_self]
            exact ih h fun es es' hes => hfile es es' (by simpa only [at?, hget] using hes)
          · refine ⟨entries, ?_, List.Subset.refl _⟩
            rwa [at?, Entries.get?_put_of_ne hk]

end FileTree

namespace Storage

variable {s s' : Storage} {place : List Text} {entries : Entries FileTree} {p : Path}
  {text : Text} {content : ByteArray}

/-- All directories of `s` and the names in them are in `s'` too. -/
structure Widens (s s' : Storage) : Prop where
  here : s'.here = s.here
  directories : ∀ place entries, s.tree.at? place = some (.directory entries) →
    ∃ entries', s'.tree.at? place = some (.directory entries') ∧
      Entries.keys entries ⊆ Entries.keys entries'

theorem entries_of_at? (h : s.tree.at? place = some (.directory entries)) :
    s.entries place = .ok entries := by
  rw [Storage.entries, h]

theorem Widens.enter (h : Widens s s') {name : Text} {place' : List Text}
    (hs : s.enter place name = .ok place') : s'.enter place name = .ok place' := by
  obtain ⟨entries, hentries, hs⟩ := exists_of_bind_eq_ok hs
  obtain ⟨entries', hd, hkeys⟩ := h.directories place entries (entries_eq hentries)
  rw [Storage.enter, entries_of_at? hd]
  change (if name = Path.back then _ else _) = _ at hs
  change (if name = Path.back then _ else _) = _
  split at hs
  · next hback => rwa [if_pos hback]
  · next hback =>
    rw [if_neg hback]
    split at hs
    · cases hs
    · next hshort =>
      rw [if_neg hshort]
      split at hs
      · next hthere =>
        -- An entry may have another node by now, but its name is still there.
        rw [Entries.isSome_get?_iff] at hthere
        rwa [if_pos (Entries.isSome_get?_iff.2 (hkeys hthere))]
      · cases hs

theorem Widens.walk (h : Widens s s') {names place' : List Text}
    (hs : s.walk place names = .ok place') : s'.walk place names = .ok place' := by
  induction names generalizing place with
  | nil => exact hs
  | cons name rest ih =>
    obtain ⟨next, henter, hrest⟩ := exists_of_bind_eq_ok hs
    rw [Storage.walk, List.foldlM_cons, h.enter henter]
    exact ih hrest

/-- A path that leads somewhere still leads there. -/
theorem Widens.locate (h : Widens s s') (hs : s.locate p = .ok place) :
    s'.locate p = .ok place := by
  have horigin : s'.origin p = s.origin p := by rw [origin, origin, h.here]
  unfold Storage.locate at hs ⊢
  split at hs
  · cases hs
  · next hshort =>
    rw [if_neg hshort, horigin]
    exact h.walk hs

/-- A file that is put where no directory is takes no name away. -/
theorem widens_stage {name : Text} (hd : s.tree.at? place = some (.directory entries))
    (hfile : ∀ below, Entries.get? name entries ≠ some (.directory below)) (content : ByteArray) :
    Widens s (s.stage (place ++ [name]) content) where
  here := rfl
  directories q es hq := by
    refine FileTree.exists_at?_put hq fun es' below hes' => ?_
    cases hd.symm.trans hes'
    exact hfile below

/-! ### Directories that are made again -/

theorem isDirectory_of_locate (hlocate : s.locate p = .ok place)
    (hd : s.tree.at? place = some (.directory entries)) : s.isDirectory p = true := by
  have hentries : (do s.entries (← s.locate p)) = .ok entries := by
    rw [hlocate]
    exact entries_of_at? hd
  rw [isDirectory, hentries]

/-- A path leads to its last entry from where the way to it leads. -/
theorem exists_of_locate (hparts : p.parts ≠ []) (h : s.locate p = .ok place) :
    ¬ pathLimit ≤ p.shown.byteLength ∧
      ∃ above, s.locate p.parent = .ok above ∧ s.enter above p.name = .ok place := by
  unfold Storage.locate at h ⊢
  split at h
  · cases h
  · next hshort =>
    have hparent : ¬ pathLimit ≤ p.parent.shown.byteLength := by
      have := Path.byteLength_parent_le hparts
      unfold pathLimit at hshort ⊢
      omega
    rw [Storage.walk, Path.parts_eq hparts, List.foldlM_append] at h
    obtain ⟨above, habove, h⟩ := exists_of_bind_eq_ok h
    obtain ⟨last, henter, h⟩ := exists_of_bind_eq_ok h
    cases h
    rw [if_neg hparent]
    exact ⟨hshort, above, habove, henter⟩

/-- Where the way to the last entry of a path leads, the path leads to the entry. -/
theorem locate_of_parent (hparts : p.parts ≠ []) (hshort : ¬ pathLimit ≤ p.shown.byteLength)
    {above : List Text} (hparent : s.locate p.parent = .ok above)
    (henter : s.enter above p.name = .ok place) : s.locate p = .ok place := by
  unfold Storage.locate at hparent ⊢
  split at hparent
  · cases hparent
  · rw [if_neg hshort, Storage.walk, Path.parts_eq hparts, List.foldlM_append]
    change (s.walk (s.origin p.parent) p.parent.parts >>= fun above => _) = _
    rw [hparent]
    simp only [bind, Except.bind, List.foldlM_cons, List.foldlM_nil, henter]
    rfl

/-- Where a path leads somewhere, it names no new entry. -/
theorem makeDirectory_of_locate (hlocate : s.locate p = .ok place) :
    s.makeDirectory p = .error .occupied := by
  unfold makeDirectory vacancy
  by_cases hparts : p.parts = []
  · rw [if_pos hparts]
    rfl
  obtain ⟨hshort, above, habove, henter⟩ := exists_of_locate hparts hlocate
  rw [if_neg hparts, if_neg hshort]
  change ((s.locate p.parent >>= fun above => _) >>= fun made => _) = _
  rw [habove]
  simp only [bind, Except.bind, henter]

theorem makeDirectories_of_locate (hlocate : s.locate p = .ok place)
    (hd : s.tree.at? place = some (.directory entries)) : s.makeDirectories p = (s, none) := by
  rw [makeDirectories, makeDirectory_of_locate hlocate]
  simp [settled, isDirectory_of_locate hlocate hd]

/-! ### Paths that admit documents -/

/-- The directory of a path is there, and what the path names in it can be replaced by a file. -/
structure Admits (s : Storage) (p : Path) (place : List Text) (entries : Entries FileTree) :
    Prop where
  parent : p.parent.check = .ok ()
  name : Path.checkText p.name = .ok ()
  located : s.locate p.parent = .ok place
  directory : s.tree.at? place = some (.directory entries)
  staged : stagesTooLong place p = false
  short : ¬ pathLimit ≤ p.shown.byteLength
  named : p.name ≠ [] ∧ p.name ≠ Path.back
  file : ∀ below, Entries.get? p.name entries ≠ some (.directory below)

/-- A staged file is moved to its target where that is no directory. -/
theorem swap_stage_eq_ok_iff {name : Text} {moved : Storage}
    (hd : s.tree.at? place = some (.directory entries)) (hne : name ≠ p.name)
    (hnew : name ∉ Entries.keys entries) :
    (s.stage (place ++ [name]) content).swap (place ++ [name]) place p content = .ok moved ↔
      ¬ pathLimit ≤ p.shown.byteLength ∧ (p.name ≠ [] ∧ p.name ≠ Path.back) ∧
        (∀ below, Entries.get? p.name entries ≠ some (.directory below)) ∧
        moved = s.stage (place ++ [p.name]) content := by
  unfold swap
  -- The target is another entry than the staged file, so it is seen as it was before.
  rw [at?_append_name (at?_stage hd content), Entries.get?_put_of_ne (Ne.symm hne),
    withdraw_stage hd hnew]
  split
  · next hlong => simp [hlong]
  · next hshort =>
    split
    · next hname =>
      simp only [Bool.or_eq_true, decide_eq_true_eq] at hname
      refine ⟨nofun, fun h => ?_⟩
      exact absurd hname (not_or.2 h.2.1)
    · next hname =>
      simp only [Bool.or_eq_true, decide_eq_true_eq, not_or] at hname
      split
      · next below hget => exact ⟨nofun, fun h => absurd hget (h.2.2.1 below)⟩
      · next hfile =>
        rw [Except.ok.injEq]
        exact ⟨fun h => ⟨hshort, hname, hfile, h.symm⟩, fun h => h.2.2.2.symm⟩

/-- Where a document can be published in the directory of a path, the path admits documents. -/
theorem exists_of_publishIn {examine? : Option Examination} (hparent : p.parent.check = .ok ())
    (hname : Path.checkText p.name = .ok ()) (hlocate : s.locate p.parent = .ok place)
    (hd : s.tree.at? place = some (.directory entries))
    (h : (s.publishIn examine? p place entries text).fault? = none) :
    Admits s p place entries ∧ ∃ content, text.utf8? = some content ∧
      (s.publishIn examine? p place entries text).storage =
        s.stage (place ++ [p.name]) content := by
  unfold publishIn at h ⊢
  split at h
  · cases h
  next hstaged =>
  rw [if_neg hstaged]
  cases ht : text.utf8? with
  | none =>
    rw [ht] at h
    cases h
  | some content =>
    rw [ht] at h
    dsimp only at h ⊢
    -- To stage the file twice is to stage it once, with the content that is written last.
    rw [stage_stage] at h ⊢
    unfold release at h ⊢
    dsimp only at h ⊢
    split at h
    · cases h
    · split at h
      · cases h
      · next moved hswap =>
        obtain ⟨hshort, hnamed, hfile, rfl⟩ :=
          (swap_stage_eq_ok_iff hd (vacantName_ne _ _) (vacantName_notMem _ _)).1 hswap
        exact ⟨⟨hparent, hname, hlocate, hd, by simpa using hstaged, hshort, hnamed, hfile⟩,
          content, rfl, rfl⟩

/-- Where publishing succeeds, the path admits documents once the directories on the way are made,
and the document is put at its target. -/
theorem exists_admits {examine? : Option Examination}
    (h : (s.publishWith examine? p text).fault? = none) :
    ∃ made place entries, Admits made p place entries ∧ ∃ content, text.utf8? = some content ∧
      (s.publishWith examine? p text).storage = made.stage (place ++ [p.name]) content := by
  unfold publishWith at h ⊢
  split at h
  · cases h
  next hparent =>
  dsimp only at h ⊢
  split at h
  · cases h
  · cases h
  next hname =>
  split at h
  · cases h
  next place entries hlocated =>
  obtain ⟨place', hlocate, hentries⟩ := exists_of_bind_eq_ok hlocated
  obtain ⟨entries', hentries, he⟩ := exists_of_bind_eq_ok hentries
  cases he
  exact ⟨_, _, _, exists_of_publishIn hparent hname hlocate (entries_eq hentries) h⟩

namespace Admits

/-- Where a path admits documents, publishing puts a text that has a UTF-8 form at its target. -/
theorem publishWith_eq (h : Admits s p place entries) (ht : text.utf8? = some content) :
    s.publishWith none p text = ⟨s.stage (place ++ [p.name]) content, [], none⟩ := by
  have hswap : (s.stage (place ++ [vacantName p.name entries]) content).swap _ place p content
      = .ok (s.stage (place ++ [p.name]) content) :=
    (swap_stage_eq_ok_iff h.directory (vacantName_ne p.name entries)
      (vacantName_notMem p.name entries)).2 ⟨h.short, h.named, h.file, rfl⟩
  have hlocated : (do
      let place ← s.locate p.parent
      return (place, ← s.entries place)) = (.ok (place, entries) : Except StorageFault _) := by
    rw [h.located]
    simp only [bind, Except.bind, entries_of_at? h.directory]
    rfl
  simp only [publishWith, h.parent, makeDirectories_of_locate h.located h.directory, h.name,
    hlocated, publishIn, h.staged, Bool.false_eq_true, if_false, ht, stage_stage, release, hswap]
  rfl

/-- A path admits documents also when one was put there. -/
theorem stage (h : Admits s p place entries) (content : ByteArray) :
    Admits (s.stage (place ++ [p.name]) content) p place
      (Entries.put p.name (.file content) entries) where
  parent := h.parent
  name := h.name
  located := (widens_stage h.directory h.file content).locate h.located
  directory := at?_stage h.directory content
  staged := h.staged
  short := h.short
  named := h.named
  file below := by
    rw [Entries.get?_put_self]
    exact nofun

/-- The path leads to what its directory has under its name. -/
theorem read_eq (h : Admits s p place entries)
    (hget : Entries.get? p.name entries = some (.file content)) : s.read p = .ok content := by
  have hlength : ¬ nameLimit < p.name.byteLength := by
    have hstaged := h.staged
    simp only [stagesTooLong, Bool.or_eq_false_iff, decide_eq_false_iff_not] at hstaged
    omega
  have henter : s.enter place p.name = .ok (place ++ [p.name]) := by
    rw [Storage.enter, entries_of_at? h.directory]
    simp only [bind, Except.bind, h.named.2, hlength, hget, if_false, Option.isSome_some, if_true]
    rfl
  have hlocate := locate_of_parent (Path.parts_ne_nil h.named.1) h.short h.located henter
  rw [Storage.read, hlocate]
  simp only [bind, Except.bind, at?_append_name h.directory, hget]
  rfl

theorem check_eq (h : Admits s p place entries) : p.check = .ok () :=
  Path.check_of_parent h.named.1 h.parent h.name

end Admits

end Storage

end DeclSchema
