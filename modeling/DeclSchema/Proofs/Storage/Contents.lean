import DeclSchema.Proofs.Storage.FileTree
import DeclSchema.Storage.Publishing
import Mathlib.Logic.Function.Basic

/-!
# The contents of a storage

What counts about a storage is which files it has and what is in them. Directories are seen only
through the places of files, so to make directories changes nothing that counts, even where it ends
with a fault half way.

A path that leads to a place leads to the one that its names give without looking at any file, for a
way back always leads to the directory above.

## Main definitions

* `Storage.contents`: the content of the file at each place
* `Storage.Keeps`: what two storages with the same files have in common
* `Storage.target`: the place that a path names

## Main results

* `Storage.locate_eq_target`: a path that leads somewhere leads to its target
* `Storage.keeps_makeDirectories`: to make directories changes no file
* `Storage.contents_stage`: to put a file where no directory is changes the content of one place
* `Storage.withdraw_stage`: to withdraw a staged file leaves no trace of it
-/

namespace DeclSchema.Storage

/-- The content of the file at a place, if there is one. -/
def contents (s : Storage) (place : List Text) : Option ByteArray :=
  s.tree.content? place

/-- Two storages have the same files, and paths start at the same place in them. -/
structure Keeps (s s' : Storage) : Prop where
  contents : s'.contents = s.contents
  here : s'.here = s.here

variable {s s' s'' : Storage} {place : List Text} {name : Text}

theorem Keeps.refl (s : Storage) : Keeps s s :=
  ⟨rfl, rfl⟩

theorem Keeps.trans (h : Keeps s s') (h' : Keeps s' s'') : Keeps s s'' :=
  ⟨h'.contents.trans h.contents, h'.here.trans h.here⟩

/-! ### Places -/

/-- The place that names lead to, where a way back leads to the place above. -/
def follow (place names : List Text) : List Text :=
  names.foldl (fun way name => if name = Path.back then way.dropLast else way ++ [name]) place

/-- The place that a path names. -/
def target (s : Storage) (p : Path) : List Text :=
  follow (s.origin p) p.parts

theorem follow_concat (place names : List Text) (name : Text) :
    follow place (names ++ [name]) =
      if name = Path.back then (follow place names).dropLast else follow place names ++ [name] := by
  rw [follow, List.foldl_append]
  rfl

theorem Keeps.target (h : Keeps s s') (p : Path) : s'.target p = s.target p := by
  rw [Storage.target, Storage.target, origin, origin, h.here]

theorem enter_eq {place' : List Text} (h : s.enter place name = .ok place') :
    place' = follow place [name] := by
  obtain ⟨entries, -, h⟩ := exists_of_bind_eq_ok h
  change place' = if name = Path.back then _ else _
  split at h
  · next hback =>
    cases h
    rw [if_pos hback]
  · next hback =>
    rw [if_neg hback]
    split at h
    · cases h
    · split at h
      · cases h
        rfl
      · cases h

theorem walk_eq {names place' : List Text} (h : s.walk place names = .ok place') :
    place' = follow place names := by
  induction names generalizing place with
  | nil =>
    cases h
    rfl
  | cons name rest ih =>
    obtain ⟨next, he, hrest⟩ := exists_of_bind_eq_ok h
    rw [ih hrest, enter_eq he]
    rfl

/-- A path that leads somewhere leads to the place that it names. -/
theorem locate_eq_target {p : Path} (h : s.locate p = .ok place) : place = s.target p := by
  unfold locate at h
  split at h
  · cases h
  · exact walk_eq h

/-- The place of a path is the one of its last name, seen from the place of the path above. -/
theorem target_eq_parent (s : Storage) (p : Path) :
    s.target p =
      if p.parts = [] then s.target p.parent
      else if p.name = Path.back then (s.target p.parent).dropLast
      else s.target p.parent ++ [p.name] := by
  have horigin : s.origin p.parent = s.origin p := rfl
  rw [target, target, horigin]
  split
  · next hroot => simp [Path.parent, hroot]
  · next hroot =>
    have hparts : p.parts = p.parent.parts ++ [p.name] := by
      rw [Path.name, List.getLastD_eq_getLast?, List.getLast?_eq_some_getLast hroot]
      exact (List.dropLast_concat_getLast hroot).symm
    rw [hparts, follow_concat]

theorem target_of_name {p : Path} (hname : p.name ≠ []) (hback : p.name ≠ Path.back) :
    s.target p = s.target p.parent ++ [p.name] := by
  have hroot : p.parts ≠ [] := by
    intro hnil
    exact hname (by rw [Path.name, hnil]; rfl)
  rw [target_eq_parent, if_neg hroot, if_neg hback]

/-- A file beside the target is not the target, whatever the path is. -/
theorem target_ne {p : Path} (hne : name ≠ p.name) : s.target p.parent ++ [name] ≠ s.target p := by
  rw [target_eq_parent s p]
  intro h
  split at h
  · simp at h
  · split at h
    · have := congrArg List.length h
      simp at this
      omega
    · simp [hne] at h

/-! ### Directories -/

theorem entries_eq {entries : Entries FileTree} (h : s.entries place = .ok entries) :
    s.tree.at? place = some (.directory entries) := by
  unfold Storage.entries at h
  split at h
  · next ht =>
    cases h
    exact ht
  · cases h
  · cases h

theorem contents_append {entries : Entries FileTree} (h : s.tree.at? place = some (.directory entries))
    (below : List Text) :
    s.contents (place ++ name :: below) =
      (Entries.get? name entries).bind (FileTree.content? below) := by
  rw [contents, FileTree.content?_append, h]
  exact FileTree.content?_cons_directory name below entries

theorem at?_append_name {entries : Entries FileTree}
    (h : s.tree.at? place = some (.directory entries)) :
    s.tree.at? (place ++ [name]) = Entries.get? name entries := by
  rw [FileTree.at?_append, h, Option.bind_some, FileTree.at?]
  cases Entries.get? name entries <;> rfl

/-- An empty directory at a vacant place is no file. -/
theorem keeps_put_directory
    (h : ∀ entries, s.tree.at? place = some (.directory entries) → name ∉ Entries.keys entries) :
    Keeps s { s with tree := FileTree.put (.directory []) (place ++ [name]) s.tree } := by
  refine ⟨funext fun q => ?_, rfl⟩
  simp only [contents, FileTree.put_eq_revise]
  by_cases hq : place ++ [name] <+: q
  · obtain ⟨below, rfl⟩ := hq
    rw [List.append_assoc, List.singleton_append, FileTree.content?_append,
      FileTree.content?_append]
    -- Where no directory is at the place, nothing was put there.
    by_cases hd : ∃ entries, s.tree.at? place = some (.directory entries)
    · obtain ⟨entries, hd⟩ := hd
      have hnew : Entries.get? name entries = none := Entries.get?_eq_none_iff.2 (h entries hd)
      rw [FileTree.at?_revise hd, hd, Option.bind_some, Option.bind_some,
        FileTree.content?_cons_directory, FileTree.content?_cons_directory,
        Entries.get?_put_self, hnew]
      cases below <;> rfl
    · rw [FileTree.revise_eq_self fun entries he => absurd ⟨entries, he⟩ hd]
  · exact FileTree.content?_revise (fun k entries hk => Entries.get?_put_of_ne hk _ _) hq

/-- What a path does not lead to is new in the directory above. -/
theorem notMem_keys_of_enter {entries : Entries FileTree}
    (h : s.enter place name = .error .notFound)
    (hd : s.tree.at? place = some (.directory entries)) : name ∉ Entries.keys entries := by
  have he : s.entries place = .ok entries := by rw [Storage.entries, hd]
  unfold enter at h
  rw [he] at h
  change (if name = Path.back then _ else _) = _ at h
  split at h
  · cases h
  · split at h
    · cases h
    · split at h
      · cases h
      · next hnew =>
        rw [← Entries.isSome_get?_iff]
        exact hnew

theorem vacancy_eq {p : Path} (h : s.vacancy p = .ok place) :
    ∃ above, place = above ++ [p.name] ∧ s.enter above p.name = .error .notFound := by
  by_cases hroot : p.parts = []
  · rw [vacancy, if_pos hroot] at h
    cases h
  rw [vacancy, if_neg hroot] at h
  by_cases hlong : pathLimit ≤ p.shown.byteLength
  · rw [if_pos hlong] at h
    cases h
  rw [if_neg hlong] at h
  obtain ⟨above, -, h⟩ := exists_of_bind_eq_ok h
  split at h
  · cases h
  · next henter =>
    cases h
    exact ⟨above, rfl, henter⟩
  · cases h

theorem keeps_makeDirectory {p : Path} (h : s.makeDirectory p = .ok s') : Keeps s s' := by
  obtain ⟨place, hv, h⟩ := exists_of_bind_eq_ok h
  cases h
  obtain ⟨above, rfl, henter⟩ := vacancy_eq hv
  exact keeps_put_directory fun entries hd => notMem_keys_of_enter henter hd

theorem keeps_settled {p : Path} {outcome : Except StorageFault Storage}
    (h : ∀ made, outcome = .ok made → Keeps s made) : Keeps s (s.settled p outcome).1 := by
  unfold settled
  split
  · next made => exact h made rfl
  · split <;> exact .refl s

/-- To make directories changes no file, whether all of them can be made or not. -/
theorem keeps_makeDirectories (s : Storage) (p : Path) : Keeps s (s.makeDirectories p).1 := by
  -- Induction along the way up; what was made above is there also if the rest cannot be made.
  fun_induction makeDirectories s p with
  | case1 => exact .refl s
  | case2 p _ _ above f _ ih => exact ih
  | case3 p _ _ above _ ih => exact ih.trans (keeps_settled fun made hm => keeps_makeDirectory hm)
  | case4 p => exact keeps_settled fun made hm => keeps_makeDirectory hm

/-! ### Staged files -/

theorem at?_stage {entries : Entries FileTree} (h : s.tree.at? place = some (.directory entries))
    (content : ByteArray) :
    (s.stage (place ++ [name]) content).tree.at? place =
      some (.directory (Entries.put name (.file content) entries)) := by
  rw [stage]
  simp only [FileTree.put_eq_revise]
  exact FileTree.at?_revise h

/-- To put a file where no directory is changes the content of one place. -/
theorem contents_stage {entries : Entries FileTree}
    (h : s.tree.at? place = some (.directory entries))
    (hfile : ∀ below, Entries.get? name entries ≠ some (.directory below)) (content : ByteArray) :
    (s.stage (place ++ [name]) content).contents =
      Function.update s.contents (place ++ [name]) (some content) := by
  funext q
  by_cases hq : place ++ [name] <+: q
  · obtain ⟨below, rfl⟩ := hq
    rw [List.append_assoc, List.singleton_append, contents_append (at?_stage h content),
      Entries.get?_put_self, Option.bind_some]
    cases below with
    | nil => rw [Function.update_self, FileTree.content?_nil_file]
    | cons first rest =>
      -- Below a file there is nothing, and below the name there was nothing before.
      have hne : place ++ name :: first :: rest ≠ place ++ [name] := by simp
      rw [Function.update_of_ne hne, contents_append h, FileTree.content?_cons_file]
      cases hget : Entries.get? name entries with
      | none => rfl
      | some node =>
        cases node with
        | file old => rfl
        | directory others => exact absurd hget (hfile others)
  · have hne : q ≠ place ++ [name] := by
      rintro rfl
      exact hq (List.prefix_refl _)
    rw [Function.update_of_ne hne, contents, stage]
    simp only [FileTree.put_eq_revise]
    exact FileTree.content?_revise (fun k es hk => Entries.get?_put_of_ne hk _ _) hq

theorem stage_stage (place : List Text) (name : Text) (old content : ByteArray) (s : Storage) :
    (s.stage (place ++ [name]) old).stage (place ++ [name]) content =
      s.stage (place ++ [name]) content := by
  have hput : Entries.put name (FileTree.file content) ∘ Entries.put name (FileTree.file old) =
      Entries.put name (FileTree.file content) := funext fun es => Entries.put_put _ _ _ _
  simp only [stage, FileTree.put_eq_revise, FileTree.revise_revise, hput]

/-- To withdraw a file that was staged under a new name leaves no trace of it. -/
theorem withdraw_stage {entries : Entries FileTree}
    (h : s.tree.at? place = some (.directory entries)) (hname : name ∉ Entries.keys entries)
    (content : ByteArray) :
    (s.stage (place ++ [name]) content).withdraw (place ++ [name]) = s := by
  unfold stage withdraw
  simp only [FileTree.put_eq_revise, FileTree.erase_eq_revise, FileTree.revise_revise]
  rw [FileTree.revise_eq_self]
  intro es he
  cases h.symm.trans he
  exact Entries.remove_put hname _

end DeclSchema.Storage
