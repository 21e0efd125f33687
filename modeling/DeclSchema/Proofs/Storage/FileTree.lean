import DeclSchema.Proofs.Entries
import DeclSchema.Storage.FileTree

/-!
# Changes in a tree of files

To put a node at a place and to erase one are both a change of the entries of one directory. Such
changes compose, and a change that leaves the entries as they are leaves the tree as it is; so what
is put at a vacant place and erased again has left no trace.

## Main definitions

* `FileTree.revise`: the tree with a change of the entries of one directory

## Main results

* `FileTree.put_eq_revise`, `FileTree.erase_eq_revise`: the operations as such changes
* `FileTree.revise_revise`, `FileTree.revise_eq_self`: the laws of changes
* `FileTree.at?_revise`, `FileTree.content?_revise`: what is at a place after a change
-/

namespace DeclSchema.FileTree

/-- The tree with a change of the entries of the directory at a place. -/
def revise (f : Entries FileTree → Entries FileTree) : List Text → FileTree → FileTree
  | _, file content => file content
  | [], directory entries => directory (f entries)
  | name :: rest, directory entries =>
    match Entries.get? name entries with
    | some t => directory (Entries.put name (revise f rest t) entries)
    | none => directory entries

variable {f g : Entries FileTree → Entries FileTree} {place : List Text} {t : FileTree}
  {entries : Entries FileTree} {name : Text}

theorem put_eq_revise (node : FileTree) (place : List Text) (name : Text) (t : FileTree) :
    put node (place ++ [name]) t = revise (Entries.put name node) place t := by
  induction place generalizing t with
  | nil =>
    cases t with
    | file content => rfl
    | directory entries => rfl
  | cons first rest ih =>
    cases t with
    | file content => rfl
    | directory entries =>
      -- The place has at least two names, so the walk goes on below the first one.
      obtain ⟨second, below, hrest⟩ : ∃ second below, rest ++ [name] = second :: below :=
        List.exists_cons_of_ne_nil (by simp)
      rw [List.cons_append, hrest, put, revise, ← hrest]
      · cases Entries.get? first entries with
        | none => rfl
        | some below => simp only [ih]
      · simp

theorem erase_eq_revise (place : List Text) (name : Text) (t : FileTree) :
    erase (place ++ [name]) t = revise (Entries.remove name) place t := by
  induction place generalizing t with
  | nil =>
    cases t with
    | file content => rfl
    | directory entries => rfl
  | cons first rest ih =>
    cases t with
    | file content => rfl
    | directory entries =>
      -- As for a node that is put, the walk goes on below the first name.
      obtain ⟨second, below, hrest⟩ : ∃ second below, rest ++ [name] = second :: below :=
        List.exists_cons_of_ne_nil (by simp)
      rw [List.cons_append, hrest, erase, revise, ← hrest]
      · cases Entries.get? first entries with
        | none => rfl
        | some below => simp only [ih]
      · simp

theorem at?_append (place below : List Text) (t : FileTree) :
    at? (place ++ below) t = (at? place t).bind (at? below) := by
  induction place generalizing t with
  | nil => rfl
  | cons name rest ih =>
    cases t with
    | file content => rfl
    | directory entries =>
      rw [List.cons_append, at?, at?]
      split
      · exact ih _
      · rfl

/-! ### The laws of changes -/

theorem revise_revise (f g : Entries FileTree → Entries FileTree) (place : List Text)
    (t : FileTree) : revise g place (revise f place t) = revise (g ∘ f) place t := by
  induction place generalizing t with
  | nil =>
    cases t with
    | file content => rfl
    | directory entries => rfl
  | cons name rest ih =>
    cases t with
    | file content => rfl
    | directory entries =>
      cases hget : Entries.get? name entries with
      | none => simp [revise, hget]
      | some below => simp [revise, hget, Entries.get?_put_self, Entries.put_put, ih]

theorem revise_eq_self (h : ∀ entries, at? place t = some (directory entries) → f entries = entries) :
    revise f place t = t := by
  induction place generalizing t with
  | nil =>
    cases t with
    | file content => rfl
    | directory entries => rw [revise, h entries rfl]
  | cons name rest ih =>
    cases t with
    | file content => rfl
    | directory entries =>
      cases hget : Entries.get? name entries with
      | none => simp [revise, hget]
      | some below =>
        have hbelow : revise f rest below = below := ih fun es hes => h es (by simpa [at?, hget])
        rw [revise, hget]
        simp only [hbelow, Entries.put_of_get?_eq_some hget]

/-- The directory whose entries change. -/
theorem at?_revise (h : at? place t = some (directory entries)) :
    at? place (revise f place t) = some (directory (f entries)) := by
  induction place generalizing t with
  | nil =>
    cases h
    rfl
  | cons name rest ih =>
    cases t with
    | file content => cases h
    | directory others =>
      cases hget : Entries.get? name others with
      | none => simp [at?, hget] at h
      | some below =>
        simp only [at?, hget] at h
        simp only [revise, hget, at?, Entries.get?_put_self]
        exact ih h

/-! ### Contents -/

@[simp] theorem content?_nil_directory (entries : Entries FileTree) :
    content? [] (directory entries) = none :=
  rfl

@[simp] theorem content?_nil_file (content : ByteArray) :
    content? [] (file content) = some content :=
  rfl

@[simp] theorem content?_cons_file (name : Text) (rest : List Text) (content : ByteArray) :
    content? (name :: rest) (file content) = none :=
  rfl

theorem content?_cons_directory (name : Text) (rest : List Text) (entries : Entries FileTree) :
    content? (name :: rest) (directory entries) =
      (Entries.get? name entries).bind (content? rest) := by
  unfold content?
  rw [at?]
  cases Entries.get? name entries <;> rfl

/-- A change that concerns one name leaves all files as they are but those under that name. -/
theorem content?_revise (hf : ∀ k entries, k ≠ name → Entries.get? k (f entries) =
    Entries.get? k entries) {q : List Text} (hq : ¬ place ++ [name] <+: q) :
    content? q (revise f place t) = content? q t := by
  induction place generalizing t q with
  | nil =>
    cases t with
    | file content => rfl
    | directory entries =>
      cases q with
      | nil => rfl
      | cons k rest =>
        have hk : k ≠ name := by
          rintro rfl
          exact hq ⟨rest, rfl⟩
        rw [revise, content?_cons_directory, content?_cons_directory, hf k entries hk]
  | cons first above ih =>
    cases t with
    | file content => rfl
    | directory entries =>
      cases hget : Entries.get? first entries with
      | none => simp [revise, hget]
      | some below =>
        rw [revise, hget]
        cases q with
        | nil => rfl
        | cons k rest =>
          rw [content?_cons_directory, content?_cons_directory]
          by_cases hk : k = first
          · -- The change happens under the same first name, with one name less to go.
            subst hk
            have hrest : ¬ above ++ [name] <+: rest := by
              rintro ⟨more, rfl⟩
              exact hq ⟨more, rfl⟩
            rw [Entries.get?_put_self, hget]
            exact ih hrest
          · rw [Entries.get?_put_of_ne hk]

theorem content?_append (place below : List Text) (t : FileTree) :
    content? (place ++ below) t = (at? place t).bind (content? below) := by
  unfold content?
  rw [at?_append]
  cases at? place t <;> rfl

end DeclSchema.FileTree
