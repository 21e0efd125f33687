import DeclSchema.Text

/-!
# Entries in order of first appearance

A map from texts whose order is significant: a key stands where it was put first and has the value
that was put last.

## Main definitions

* `Entries.put`, `Entries.get?`, `Entries.remove`, `Entries.keys`: the operations
* `Entries.ofList`: all pairs put one after the other
-/

namespace DeclSchema

/-- Keys with their values, in order. -/
abbrev Entries (α : Type) := List (Text × α)

namespace Entries

variable {α : Type}

def get? (key : Text) : Entries α → Option α
  | [] => none
  | (k, v) :: rest => if k = key then some v else get? key rest

/-- Sets the value of a key: in place if the key is there, and at the end if not. -/
def put (key : Text) (value : α) : Entries α → Entries α
  | [] => [(key, value)]
  | (k, v) :: rest => if k = key then (k, value) :: rest else (k, v) :: put key value rest

/-- The entries of all other keys. -/
def remove (key : Text) (entries : Entries α) : Entries α :=
  entries.filter (·.1 ≠ key)

def keys (entries : Entries α) : List Text :=
  entries.map (·.1)

/-- All pairs of a list, put one after the other. -/
def putAll (pairs : List (Text × α)) (entries : Entries α) : Entries α :=
  pairs.foldl (fun es p => put p.1 p.2 es) entries

def ofList (pairs : List (Text × α)) : Entries α :=
  putAll pairs []

/-- The entries in ascending order of their keys. -/
def sorted (entries : Entries α) : Entries α :=
  entries.mergeSort fun a b => a.1.le b.1

theorem mem_put {key : Text} {value : α} {p : Text × α} :
    ∀ {entries : Entries α}, p ∈ put key value entries → p = (key, value) ∨ p ∈ entries
  | [], h => Or.inl (List.mem_singleton.1 h)
  | (k, v) :: rest, h => by
    unfold put at h
    split at h
    · rcases List.mem_cons.1 h with h | h
      · exact Or.inl (h.trans (by simp_all))
      · exact Or.inr (List.mem_cons_of_mem _ h)
    · rcases List.mem_cons.1 h with h | h
      · exact Or.inr (h ▸ List.mem_cons_self)
      · rcases mem_put h with h | h
        · exact Or.inl h
        · exact Or.inr (List.mem_cons_of_mem _ h)

theorem mem_putAll {pairs entries : Entries α} {p : Text × α} (h : p ∈ putAll pairs entries) :
    p ∈ pairs ∨ p ∈ entries := by
  induction pairs generalizing entries with
  | nil => exact Or.inr h
  | cons q rest ih =>
    rcases ih h with h | h
    · exact Or.inl (List.mem_cons_of_mem _ h)
    · rcases mem_put h with rfl | h
      · exact Or.inl List.mem_cons_self
      · exact Or.inr h

theorem mem_ofList {pairs : List (Text × α)} {p : Text × α} (h : p ∈ ofList pairs) : p ∈ pairs :=
  (mem_putAll h).resolve_right List.not_mem_nil

theorem mem_of_get? {key : Text} {value : α} :
    ∀ {entries : Entries α}, get? key entries = some value → (key, value) ∈ entries
  | (k, v) :: rest, h => by
    unfold get? at h
    split at h
    · cases h
      subst_vars
      exact List.mem_cons_self
    · exact List.mem_cons_of_mem _ (mem_of_get? h)

@[simp] theorem get?_nil (key : Text) : get? key ([] : Entries α) = none :=
  rfl

@[simp] theorem keys_nil : keys ([] : Entries α) = [] :=
  rfl

@[simp] theorem keys_cons (p : Text × α) (entries : Entries α) :
    keys (p :: entries) = p.1 :: keys entries :=
  rfl

theorem get?_put_self (key : Text) (value : α) (entries : Entries α) :
    get? key (put key value entries) = some value := by
  induction entries with
  | nil => simp [put, get?]
  | cons p rest ih =>
    unfold put
    split
    · next h => simp [get?, h]
    · next h => simp [get?, h, ih]

theorem get?_put_of_ne {k key : Text} (h : k ≠ key) (value : α) (entries : Entries α) :
    get? k (put key value entries) = get? k entries := by
  induction entries with
  | nil => simp [put, get?, Ne.symm h]
  | cons p rest ih =>
    unfold put
    split
    · next he => simp [get?, he, Ne.symm h]
    · simp [get?, ih]

theorem isSome_get?_iff {key : Text} {entries : Entries α} :
    (get? key entries).isSome ↔ key ∈ keys entries := by
  induction entries with
  | nil => simp
  | cons p rest ih =>
    unfold get?
    split
    · next h => simp [h]
    · next h => simp [ih, Ne.symm h]

theorem get?_eq_none_iff {key : Text} {entries : Entries α} :
    get? key entries = none ↔ key ∉ keys entries := by
  rw [← isSome_get?_iff, Option.not_isSome_iff_eq_none]

end Entries

end DeclSchema
