import Mathlib.Data.List.Basic
import Mathlib.Data.List.Induction

/-!
# First occurrences

A list without repetitions, where each member stands at its first occurrence, is `List.eraseDups`.
What is appended to a list matters for it only so far as it is new.

## Main results

* `nodup_eraseDups`: nothing occurs twice
* `eraseDups_append_of_subset`: what is not new does not matter
* `eraseDups_append_congr`: lists with the same first occurrences keep them when they are continued
* `pairwise_idxOf_eraseDups`: the order is that of the first occurrences
-/

namespace DeclSchema

variable {α : Type} [BEq α] [LawfulBEq α]

theorem nodup_eraseDups (xs : List α) : xs.eraseDups.Nodup := by
  cases xs with
  | nil => exact List.nodup_nil
  | cons x rest =>
    rw [List.eraseDups_cons, List.nodup_cons]
    refine ⟨fun hx => ?_, nodup_eraseDups _⟩
    simpa using (List.mem_filter.1 (List.mem_eraseDups.1 hx)).2
termination_by xs.length
decreasing_by exact Nat.lt_succ_of_le (List.length_filter_le _ _)

theorem eraseDups_append_of_subset {xs ys : List α} (h : ys ⊆ xs) :
    (xs ++ ys).eraseDups = xs.eraseDups := by
  have hnil : ys.removeAll xs = [] := by
    refine List.filter_eq_nil_iff.2 fun y hy => ?_
    simpa using h hy
  rw [List.eraseDups_append, hnil, List.eraseDups_nil, List.append_nil]

theorem eraseDups_append_congr {xs ys : List α} (h : xs.eraseDups = ys.eraseDups) (zs : List α) :
    (xs ++ zs).eraseDups = (ys ++ zs).eraseDups := by
  -- What is removed from the continuation depends on membership alone.
  have hmem : ∀ z, z ∈ xs ↔ z ∈ ys := by
    intro z
    rw [← List.mem_eraseDups, h, List.mem_eraseDups]
  have hnew : zs.removeAll xs = zs.removeAll ys := by
    refine List.filter_congr fun z _ => ?_
    rw [Bool.eq_iff_iff]
    simp [hmem]
  rw [List.eraseDups_append, List.eraseDups_append, h, hnew]

theorem eraseDups_concat_of_notMem {xs : List α} {x : α} (h : x ∉ xs) :
    (xs ++ [x]).eraseDups = xs.eraseDups ++ [x] := by
  have hnew : [x].removeAll xs = [x] := by
    refine List.filter_eq_self.2 fun y hy => ?_
    rw [List.mem_singleton.1 hy]
    simpa using h
  rw [List.eraseDups_append, hnew, List.eraseDups_cons]
  rfl

/-- What is left stands in the order of the first occurrences. -/
theorem pairwise_idxOf_eraseDups (xs : List α) :
    xs.eraseDups.Pairwise fun a b => xs.idxOf a < xs.idxOf b := by
  induction xs using List.reverseRecOn with
  | nil => exact .nil
  | append_singleton xs x ih =>
    -- What occurred before occurs first at the same place as before.
    have hkept : xs.eraseDups.Pairwise fun a b => (xs ++ [x]).idxOf a < (xs ++ [x]).idxOf b := by
      refine List.Pairwise.imp_of_mem ?_ ih
      intro a b ha hb hab
      rwa [List.idxOf_append_of_mem (List.mem_eraseDups.1 ha),
        List.idxOf_append_of_mem (List.mem_eraseDups.1 hb)]
    by_cases hx : x ∈ xs
    · have hold : [x] ⊆ xs := fun y hy => List.mem_singleton.1 hy ▸ hx
      rwa [eraseDups_append_of_subset hold]
    · rw [eraseDups_concat_of_notMem hx]
      refine List.pairwise_append.2 ⟨hkept, List.pairwise_singleton _ _, ?_⟩
      intro a ha b hb
      have ha : a ∈ xs := List.mem_eraseDups.1 ha
      rw [List.mem_singleton.1 hb, List.idxOf_append_of_mem ha, List.idxOf_append_of_notMem hx]
      exact Nat.lt_of_lt_of_le (List.idxOf_lt_length_of_mem ha) (Nat.le_add_right _ _)

end DeclSchema
