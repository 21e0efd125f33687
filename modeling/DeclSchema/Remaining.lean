/-!
# Counting what remains

A walk over finitely many things ends if each step does away with one of them. `countP_lt_countP` is
the step of this argument: fewer members satisfy the narrower of two conditions, if one member
satisfies only the wider one.
-/

namespace DeclSchema

theorem countP_lt_countP {α : Type} {p q : α → Bool} {xs : List α}
    (h : ∀ x ∈ xs, p x = true → q x = true) {a : α} (ha : a ∈ xs) (hp : p a = false)
    (hq : q a = true) : xs.countP p < xs.countP q := by
  induction xs with
  | nil => cases ha
  | cons x rest ih =>
    have hrest : rest.countP p ≤ rest.countP q :=
      List.countP_mono_left fun y hy => h y (List.mem_cons_of_mem _ hy)
    simp only [List.countP_cons]
    rcases List.mem_cons.1 ha with rfl | ha
    · simp only [hp, hq]
      simpa using Nat.lt_succ_of_le hrest
    · have := ih (fun y hy => h y (List.mem_cons_of_mem _ hy)) ha
      have hx := h x List.mem_cons_self
      cases hpx : p x with
      | false =>
        simp only [Bool.false_eq_true, if_false]
        omega
      | true =>
        simp only [hx hpx, if_true]
        omega

end DeclSchema
