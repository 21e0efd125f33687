import DeclSchema.Declaration.Escape

/-!
# Numbers in escapes

The numeric escapes of a string decide what it spells. A number that is no code point is the only
cause of a failure, and a number of a surrogate is the only source of a surrogate in what is spelled,
since all other characters stand for themselves or for a control character.

## Main definitions

* `Escape.numbers`, `Escape.numbersOf`: the numbers of the numeric escapes of a string
* `Escape.Reflects`: what the numbers tell about the text that is spelled, or about the fault

## Main results

* `Escape.unescape_reflects`: the numbers of a string tell this about what it spells
-/

namespace DeclSchema.Escape

/-- The numbers that are spelled by the numeric escapes among the characters between the quotes of
a string. -/
def numbers : List Char → List Nat
  | [] => []
  | '\\' :: c :: rest =>
    match numeric? (c :: rest) with
    | some (digits, length) => hexValue digits :: numbers (rest.drop (length - 1))
    | none => numbers rest
  | _ :: rest => numbers rest
termination_by input => input.length
decreasing_by all_goals simp only [List.length_drop, List.length_cons]; omega

/-- The numbers that are spelled by the numeric escapes of a quoted string. -/
def numbersOf (lexeme : List Char) : List Nat :=
  numbers (lexeme.drop 1).dropLast

/-- The fault of a number that is no code point. -/
def pointFault (n : Nat) : Fault :=
  if 2147483647 < n then .hugeCodePoint else .noCodePoint

/-- The numbers are those of a string that spells the text, or that spells none for the fault. -/
def Reflects (ns : List Nat) : Decoded Text → Prop
  | .ok t => (∀ n ∈ ns, n < 0x110000) ∧ ∀ p ∈ t, p.isSurrogate = true → p.value ∈ ns
  | .error f => ∃ n ∈ ns, 0x110000 ≤ n ∧ f = pointFault n

section Reflects

variable {ns : List Nat} {x : Decoded Text}

theorem point_eq (n : Nat) :
    (∃ p : CodePoint, p.value = n ∧ n < 0x110000 ∧ point n = .ok p) ∨
      0x110000 ≤ n ∧ point n = .error (pointFault n) := by
  by_cases hn : n < 0x110000
  · exact .inl ⟨⟨n, hn⟩, rfl, hn, by rw [point, CodePoint.ofNat?, dif_pos hn]⟩
  · exact .inr ⟨Nat.not_lt.1 hn, by rw [point, CodePoint.ofNat?, dif_neg hn, pointFault]⟩

/-- A character in front of a string is no number. -/
theorem Reflects.ofChar (h : Reflects ns x) (c : Char) :
    Reflects ns (do return CodePoint.ofChar c :: (← x)) := by
  cases x with
  | error f => exact h
  | ok t =>
    refine ⟨h.1, fun p hp hsurrogate => ?_⟩
    obtain rfl | hp := List.mem_cons.1 hp
    · rw [CodePoint.isSurrogate_ofChar] at hsurrogate
      cases hsurrogate
    · exact h.2 p hp hsurrogate

/-- A numeric escape in front of a string adds its number. -/
theorem Reflects.point (h : Reflects ns x) (n : Nat) :
    Reflects (n :: ns) (do
      let p ← point n
      return p :: (← x)) := by
  obtain ⟨p, hvalue, hlt, hpoint⟩ | ⟨hge, hpoint⟩ := point_eq n
  · rw [hpoint]
    cases x with
    | error f =>
      obtain ⟨m, hm, hfault⟩ := h
      exact ⟨m, List.mem_cons_of_mem _ hm, hfault⟩
    | ok t =>
      refine ⟨List.forall_mem_cons.2 ⟨hlt, h.1⟩, fun q hq hsurrogate => ?_⟩
      obtain rfl | hq := List.mem_cons.1 hq
      · exact hvalue ▸ List.mem_cons_self ..
      · exact List.mem_cons_of_mem _ (h.2 q hq hsurrogate)
  · rw [hpoint]
    exact ⟨n, List.mem_cons_self .., hge, rfl⟩

end Reflects

/-- Whether a string spells a text, and where its surrogates are from, is told by its numbers. -/
theorem unescape_reflects (s : List Char) : Reflects (numbers s) (unescape s) := by
  induction s using unescape.induct with
  | case1 =>
    rw [numbers, unescape]
    exact ⟨nofun, nofun⟩
  | case2 c rest digits length hnumeric ih =>
    rw [numbers, unescape, hnumeric]
    exact ih.point (hexValue digits)
  | case3 c rest hnumeric ih =>
    rw [numbers, unescape, hnumeric]
    exact ih.ofChar (simple c)
  | case4 c rest hplain ih =>
    rw [numbers, unescape]
    · exact ih.ofChar c
    · exact hplain
    · exact hplain

theorem unquote_reflects (lexeme : List Char) : Reflects (numbersOf lexeme) (unquote lexeme) :=
  unescape_reflects _

end DeclSchema.Escape
