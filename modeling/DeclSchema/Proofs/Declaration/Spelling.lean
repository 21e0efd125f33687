import DeclSchema.Proofs.Declaration.Quoted
import Mathlib.Data.Nat.Digits.Defs

/-!
# The ways to spell a character

In a string literal a character stands for itself, or behind a backslash, or it is spelled by a
letter or by its number in hexadecimal digits. Two scans have to agree on such a literal. One finds
where it ends and knows of an escape only that the character behind the backslash is no delimiter;
the other finds what the escapes spell, and tries the numbers before the letters, and the letters
before the character itself. Here the ways to spell a character are given without either of the
scans, and every literal that is put together from them is read by both to its end.

## Main definitions

* `Escape.SpellsNumber`: hexadecimal digits with their number
* `Escape.Spells`: the ways to spell a character
* `Escape.IsLiteral`: a literal, between two quotes of one kind, of some characters

## Main results

* `Escape.unescape_spelled`: what is spelled at the front of a string
* `Escape.IsLiteral.unquote_eq`: a literal spells its characters
* `Escape.IsLiteral.stringLength_eq`: a literal is read to its end
-/

namespace DeclSchema.Escape

/-! ### Spelling -/

/-- The hexadecimal digits, the larger ones in both cases. -/
def hexDigits : List Char :=
  "0123456789abcdefABCDEF".toList

/-- The number of a hexadecimal digit. -/
def digitOf (d : Char) : Nat :=
  if hexDigits.idxOf d < 16 then hexDigits.idxOf d else hexDigits.idxOf d - 6

/-- Hexadecimal digits spell a number, the most significant one first. -/
structure SpellsNumber (ds : List Char) (n : Nat) : Prop where
  digits : ds ⊆ hexDigits
  number : Nat.ofDigits 16 (ds.map digitOf).reverse = n

/-- The letters that spell a control character behind a backslash. -/
def controls : List (Char × Char) :=
  [('n', '\n'), ('t', '\t'), ('r', '\r'), ('b', '\x08'), ('f', '\x0c'), ('v', '\x0b'),
    ('0', '\x00')]

/-- The ways to spell a character between two delimiters. -/
inductive Spells (delimiter : Char) : List Char → Char → Prop where
  | raw {c : Char} (hdelimiter : c ≠ delimiter) (hback : c ≠ '\\') (hline : c ≠ '\n') :
      Spells delimiter [c] c
  | control {letter c : Char} (h : (letter, c) ∈ controls) : Spells delimiter ['\\', letter] c
  | two {ds : List Char} {c : Char} (hlength : ds.length = 2) (h : SpellsNumber ds c.toNat) :
      Spells delimiter ('\\' :: 'x' :: ds) c
  | four {ds : List Char} {c : Char} (hlength : ds.length = 4) (h : SpellsNumber ds c.toNat) :
      Spells delimiter ('\\' :: 'u' :: ds) c
  | braced {ds : List Char} {c : Char} (hne : ds ≠ []) (h : SpellsNumber ds c.toNat) :
      Spells delimiter ('\\' :: 'u' :: '\x7b' :: (ds ++ ['\x7d'])) c
  | self {c : Char} (hline : c ≠ '\n') (h : c ∉ "ntrbfv0ux".toList) : Spells delimiter ['\\', c] c

/-- Characters that are spelled one after the other, each in one of the ways. -/
inductive SpellsAll (delimiter : Char) : List Char → List Char → Prop where
  | nil : SpellsAll delimiter [] []
  | cons {piece spelled : List Char} {c : Char} {cs : List Char} (h : Spells delimiter piece c)
      (hs : SpellsAll delimiter spelled cs) : SpellsAll delimiter (piece ++ spelled) (c :: cs)

/-- A literal of some characters, between two quotes of one kind. -/
inductive IsLiteral : List Char → List Char → Prop where
  | intro {delimiter : Char} {spelled cs : List Char} (hdelimiter : delimiter ∈ ['"', '\''])
      (h : SpellsAll delimiter spelled cs) : IsLiteral (delimiter :: (spelled ++ [delimiter])) cs

/-! ### Numbers -/

theorem isHexDigit_of_mem : ∀ d ∈ hexDigits, Grammar.isHexDigit d = true :=
  List.all_eq_true.1 (by decide)

theorem digitValue_of_mem : ∀ d ∈ hexDigits, digitValue d = digitOf d :=
  List.map_inj_left.1 (by decide)

namespace SpellsNumber

variable {ds : List Char} {n : Nat}

theorem all_isHexDigit (h : SpellsNumber ds n) : ds.all Grammar.isHexDigit = true :=
  List.all_eq_true.2 fun d hd => isHexDigit_of_mem d (h.digits hd)

theorem hexValue_eq (h : SpellsNumber ds n) : hexValue ds = n := by
  have hdigits : ds.map digitOf = ds.map digitValue := by
    refine List.map_congr_left ?_
    intro d hd
    exact (digitValue_of_mem d (h.digits hd)).symm
  rw [← h.number, hdigits, Nat.ofDigits_eq_foldr, List.foldr_reverse, List.foldl_map, hexValue]
  -- The two folds differ in the order of the sum alone.
  congr 1
  funext m d
  exact Nat.add_comm _ _

theorem point_eq {c : Char} (h : SpellsNumber ds c.toNat) :
    point (hexValue ds) = .ok (.ofChar c) := by
  rw [h.hexValue_eq]
  exact point_value (.ofChar c)

/-- A number with a fixed count of digits, behind its letter. -/
theorem numeric?_two (h : SpellsNumber ds n) (hlength : ds.length = 2) (rest : List Char) :
    numeric? ('x' :: (ds ++ rest)) = some (ds, 3) := by
  have htake : (ds ++ rest).take 2 = ds := List.take_left' hlength
  simp only [numeric?, htake, hlength, h.all_isHexDigit]
  rfl

theorem numeric?_four (h : SpellsNumber ds n) (hlength : ds.length = 4) (rest : List Char) :
    numeric? ('u' :: (ds ++ rest)) = some (ds, 5) := by
  have htake : (ds ++ rest).take 4 = ds := List.take_left' hlength
  rw [numeric?]
  · simp only [htake, hlength, h.all_isHexDigit]
    rfl
  · -- The first digit is no brace.
    intro more hbrace
    obtain ⟨d, ds, rfl⟩ : ∃ d ds', ds = d :: ds' := List.exists_cons_of_length_eq_add_one hlength
    obtain ⟨rfl, -⟩ := List.cons.inj hbrace
    exact absurd (h.digits List.mem_cons_self) (by decide)

theorem numeric?_braced (h : SpellsNumber ds n) (hne : ds ≠ []) (rest : List Char) :
    numeric? ('u' :: '\x7b' :: (ds ++ '\x7d' :: rest)) = some (ds, ds.length + 3) := by
  have htake : (ds ++ '\x7d' :: rest).takeWhile Grammar.isHexDigit = ds := by
    rw [List.takeWhile_append_of_pos (List.all_eq_true.1 h.all_isHexDigit),
      List.takeWhile_cons_of_neg (by decide), List.append_nil]
  obtain ⟨d, ds, rfl⟩ := List.exists_cons_of_ne_nil hne
  rw [numeric?]
  simp only [htake, List.drop_left]

end SpellsNumber

/-! ### What is spelled -/

theorem unescape_numeric {digits : List Char} {length : Nat} {c d : Char} {rest : List Char}
    (hnumeric : numeric? (d :: rest) = some (digits, length))
    (hpoint : point (hexValue digits) = .ok (.ofChar c)) :
    unescape ('\\' :: d :: rest)
      = (CodePoint.ofChar c :: ·) <$> unescape (rest.drop (length - 1)) := by
  rw [unescape, hnumeric]
  simp only [hpoint]
  rfl

theorem unescape_simple {d : Char} (hx : d ≠ 'x') (hu : d ≠ 'u') (rest : List Char) :
    unescape ('\\' :: d :: rest) = (CodePoint.ofChar (simple d) :: ·) <$> unescape rest := by
  rw [unescape, numeric?_eq_none hx hu]
  rfl

theorem simple_of_controls :
    ∀ p ∈ controls, simple p.1 = p.2 ∧ p.1 ≠ 'x' ∧ p.1 ≠ 'u' ∧ p.1 ≠ '\n' := by
  decide

theorem simple_of_notMem {c : Char} (h : c ∉ "ntrbfv0ux".toList) :
    simple c = c ∧ c ≠ 'x' ∧ c ≠ 'u' := by
  have hne : ∀ letter ∈ "ntrbfv0ux".toList, c ≠ letter := by
    rintro letter hletter rfl
    exact h hletter
  refine ⟨?_, hne 'x' (by decide), hne 'u' (by decide)⟩
  unfold simple
  split
  case h_8 => rfl
  all_goals exact absurd rfl (hne _ (by decide))

variable {delimiter c : Char} {piece spelled s cs rest : List Char}

/-- What is spelled at the front of a string. -/
theorem unescape_spelled (h : Spells delimiter piece c) (rest : List Char) :
    unescape (piece ++ rest) = (CodePoint.ofChar c :: ·) <$> unescape rest := by
  -- A spelling with a number says how many digits it has; what follows them is left as it is.
  cases h with
  | raw hdelimiter hback hline =>
    rw [List.singleton_append, unescape]
    · rfl
    · exact fun c' rest' h => absurd h hback
  | @control letter _ h =>
    obtain ⟨hsimple, hx, hu, -⟩ := simple_of_controls _ h
    have hletter := unescape_simple hx hu rest
    rw [hsimple] at hletter
    exact hletter
  | @two ds _ hlength h =>
    have hdrop : (ds ++ rest).drop 2 = rest := List.drop_left' hlength
    refine (unescape_numeric (h.numeric?_two hlength rest) h.point_eq).trans ?_
    rw [hdrop]
  | @four ds _ hlength h =>
    have hdrop : (ds ++ rest).drop 4 = rest := List.drop_left' hlength
    refine (unescape_numeric (h.numeric?_four hlength rest) h.point_eq).trans ?_
    rw [hdrop]
  | @braced ds _ hne h =>
    have hinput : '\\' :: 'u' :: '\x7b' :: (ds ++ ['\x7d']) ++ rest
        = '\\' :: 'u' :: '\x7b' :: (ds ++ '\x7d' :: rest) := by
      simp
    have hdrop : (ds ++ '\x7d' :: rest).drop (ds.length + 1) = rest := by
      rw [← List.drop_drop, List.drop_left]
      rfl
    rw [hinput]
    refine (unescape_numeric (h.numeric?_braced hne rest) h.point_eq).trans ?_
    rw [show ds.length + 3 - 1 = ds.length + 1 + 1 from rfl, List.drop_succ_cons, hdrop]
  | self hline h =>
    obtain ⟨hsimple, hx, hu⟩ := simple_of_notMem h
    have hself := unescape_simple hx hu rest
    rw [hsimple] at hself
    exact hself

theorem SpellsAll.unescape_eq (h : SpellsAll delimiter spelled cs) :
    unescape spelled = .ok (.ofChars cs) := by
  induction h with
  | nil =>
    rw [unescape]
    rfl
  | cons h hs ih =>
    rw [unescape_spelled h, ih]
    rfl

/-- A literal spells its characters. -/
theorem IsLiteral.unquote_eq (h : IsLiteral s cs) : unquote s = .ok (.ofChars cs) := by
  cases h with
  | intro hdelimiter h =>
    rw [unquote, List.drop_succ_cons, List.drop_zero, List.dropLast_concat]
    exact h.unescape_eq

/-! ### The end of a literal -/

/-- A character that is neither a delimiter nor the start of an escape, nor the end of a line. -/
def IsPlain (delimiter c : Char) : Prop :=
  c ≠ delimiter ∧ c ≠ '\\' ∧ c ≠ '\n'

instance (delimiter c : Char) : Decidable (IsPlain delimiter c) :=
  inferInstanceAs (Decidable (_ ∧ _ ∧ _))

theorem isPlain_of_mem (hdelimiter : delimiter ∈ ['"', '\'']) :
    ∀ d ∈ '\x7b' :: '\x7d' :: hexDigits, IsPlain delimiter d := by
  have hall : (['"', '\''].all fun q =>
      ('\x7b' :: '\x7d' :: hexDigits).all fun d => decide (IsPlain q d)) = true := by
    decide
  intro d hd
  exact of_decide_eq_true (List.all_eq_true.1 (List.all_eq_true.1 hall _ hdelimiter) d hd)

theorem SpellsNumber.isPlain {ds : List Char} {n : Nat} (h : SpellsNumber ds n)
    (hdelimiter : delimiter ∈ ['"', '\'']) : ∀ d ∈ ds, IsPlain delimiter d := by
  intro d hd
  exact isPlain_of_mem hdelimiter d (by simp [h.digits hd])

theorem delimitedLength?_append {plain : List Char} {n : Nat}
    (hplain : ∀ c ∈ plain, IsPlain delimiter c)
    (h : Grammar.delimitedLength? delimiter false rest = some n) :
    Grammar.delimitedLength? delimiter false (plain ++ rest) = some (n + plain.length) := by
  induction plain with
  | nil => exact h
  | cons c plain ih =>
    obtain ⟨⟨hdelimiter, hback, hline⟩, hmore⟩ := List.forall_mem_cons.mp hplain
    simp [Grammar.delimitedLength?_cons hback, hdelimiter, hline, ih hmore, Nat.add_assoc]

/-- A spelled character is plain, or a backslash and a character before plain ones. -/
theorem Spells.plain_or_escape (h : Spells delimiter piece c)
    (hdelimiter : delimiter ∈ ['"', '\'']) :
    (piece = [c] ∧ IsPlain delimiter c) ∨ ∃ letter plain, piece = '\\' :: letter :: plain ∧
      letter ≠ '\n' ∧ ∀ c ∈ plain, IsPlain delimiter c := by
  cases h with
  | raw hquote hback hline => exact .inl ⟨rfl, hquote, hback, hline⟩
  | control h => exact .inr ⟨_, [], rfl, (simple_of_controls _ h).2.2.2, nofun⟩
  | two hlength h => exact .inr ⟨'x', _, rfl, by decide, h.isPlain hdelimiter⟩
  | four hlength h => exact .inr ⟨'u', _, rfl, by decide, h.isPlain hdelimiter⟩
  | @braced ds _ hne h =>
    have hbraces := isPlain_of_mem hdelimiter
    refine .inr ⟨'u', _, rfl, by decide, ?_⟩
    rintro d (- | ⟨-, hd⟩)
    · exact hbraces _ (by decide)
    · obtain hd | hd := List.mem_append.1 hd
      · exact h.isPlain hdelimiter d hd
      · exact hbraces d (by simp [List.mem_singleton.1 hd])
  | self hline h => exact .inr ⟨_, [], rfl, hline, nofun⟩

/-- A spelled character does not end a literal. -/
theorem delimitedLength?_spelled (h : Spells delimiter piece c)
    (hdelimiter : delimiter ∈ ['"', '\'']) {n : Nat}
    (hrest : Grammar.delimitedLength? delimiter false rest = some n) :
    Grammar.delimitedLength? delimiter false (piece ++ rest) = some (n + piece.length) := by
  obtain ⟨rfl, hplain⟩ | ⟨letter, plain, rfl, hline, hplain⟩ := h.plain_or_escape hdelimiter
  · refine delimitedLength?_append ?_ hrest
    simpa using hplain
  · have hmore := delimitedLength?_append hplain hrest
    simp [Grammar.delimitedLength?, hline, hmore, Nat.add_assoc]

theorem ne_backslash (hdelimiter : delimiter ∈ ['"', '\'']) : delimiter ≠ '\\' := by
  rintro rfl
  exact absurd hdelimiter (by decide)

theorem SpellsAll.delimitedLength?_eq (h : SpellsAll delimiter spelled cs)
    (hdelimiter : delimiter ∈ ['"', '\'']) :
    Grammar.delimitedLength? delimiter false (spelled ++ [delimiter])
      = some (spelled.length + 1) := by
  induction h with
  | nil => simp [Grammar.delimitedLength?_cons (ne_backslash hdelimiter)]
  | @cons piece spelled c cs h hs ih =>
    rw [List.append_assoc, delimitedLength?_spelled h hdelimiter ih, List.length_append,
      Nat.add_right_comm, Nat.add_comm piece.length]

/-- A literal is read to its end. -/
theorem IsLiteral.stringLength_eq (h : IsLiteral s cs) : Grammar.stringLength s = s.length := by
  cases h with
  | @intro delimiter spelled _ hdelimiter h =>
    have hlength := h.delimitedLength?_eq hdelimiter
    have hquote : delimiter = '"' ∨ delimiter = '\'' := by simpa using hdelimiter
    obtain rfl | rfl := hquote <;> simp [Grammar.stringLength, hlength]

theorem IsLiteral.ne_nil (h : IsLiteral s cs) : s ≠ [] := by
  cases h
  exact List.cons_ne_nil _ _

end DeclSchema.Escape
