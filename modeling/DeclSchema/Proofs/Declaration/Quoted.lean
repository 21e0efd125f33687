import DeclSchema.Declaration.Escape
import DeclSchema.Proofs.Grammar.Gap

/-!
# A string literal for every text

Every text is spelled by a string literal between double quotes: the quote, the backslash and the
line end are escaped by a backslash, and a surrogate by its four hexadecimal digits. All other
characters stand for themselves.

## Main definitions

* `Escape.quoted`: the string literal of a text

## Main results

* `Escape.unquote_quoted`: the literal of a text spells the text
* `Escape.stringLength_quoted`: the literal of a text is read to its end
-/

namespace DeclSchema.Escape

/-- The four hexadecimal digits of a number of sixteen bits. -/
def fourDigits (n : Nat) : List Char :=
  [n / 4096 % 16, n / 256 % 16, n / 16 % 16, n % 16].map Nat.digitChar

/-- A code point inside a string literal. -/
def escaped (p : CodePoint) : List Char :=
  match p.char? with
  | none => '\\' :: 'u' :: fourDigits p.value
  | some c =>
    if c = '"' then ['\\', '"']
    else if c = '\\' then ['\\', '\\']
    else if c = '\n' then ['\\', 'n']
    else [c]

/-- The string literal of a text. -/
def quoted (t : Text) : List Char :=
  '"' :: (t.flatMap escaped ++ ['"'])

/-! ### Hexadecimal digits -/

theorem digitChar_isHexDigit : ∀ k < 16, Grammar.isHexDigit k.digitChar = true := by
  decide

theorem digitValue_digitChar : ∀ k < 16, digitValue k.digitChar = k := by
  decide

theorem hexValue_fourDigits {n : Nat} (hn : n < 65536) : hexValue (fourDigits n) = n := by
  have hvalue (k : Nat) : digitValue (k % 16).digitChar = k % 16 :=
    digitValue_digitChar _ (Nat.mod_lt _ (by decide))
  simp only [hexValue, fourDigits, List.map_cons, List.map_nil, List.foldl_cons, List.foldl_nil,
    hvalue]
  omega

theorem numeric?_fourDigits (n : Nat) (rest : List Char) :
    numeric? ('u' :: (fourDigits n ++ rest)) = some (fourDigits n, 5) := by
  have hhex (k : Nat) : Grammar.isHexDigit (k % 16).digitChar = true :=
    digitChar_isHexDigit _ (Nat.mod_lt _ (by decide))
  have hall : (fourDigits n).all Grammar.isHexDigit = true := by simp [fourDigits, hhex]
  have htake : (fourDigits n ++ rest).take 4 = fourDigits n := List.take_left' rfl
  rw [numeric?]
  · simp only [htake, hall]
    rfl
  · -- A brace is no digit.
    intro more h
    have hbrace : (n / 4096 % 16).digitChar = '\x7b' := (List.cons.inj h).1
    exact absurd (hhex (n / 4096)) (by rw [hbrace]; decide)

/-! ### Code points in a literal -/

theorem ofChar_of_char? {p : CodePoint} {c : Char} (h : p.char? = some c) : .ofChar c = p := by
  have hs : p.isSurrogate = false := Bool.eq_false_iff.mpr fun hs => by
    simp [CodePoint.char?, hs] at h
  have hc : p.glyph = c := by rw [CodePoint.glyph, h, Option.getD_some]
  rw [← hc, CodePoint.ofChar_glyph hs]

/-- A code point is written as an escape that names it, as an escape with its number, or as it
is. -/
theorem escaped_cases (p : CodePoint) :
    (∃ c, c ≠ 'x' ∧ c ≠ 'u' ∧ c ≠ '\n' ∧ .ofChar (simple c) = p ∧ escaped p = ['\\', c]) ∨
    (p.value < 65536 ∧ escaped p = '\\' :: 'u' :: fourDigits p.value) ∨
    (∃ c, c ≠ '"' ∧ c ≠ '\\' ∧ c ≠ '\n' ∧ .ofChar c = p ∧ escaped p = [c]) := by
  cases hp : p.char? with
  | none =>
    have hs : p.isSurrogate = true := by simpa [CodePoint.char?] using hp
    simp only [CodePoint.isSurrogate, Bool.and_eq_true, decide_eq_true_eq] at hs
    exact .inr (.inl ⟨by omega, by simp [escaped, hp]⟩)
  | some c =>
    have hc := ofChar_of_char? hp
    by_cases hquote : c = '"'
    -- Only three characters are written with an escape that names them.
    · exact .inl ⟨'"', by decide, by decide, by decide, by rw [← hc, hquote]; rfl,
        by simp [escaped, hp, hquote]⟩
    by_cases hback : c = '\\'
    · exact .inl ⟨'\\', by decide, by decide, by decide, by rw [← hc, hback]; rfl,
        by simp [escaped, hp, hback]⟩
    by_cases hline : c = '\n'
    · exact .inl ⟨'n', by decide, by decide, by decide, by rw [← hc, hline]; rfl,
        by simp [escaped, hp, hline]⟩
    exact .inr (.inr ⟨c, hquote, hback, hline, hc, by simp [escaped, hp, hquote, hback, hline]⟩)

/-! ### The literal of a text -/

theorem numeric?_eq_none {c : Char} (hx : c ≠ 'x') (hu : c ≠ 'u') (rest : List Char) :
    numeric? (c :: rest) = none := by
  simp [numeric?, hx, hu]

theorem point_value (p : CodePoint) : point p.value = .ok p := by
  simp [point, CodePoint.ofNat?, p.value_lt]

theorem unescape_escaped (p : CodePoint) (rest : List Char) :
    unescape (escaped p ++ rest) = (p :: ·) <$> unescape rest := by
  obtain ⟨c, hx, hu, -, hc, hp⟩ | ⟨hlt, hp⟩ | ⟨c, -, hback, -, hc, hp⟩ := escaped_cases p
  · simp only [hp, List.cons_append, List.nil_append, unescape, numeric?_eq_none hx hu, hc]
    rfl
  · have hdrop : (fourDigits p.value ++ rest).drop 4 = rest := List.drop_left' rfl
    simp only [hp, List.cons_append, unescape, numeric?_fourDigits, hexValue_fourDigits hlt,
      point_value, hdrop]
    rfl
  · rw [hp, List.singleton_append, unescape, hc]
    · rfl
    · exact fun c' rest' h => absurd h hback

theorem unescape_flatMap (t : Text) : unescape (t.flatMap escaped) = .ok t := by
  induction t with
  | nil => rw [List.flatMap_nil, unescape]
  | cons p t ih =>
    rw [List.flatMap_cons, unescape_escaped, ih]
    rfl

/-- The literal of a text spells the text. -/
theorem unquote_quoted (t : Text) : unquote (quoted t) = .ok t := by
  rw [unquote, quoted, List.drop_succ_cons, List.drop_zero, List.dropLast_concat]
  exact unescape_flatMap t

theorem delimitedLength?_plain {c : Char} (hquote : c ≠ '"') (hback : c ≠ '\\') (hline : c ≠ '\n')
    {rest : List Char} {n : Nat} (h : Grammar.delimitedLength? '"' false rest = some n) :
    Grammar.delimitedLength? '"' false (c :: rest) = some (n + 1) := by
  simp [Grammar.delimitedLength?_cons hback, hquote, hline, h]

theorem digitChar_plain :
    ∀ k < 16, k.digitChar ≠ '"' ∧ k.digitChar ≠ '\\' ∧ k.digitChar ≠ '\n' := by
  decide

theorem delimitedLength?_escaped (p : CodePoint) {rest : List Char} {n : Nat}
    (h : Grammar.delimitedLength? '"' false rest = some n) :
    Grammar.delimitedLength? '"' false (escaped p ++ rest) = some (n + (escaped p).length) := by
  obtain ⟨c, -, -, hline, -, hp⟩ | ⟨-, hp⟩ | ⟨c, hquote, hback, hline, -, hp⟩ := escaped_cases p
  · simp [hp, Grammar.delimitedLength?, hline, h]
  -- No digit ends the string or starts an escape.
  · have hdigit (k : Nat) {rest : List Char} {n : Nat}
        (h : Grammar.delimitedLength? '"' false rest = some n) :
        Grammar.delimitedLength? '"' false ((k % 16).digitChar :: rest) = some (n + 1) := by
      obtain ⟨hquote, hback, hline⟩ := digitChar_plain (k % 16) (Nat.mod_lt _ (by decide))
      exact delimitedLength?_plain hquote hback hline h
    have hdigits := hdigit (p.value / 4096) (hdigit (p.value / 256)
      (hdigit (p.value / 16) (hdigit p.value h)))
    rw [hp]
    simp only [fourDigits, List.map_cons, List.map_nil, List.cons_append, List.nil_append,
      Grammar.delimitedLength?, hdigits]
    rfl
  · rw [hp]
    exact delimitedLength?_plain hquote hback hline h

theorem delimitedLength?_flatMap (t : Text) :
    Grammar.delimitedLength? '"' false (t.flatMap escaped ++ ['"'])
      = some ((t.flatMap escaped).length + 1) := by
  induction t with
  | nil => rfl
  | cons p t ih =>
    rw [List.flatMap_cons, List.append_assoc, delimitedLength?_escaped p ih, List.length_append,
      Nat.add_right_comm, Nat.add_comm (escaped p).length]

/-- The literal of a text is read to its end. -/
theorem stringLength_quoted (t : Text) :
    Grammar.stringLength (quoted t) = (quoted t).length := by
  simp only [Grammar.stringLength, quoted, delimitedLength?_flatMap]
  simp

end DeclSchema.Escape
