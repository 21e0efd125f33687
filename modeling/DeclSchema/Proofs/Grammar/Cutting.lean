import DeclSchema.Proofs.Grammar.Appending
import DeclSchema.Proofs.Grammar.Narrowing

/-!
# A part of the input before a semicolon

What is read of the input depends on what follows only up to the end of the next token. If the input
is cut off behind a lexeme and a semicolon put in the place of the rest, the same lexeme is read.

## Main results

* `lexeme?_of_append`: a lexeme does not depend on what is behind it
* `triviaLength_append_congr`: neither do the blanks and comments before it
* `Spots.append_congr`, `Spots.cut`: the next token where the rest is another one, or is cut off
-/

namespace DeclSchema.Grammar

section Lengths

variable {front back : List Char}

/-! ### Names and numbers -/

theorem takeWhile_of_append {p : Char → Bool} (back : List Char)
    (h : ((front ++ back).takeWhile p).length ≤ front.length) :
    front.takeWhile p = (front ++ back).takeWhile p := by
  rw [List.takeWhile_append] at h ⊢
  split at h
  · next hall =>
    have hfront := List.takeWhile_prefix p |>.eq_of_length hall
    have hback : back.takeWhile p = [] := by
      rw [List.length_append] at h
      exact List.length_eq_zero_iff.1 (by omega)
    rw [if_pos hall, hback, List.append_nil, hfront]
  · next hstop => rw [if_neg hstop]

theorem takeWhile_append_of_lt {p : Char → Bool} (back : List Char)
    (h : ((front ++ back).takeWhile p).length < front.length) (more : List Char) :
    (front ++ more).takeWhile p = (front ++ back).takeWhile p := by
  have hfront := takeWhile_of_append back (Nat.le_of_lt h)
  rw [← hfront] at h ⊢
  rw [List.takeWhile_append, if_neg (Nat.ne_of_lt h)]

theorem nameLength_of_append (h : nameLength (front ++ back) ≤ front.length) :
    nameLength front = nameLength (front ++ back) := by
  cases front with
  | nil => exact (Nat.le_zero.1 h).symm
  | cons c front =>
    simp only [List.cons_append, nameLength] at h ⊢
    split
    · next hc =>
      rw [if_pos hc, List.length_cons] at h
      rw [takeWhile_of_append back (by omega)]
    · rfl

/-- A number with a radix mark has a digit. -/
theorem radixLength_cases (s : List Char) : radixLength s = 0 ∨ 3 ≤ radixLength s := by
  unfold radixLength
  split
  · have hall : ∀ digits : List Char, (if digits.isEmpty then 0 else 2 + digits.length) = 0 ∨
        3 ≤ if digits.isEmpty then 0 else 2 + digits.length := by
      rintro (_ | ⟨c, digits⟩)
      · exact .inl rfl
      · right
        simp only [List.isEmpty_cons, Bool.false_eq_true, if_false, List.length_cons]
        omega
    exact hall _
  · exact .inl rfl

theorem radixLength_of_append (h : radixLength (front ++ back) ≤ front.length) :
    radixLength front = radixLength (front ++ back) := by
  match front with
  | [] => exact (Nat.le_zero.1 h).symm
  | [c] =>
    have hshort : radixLength ([c] ++ back) = 0 :=
      (radixLength_cases _).resolve_right (by simp only [List.length_cons, List.length_nil] at h; omega)
    rw [hshort]
    simp [radixLength]
  | c :: d :: front =>
    by_cases hc : c = '0'
    · subst hc
      simp only [List.cons_append, radixLength] at h ⊢
      -- The digits end before `back`, or the whole number would be longer than `front`.
      have hdigits : ∀ p : Char → Bool,
          (if ((front ++ back).takeWhile p).isEmpty then 0
            else 2 + ((front ++ back).takeWhile p).length) ≤ ('0' :: d :: front).length →
          front.takeWhile p = (front ++ back).takeWhile p := by
        intro p hp
        apply takeWhile_of_append back
        split at hp
        · next hempty => simp [List.isEmpty_iff.1 hempty]
        · simp only [List.length_cons] at hp
          omega
      split at h
      · next hmark => rw [if_pos hmark, if_pos hmark, hdigits _ h]
      · next hmark =>
        rw [if_neg hmark, if_neg hmark]
        split at h
        · next hmark => rw [if_pos hmark, if_pos hmark, hdigits _ h]
        · next hmark =>
          rw [if_neg hmark, if_neg hmark]
          split at h
          · next hmark => rw [if_pos hmark, if_pos hmark, hdigits _ h]
          · next hmark => rw [if_neg hmark, if_neg hmark]
    · simp [radixLength, hc]

theorem mantissaLength_of_append (h : mantissaLength (front ++ back) ≤ front.length) :
    mantissaLength front = mantissaLength (front ++ back) := by
  cases front with
  | nil => exact (Nat.le_zero.1 h).symm
  | cons c front =>
    by_cases hc : c = '.'
    · subst hc
      simp only [List.cons_append, mantissaLength] at h ⊢
      rw [takeWhile_of_append back]
      split at h
      · next hnone => simp [hnone]
      · simp only [List.length_cons] at h
        omega
    · simp only [List.cons_append, mantissaLength, Nat.add_sub_cancel_left, List.length_cons] at h ⊢
      split
      · next hdigit =>
        rw [if_pos hdigit] at h
        have hwhole : front.takeWhile (fun c => Unicode.isDigit c || c == '_')
            = (front ++ back).takeWhile (fun c => Unicode.isDigit c || c == '_') := by
          apply takeWhile_of_append back
          split at h <;> omega
        rw [← hwhole] at h ⊢
        rw [List.drop_append_of_le_length (List.takeWhile_sublist _).length_le] at h ⊢
        have hlong := (front.takeWhile_sublist fun c => Unicode.isDigit c || c == '_').length_le
        generalize hw : (front.takeWhile fun c => Unicode.isDigit c || c == '_').length = w
          at h hlong ⊢
        cases hdrop : front.drop w with
        | nil =>
          have hall : front.length ≤ w := List.drop_eq_nil_iff.1 hdrop
          rw [hdrop, List.nil_append] at h
          rw [List.nil_append]
          -- A dot behind the digits would count.
          split at h
          · omega
          · rfl
        | cons d fraction =>
          rw [hdrop, List.cons_append] at h
          rw [List.cons_append]
          have hlength := congrArg List.length hdrop
          rw [List.length_drop, List.length_cons] at hlength
          by_cases hd : d = '.'
          · subst hd
            simp only at h ⊢
            rw [takeWhile_of_append back (by omega)]
          · simp [hd]
      · rfl

/-- An exponent has a digit. -/
theorem exponentLength_cases (s : List Char) : exponentLength s = 0 ∨ 2 ≤ exponentLength s := by
  unfold exponentLength
  split
  · split
    · dsimp only
      split
      · exact .inl rfl
      · next hne =>
        have := Nat.pos_of_ne_zero hne
        right
        omega
    · exact .inl rfl
  · exact .inl rfl

theorem exponentLength_of_append (h : exponentLength (front ++ back) ≤ front.length) :
    exponentLength front = exponentLength (front ++ back) := by
  match front with
  | [] => exact (Nat.le_zero.1 h).symm
  | [c] =>
    have hnone : exponentLength [c] = 0 := by simp [exponentLength]
    rw [hnone]
    obtain hzero | hlong := exponentLength_cases ([c] ++ back)
    · exact hzero.symm
    · simp only [List.length_cons, List.length_nil] at h
      omega
  | c :: d :: front =>
    simp only [List.cons_append, exponentLength] at h ⊢
    split
    · next hc =>
      rw [if_pos hc] at h
      -- A sign takes one character at most, so it does not reach past `d`.
      have hsign : (if (d == '+' || d == '-') = true then 1 else 0) ≤ 1 := by
        split <;> simp
      generalize (if (d == '+' || d == '-') = true then 1 else 0) = sign at h hsign ⊢
      rw [← List.cons_append, List.drop_append_of_le_length (by simp only [List.length_cons]; omega)]
        at h ⊢
      rw [takeWhile_of_append back]
      split at h
      · next hzero => simp [hzero]
      · simp only [List.length_drop, List.length_cons] at h ⊢
        omega
    · rfl

theorem plainLength_of_append (h : plainLength (front ++ back) ≤ front.length) :
    plainLength front = plainLength (front ++ back) := by
  have hradix : radixLength front = radixLength (front ++ back) := by
    apply radixLength_of_append
    unfold plainLength at h
    split at h
    · next hzero => simp [hzero]
    · exact h
  unfold plainLength at h ⊢
  rw [hradix]
  split
  · next hzero =>
    simp only [hzero] at h
    -- Without a radix, the number is a mantissa and what may come behind it.
    have hmantissa : mantissaLength front = mantissaLength (front ++ back) := by
      apply mantissaLength_of_append
      split at h
      · next hzero => simp [hzero]
      · exact Nat.le_trans (Nat.le_add_right _ _) h
    rw [hmantissa]
    split
    · rfl
    · next hne =>
      have hle := mantissaLength_le front
      rw [hmantissa] at hle
      simp only at h
      rw [List.drop_append_of_le_length hle] at h ⊢
      rw [exponentLength_of_append]
      rw [List.length_drop]
      omega
  · rfl

theorem le_markedLength (n : Nat) (s : List Char) : n ≤ markedLength n s := by
  unfold markedLength
  split <;> omega

theorem numberLength_of_append (h : numberLength (front ++ back) ≤ front.length) :
    numberLength front = numberLength (front ++ back) := by
  rw [numberLength_eq] at h
  have hplain := plainLength_of_append (Nat.le_trans (le_markedLength _ _) h)
  rw [numberLength_eq, numberLength_eq, hplain]
  have hle := plainLength_le front
  rw [hplain] at hle
  generalize plainLength (front ++ back) = n at h hle ⊢
  rw [List.drop_append_of_le_length hle] at h ⊢
  cases n with
  | zero => rfl
  | succ n =>
    cases hdrop : front.drop (n + 1) with
    | nil =>
      have hall : front.length ≤ n + 1 := List.drop_eq_nil_iff.1 hdrop
      rw [hdrop, List.nil_append] at h
      rw [List.nil_append]
      -- The mark of a big integer would count.
      cases back with
      | nil => rfl
      | cons d rest =>
        have hd : d ≠ 'n' := by
          rintro rfl
          simp only [markedLength] at h
          omega
        simp [markedLength, hd]
    | cons c rest =>
      rw [List.cons_append]
      unfold markedLength
      by_cases hc : c = 'n'
      · subst hc
        rfl
      · simp [hc]

/-! ### Quoted texts -/

/-- Where a backslash takes the next character with it, that is one of the input too. -/
theorem delimitedLength?_backslash {delimiter : Char} {acrossLines : Bool} {n : Nat}
    (h : n ∈ delimitedLength? delimiter acrossLines ('\\' :: back)) (hd : delimiter ≠ '\\') :
    2 ≤ n := by
  cases back with
  | nil =>
    have hback : ('\\' == delimiter) = false := by simpa using hd.symm
    simp [delimitedLength?, hback] at h
  | cons c back =>
    rw [Option.mem_def, delimitedLength?] at h
    split at h
    · cases h
    · obtain ⟨m, -, rfl⟩ := Option.map_eq_some_iff.1 h
      exact Nat.le_add_left 2 m

theorem delimitedLength?_pos {delimiter : Char} {acrossLines : Bool} {s : List Char} {n : Nat}
    (h : delimitedLength? delimiter acrossLines s = some n) : 0 < n := by
  have hmap : ∀ {o : Option Nat} {m : Nat}, o.map (· + (m + 1)) = some n → 0 < n := by
    intro o m ho
    obtain ⟨l, -, rfl⟩ := Option.map_eq_some_iff.1 ho
    exact Nat.succ_pos _
  unfold delimitedLength? at h
  split at h
  · cases h
  · split at h
    · cases h
    · exact hmap h
  · split at h
    · cases h
      exact Nat.one_pos
    · split at h
      · cases h
      · exact hmap h

theorem delimitedLength?_of_append {delimiter : Char} {acrossLines : Bool} (hd : delimiter ≠ '\\')
    (h : ∀ n ∈ delimitedLength? delimiter acrossLines (front ++ back), n ≤ front.length) :
    delimitedLength? delimiter acrossLines front
      = delimitedLength? delimiter acrossLines (front ++ back) := by
  fun_induction delimitedLength? delimiter acrossLines front with
  | case1 =>
    -- No closing delimiter is found in no characters.
    cases hback : delimitedLength? delimiter acrossLines back with
    | none => rw [List.nil_append, hback]
    | some n =>
      obtain rfl := Nat.le_zero.1 (h n hback)
      exact absurd (delimitedLength?_pos hback) (Nat.lt_irrefl 0)
  | case2 c rest hc => simp [delimitedLength?, hc]
  | case3 c rest hc ih =>
    simp only [List.cons_append, delimitedLength?, hc] at h ⊢
    rw [ih fun n hn => by simpa using h (n + 2) (Option.map_eq_some_iff.2 ⟨n, hn, rfl⟩)]
    rfl
  | case4 c rest hne hc =>
    have hback : c ≠ '\\' := by
      rw [eq_of_beq hc]
      exact hd
    rw [List.cons_append, delimitedLength?_cons hback, if_pos hc]
  | case5 c rest hne hc hstop =>
    by_cases hback : c = '\\'
    · subst hback
      cases rest with
      | nil =>
        cases hlength : delimitedLength? delimiter acrossLines ('\\' :: back) with
        | none => rw [List.singleton_append, hlength]
        | some n =>
          have hlong := delimitedLength?_backslash hlength hd
          have hshort := h n hlength
          simp only [List.length_cons, List.length_nil] at hshort
          omega
      | cons d rest => exact absurd rfl (hne d rest rfl)
    · have hline : (c == '\n' && !acrossLines) = true := by simpa [hback] using hstop
      rw [List.cons_append, delimitedLength?_cons hback, if_neg hc, if_pos hline]
  | case6 c rest hne hc hstop ih =>
    simp only [Bool.or_eq_true, not_or, beq_iff_eq] at hstop
    rw [List.cons_append, delimitedLength?_cons hstop.1, if_neg hc, if_neg hstop.2] at h ⊢
    rw [ih fun n hn => by simpa using h (n + 1) (Option.map_eq_some_iff.2 ⟨n, hn, rfl⟩)]

theorem quotedLength_of_append {delimiter : Char} {acrossLines : Bool} (hd : delimiter ≠ '\\')
    (h : ((delimitedLength? delimiter acrossLines (front ++ back)).map (· + 1)).getD 0
      ≤ front.length + 1) :
    delimitedLength? delimiter acrossLines front
      = delimitedLength? delimiter acrossLines (front ++ back) := by
  refine delimitedLength?_of_append hd fun n hn => ?_
  rw [Option.mem_def.1 hn] at h
  exact Nat.le_of_succ_le_succ h

theorem stringLength_of_append (h : stringLength (front ++ back) ≤ front.length) :
    stringLength front = stringLength (front ++ back) := by
  cases front with
  | nil => exact (Nat.le_zero.1 h).symm
  | cons c front =>
    by_cases hdouble : c = '"'
    · subst hdouble
      simp only [List.cons_append, stringLength] at h ⊢
      rw [quotedLength_of_append (by decide) h]
    · by_cases hsingle : c = '\''
      · subst hsingle
        simp only [List.cons_append, stringLength] at h ⊢
        rw [quotedLength_of_append (by decide) h]
      · simp [stringLength, hdouble, hsingle]

theorem templateLength_of_append (h : templateLength (front ++ back) ≤ front.length) :
    templateLength front = templateLength (front ++ back) := by
  cases front with
  | nil => exact (Nat.le_zero.1 h).symm
  | cons c front =>
    by_cases hquote : c = '\x60'
    · subst hquote
      simp only [List.cons_append, templateLength] at h ⊢
      rw [quotedLength_of_append (by decide) h]
    · simp [templateLength, hquote]

/-! ### The next lexeme -/

/-- What a terminal takes does not depend on what is behind it. -/
theorem Terminal.lexemeLength_of_append {t : Terminal}
    (h : t.lexemeLength (front ++ back) ≤ front.length) :
    t.lexemeLength front = t.lexemeLength (front ++ back) := by
  cases t
  case name => exact nameLength_of_append h
  case string => exact stringLength_of_append h
  case number => exact numberLength_of_append h
  case template => exact templateLength_of_append h
  case other =>
    cases front with
    | nil => exact (Nat.le_zero.1 h).symm
    | cons c front => rfl
  all_goals
    simp only [lexemeLength] at h ⊢
    split at h
    · next hbegins =>
      have hfront := List.prefix_of_prefix_length_le (List.isPrefixOf_iff_prefix.1 hbegins)
        (List.prefix_append ..) h
      rw [if_pos (List.isPrefixOf_iff_prefix.2 hfront), if_pos hbegins]
    · next hbegins =>
      rw [if_neg hbegins, if_neg]
      intro hfront
      have := (List.isPrefixOf_iff_prefix.1 hfront).trans (List.prefix_append front back)
      exact hbegins (List.isPrefixOf_iff_prefix.2 this)

/-- The next lexeme does not depend on what is behind it. -/
theorem lexeme?_of_append {admits : Terminal → Bool} {t : Terminal} {n : Nat}
    (h : lexeme? admits (front ++ back) = some (t, n)) (hn : n ≤ front.length) :
    lexeme? admits front = some (t, n) := by
  obtain ⟨c, hc, rfl⟩ := lexeme?_eq_some_iff.1 h
  rw [List.take_append_of_le_length hn]
  refine lexeme?_eq_some_iff.2 ⟨c, ⟨hc.admitted, hc.isAbsorbed_eq, ?_, hc.ne_zero, ?_⟩, rfl⟩
  · rw [Terminal.lexemeLength_of_append (hc.length_eq ▸ hn), hc.length_eq]
  · intro u hu hadmits habsorbed
    have hzero := hc.before u hu hadmits habsorbed
    rw [Terminal.lexemeLength_of_append (hzero ▸ Nat.zero_le _), hzero]

/-! ### Blanks and comments -/

theorem two_le_commentEnd? {s : List Char} {n : Nat} (h : commentEnd? s = some n) : 2 ≤ n := by
  fun_induction commentEnd? s generalizing n with
  | case1 rest =>
    cases h
    exact Nat.le_refl 2
  | case2 c rest _ ih =>
    obtain ⟨m, hm, rfl⟩ := Option.map_eq_some_iff.1 h
    exact Nat.le_succ_of_le (ih hm)
  | case3 => cases h

/-- The end of a comment does not depend on what is behind it. -/
theorem commentEnd?_of_append {n : Nat} (h : commentEnd? (front ++ back) = some n)
    (hn : n ≤ front.length) : commentEnd? front = some n := by
  fun_induction commentEnd? front generalizing n with
  | case1 rest => exact h
  | case2 c rest hopen ih =>
    have hnext : ∀ rest', c = '*' → rest ++ back = '/' :: rest' → False := by
      intro rest' hc hrest
      cases rest with
      | nil =>
        -- The comment would end behind `front`.
        rw [List.cons_append, hc, hrest, commentEnd?] at h
        cases h
        simp at hn
      | cons d rest =>
        cases hrest
        exact hopen rest hc rfl
    rw [List.cons_append, commentEnd?.eq_2 _ _ hnext] at h
    obtain ⟨m, hm, rfl⟩ := Option.map_eq_some_iff.1 h
    rw [ih hm (Nat.le_of_succ_le_succ hn)]
    rfl
  | case3 =>
    have := two_le_commentEnd? h
    simp only [List.length_nil] at hn
    omega

/-- A semicolon ends no comment. -/
theorem commentEnd?_semicolon (h : commentEnd? front = none) :
    commentEnd? (front ++ [';']) = none := by
  fun_induction commentEnd? front with
  | case1 rest => cases h
  | case2 c rest hopen ih =>
    have hnext : ∀ rest', c = '*' → rest ++ [';'] = '/' :: rest' → False := by
      intro rest' hc hrest
      cases rest with
      | nil => exact absurd (List.cons.inj hrest).1 (by decide)
      | cons d rest =>
        cases hrest
        exact hopen rest hc rfl
    rw [List.cons_append, commentEnd?.eq_2 _ _ hnext, ih (Option.map_eq_none_iff.1 h)]
    rfl
  | case3 => rfl

/-- A comment that ends in `front` does not depend on what is behind `front`. -/
theorem commentLength_of_append {n : Nat} (h : commentLength (front ++ back) = n + 1)
    (hn : n + 1 < front.length) (more : List Char) : commentLength (front ++ more) = n + 1 := by
  match front with
  | [] => exact absurd hn (Nat.not_lt_zero _)
  | [c] =>
    simp only [List.length_cons, List.length_nil] at hn
    omega
  | c :: d :: front =>
    simp only [List.length_cons] at hn
    by_cases hc : c = '/'
    · subst hc
      by_cases hd : d = '/'
      · subst hd
        simp only [List.cons_append, commentLength] at h ⊢
        -- A line comment that ends in `front` ends at a line break there.
        rw [takeWhile_append_of_lt back (by omega) more, h]
      · by_cases hs : d = '*'
        · subst hs
          simp only [List.cons_append, commentLength] at h ⊢
          cases hend : commentEnd? (front ++ back) with
          | none => simp [hend] at h
          | some m =>
            have hm : m + 2 = n + 1 := by simpa [hend] using h
            have hfront := commentEnd?_of_append hend (by omega)
            rw [commentEnd?_append hfront, Option.map_some, Option.getD_some, hm]
        · simp [commentLength, hd, hs] at h
    · simp [commentLength, hc] at h

/-- Where no comment is, none is before a semicolon either. -/
theorem commentLength_semicolon (h : commentLength (front ++ back) = 0) :
    commentLength (front ++ [';']) = 0 := by
  match front with
  | [] => rfl
  | [c] => simp [commentLength]
  | c :: d :: front =>
    by_cases hc : c = '/'
    · subst hc
      by_cases hd : d = '/'
      · subst hd
        simp [commentLength] at h
      · by_cases hs : d = '*'
        · subst hs
          simp only [List.cons_append, commentLength] at h ⊢
          cases hend : commentEnd? front with
          | none => rw [commentEnd?_semicolon hend, Option.map_none, Option.getD_none]
          | some m =>
            rw [commentEnd?_append hend] at h
            cases h
        · simp [commentLength, hd, hs]
    · simp [commentLength, hc]

/-- What is skipped before the next token does not depend on what is behind that token, unless a
comment is opened there that is not closed. -/
theorem triviaLength_append_congr {more : List Char}
    (hmore : ∀ {front : List Char}, front ≠ [] → commentLength (front ++ back) = 0 →
      commentLength (front ++ more) = 0)
    (h : triviaLength (front ++ back) < front.length) :
    triviaLength (front ++ more) = triviaLength (front ++ back) := by
  -- A comment is skipped as a whole, so the induction is on the length.
  induction hn : front.length using Nat.strongRecOn generalizing front with
  | ind n ih =>
    have hne : front ≠ [] := List.length_pos_iff.1 (by omega)
    obtain ⟨c, rest, hcons, hc⟩ | ⟨m, hm⟩ | ⟨hblank, hcomment⟩ := triviaLength_cases (front ++ back)
    · cases front with
      | nil => exact absurd rfl hne
      | cons d front =>
        obtain ⟨rfl, rfl⟩ := List.cons.inj hcons
        rw [List.cons_append, triviaLength_cons_blank hc, List.length_cons] at h
        rw [List.length_cons] at hn
        rw [List.cons_append, List.cons_append, triviaLength_cons_blank hc,
          triviaLength_cons_blank hc, ih front.length (by omega) (by omega) rfl]
    · rw [triviaLength_comment hm] at h
      have hdrop : ∀ more : List Char, (front ++ more).drop (m + 1) = front.drop (m + 1) ++ more :=
        fun _ => List.drop_append_of_le_length (by omega)
      rw [hdrop] at h
      have hsame := commentLength_of_append hm (by omega) more
      rw [triviaLength_comment hm, triviaLength_comment hsame, hdrop, hdrop,
        ih (front.drop (m + 1)).length (by rw [List.length_drop]; omega)
          (by rw [List.length_drop]; omega) rfl]
    · rw [triviaLength_of_solid hblank hcomment]
      refine triviaLength_of_solid ?_ (hmore hne hcomment)
      cases front with
      | nil => exact absurd rfl hne
      | cons c front => exact hblank

end Lengths

/-! ### The next token -/

section Spots

variable {admits admits' : Terminal → Bool} {input front back rest : List Char} {k : Token}

theorem isGap_semicolon : IsGap [';'] := by
  rintro c ⟨⟩
  decide

/-- The next token does not depend on what is behind it, if that ends all lexemes. -/
theorem Spots.append_congr {more : List Char} (hgap : IsGap more)
    (hmore : ∀ {front : List Char}, front ≠ [] → commentLength (front ++ back) = 0 →
      commentLength (front ++ more) = 0)
    (h : Spots admits (front ++ back) k (rest ++ back)) :
    Spots admits (front ++ more) k (rest ++ more) := by
  -- The whole token lies in `front`.
  have hfront : front = k.trivia ++ (k.lexeme ++ rest) := by
    have hsplit := h.input_eq
    rw [← List.append_assoc k.lexeme, ← List.append_assoc] at hsplit
    exact List.append_cancel_right hsplit
  have hlength := congrArg List.length hfront
  have hpos := List.length_pos_iff.2 h.nonempty
  simp only [List.length_append] at hlength
  refine ⟨?_, ?_, h.nonempty, ?_⟩
  · rw [hfront]
    simp only [List.append_assoc]
  · rw [triviaLength_append_congr hmore (by rw [h.triviaLength_eq]; omega), h.triviaLength_eq]
  · have hlexeme := h.lexeme?_eq
    rw [← List.append_assoc] at hlexeme ⊢
    refine lexeme?_append_gap hgap (lexeme?_of_append hlexeme ?_)
    rw [List.length_append]
    exact Nat.le_add_right _ _

/-- The next token is the same where a semicolon stands in the place of what is behind it. -/
theorem Spots.cut (h : Spots admits (front ++ back) k (rest ++ back)) :
    Spots admits (front ++ [';']) k (rest ++ [';']) :=
  h.append_congr isGap_semicolon fun _ => commentLength_semicolon

/-- A semicolon may be admitted besides: it is admitted already where one comes next. -/
theorem Spots.addsNothing (h : Spots admits input k rest)
    (hmore : ∀ v, admits' v = true → admits v = true ∨ v = .semicolon) :
    AddsNothing admits admits' (k.lexeme ++ rest) k.lexeme := by
  intro v hv
  obtain hadmits | rfl := hmore v hv
  · exact .inl hadmits
  · by_cases hzero : Terminal.semicolon.lexemeLength (k.lexeme ++ rest) = 0
    · exact .inr (.inl hzero)
    · obtain ⟨back, hback⟩ := Terminal.spelling_isPrefix (t := .semicolon) (by decide) hzero
      obtain ⟨u, hadmits, hlength, hne, -⟩ := exists_of_lexeme? h.lexeme?_eq
      have hu : u = .semicolon := Decidable.by_contra fun hu => by
        rw [← hback, lexemeLength_closedMark (by decide) hu] at hlength
        exact hne hlength.symm
      exact .inl (hu ▸ hadmits)

end Spots

end DeclSchema.Grammar
