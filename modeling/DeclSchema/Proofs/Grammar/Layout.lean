import DeclSchema.Proofs.Grammar.Closing

/-!
# Blanks between tokens

Blanks that are put between two tokens change what stands before the second one, and nothing else.
The token before them is read from its own characters, whatever follows it; and what is skipped
before a token may hold more blanks anywhere but inside a comment. A line comment before them takes
those that stand on its line.

## Main definitions

* `SkipsTo`: whole blanks and comments up to a place
* `IsBoundary`: a place between two tokens of a source
* `Inserted`: the input that is left, without the blanks and with them
* `Token.bare`, `Tree.bare`: without what stands before the tokens

## Main results

* `Spots.insert_before`, `Spots.insert_behind`: the next token with more blanks before or behind it
* `Derives.insert`: what is read of an input with more blanks
* `exists_read_insert`: a source is read as the same tree with more blanks
-/

namespace DeclSchema.Grammar

open Terminal Grammar.Tree

variable {front back gap ws : List Char}

/-! ### Comments before blanks -/

theorem triviaLength_blanks (hws : ∀ c ∈ ws, isBlank c = true) (back : List Char) :
    triviaLength (ws ++ back) = ws.length + triviaLength back := by
  induction ws with
  | nil => rw [List.nil_append, List.length_nil, Nat.zero_add]
  | cons b ws ih =>
    obtain ⟨hb, hws⟩ := List.forall_mem_cons.1 hws
    rw [List.cons_append, triviaLength_cons_blank hb, ih hws, List.length_cons]
    omega

theorem ne_of_isBlank {c : Char} (hc : isBlank c = true) : c ≠ '/' ∧ c ≠ '*' := by
  constructor <;> rintro rfl <;> exact absurd hc (by decide)

theorem commentEnd?_cons {c : Char} {rest : List Char} (h : ∀ rest', c = '*' → rest ≠ '/' :: rest') :
    commentEnd? (c :: rest) = (commentEnd? rest).map (· + 1) :=
  commentEnd?.eq_2 _ _ fun rest' hc hrest => h rest' hc hrest

/-- Blanks do not close a comment that is left open. -/
theorem commentEnd?_insert (hws : ∀ c ∈ ws, isBlank c = true)
    (h : commentEnd? (front ++ back) = none) : commentEnd? (front ++ (ws ++ back)) = none := by
  -- Behind `front`, blanks are in front of what has no end of a comment.
  have hblanks (hback : commentEnd? back = none) : commentEnd? (ws ++ back) = none := by
    clear h
    induction ws with
    | nil => exact hback
    | cons b ws ih =>
      obtain ⟨hb, hws⟩ := List.forall_mem_cons.1 hws
      rw [List.cons_append, commentEnd?_cons fun _ hstar => absurd hstar (ne_of_isBlank hb).2,
        ih hws, Option.map_none]
  induction front with
  | nil => exact hblanks h
  | cons c front ih =>
    have hopen : ∀ rest', c = '*' → front ++ back ≠ '/' :: rest' := by
      rintro rest' rfl hrest
      rw [List.cons_append, hrest, commentEnd?] at h
      cases h
    rw [List.cons_append, commentEnd?_cons hopen, Option.map_eq_none_iff] at h
    rw [List.cons_append, commentEnd?_cons, ih h, Option.map_none]
    -- A star that was not before a slash is not before one now: a blank is none.
    rintro rest' hstar hrest
    cases front with
    | cons d front =>
      obtain ⟨rfl, -⟩ := List.cons.inj hrest
      exact hopen _ hstar rfl
    | nil =>
      cases ws with
      | nil => exact hopen rest' hstar hrest
      | cons b ws =>
        obtain ⟨rfl, -⟩ := List.cons.inj hrest
        exact (ne_of_isBlank (hws '/' List.mem_cons_self)).1 rfl

/-- Where no comment is, none is with more blanks behind its first character. -/
theorem commentLength_insert (hws : ∀ c ∈ ws, isBlank c = true) (hne : front ≠ [])
    (h : commentLength (front ++ back) = 0) : commentLength (front ++ (ws ++ back)) = 0 := by
  match front, hne with
  | [c], _ =>
    cases ws with
    | nil => exact h
    | cons b ws =>
      have hb := ne_of_isBlank (hws b List.mem_cons_self)
      simp [commentLength, hb.1, hb.2]
  -- The first two characters are those of `front`, whatever is behind.
  | c :: d :: front, _ =>
    by_cases hc : c = '/'
    · subst hc
      by_cases hd : d = '/'
      · subst hd
        simp [commentLength] at h
      · by_cases hs : d = '*'
        · subst hs
          simp only [List.cons_append, commentLength] at h ⊢
          cases hend : commentEnd? (front ++ back) with
          | none => rw [commentEnd?_insert hws hend, Option.map_none, Option.getD_none]
          | some m => simp [hend] at h
        · simp [commentLength, hd, hs]
    · simp [commentLength, hc]

/-! ### What is skipped up to a place -/

/-- Whole blanks and comments stand before a place, behind which `back` follows. -/
inductive SkipsTo (back : List Char) : List Char → Prop where
  | here : SkipsTo back []
  | blank {c : Char} {gap : List Char} (hc : isBlank c = true) (h : SkipsTo back gap) :
      SkipsTo back (c :: gap)
  | comment {text gap : List Char} (hne : text ≠ [])
      (htext : commentLength (text ++ (gap ++ back)) = text.length) (h : SkipsTo back gap) :
      SkipsTo back (text ++ gap)

theorem triviaLength_comment_append {text more : List Char} (hne : text ≠ [])
    (htext : commentLength (text ++ more) = text.length) :
    triviaLength (text ++ more) = text.length + triviaLength more := by
  obtain ⟨n, hn⟩ : ∃ n, text.length = n + 1 :=
    Nat.exists_eq_add_one.2 (List.length_pos_iff.2 hne)
  rw [triviaLength_comment (htext.trans hn), ← hn, List.drop_left]

theorem SkipsTo.triviaLength_append (h : SkipsTo back gap) :
    triviaLength (gap ++ back) = gap.length + triviaLength back := by
  induction h with
  | here => rw [List.nil_append, List.length_nil, Nat.zero_add]
  | blank hc _ ih =>
    rw [List.cons_append, triviaLength_cons_blank hc, ih, List.length_cons]
    omega
  | comment hne htext _ ih =>
    rw [List.append_assoc, triviaLength_comment_append hne htext, ih, List.length_append]
    omega

/-- All that is skipped before a token goes up to that token. -/
theorem skipsTo_triviaLength (input : List Char) :
    SkipsTo (input.drop (triviaLength input)) (input.take (triviaLength input)) := by
  -- A comment is skipped as a whole, so the induction is on the length.
  induction hn : input.length using Nat.strongRecOn generalizing input with
  | ind n ih =>
    obtain ⟨c, rest, rfl, hc⟩ | ⟨m, hm⟩ | ⟨hblank, hcomment⟩ := triviaLength_cases input
    · rw [triviaLength_cons_blank hc, List.drop_succ_cons, List.take_succ_cons]
      rw [List.length_cons] at hn
      exact .blank hc (ih rest.length (by omega) rest rfl)
    · have hle := commentLength_le input
      have hrest := ih (input.drop (m + 1)).length (by rw [List.length_drop]; omega) _ rfl
      rw [List.drop_drop] at hrest
      have hlong : (input.take (m + 1)).length = m + 1 := List.length_take_of_le (by omega)
      have hall : input.take (m + 1) ++ ((input.drop (m + 1)).take (triviaLength (input.drop (m + 1)))
          ++ (input.drop (m + 1)).drop (triviaLength (input.drop (m + 1)))) = input := by
        rw [List.take_append_drop, List.take_append_drop]
      rw [List.drop_drop] at hall
      rw [triviaLength_comment hm, List.take_add]
      refine .comment (List.ne_nil_of_length_eq_add_one hlong) ?_ hrest
      rw [hall, hm, hlong]
    · rw [triviaLength_of_solid hblank hcomment]
      exact .here

/-! ### More blanks among those that are skipped -/

/-- A line comment goes up to the end of its line. -/
theorem commentLength_line {body : List Char} (hbody : '\n' ∉ body)
    (hback : ∀ c ∈ back.head?, c = '\n') :
    commentLength ('/' :: '/' :: (body ++ back)) = body.length + 2 := by
  have hstop : (body ++ back).takeWhile (· != '\n') = body := by
    rw [List.takeWhile_append_of_pos (by simpa using fun c hc => ne_of_mem_of_not_mem hc hbody)]
    cases back with
    | nil => simp
    | cons c back => simp [hback c rfl]
  simp only [commentLength, hstop]
  omega

/-- Blanks behind a line comment are skipped too, those on its line as part of it. -/
theorem triviaLength_line_insert (hws : ∀ c ∈ ws, isBlank c = true) {body : List Char}
    (hbody : '\n' ∉ body) (hback : ∀ c ∈ back.head?, c = '\n') :
    triviaLength ('/' :: '/' :: (body ++ (ws ++ back)))
      = body.length + 2 + (ws.length + triviaLength back) := by
  have hcomment {more : List Char} (hmore : ∀ c ∈ more.head?, c = '\n') :
      triviaLength ('/' :: '/' :: (body ++ more)) = body.length + 2 + triviaLength more :=
    @triviaLength_comment_append ('/' :: '/' :: body) _ (List.cons_ne_nil _ _)
      (commentLength_line hbody hmore)
  induction ws generalizing body with
  | nil =>
    rw [List.nil_append, hcomment hback, List.length_nil, Nat.zero_add]
  | cons b ws ih =>
    obtain ⟨hb, hws'⟩ := List.forall_mem_cons.1 hws
    by_cases hline : b = '\n'
    · have hhead : ∀ c ∈ (b :: ws ++ back).head?, c = '\n' := by
        rintro c ⟨⟩
        exact hline
      rw [hcomment hhead, triviaLength_blanks hws]
    · -- The blank stands on the line of the comment.
      have hbody' : '\n' ∉ body ++ [b] := by
        rw [List.mem_append, List.mem_singleton]
        exact fun h => h.elim hbody fun heq => hline heq.symm
      have hrest := ih hws' hbody' fun hmore =>
        @triviaLength_comment_append ('/' :: '/' :: (body ++ [b])) _ (List.cons_ne_nil _ _)
          (commentLength_line hbody' hmore)
      simp only [List.append_assoc, List.singleton_append, List.length_append, List.length_cons,
        List.length_nil] at hrest
      rw [List.cons_append, hrest, List.length_cons]
      omega

/-- A line comment ends where a line break comes next. -/
theorem line_of_commentLength {body more : List Char}
    (h : commentLength ('/' :: '/' :: (body ++ more)) = body.length + 2) :
    '\n' ∉ body ∧ ∀ c ∈ more.head?, c = '\n' := by
  have htake : ((body ++ more).takeWhile (· != '\n')).length = body.length := by
    simp only [commentLength] at h
    omega
  have hbody : (body ++ more).takeWhile (· != '\n') = body := by
    have hbegins := List.takeWhile_prefix (l := body ++ more) (· != '\n')
    exact (List.prefix_of_prefix_length_le hbegins (List.prefix_append ..)
      (Nat.le_of_eq htake)).eq_of_length htake
  have hmem : '\n' ∉ body := fun hmem => by
    rw [← hbody] at hmem
    simpa using List.mem_takeWhile_imp hmem
  refine ⟨hmem, fun c hc => ?_⟩
  rw [List.takeWhile_append_of_pos (by simpa using fun c hc => ne_of_mem_of_not_mem hc hmem),
    List.append_right_eq_self] at hbody
  cases more with
  | nil => cases hc
  | cons e more =>
    cases hc
    simpa [List.takeWhile_cons] using hbody

/-- A comment that is closed does not depend on what is behind it. -/
theorem commentLength_closed {body more : List Char}
    (h : commentLength ('/' :: '*' :: (body ++ more)) = body.length + 2) (more' : List Char) :
    commentLength ('/' :: '*' :: (body ++ more')) = body.length + 2 := by
  simp only [commentLength] at h ⊢
  cases hend : commentEnd? (body ++ more) with
  | none => simp [hend] at h
  | some m =>
    obtain rfl : m = body.length := by simpa [hend] using h
    rw [commentEnd?_append (commentEnd?_of_append hend (Nat.le_refl _))]
    rfl

/-- A comment is a line comment up to the end of its line, or it is closed. -/
theorem commentLength_cases {text more : List Char} (hne : text ≠ [])
    (h : commentLength (text ++ more) = text.length) :
    (∃ body, text = '/' :: '/' :: body ∧ '\n' ∉ body ∧ ∀ c ∈ more.head?, c = '\n') ∨
      ∀ more', commentLength (text ++ more') = text.length := by
  match text, hne with
  | [c], _ =>
    -- No comment has one character.
    have hlong : commentLength ([c] ++ more) ≠ 1 := by
      unfold commentLength
      split
      · omega
      · next rest _ =>
        cases hend : commentEnd? rest with
        | none => simp
        | some n => simp
      · exact Nat.zero_ne_one
    exact absurd h hlong
  | c :: d :: body, _ =>
    by_cases hc : c = '/'
    · subst hc
      by_cases hd : d = '/'
      · subst hd
        exact .inl ⟨body, rfl, line_of_commentLength h⟩
      · by_cases hs : d = '*'
        · subst hs
          exact .inr (commentLength_closed h)
        · simp [commentLength, hd, hs] at h
    · simp [commentLength, hc] at h

/-- More blanks among those that are skipped are skipped too. -/
theorem SkipsTo.triviaLength_insert (hws : ∀ c ∈ ws, isBlank c = true) (h : SkipsTo back gap) :
    triviaLength (gap ++ (ws ++ back)) = gap.length + (ws.length + triviaLength back) := by
  induction h with
  | here => rw [List.nil_append, List.length_nil, Nat.zero_add, triviaLength_blanks hws]
  | blank hc _ ih =>
    rw [List.cons_append, triviaLength_cons_blank hc, ih, List.length_cons]
    omega
  | @comment text gap hne htext h ih =>
    rw [List.append_assoc, List.length_append]
    -- A line comment takes the blanks up to the next line break; a closed one ends before them.
    obtain ⟨body, rfl, hbody, hline⟩ | hclosed := commentLength_cases hne htext
    · cases gap with
      | nil =>
        rw [List.nil_append] at hline
        rw [List.cons_append, List.cons_append, List.nil_append,
          triviaLength_line_insert hws hbody hline, List.length_nil, List.length_cons,
          List.length_cons]
      | cons c gap =>
        obtain rfl := hline c rfl
        have hsame : commentLength ('/' :: '/' :: body ++ ('\n' :: gap ++ (ws ++ back)))
            = ('/' :: '/' :: body).length :=
          commentLength_line hbody (by rintro c ⟨⟩; rfl)
        rw [triviaLength_comment_append hne hsame, ih]
        omega
    · rw [triviaLength_comment_append hne (hclosed _), ih]
      omega

/-! ### The next token -/

section Spots

variable {admits : Terminal → Bool} {symbols outer : List Symbol} {input input' next rest u : List Char}
  {k : Token} {ks ks' : List Token}

theorem isGap_blanks (hws : ∀ c ∈ ws, isBlank c = true) (hne : ws ≠ []) (back : List Char) :
    IsGap (ws ++ back) := by
  cases ws with
  | nil => exact absurd rfl hne
  | cons b ws =>
    rintro c ⟨⟩
    rw [goesOn, isOther_of_isBlank (hws b List.mem_cons_self), Bool.false_and]

/-- More blanks before the next token are skipped with the others. -/
theorem Spots.insert_before (hws : ∀ c ∈ ws, isBlank c = true) (hgap : SkipsTo back gap)
    (h : Spots admits (gap ++ back) k rest) :
    ∃ trivia, Spots admits (gap ++ (ws ++ back)) { k with trivia := trivia } rest := by
  have hlength := h.triviaLength_eq
  rw [hgap.triviaLength_append] at hlength
  obtain ⟨more, htrivia, hback⟩ :
      ∃ more, k.trivia = gap ++ more ∧ back = more ++ (k.lexeme ++ rest) := by
    obtain ⟨more, htrivia, hback⟩ | ⟨more, hgap', hrest⟩ := List.append_eq_append_iff.1 h.input_eq
    · exact ⟨more, htrivia, hback⟩
    · -- The place lies before the lexeme.
      have hshort := congrArg List.length hgap'
      rw [List.length_append] at hshort
      obtain rfl : more = [] := List.length_eq_zero_iff.1 (by omega)
      rw [List.append_nil] at hgap'
      exact ⟨[], by rw [hgap', List.append_nil], hrest.symm⟩
  refine ⟨gap ++ (ws ++ more), ?_, ?_, h.nonempty, h.lexeme?_eq⟩
  · simp only [hback, List.append_assoc]
  · rw [htrivia, List.length_append] at hlength
    rw [hgap.triviaLength_insert hws, List.length_append, List.length_append]
    omega

/-- More blanks behind the next token do not change it. -/
theorem Spots.insert_behind (hws : ∀ c ∈ ws, isBlank c = true)
    (h : Spots admits (front ++ back) k (u ++ back)) :
    Spots admits (front ++ (ws ++ back)) k (u ++ (ws ++ back)) := by
  by_cases hne : ws = []
  · rwa [hne, List.nil_append]
  · exact h.append_congr (isGap_blanks hws hne back) fun hfront => commentLength_insert hws hfront

/-- The input that is left without the blanks and with them, where `ks` are the tokens to come: the
place where they stand is reached, or it lies behind the next token, or before what is left. -/
inductive Inserted (ws : List Char) : List Token → List Char → List Char → Prop where
  | before {ks : List Token} {gap back : List Char} (h : SkipsTo back gap) :
      Inserted ws ks (gap ++ back) (gap ++ (ws ++ back))
  | behind {k : Token} {ks : List Token} {input input' : List Char}
      (h : Inserted ws ks input input') : Inserted ws (k :: ks) (k.source ++ input) (k.source ++ input')
  | past {ks : List Token} {input : List Char} : Inserted ws ks input input

theorem Inserted.exists_eq (h : Inserted ws ks input input') :
    input' = input ∨ ∃ front back, input = front ++ back ∧ input' = front ++ (ws ++ back) := by
  induction h with
  | before => exact .inr ⟨_, _, rfl, rfl⟩
  | @behind k _ _ _ _ ih =>
    obtain rfl | ⟨front, back, rfl, rfl⟩ := ih
    · exact .inl rfl
    · exact .inr ⟨k.source ++ front, back, by simp only [List.append_assoc],
        by simp only [List.append_assoc]⟩
  | past => exact .inl rfl

theorem Inserted.of_source (ks : List Token) (h : SkipsTo back gap) :
    Inserted ws (ks ++ ks') (source ks ++ (gap ++ back)) (source ks ++ (gap ++ (ws ++ back))) := by
  induction ks with
  | nil => exact .before h
  | cons k ks ih =>
    simp only [source, List.flatMap_cons, List.append_assoc]
    exact .behind ih

theorem AtEnd.insert (hws : ∀ c ∈ ws, isBlank c = true) (hend : AtEnd input)
    (h : Inserted ws [] input input') : AtEnd input' := by
  cases h with
  | before hgap =>
    rw [AtEnd, hgap.triviaLength_append, List.length_append] at hend
    rw [AtEnd, hgap.triviaLength_insert hws, List.length_append, List.length_append]
    omega
  | past => exact hend

/-- A token without what stands before it. -/
def Token.bare (k : Token) : Token :=
  { k with trivia := [] }

/-- What stands before the next token are whole blanks and comments. -/
theorem Sees.skipsTo (hk : Sees symbols input k rest) : SkipsTo (k.lexeme ++ rest) k.trivia := by
  have hskips := skipsTo_triviaLength input
  rwa [hk.triviaLength_eq, hk.input_eq, List.drop_left, List.take_left] at hskips

/-- Behind the blanks and comments before a token there are no more of them. -/
theorem Sees.triviaLength_lexeme (hk : Sees symbols input k rest) :
    triviaLength (k.lexeme ++ rest) = 0 := by
  have hlength := hk.skipsTo.triviaLength_append
  rw [← hk.input_eq, hk.triviaLength_eq] at hlength
  omega

/-- With more blanks, the next token is the same but for what stands before it. -/
theorem Sees.insert (hws : ∀ c ∈ ws, isBlank c = true) (hk : Sees symbols input k next)
    (h : Inserted ws ks input input') (hks : ∀ k' ∈ ks.head?, k' = k) :
    ∃ k' next', Sees symbols input' k' next' ∧ k'.bare = k.bare ∧ Inserted ws ks.tail next next' := by
  cases h with
  | before hgap =>
    obtain ⟨trivia, hspots⟩ := hk.spots.insert_before hws hgap
    exact ⟨_, next, hspots.sees hk.expected, rfl, .past⟩
  | @behind k' ks input input' h =>
    obtain rfl := hks k' rfl
    have hnext := hk.input_eq
    rw [Token.source, List.append_assoc, List.append_cancel_left_eq,
      List.append_cancel_left_eq] at hnext
    subst hnext
    refine ⟨k', input', ?_, rfl, h⟩
    -- The blanks are behind this token: it is not changed, and they stay in what is left.
    obtain rfl | ⟨front, back, rfl, rfl⟩ := h.exists_eq
    · exact hk
    · rw [← List.append_assoc] at hk ⊢
      exact (hk.spots.insert_behind hws).sees hk.expected
  | past => exact ⟨k, next, hk, rfl, .past⟩

/-- The first of the tokens is the next one where `symbols` are still to be read. -/
def ComesNext (symbols : List Symbol) (input : List Char) (ks : List Token) : Prop :=
  ∀ k ∈ ks.head?, ∃ next, Spots (expects symbols) input k next

/-- The next token is the first of the tokens. -/
theorem ComesNext.eq_of_spots (h : ComesNext symbols input ks)
    (hspots : Spots (expects symbols) input k next) : ∀ k' ∈ ks.head?, k' = k := by
  intro k' hk'
  obtain ⟨next', hspots'⟩ := h k' hk'
  exact (hspots'.eq hspots).1

/-- At the end of the input no token comes next. -/
theorem ComesNext.eq_nil (h : ComesNext symbols input ks) (hend : AtEnd input) : ks = [] := by
  cases ks with
  | nil => rfl
  | cons k ks =>
    obtain ⟨next, hspots⟩ := h k rfl
    exact absurd hend hspots.not_atEnd

/-- What comes next is the first token that is read, or else the one that comes behind. -/
theorem Derives.comesNext {ts : List Tree} (h : Derives (.list symbols) outer input ts rest)
    (hts : tokensOf ts = ks) (hks' : ComesNext outer rest ks') :
    ComesNext (symbols ++ outer) input (ks ++ ks') := by
  subst hts
  induction symbols generalizing input ts with
  | nil =>
    cases h
    exact hks'
  | cons s symbols ih =>
    cases h with
    | tok hk _ =>
      rintro k ⟨⟩
      exact ⟨_, ClosesAs.spots_of_sees hk⟩
    | start hk hn ht _ =>
      obtain ⟨ks₁, hks₁, -⟩ := ht.exists_tokens
      rw [tokensOf, tokensOf, List.append_nil] at hks₁
      rw [tokensOf, hks₁]
      rintro k ⟨⟩
      exact ⟨_, ClosesAs.spots_of_sees hk⟩
    -- What is left out has no token, so the first token is that of the other symbols.
    | skip hk hn h =>
      intro k' hk'
      obtain rfl := (ih h).eq_of_spots (ClosesAs.spots_of_skip hk hn) k' hk'
      exact ⟨_, ClosesAs.spots_of_sees hk⟩
    | finish hend _ h =>
      intro k' hk'
      have hnone := (ih h).eq_nil hend
      simp only [tokensOf, Tree.tokens, List.nil_append] at hk'
      rw [hnone] at hk'
      cases hk'

end Spots

/-! ### Trees -/

namespace Tree

mutual

/-- A tree without what stands before its tokens. -/
def bare : Tree → Tree
  | leaf k => leaf k.bare
  | node n ts => node n (bareOf ts)

def bareOf : List Tree → List Tree
  | [] => []
  | t :: ts => bare t :: bareOf ts

end

theorem bare_eq_leaf_iff {t : Tree} {k : Token} :
    t.bare = .leaf k ↔ ∃ l : Token, t = .leaf l ∧ l.bare = k := by
  constructor
  · intro h
    cases t with
    | leaf l => exact ⟨l, rfl, leaf.inj h⟩
    | node n ts => cases h
  · rintro ⟨l, rfl, rfl⟩
    rfl

theorem bare_eq_node_iff {t : Tree} {n : Nonterminal} {us : List Tree} :
    t.bare = .node n us ↔ ∃ ts, t = .node n ts ∧ bareOf ts = us := by
  constructor
  · intro h
    cases t with
    | leaf l => cases h
    | node m ts =>
      obtain ⟨rfl, hts⟩ := node.inj h
      exact ⟨ts, rfl, hts⟩
  · rintro ⟨ts, rfl, rfl⟩
    rfl

theorem bareOf_eq_cons_iff {ts us : List Tree} {u : Tree} :
    bareOf ts = u :: us ↔ ∃ t rest, ts = t :: rest ∧ t.bare = u ∧ bareOf rest = us := by
  constructor
  · intro h
    cases ts with
    | nil => cases h
    | cons t rest => exact ⟨t, rest, rfl, List.cons.inj h⟩
  · rintro ⟨t, rest, rfl, rfl, rfl⟩
    rfl

theorem bareOf_eq_nil_iff {ts : List Tree} : bareOf ts = [] ↔ ts = [] := by
  constructor
  · intro h
    cases ts with
    | nil => rfl
    | cons t rest => cases h
  · rintro rfl
    rfl

end Tree

/-- The same symbols, or the same nonterminal with a first token that is the same but for what
stands before it. -/
inductive Task.Alike : Task → Task → Prop where
  | list {symbols : List Symbol} : Alike (.list symbols) (.list symbols)
  | node {n : Nonterminal} {k k' : Token} (h : k'.bare = k.bare) : Alike (.node n k') (.node n k)

section Derives

variable {task task' : Task} {outer : List Symbol} {input input' rest : List Char}
  {ts : List Tree} {k k' : Token} {ks ks' : List Token}

theorem Token.terminal_eq_of_bare (h : k'.bare = k.bare) : k'.terminal = k.terminal :=
  (Token.mk.inj h).1

theorem bareOf_eq_singleton {t : Tree} (h : bareOf ts = bareOf [t]) : ∃ u, ts = [u] := by
  obtain ⟨u, us, rfl, -, hus⟩ := bareOf_eq_cons_iff.1 h
  obtain rfl := bareOf_eq_nil_iff.1 hus
  exact ⟨u, rfl⟩

/-- With more blanks between two tokens, the same is read but for what stands before a token. -/
theorem Derives.insert (hws : ∀ c ∈ ws, isBlank c = true) (h : Derives task outer input ts rest)
    (hks : tokensOf ts = task.taken ++ ks) (hnext : ComesNext outer rest ks')
    (htask : Task.Alike task' task) (hin : Inserted ws (ks ++ ks') input input') :
    ∃ ts' rest', Derives task' outer input' ts' rest' ∧ bareOf ts' = bareOf ts ∧
      Inserted ws ks' rest rest' := by
  -- Each part of the input is followed by the tokens of the next part, and the place is in one of
  -- them: before a token, or behind it.
  induction h generalizing ks ks' task' input' with
  | nil =>
    cases htask
    obtain rfl : ks = [] := by simpa [tokensOf, Task.taken] using hks.symm
    exact ⟨[], input', .nil, rfl, hin⟩
  | tok hk h ih =>
    cases htask
    obtain ⟨ks₁, hks₁, -⟩ := h.exists_tokens
    obtain rfl : _ :: ks₁ = ks := by simpa [tokensOf, Tree.tokens, hks₁, Task.taken] using hks
    obtain ⟨k', next', hk', hbare, hin'⟩ := hk.insert hws hin (by rintro _ ⟨⟩; rfl)
    obtain ⟨ts', rest', h', hts, hrest⟩ := ih hks₁ hnext .list hin'
    refine ⟨.leaf k' :: ts', rest', .tok hk' h', ?_, hrest⟩
    simp only [bareOf, bare, hbare, hts]
  | @start n symbols outer input next mid rest k t ts hk hn ht h iht ih =>
    cases htask
    obtain ⟨ks₁, hks₁, -⟩ := ht.exists_tokens
    obtain ⟨ks₂, hks₂, -⟩ := h.exists_tokens
    obtain rfl : k :: (ks₁ ++ ks₂) = ks := by
      simp only [tokensOf, List.append_nil] at hks₁ hks
      simpa [hks₁, hks₂, Task.taken] using hks
    obtain ⟨k', next', hk', hbare, hin'⟩ := hk.insert hws hin (by rintro _ ⟨⟩; rfl)
    rw [List.cons_append, List.tail_cons, List.append_assoc] at hin'
    obtain ⟨us, mid', ht', hus, hin''⟩ := iht hks₁ (h.comesNext hks₂ hnext) (.node hbare) hin'
    obtain ⟨u, rfl⟩ := bareOf_eq_singleton hus
    obtain ⟨ts', rest', h', hts, hrest⟩ := ih hks₂ hnext .list hin''
    have hn' : starts n k'.terminal = true := by rw [Token.terminal_eq_of_bare hbare, hn]
    refine ⟨u :: ts', rest', .start hk' hn' ht' h', ?_, hrest⟩
    rw [bareOf, bareOf, hts, (List.cons.inj hus).1]
  | @skip n symbols outer input next rest k ts hk hn h ih =>
    cases htask
    have hcomes : ComesNext _ input (ks ++ _) := h.comesNext hks hnext
    obtain ⟨k', next', hk', hbare, -⟩ :=
      hk.insert hws hin (hcomes.eq_of_spots (ClosesAs.spots_of_skip hk hn))
    obtain ⟨ts', rest', h', hts, hrest⟩ := ih hks hnext .list hin
    have hn' : starts n k'.terminal = false := by rw [Token.terminal_eq_of_bare hbare, hn]
    refine ⟨.node n [] :: ts', rest', .skip hk' hn' h', ?_, hrest⟩
    rw [bareOf, bareOf, hts]
  | @finish n symbols outer input rest ts hend hn h ih =>
    cases htask
    have hcomes : ComesNext _ input (ks ++ _) := h.comesNext hks hnext
    obtain ⟨ts', rest', h', hts, hrest⟩ := ih hks hnext .list hin
    rw [hcomes.eq_nil hend] at hin
    refine ⟨.node n [] :: ts', rest', .finish (hend.insert hws hin) hn h', ?_, hrest⟩
    rw [bareOf, bareOf, hts]
  | @led n u symbols outer input rest k ts hbranch h ih =>
    cases htask with
    | @node _ _ k' hbare =>
      obtain ⟨ks₁, hks₁, -⟩ := h.exists_tokens
      obtain rfl : ks₁ = ks := by simpa [tokensOf, Tree.tokens, hks₁, Task.taken] using hks
      obtain ⟨ts', rest', h', hts, hrest⟩ := ih hks₁ hnext .list hin
      have hbranch' : branch? n k'.terminal = some (.led u symbols) := by
        rw [Token.terminal_eq_of_bare hbare, hbranch]
      refine ⟨[.node n (.leaf k' :: ts')], rest', .led hbranch' h', ?_, hrest⟩
      simp only [bareOf, bare, hbare, hts]
  | @via n m symbols outer input mid rest k t ts hbranch ht h iht ih =>
    cases htask with
    | @node _ _ k' hbare =>
      obtain ⟨ks₁, hks₁, -⟩ := ht.exists_tokens
      obtain ⟨ks₂, hks₂, -⟩ := h.exists_tokens
      obtain rfl : ks₁ ++ ks₂ = ks := by
        simp only [tokensOf, Tree.tokens, List.append_nil] at hks₁ hks
        simpa [hks₁, hks₂, Task.taken] using hks
      rw [List.append_assoc] at hin
      obtain ⟨us, mid', ht', hus, hin'⟩ := iht hks₁ (h.comesNext hks₂ hnext) (.node hbare) hin
      obtain ⟨u, rfl⟩ := bareOf_eq_singleton hus
      obtain ⟨ts', rest', h', hts, hrest⟩ := ih hks₂ hnext .list hin'
      have hbranch' : branch? n k'.terminal = some (.via m symbols) := by
        rw [Token.terminal_eq_of_bare hbare, hbranch]
      refine ⟨[.node n (u :: ts')], rest', .via hbranch' ht' h', ?_, hrest⟩
      simp only [bareOf, bare, hts, (List.cons.inj hus).1]

end Derives

/-! ### Sources -/

/-- A source falls into two parts between two of its tokens, before the first or behind the last:
the first part ends with whole tokens, and with whole blanks and comments behind them. -/
def IsBoundary (front back : List Char) : Prop :=
  ∃ ts ks ks' gap, read (front ++ back) = .ok ts ∧ tokensOf ts = ks ++ ks' ∧
    front = source ks ++ gap ∧ SkipsTo back gap

/-- The places right behind a token and right before the next one are between the two. -/
theorem isBoundary_of_tokens {ts : List Tree} {ks ks' : List Token}
    (hread : read (source ks ++ back) = .ok ts) (hks : tokensOf ts = ks ++ ks') :
    IsBoundary (source ks) back ∧
      IsBoundary (source ks ++ back.take (triviaLength back)) (back.drop (triviaLength back)) := by
  refine ⟨⟨ts, ks, ks', [], hread, hks, (List.append_nil _).symm, .here⟩,
    ⟨ts, ks, ks', _, ?_, hks, rfl, skipsTo_triviaLength back⟩⟩
  rw [List.append_assoc, List.take_append_drop, hread]

/-- With more blanks between two of its tokens, a source is read as the same tree but for what
stands before a token. -/
theorem exists_read_insert (hws : ∀ c ∈ ws, isBlank c = true) (h : IsBoundary front back) :
    ∃ ts ts', read (front ++ back) = .ok ts ∧ read (front ++ (ws ++ back)) = .ok ts' ∧
      bareOf ts' = bareOf ts := by
  obtain ⟨ts, ks, ks', gap, hread, hks, rfl, hgap⟩ := h
  obtain ⟨rest, hderives⟩ := read_eq_ok_iff.1 hread
  have hin : Inserted ws (ks ++ ks' ++ []) (source ks ++ gap ++ back)
      (source ks ++ gap ++ (ws ++ back)) := by
    rw [List.append_nil, List.append_assoc, List.append_assoc]
    exact .of_source ks hgap
  obtain ⟨ts', rest', h', hts, -⟩ := hderives.insert hws hks (by rintro k ⟨⟩) .list hin
  exact ⟨ts, ts', hread, read_eq_ok_iff.2 ⟨rest', h'⟩, hts⟩

end DeclSchema.Grammar
