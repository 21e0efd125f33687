import DeclSchema.Proofs.Declaration.Skipped
import DeclSchema.Proofs.Grammar.Masking

/-!
# Declarations stand outside brackets

The bodies of classes, functions and namespaces are read as anything in balanced brackets, in which
a word that starts a declaration is a name like any other. So a declaration is made of a statement
of the file and of nothing else: where its word stands, every bracket before it has been closed.

## Main definitions

* `HasWord`: the word of a declaration, perhaps with `const` before it
* `StandsOutside`: a declaration at a place of a source that no pair of brackets is around
* `Outermost`: declarations that stand so one behind the other
* `DeclaredBy`: the tokens of a statement that a declaration is made of

## Main results

* `statementOf_declaredBy`: the word of a declaration is the first one of a statement but for words
  that modify it
* `ofSource_outermost`: the brackets of a source are nested, and its declarations stand outside them
-/

namespace DeclSchema.Declaration

open Grammar Grammar.Tree Grammar.Terminal Grammar.Nonterminal

/-! ### Declarations in a source -/

/-- The characters start with the word of a declaration, behind `n` characters that are `const` and
blanks, or none. -/
inductive HasWord : Declaration → Nat → List Char → Prop where
  | interface {name text : Text} {parameters : List Text} {heritage : List Heritage}
      {members : List Member} {cs : List Char} :
      HasWord (.interface name text parameters heritage members) 0 (interfaceWord.spelling ++ cs)
  | enumeration {name text : Text} {members : List Text} {cs : List Char} :
      HasWord (.enumeration name text members) 0 (enumWord.spelling ++ cs)
  | constEnumeration {name text : Text} {members : List Text} {blanks cs : List Char}
      (hblanks : ∀ c ∈ blanks, isBlank c = true) :
      HasWord (.enumeration name text members) (constWord.spelling ++ blanks).length
        (constWord.spelling ++ (blanks ++ (enumWord.spelling ++ cs)))
  | typeAlias {name text : Text} {parameters : List Text} {type : Option TypeExpr}
      {cs : List Char} :
      HasWord (.typeAlias name text parameters type) 0 (typeWord.spelling ++ cs)

/-- The text of a declaration stands at a place of the source. Comments, strings and templates
apart, it starts with the word of the declaration; before that word all brackets are closed, and no
pair of brackets is around it. -/
structure StandsOutside (source : List Char) (place : Nat) (d : Declaration) : Prop where
  text_eq : d.text = .ofChars ((source.drop place).take d.text.length)
  exists_word : ∃ n, HasWord d n ((masked source).drop place) ∧
    IsNested ((masked source).take (place + n)) ∧
    ∀ i j, IsPair (masked source) i j → ¬ (i < place + n ∧ place + n ≤ j)

/-- The declarations stand in the source outside all brackets, from a place on and each behind the
text of the one before it. -/
inductive Outermost (source : List Char) : Nat → List Declaration → Prop where
  | nil {start : Nat} : Outermost source start []
  | cons {start place : Nat} {d : Declaration} {ds : List Declaration} (hplace : start ≤ place)
      (h : StandsOutside source place d)
      (hrest : Outermost source (place + d.text.length) ds) : Outermost source start (d :: ds)

theorem Outermost.mono {source : List Char} {start start' : Nat} {ds : List Declaration}
    (h : Outermost source start ds) (hstart : start' ≤ start) : Outermost source start' ds := by
  cases h with
  | nil => exact .nil
  | cons hplace h hrest => exact .cons (Nat.le_trans hstart hplace) h hrest

/-! ### Declarations among the tokens of a statement -/

/-- The tokens of a declaration start with its word, which `const` may stand before. -/
inductive Opens : Declaration → List Token → Prop where
  | interface {name text : Text} {parameters : List Text} {heritage : List Heritage}
      {members : List Member} {k : Token} {ks : List Token} (hk : k.terminal = interfaceWord) :
      Opens (.interface name text parameters heritage members) (k :: ks)
  | enumeration {name text : Text} {members : List Text} {k : Token} {ks : List Token}
      (hk : k.terminal = enumWord) : Opens (.enumeration name text members) (k :: ks)
  | constEnumeration {name text : Text} {members : List Text} {k k' : Token} {ks : List Token}
      (hk : k.terminal = constWord) (hk' : k'.terminal = enumWord) :
      Opens (.enumeration name text members) (k :: k' :: ks)
  | typeAlias {name text : Text} {parameters : List Text} {type : Option TypeExpr} {k : Token}
      {ks : List Token} (hk : k.terminal = typeWord) :
      Opens (.typeAlias name text parameters type) (k :: ks)

/-- The tokens are words and then those that a declaration is made of. -/
def DeclaredBy (ks : List Token) (d : Declaration) : Prop :=
  ∃ front ls, ks = front ++ ls ∧ (∀ k ∈ front, k.terminal ∈ words) ∧ Opens d ls ∧
    d.text = .ofChars (spelling ls)

section Statements

variable {t : Tree} {ks : List Token} {d : Declaration} {whole : List Tree}

/-- A statement may have one more word before it. -/
theorem DeclaredBy.behind (h : DeclaredBy (tokensOf [t]) d) {k : Token} (hk : k.terminal ∈ words) :
    DeclaredBy (tokensOf [.leaf k, t]) d := by
  obtain ⟨front, ls, hks, hfront, hopens, htext⟩ := h
  exact ⟨k :: front, ls, congrArg (k :: ·) hks, List.forall_mem_cons.2 ⟨hk, hfront⟩, hopens, htext⟩

theorem DeclaredBy.node {ts : List Tree} (h : DeclaredBy (tokensOf ts) d) (n : Nonterminal) :
    DeclaredBy (tokensOf [.node n ts]) d := by
  simpa only [tokensOf, Tree.tokens, List.append_nil] using h

theorem declaredBy_of_opens {ts : List Tree} (h : Opens d (tokensOf ts))
    (htext : d.text = textOf ts) : DeclaredBy (tokensOf ts) d :=
  ⟨[], _, rfl, List.forall_mem_nil _, h, htext⟩

theorem exists_enumeration (h : enumerationOf whole t = .ok (some d)) :
    ∃ name members, d = .enumeration name (textOf whole) members := by
  unfold enumerationOf at h
  split at h
  · obtain ⟨members, -, hd⟩ := exists_of_bind_eq_ok h
    cases hd
    exact ⟨_, members, rfl⟩
  · cases h

theorem exists_typeAlias (h : aliasOf whole t = .ok (some d)) :
    ∃ name parameters type, d = .typeAlias name (textOf whole) parameters type := by
  unfold aliasOf at h
  split at h
  · obtain ⟨type, -, hd⟩ := exists_of_bind_eq_ok h
    cases hd
    exact ⟨_, _, _, rfl⟩
  · cases h

theorem alias_declaredBy {k : Token} {body : Tree} (hk : k.terminal = typeWord)
    (h : aliasOf [.leaf k, body] body = .ok (some d)) :
    DeclaredBy (tokensOf [.leaf k, body]) d := by
  obtain ⟨name, parameters, type, rfl⟩ := exists_typeAlias h
  exact declaredBy_of_opens (.typeAlias hk) rfl

/-- An interface, an enum, or a statement that starts with `const`. -/
theorem definition_declaredBy (h : HasShape .definition t) (hd : declarationOf t = .ok (some d)) :
    DeclaredBy (tokensOf [t]) d := by
  obtain ⟨us, rfl, -, b, hb, hus⟩ := h.exists_branch rfl
  simp only [branches, List.mem_cons, List.not_mem_nil, or_false] at hb
  obtain rfl | rfl | rfl := hb
  all_goals simp only [Branch.symbols, fits_tok_iff, fits_sub_iff, fits_nil_iff] at hus
  · obtain ⟨k, _, rfl, hk, name, _, rfl, -, p, _, rfl, hp, e, _, rfl, he, k', _, rfl, -, m, _, rfl,
      hm, k'', _, rfl, -, s, _, rfl, hs, rfl⟩ := hus
    simp only [declarationOf] at hd
    obtain ⟨heritage, -, hd⟩ := exists_of_bind_eq_ok hd
    obtain ⟨members, -, hd⟩ := exists_of_bind_eq_ok hd
    cases hd
    exact declaredBy_of_opens (.interface hk) rfl
  · obtain ⟨k, _, rfl, hk, e, _, rfl, he, rfl⟩ := hus
    obtain ⟨es, rfl, -⟩ := he.exists_branch rfl
    simp only [declarationOf] at hd
    obtain ⟨name, members, rfl⟩ := exists_enumeration hd
    -- The text of an enum starts at its own word.
    exact declaredBy_of_opens (.enumeration hk) rfl
  · obtain ⟨k, _, rfl, hk, c, _, rfl, hc, rfl⟩ := hus
    obtain ⟨cs, rfl, -, b, hb, hcs⟩ := hc.exists_branch rfl
    simp only [branches, List.mem_cons, List.not_mem_nil, or_false] at hb
    obtain rfl | rfl := hb
    all_goals simp only [Branch.symbols, fits_tok_iff, fits_sub_iff, fits_nil_iff] at hcs
    · obtain ⟨k', _, rfl, hk', e, _, rfl, he, rfl⟩ := hcs
      simp only [declarationOf] at hd
      obtain ⟨name, members, rfl⟩ := exists_enumeration hd
      exact declaredBy_of_opens (.constEnumeration hk hk') rfl
    · obtain ⟨s, _, rfl, hs, rfl⟩ := hcs
      simp only [declarationOf] at hd
      cases hd

theorem skippedStatement_declares_nothing (h : HasShape .skippedStatement t) :
    declarationOf t = .ok none := by
  obtain ⟨us, rfl, -⟩ := h.exists_branch rfl
  simp only [declarationOf]

theorem declared_declaredBy (h : HasShape .declared t) (hd : declarationOf t = .ok (some d)) :
    DeclaredBy (tokensOf [t]) d := by
  obtain ⟨us, rfl, -, b, hb, hus⟩ := h.exists_branch rfl
  simp only [branches, List.mem_cons, List.not_mem_nil, or_false] at hb
  obtain rfl | rfl | rfl := hb
  all_goals simp only [Branch.symbols, fits_tok_iff, fits_sub_iff, fits_nil_iff] at hus
  · obtain ⟨k, _, rfl, hk, m, _, rfl, hm, rfl⟩ := hus
    obtain ⟨ms, rfl, -, b, hb, hms⟩ := hm.exists_branch rfl
    simp only [branches, List.mem_cons, List.not_mem_nil, or_false] at hb
    obtain rfl | rfl | rfl := hb
    all_goals simp only [Branch.symbols, fits_tok_iff, fits_sub_iff, fits_nil_iff] at hms
    · obtain ⟨body, _, rfl, hbody, rfl⟩ := hms
      simp only [declarationOf] at hd
      simpa only [tokensOf, Tree.tokens, List.append_nil] using alias_declaredBy hk hd
    · obtain ⟨k', _, rfl, -, i, _, rfl, hi, k'', _, rfl, -, e, _, rfl, he, rfl⟩ := hms
      simp only [declarationOf] at hd
      -- A list of exports declares nothing, with braces or without.
      cases hd
    · obtain ⟨k', _, rfl, -, e, _, rfl, he, rfl⟩ := hms
      simp only [declarationOf] at hd
      cases hd
  · obtain ⟨u, _, rfl, hu, rfl⟩ := hus
    simp only [declarationOf] at hd
    exact (definition_declaredBy hu hd).node _
  · obtain ⟨u, _, rfl, hu, rfl⟩ := hus
    simp only [declarationOf, skippedStatement_declares_nothing hu] at hd
    cases hd

theorem exportedPlain_declaredBy (h : HasShape .exportedPlain t)
    (hd : declarationOf t = .ok (some d)) : DeclaredBy (tokensOf [t]) d := by
  obtain ⟨us, rfl, -, b, hb, hus⟩ := h.exists_branch rfl
  simp only [branches, List.mem_cons, List.not_mem_nil, or_false] at hb
  obtain rfl | rfl := hb
  all_goals simp only [Branch.symbols, fits_sub_iff, fits_nil_iff] at hus
  · obtain ⟨u, _, rfl, hu, rfl⟩ := hus
    simp only [declarationOf] at hd
    exact (declared_declaredBy hu hd).node _
  · obtain ⟨u, _, rfl, hu, rfl⟩ := hus
    obtain ⟨us, rfl, -⟩ := hu.exists_branch rfl
    simp only [declarationOf] at hd
    cases hd

theorem exported_declaredBy (h : HasShape .exported t) (hd : declarationOf t = .ok (some d)) :
    DeclaredBy (tokensOf [t]) d := by
  obtain ⟨us, rfl, -, b, hb, hus⟩ := h.exists_branch rfl
  simp only [branches, List.mem_cons, List.not_mem_nil, or_false] at hb
  obtain rfl | rfl | rfl := hb
  all_goals simp only [Branch.symbols, fits_tok_iff, fits_sub_iff, fits_nil_iff] at hus
  · obtain ⟨k, _, rfl, hk, u, _, rfl, hu, rfl⟩ := hus
    simp only [declarationOf] at hd
    exact ((declared_declaredBy hu hd).behind (by rw [hk]; decide)).node _
  · obtain ⟨k, _, rfl, hk, u, _, rfl, hu, rfl⟩ := hus
    simp only [declarationOf] at hd
    exact ((exportedPlain_declaredBy hu hd).behind (by rw [hk]; decide)).node _
  · obtain ⟨u, _, rfl, hu, rfl⟩ := hus
    simp only [declarationOf] at hd
    exact (exportedPlain_declaredBy hu hd).node _

/-- The declaration of a statement is made of its tokens but for words that stand before. -/
theorem statementOf_declaredBy {k : Token} {input mid rest : List Char} {ts : List Tree}
    (hk : Sees [.sub .statements] input k mid) (h : ReadsStatement k mid ts rest)
    (hd : statementOf ts = .ok (some d)) : DeclaredBy (tokensOf ts) d := by
  obtain ⟨n, t, ht, ⟨rfl, rfl | rfl⟩ | ⟨rfl, hword⟩⟩ := h.exists_hasShape hk
  · obtain ⟨us, rfl, -⟩ := ht.exists_branch rfl
    exact definition_declaredBy ht hd
  · obtain ⟨us, rfl, -⟩ := ht.exists_branch rfl
    rw [statementOf, skippedStatement_declares_nothing ht] at hd
    cases hd
  · obtain ⟨hk, rfl⟩ | ⟨hk, rfl⟩ | ⟨hk, rfl⟩ := hword
    · simp only [statementOf, hk, reduceCtorEq, if_false] at hd
      exact (exported_declaredBy ht hd).behind (by rw [hk]; decide)
    · simp only [statementOf, hk, reduceCtorEq, if_false] at hd
      exact (declared_declaredBy ht hd).behind (by rw [hk]; decide)
    · simp only [statementOf, hk, if_true] at hd
      exact alias_declaredBy hk hd

end Statements

/-! ### Places of declarations -/

section Places

variable {ks : List Token} {d : Declaration} {cs : List Char}

/-- A word is left as it is, behind blanks. -/
theorem exists_of_sketch {w : Terminal} (hw : w ∈ words) {k : Token} (hk : k.terminal = w)
    (h : Sketch (k :: ks) cs) :
    ∃ blanks cs', cs = blanks ++ (w.spelling ++ cs') ∧ blanks.length = k.trivia.length ∧
      (∀ c ∈ blanks, isBlank c = true) ∧ Sketch ks cs' := by
  cases h with
  | @cons _ _ blanks shown cs' hshows hrest =>
    refine ⟨blanks, cs', ?_, hshows.length_blanks, hshows.isBlank, hrest⟩
    obtain rfl | ⟨hspelling, -⟩ := hshows.shown_cases
    · rw [hk]
    · obtain ⟨c, s, hs, -⟩ := exists_of_mem_words hw
      rw [hk, hs] at hspelling
      cases hspelling

theorem isNested_of_isBlank {blanks : List Char} (h : ∀ c ∈ blanks, isBlank c = true) :
    IsNested blanks :=
  isNested_of_not_bracket fun c hc => not_bracket_of_isBlank (h c hc)

/-- Words have no brackets. -/
theorem isNested_of_words (h : ∀ k ∈ ks, k.terminal ∈ words) : IsNested (skeleton ks) := by
  have hall : ∀ w ∈ words, IsNested w.spelling := by decide
  induction ks with
  | nil => rfl
  | cons k ks ih =>
    obtain ⟨hk, hks⟩ := List.forall_mem_cons.1 h
    rw [skeleton_cons]
    exact (hall _ hk).append (ih hks)

/-- The word of a declaration is left of its tokens, behind blanks for what stood before the first
one. -/
theorem Opens.exists_word {ls : List Token} (h : Opens d ls) (hcs : Sketch ls cs) :
    ∃ k ls' blanks back n, ls = k :: ls' ∧ cs = blanks ++ back ∧ blanks.length = k.trivia.length ∧
      IsNested blanks ∧ n ≤ back.length ∧ IsNested (back.take n) ∧
      ∀ rest, HasWord d n (back ++ rest) := by
  -- The word comes first, unless `const` does.
  have hfirst {w : Terminal} (hw : w ∈ words) {k : Token} {ls : List Token} (hk : k.terminal = w)
      (hcs : Sketch (k :: ls) cs) (hword : ∀ rest, HasWord d 0 (w.spelling ++ rest)) :
      ∃ k' ls' blanks back n, k :: ls = k' :: ls' ∧ cs = blanks ++ back ∧
        blanks.length = k'.trivia.length ∧ IsNested blanks ∧ n ≤ back.length ∧
        IsNested (back.take n) ∧ ∀ rest, HasWord d n (back ++ rest) := by
    obtain ⟨blanks, cs', hsplit, hlength, hblanks, -⟩ := exists_of_sketch hw hk hcs
    refine ⟨k, ls, blanks, _, 0, rfl, hsplit, hlength, isNested_of_isBlank hblanks, Nat.zero_le _,
      rfl, fun rest => ?_⟩
    rw [List.append_assoc]
    exact hword _
  cases h with
  | interface hk => exact hfirst (by decide) hk hcs fun _ => .interface
  | enumeration hk => exact hfirst (by decide) hk hcs fun _ => .enumeration
  | typeAlias hk => exact hfirst (by decide) hk hcs fun _ => .typeAlias
  | @constEnumeration _ _ _ k k' ls hk hk' =>
    obtain ⟨blanks, cs₁, hsplit, hlength, hblanks, hcs₁⟩ := exists_of_sketch (by decide) hk hcs
    obtain ⟨blanks', cs₂, rfl, -, hblanks', -⟩ := exists_of_sketch (by decide) hk' hcs₁
    have hconst : IsNested constWord.spelling := by decide
    have htake : (constWord.spelling ++ (blanks' ++ (enumWord.spelling ++ cs₂))).take
        (constWord.spelling ++ blanks').length = constWord.spelling ++ blanks' := by
      rw [← List.append_assoc, List.take_left]
    refine ⟨k, k' :: ls, blanks, _, (constWord.spelling ++ blanks').length, rfl, hsplit, hlength,
      isNested_of_isBlank hblanks, ?_, ?_, fun rest => ?_⟩
    · simp only [List.length_append]
      omega
    · rw [htake]
      exact hconst.append (isNested_of_isBlank hblanks')
    · rw [List.append_assoc, List.append_assoc, List.append_assoc]
      exact .constEnumeration hblanks'

/-- Where what is left of a statement starts with a declaration. -/
theorem DeclaredBy.exists_place (h : DeclaredBy ks d) (hcs : Sketch ks cs) :
    ∃ before text front back n, source ks = before ++ text ∧ d.text = .ofChars text ∧
      cs = front ++ back ∧ front.length = before.length ∧ n ≤ back.length ∧
      IsNested (front ++ back.take n) ∧ ∀ rest, HasWord d n (back ++ rest) := by
  obtain ⟨words, ls, rfl, hwords, hopens, htext⟩ := h
  obtain ⟨front, back, rfl, hfront, hback⟩ := hcs.exists_of_append
  obtain ⟨k, ls, blanks, back, n, rfl, rfl, hlength, hblanks, hn, hnested, hword⟩ :=
    hopens.exists_word hback
  have hfirst : IsNested front := by
    rw [IsNested, hfront.nest_eq]
    exact isNested_of_words hwords
  refine ⟨source words ++ k.trivia, k.lexeme ++ source ls, front ++ blanks, back, n, ?_, htext, ?_,
    ?_, hn, ?_, hword⟩
  · simp only [source, List.flatMap_append, List.flatMap_cons, Token.source, List.append_assoc]
  · rw [List.append_assoc]
  · rw [List.length_append, hfront.length_eq, hlength, List.length_append]
  · exact (hfirst.append hblanks).append hnested

/-- A declaration of a statement stands outside all brackets, where those before the statement are
closed. -/
theorem DeclaredBy.exists_standsOutside (h : DeclaredBy ks d) (hcs : Sketch ks cs)
    {front back shown : List Char} (hshown : masked (front ++ (source ks ++ back))
      = shown ++ (cs ++ masked back)) (hlength : shown.length = front.length)
    (hnested : IsNested shown) :
    ∃ place, front.length ≤ place ∧ place + d.text.length = front.length + (source ks).length ∧
      StandsOutside (front ++ (source ks ++ back)) place d := by
  obtain ⟨before, text, cs₁, cs₂, n, hsource, htext, rfl, hcs₁, hn, hopen, hword⟩ :=
    h.exists_place hcs
  have hlong : d.text.length = text.length := by rw [htext, Text.ofChars, List.length_map]
  have hplace : (shown ++ cs₁).length = front.length + before.length := by
    rw [List.length_append, hlength, hcs₁]
  have hmasked : masked (front ++ (source ks ++ back)) = shown ++ cs₁ ++ (cs₂ ++ masked back) := by
    rw [hshown]
    simp only [List.append_assoc]
  -- All brackets before the declaration are closed: those before the statement, and then those of
  -- the statement itself.
  have htake : IsNested ((masked (front ++ (source ks ++ back))).take
      (front.length + before.length + n)) := by
    rw [hmasked, ← hplace, List.take_length_add_append, List.take_append_of_le_length hn,
      List.append_assoc]
    exact hnested.append hopen
  refine ⟨front.length + before.length, Nat.le_add_right .., ?_, ?_, n, ?_, htake, ?_⟩
  · rw [hlong, hsource, List.length_append, Nat.add_assoc]
  · have hsplit : front ++ (source ks ++ back) = front ++ before ++ (text ++ back) := by
      rw [hsource]
      simp only [List.append_assoc]
    rw [hlong, hsplit, ← List.length_append, List.drop_left, List.take_left, htext]
  · rw [hmasked, ← hplace, List.drop_left]
    exact hword (masked back)
  · exact fun i j hpair => hpair.not_between htake

end Places

/-! ### Whole files -/

/-- The brackets of the statements of a file are nested, and their declarations stand outside them,
where the brackets before the statements are closed. -/
theorem outermost_of_listing {input : List Char} {ss : List (List Tree)} (h : Listing input ss)
    {ds : List Declaration} (hds : declarationsOf (treeOf ss) = .ok ds) {front shown : List Char}
    (hshown : masked (front ++ input) = shown ++ masked input)
    (hlength : shown.length = front.length) (hnested : IsNested shown) :
    IsNested (masked (front ++ input)) ∧ Outermost (front ++ input) front.length ds := by
  induction h generalizing ds front shown with
  | finish hend =>
    rw [declarationsOf_treeOf_nil] at hds
    cases hds
    rw [hshown]
    exact ⟨hnested.append (isNested_of_isBlank hend.isBlank_masked), .nil⟩
  | @next input mid rest k ts ss hk h hrest ih =>
    obtain ⟨cs, hcs, hmasked⟩ := (h.lexes hk).exists_sketch
    obtain rfl : input = source (tokensOf ts) ++ rest := (h.lexes hk).input_eq
    rw [declarationsOf_treeOf_cons h] at hds
    obtain ⟨d, hd, hds⟩ := exists_of_bind_eq_ok hds
    obtain ⟨ds', hds', hall⟩ := exists_of_bind_eq_ok hds
    cases hall
    -- One statement is nested, so the next starts again with all brackets closed.
    have hcsNested : IsNested cs := by
      rw [IsNested, hcs.nest_eq]
      exact h.isNested hk
    rw [hmasked] at hshown
    have hnext : masked (front ++ source (tokensOf ts) ++ rest) = shown ++ cs ++ masked rest := by
      rw [List.append_assoc, hshown, List.append_assoc]
    have hlengths : (shown ++ cs).length = (front ++ source (tokensOf ts)).length := by
      rw [List.length_append, hlength, hcs.length_eq, List.length_append]
    obtain ⟨hwhole, houter⟩ := ih hds' hnext hlengths (hnested.append hcsNested)
    rw [List.append_assoc, List.length_append] at houter
    rw [List.append_assoc] at hwhole
    refine ⟨hwhole, ?_⟩
    cases d with
    | none => exact houter.mono (Nat.le_add_right ..)
    | some d =>
      obtain ⟨place, hplace, hend, hstands⟩ :=
        (statementOf_declaredBy hk h hd).exists_standsOutside hcs hshown hlength hnested
      exact .cons hplace hstands (hend ▸ houter)

/-- **Brackets and declarations of a source.** The brackets of a source that is read, apart from
those in comments, strings and templates, are balanced and properly nested. Its declarations stand
in it one behind the other, each with its word outside all brackets. -/
theorem ofSource_outermost {source : List Char} {ds : List Declaration}
    (h : ofSource source = .ok ds) : IsNested (masked source) ∧ Outermost source 0 ds := by
  obtain ⟨ss, hss, hds⟩ := ofSource_eq_ok_iff.1 h
  exact @outermost_of_listing source ss hss ds hds [] [] rfl rfl rfl

/-- What is written in a namespace is not among the declarations, and neither the bracket in a
string nor the one in a comment counts. -/
theorem ofSource_outermost_namespace :
    let source := "namespace N \x7b interface B \x7b\x7d \x7d
      export const /* ( */ enum E \x7b C \x7d
      type A = ')';".toList
    ∃ ds, ofSource source = .ok ds ∧ ds.map (·.name) = [.ofString "E", .ofString "A"] ∧
      IsNested (masked source) ∧ Outermost source 0 ds := by
  intro source
  obtain ⟨ds, hds, hnames⟩ :=
    exists_of_names_eq source [.ofString "E", .ofString "A"] (by decide +kernel)
  exact ⟨ds, hds, hnames, ofSource_outermost hds⟩

end DeclSchema.Declaration
