import DeclSchema.Proofs.Declaration.Unions

/-!
# Members read back

A member starts with its key, with the word `readonly` or with a bracket. In the place of a type the
word and the bracket may also start a mapped type, so that there the first member of an object is
read by branches of its own. What follows a key is read alike in both places, and the members behind
the first one are too.

## Main definitions

* `IsKey`: a token that is read as a key
* `MembersRead`: members are read back, behind other members and at the start of an object

## Main results

* `takes_rest`: what follows the key of a property makes it the property
* `MembersRead.keyed`, `MembersRead.property`: a property is read back in front of other members
* `MembersRead.properties`, `Operand.Reads.object`: lists of properties and object types are read
  back if the types in them are
-/

namespace DeclSchema.Canonical

open Grammar Declaration
open Grammar.Tree (tokensOf)

variable {symbols outer : List Symbol} {k : Token} {input mid rest : List Token}

/-! ### What follows a key -/

/-- The optional mark and the type of a property. -/
def tokensOfRest (optional : Bool) (type : Option TypeForm) : List Token :=
  (if optional then [mark .question] else []) ++ tokensOfAnnotated type

/-- The word `readonly`, if it is there. -/
def tokensOfReadonly (readonly : Bool) : List Token :=
  if readonly then [mark .readonlyWord] else []

/-- What follows the optional mark of a property, or of any member. -/
def restOfMark (afterReadonly : Bool) : Nonterminal :=
  if afterReadonly then Nonterminal.annotation else Nonterminal.signatureRest

section Rest

variable {type : Option TypeForm} (htype : ∀ f ∈ type, f.Reads)
  (hahead : Ahead [.semicolon] symbols mid)

include htype hahead

theorem takes_annotated (ro : Bool) :
    ∃ t, Takes (restOfMark ro) symbols (tokensOfAnnotated type ++ mid) mid t
      ∧ ∀ front name optional readonly, signatureOf front (.ok name) optional readonly t
        = .ok (.property (Tree.textOf (front ++ [t])) name (annotationOf type) optional
          readonly) := by
  cases type with
  | none =>
    refine ⟨_, hahead.takes ?_, fun _ _ _ _ => rfl⟩
    cases ro <;> decide
  | some f =>
    obtain ⟨t, ht, htype⟩ := (htype f rfl).takes (hahead.mono (by decide))
    have hn : Terminal.colon ≠ .name
        ∧ branch? (restOfMark ro) .colon = some (.led .colon [.sub (.type true)]) := by
      cases ro <;> decide
    refine ⟨_, .led (u := .colon) rfl hn (.sub ht .nil), fun _ _ _ _ => ?_⟩
    simp only [signatureOf, htype]
    rfl

theorem takes_restOfKey (ro optional : Bool) :
    ∃ t, Takes (.restOfKey ro) symbols (tokensOfRest optional type ++ mid) mid t
      ∧ ∀ front name readonly, keyRestOf front (.ok name) readonly t
        = .ok (.property (Tree.textOf (front ++ [t])) name (annotationOf type) optional
          readonly) := by
  obtain ⟨a, ha, hsignature⟩ := takes_annotated htype hahead ro
  cases optional with
  | true =>
    have hn : Terminal.question ≠ .name ∧ branch? (.restOfKey ro) .question
        = some (.led .question [.sub (restOfMark ro)]) := by
      cases ro <;> decide
    refine ⟨_, .led (u := .question) (k := mark .question) rfl hn (.sub ha .nil),
      fun front name readonly => ?_⟩
    have htext : Tree.textOf (front ++ [.leaf (mark .question)] ++ [a])
        = Tree.textOf (front ++ [.node (.restOfKey ro) [.leaf (mark .question), a]]) :=
      textOf_congr (by simp [tokensOf_append, tokensOf, Tree.tokens])
    simp only [keyRestOf, hsignature, htext]
  | false =>
    have hmarks : Ahead [.colon, .semicolon] (.sub (restOfMark ro) :: symbols)
        (tokensOfAnnotated type ++ mid) := by
      cases type with
      | none => exact (hahead.mono (by decide)).sub (by cases ro <;> rfl)
      | some f => exact ahead_start (by decide) (by cases ro <;> decide)
    obtain ht | ⟨rfl, ht⟩ := hmarks.alone (n := .restOfKey ro) ha (by cases ro <;> decide)
    · refine ⟨_, ht, fun front name readonly => ?_⟩
      obtain ⟨as, rfl⟩ := ha.isNode
      have htext : Tree.textOf (front ++ [.node (restOfMark ro) as])
          = Tree.textOf (front ++ [.node (.restOfKey ro) [.node (restOfMark ro) as]]) :=
        textOf_congr (by simp [tokensOf_append, tokensOf, Tree.tokens])
      simp only [keyRestOf, hsignature, htext]
    · refine ⟨_, ht, fun front name readonly => ?_⟩
      -- Nothing follows the key, so there is no type.
      have htext (n : Nonterminal) : Tree.textOf (front ++ [.node n []]) = Tree.textOf front :=
        textOf_congr (by simp [tokensOf_append, tokensOf, Tree.tokens])
      have hnone := hsignature front name false readonly
      rw [htext] at hnone ⊢
      rw [← hnone]
      simp only [keyRestOf, signatureOf, htext]

/-- What follows the key of a property makes it the property. -/
theorem takes_rest (ro optional : Bool) :
    ∃ t, Takes (.restOfKey ro) symbols (tokensOfRest optional type ++ mid) mid t
      ∧ ∀ (readonly : Bool) (key : Key) (front : List Tree),
        tokensOf front = tokensOfReadonly readonly ++ key.tokens →
        keyRestOf front (.ok key.name) readonly t
          = .ok (Property.mk readonly key optional type).member := by
  obtain ⟨t, ht, hrest⟩ := takes_restOfKey htype hahead ro optional
  refine ⟨t, ht, fun readonly key front hfront => ?_⟩
  have htext : tokensOf (front ++ [t]) = (Property.mk readonly key optional type).tokens := by
    rw [tokensOf_append, hfront, tokensOf, tokensOf, tokens_of_takes ht, List.append_nil]
    rfl
  rw [hrest, textOf_trees htext]
  rfl

end Rest

/-! ### Keys -/

/-- The terminals that a key without brackets is read as. -/
def keyHeads : List Terminal :=
  [.name, .string, .number, .readonlyWord]

/-- A token that is read as a key without brackets, for a name. A name that is spelled `readonly` is
not read as a name. -/
structure IsKey (k : Token) (name : Text) : Prop where
  terminal_mem : k.terminal ∈ keyHeads
  lexeme_ne : k.terminal = .name → Terminal.readonlyWord.spelling ≠ k.lexeme
  keyOf_eq : keyOf k = .ok name

namespace PlainKey

theorem token_word (w : Word) : (word w).token
    = if w.chars = Terminal.readonlyWord.spelling then mark .readonlyWord else w.token := by
  rw [token]

theorem terminal_mem (key : PlainKey) : key.token.terminal ∈ keyHeads := by
  cases key with
  | word w =>
    rw [token_word]
    split
    · exact (by decide : Terminal.readonlyWord ∈ keyHeads)
    · exact (by decide : Terminal.name ∈ keyHeads)
  | string t => exact (by decide : Terminal.string ∈ keyHeads)
  | number n => exact (by decide : Terminal.number ∈ keyHeads)

theorem lexeme_ne (key : PlainKey) (hk : key.token.terminal = .name) :
    Terminal.readonlyWord.spelling ≠ key.token.lexeme := by
  cases key with
  | word w =>
    rw [token_word] at hk ⊢
    by_cases hw : w.chars = Terminal.readonlyWord.spelling
    · rw [if_pos hw] at hk
      cases hk
    · rw [if_neg hw]
      exact fun h => hw h.symm
  | string t => cases hk
  | number n => cases hk

theorem token_eq_mark (key : PlainKey) (hk : key.token.terminal = .readonlyWord) :
    key.token = mark .readonlyWord := by
  cases key with
  | word w =>
    rw [token_word] at hk ⊢
    split
    · rfl
    · next hw =>
      rw [if_neg hw] at hk
      cases hk
  | string t => cases hk
  | number n => cases hk

theorem keyOf_token (key : PlainKey) : keyOf key.token = .ok key.text := by
  cases key with
  | word w =>
    rw [token_word]
    by_cases hw : w.chars = Terminal.readonlyWord.spelling
    · rw [if_pos hw, text, Word.text, hw]
      rfl
    · rw [if_neg hw]
      rfl
  | string t => exact Escape.unquote_quoted t
  | number n => rfl

theorem isKey (key : PlainKey) : IsKey key.token key.text where
  terminal_mem := key.terminal_mem
  lexeme_ne := key.lexeme_ne
  keyOf_eq := key.keyOf_token

end PlainKey

/-- A key is read as such where `readonly` is the only word that may come next. -/
theorem IsKey.awaits {n : Nonterminal} {name : Text} (h : IsKey k name)
    (hn : n ≠ .exportListAfterBlock ∧ (∀ t ∈ keyHeads, starts n t = true)
      ∧ ∀ w ∈ Terminal.words, starts n w = true → w = .readonlyWord)
    (hsymbols : n.mayBeEmpty = true → ∀ w ∈ Terminal.words, expects symbols w = false) :
    Awaits (.sub n :: symbols) k := by
  have hstarts := hn.2.1 _ h.terminal_mem
  by_cases hk : k.terminal = .name
  · refine .of_name hstarts hn.1 fun w hw h' => ?_
    obtain h' | ⟨hempty, h'⟩ := h'
    · rw [hn.2.2 w hw h']
      exact h.lexeme_ne hk
    · rw [hsymbols hempty w hw] at h'
      cases h'
  · exact .of_expects hk (expects_of_starts hstarts)

/-! ### Properties with a key without brackets -/

/-- The tokens of a property whose key is a single token. -/
def tokensOfKeyed (readonly : Bool) (k : Token) (optional : Bool) (type : Option TypeForm) :
    List Token :=
  tokensOfReadonly readonly ++ k :: tokensOfRest optional type

/-- The property whose key is a single token, for a name. -/
def keyedMember (readonly : Bool) (k : Token) (name : Text) (optional : Bool)
    (type : Option TypeForm) : Member :=
  .property (textOf (tokensOfKeyed readonly k optional type)) (.plain name) (annotationOf type)
    optional readonly

/-- What follows a key that is a single token makes it a property with that key. -/
theorem IsKey.takes_rest {name : Text} (h : IsKey k name) {type : Option TypeForm}
    (htype : ∀ f ∈ type, f.Reads) (hahead : Ahead [.semicolon] symbols mid) (ro optional : Bool) :
    ∃ t, Takes (.restOfKey ro) symbols (tokensOfRest optional type ++ mid) mid t
      ∧ ∀ (readonly : Bool) (front : List Tree), tokensOf front = tokensOfReadonly readonly ++ [k] →
        keyRestOf front (MemberName.plain <$> keyOf k) readonly t
          = .ok (keyedMember readonly k name optional type) := by
  obtain ⟨t, ht, hrest⟩ := takes_restOfKey htype hahead ro optional
  refine ⟨t, ht, fun readonly front hfront => ?_⟩
  have htext : tokensOf (front ++ [t]) = tokensOfKeyed readonly k optional type := by
    rw [tokensOf_append, hfront, tokensOf, tokensOf, tokens_of_takes ht, List.append_nil,
      List.append_assoc]
    rfl
  have hname : MemberName.plain <$> keyOf k = .ok (.plain name) := by
    rw [h.keyOf_eq]
    rfl
  rw [hname, hrest, textOf_trees htext]
  rfl

/-- A name is read as such where no word may come next. -/
theorem Word.awaits {n : Nonterminal} (w : Word)
    (hn : starts n .name = true ∧ n ≠ .exportListAfterBlock ∧ n.mayBeEmpty = false
      ∧ ∀ w ∈ Terminal.words, starts n w = false) :
    Awaits (.sub n :: symbols) w.token := by
  refine .of_name hn.1 hn.2.1 fun u hu h => ?_
  obtain h | ⟨h, -⟩ := h
  · rw [hn.2.2.2 u hu] at h
    cases h
  · rw [hn.2.2.1] at h
    cases h

theorem Word.takes {n : Nonterminal} {front : List Symbol} {ts : List Tree} (w : Word)
    (hn : (starts n .name = true ∧ n ≠ .exportListAfterBlock ∧ n.mayBeEmpty = false
      ∧ ∀ w ∈ Terminal.words, starts n w = false) ∧ branch? n .name = some (.led .name front))
    (h : Reads front symbols input rest ts) :
    Takes n symbols (w.token :: input) rest (.node n (.leaf w.token :: ts)) :=
  .start (w.awaits hn.1) hn.1.1 (.led rfl hn.2 h)

/-! ### Keys in brackets -/

/-- What follows the name in a key in brackets is read back, with the rest of the property. -/
theorem unfolds_bracketedName {type : Option TypeForm} (htype : ∀ f ∈ type, f.Reads)
    (hahead : Ahead [.semicolon] symbols mid) (ro optional : Bool) {key : Key}
    (hkey : ∀ k, key ≠ .plain k) :
    ∃ (w : Word) (k : Token) (ks : List Token) (t : Tree),
      key.tokens = mark .openBracket :: w.token :: k :: ks
      ∧ k.terminal ∈ [Terminal.dot, .closeBracket]
      ∧ Unfolds (.bracketedName ro) symbols k (ks ++ (tokensOfRest optional type ++ mid)) mid t
      ∧ ∀ (readonly : Bool) (front : List Tree), tokensOf front = tokensOfReadonly readonly →
        bracketedNameOf front (mark .openBracket) readonly w.token t
          = .ok (Property.mk readonly key optional type).member := by
  obtain ⟨r, hr, hrest⟩ := takes_rest htype hahead ro optional
  -- The key goes on with a dot and a second name, or the bracket is closed.
  cases key with
  | plain key => exact absurd rfl (hkey key)
  | member scope m =>
    refine ⟨scope, _, _, _, rfl, by decide, .led (u := .dot) rfl ?_ (.tok (u := .name) rfl
      (.sub (.omitted (n := .dotted) (u := .closeBracket) rfl (by decide) rfl)
        (.tok (u := .closeBracket) rfl (.sub hr .nil)))), ?_⟩
    · cases ro <;> decide
    · intro readonly front hfront
      simp only [bracketedNameOf]
      refine hrest readonly (.member scope m) _ ?_
      rw [tokensOf_append, hfront]
      rfl
  | computed w =>
    refine ⟨w, _, _, _, rfl, by decide, .led (u := .closeBracket) rfl ?_ (.sub hr .nil), ?_⟩
    · cases ro <;> decide
    · intro readonly front hfront
      simp only [bracketedNameOf]
      refine hrest readonly (.computed w) _ ?_
      rw [tokensOf_append, hfront]
      rfl

/-! ### Properties after the word `readonly` -/

theorem expects_closeBrace :
    ∀ w ∈ Terminal.words, expects (.tok .closeBrace :: outer) w = false := by
  intro w hw
  have hne : ∀ w ∈ Terminal.words, (Terminal.closeBrace == w) = false := by decide
  exact hne w hw

theorem expects_memberEnd :
    ∀ w ∈ Terminal.words, expects (.sub .memberEnd :: .tok .closeBrace :: outer) w = false := by
  intro w hw
  have hnone : ∀ w ∈ Terminal.words, starts .memberEnd w = false := by decide
  rw [expects, hnone w hw, expects_closeBrace w hw]
  rfl

theorem ahead_memberEnd (outer : List Symbol) (input : List Token) :
    Ahead [.semicolon] (.sub .memberEnd :: outer) (mark .semicolon :: input) :=
  ahead_start (by decide) (by decide)

section Property

variable {type : Option TypeForm} (htype : ∀ f ∈ type, f.Reads) (optional : Bool)

include htype

omit htype in
theorem ahead_rest (outer : List Symbol) (mid : List Token) :
    Ahead [.question, .colon, .semicolon] (.sub .keyRest :: .sub .memberEnd :: outer)
      (tokensOfRest optional type ++ mark .semicolon :: mid) := by
  cases optional with
  | true => exact ahead_start (by decide) (by decide)
  | false =>
    cases type with
    | none => exact ((ahead_memberEnd outer mid).sub rfl).mono (by decide)
    | some f => exact ahead_start (by decide) (by decide)

/-- Where `readonly` is the key, its mark and its type come next. -/
theorem takes_readonlyRest {key : PlainKey} (hkey : key.token = mark .readonlyWord)
    (outer : List Symbol) (mid : List Token) :
    ∃ t, Takes .readonlyRest (.sub .memberEnd :: outer)
        (tokensOfRest optional type ++ mark .semicolon :: mid) (mark .semicolon :: mid) t
      ∧ readonlyRestOf (mark .readonlyWord) t
        = .ok (Property.mk false (.plain key) optional type).member := by
  obtain ⟨r, hr, hrest⟩ := takes_rest htype
    (ahead_memberEnd outer mid) false optional
  have hname : (Key.plain key).name = .plain (lexemeOf (mark .readonlyWord)) := by
    have := key.keyOf_token
    rw [hkey] at this
    exact congrArg MemberName.plain (Except.ok.inj this).symm
  have hmember := hrest false (.plain key) [.leaf (mark .readonlyWord)]
    (by rw [Key.tokens, hkey]; rfl)
  rw [hname] at hmember
  -- The rest is left out where there is neither a mark nor a type.
  obtain ht | ⟨rfl, ht⟩ := (ahead_rest optional outer mid).alone (n := .readonlyRest) hr (by decide)
  · refine ⟨_, ht, ?_⟩
    obtain ⟨rs, rfl⟩ := hr.isNode
    simp only [readonlyRestOf]
    exact hmember
  · refine ⟨_, ht, ?_⟩
    simp only [readonlyRestOf]
    exact hmember

/-- Where `readonly` is not the key, the key comes next. -/
theorem takes_readonlyRest_key {name : Text} (hk : IsKey k name) (outer : List Symbol)
    (mid : List Token) :
    ∃ t, Takes .readonlyRest (.sub .memberEnd :: .tok .closeBrace :: outer)
        (k :: (tokensOfRest optional type ++ mark .semicolon :: mid)) (mark .semicolon :: mid) t
      ∧ readonlyRestOf (mark .readonlyWord) t = .ok (keyedMember true k name optional type) := by
  obtain ⟨r, hr, hrest⟩ := hk.takes_rest htype
    (ahead_memberEnd (.tok .closeBrace :: outer) mid) true optional
  have hbranch : ∀ t ∈ keyHeads, t ≠ .openBracket
      ∧ branch? .readonlyRest t = some (.led t [.sub .propertyRest]) := by
    decide
  obtain ⟨hbracket, hled⟩ := hbranch _ hk.terminal_mem
  refine ⟨_, .start (hk.awaits (by decide) fun _ => expects_memberEnd)
    (starts_of_branch? hled) (.led rfl hled (.sub hr .nil)), ?_⟩
  simp only [readonlyRestOf, hbracket, if_false]
  exact hrest true [.leaf (mark .readonlyWord), .leaf k] rfl

end Property

/-! ### Members in front of others -/

/-- Members and the closing brace behind them are read back: behind other members, and at the start
of an object. -/
structure MembersRead (outer : List Symbol) (input rest : List Token) (ms : List Member) :
    Prop where
  members : ∃ t, Takes .members (.tok .closeBrace :: outer) input (mark .closeBrace :: rest) t
    ∧ Declaration.membersOf t = .ok ms
  braced : ∃ t, Takes .braced outer input rest t
    ∧ ∀ whole, bracedOf whole t = .ok (.object (Tree.textOf whole) ms)

theorem branch?_bracedReadonly {t : Terminal} (hn : starts .readonlyRest t = true)
    (ht : t ≠ .openBracket) :
    branch? .bracedReadonly t = some (.via .readonlyRest Nonterminal.furtherMembers) := by
  simp [branch?, Nonterminal.branches, hn, ht.symm]

theorem memberOf_key {n : Nonterminal} (hmem : k.terminal ∈ keyHeads)
    (hk : k.terminal ≠ .readonlyWord) (t : Tree) :
    memberOf (.node n [.leaf k, t])
      = keyRestOf [.leaf k] (MemberName.plain <$> keyOf k) false t := by
  simp only [memberOf]
  split
  · next h => exact absurd h hk
  · next h =>
    rw [h] at hmem
    exact absurd hmem (by decide)
  · rfl

theorem MembersRead.nil : MembersRead outer (mark .closeBrace :: rest) rest [] where
  members := ⟨_, .omitted (u := .closeBrace) rfl (by decide) rfl, rfl⟩
  braced := ⟨_, .led (u := .closeBrace) rfl (by decide) .nil, fun _ => rfl⟩

namespace MembersRead

variable {ms : List Member} {m : Member} (h : MembersRead outer mid rest ms)

include h

/-- The semicolon behind a member, and the members behind it. -/
theorem unfolds_memberEnd :
    ∃ e, Unfolds .memberEnd (.tok .closeBrace :: outer) (mark .semicolon) mid
        (mark .closeBrace :: rest) e
      ∧ memberEndOf e = .ok ms := by
  obtain ⟨t, ht, hms⟩ := h.members
  exact ⟨_, .led (u := .semicolon) rfl (by decide) (.sub ht .nil), hms⟩

theorem takes_memberEnd :
    ∃ e, Takes .memberEnd (.tok .closeBrace :: outer) (mark .semicolon :: mid)
        (mark .closeBrace :: rest) e
      ∧ memberEndOf e = .ok ms := by
  obtain ⟨e, he, hms⟩ := h.unfolds_memberEnd
  exact ⟨e, .of_starts nofun (by decide) he, hms⟩

theorem reads_furtherMembers :
    ∃ e, Reads Nonterminal.furtherMembers outer (mark .semicolon :: mid) rest
        [e, .leaf (mark .closeBrace)]
      ∧ memberEndOf e = .ok ms := by
  obtain ⟨e, he, hms⟩ := h.takes_memberEnd
  exact ⟨e, .sub he (.tok (u := .closeBrace) rfl .nil), hms⟩

/-- A member that is read as such is read in front of other members. -/
theorem takes_members {t : Tree} (hk : Awaits (.sub .members :: .tok .closeBrace :: outer) k)
    (hmem : k.terminal ∈ .openBracket :: keyHeads)
    (ht : Unfolds .member (.sub .memberEnd :: .tok .closeBrace :: outer) k input
      (mark .semicolon :: mid) t) (hm : memberOf t = .ok m) :
    ∃ t', Takes .members (.tok .closeBrace :: outer) (k :: input) (mark .closeBrace :: rest) t'
      ∧ Declaration.membersOf t' = .ok (m :: ms) := by
  have hbranch : ∀ t ∈ .openBracket :: keyHeads,
      branch? .members t = some (.via .member [.sub .memberEnd]) := by
    decide
  have hvia := hbranch _ hmem
  obtain ⟨e, he, hms⟩ := h.takes_memberEnd
  refine ⟨_, .start hk (starts_of_branch? hvia) (.via hvia ht (.sub he .nil)), ?_⟩
  simp only [Declaration.membersOf, hm, hms]
  rfl

/-- A member that starts with a word or a mark of its own is read in front of other members. -/
theorem takes_marked {u : Terminal} {n : Nonterminal} {t : Tree}
    (hu : u ∈ [Terminal.readonlyWord, .openBracket] ∧ branch? .member u = some (.led u [.sub n]))
    (ht : Takes n (.sub .memberEnd :: .tok .closeBrace :: outer) input (mark .semicolon :: mid) t)
    (hm : memberOf (.node .member [.leaf (mark u), t]) = .ok m) :
    ∃ t', Takes .members (.tok .closeBrace :: outer) (mark u :: input) (mark .closeBrace :: rest) t'
      ∧ Declaration.membersOf t' = .ok (m :: ms) := by
  have htable : ∀ t ∈ [Terminal.readonlyWord, .openBracket],
      t ≠ .name ∧ starts .members t = true ∧ t ∈ .openBracket :: keyHeads := by
    decide
  obtain ⟨hname, hstarts, hmem⟩ := htable u hu.1
  exact h.takes_members (.of_expects hname (expects_of_starts hstarts)) hmem
    (.led rfl hu.2 (.sub ht .nil)) hm

/-! ### Properties whose first token is a key -/

/-- A property whose key comes first is read in front of other members. -/
theorem key {name : Text} (hk : IsKey k name) (hkey : k.terminal ≠ .readonlyWord)
    {type : Option TypeForm} (htype : ∀ f ∈ type, f.Reads) (optional : Bool) :
    MembersRead outer (tokensOfKeyed false k optional type ++ mark .semicolon :: mid) rest
      (keyedMember false k name optional type :: ms) := by
  have hbranch : ∀ t ∈ keyHeads, t ≠ .readonlyWord →
      branch? .member t = some (.led t [.sub .keyRest])
        ∧ branch? .braced t = some (.via .member Nonterminal.furtherMembers) := by
    decide
  obtain ⟨hmember, hbraced⟩ := hbranch _ hk.terminal_mem hkey
  obtain ⟨r, hr, hrest⟩ := hk.takes_rest htype
    (ahead_memberEnd (.tok .closeBrace :: outer) mid) false optional
  obtain ⟨e, he, hms⟩ := h.reads_furtherMembers
  have hm : memberOf (.node .member [.leaf k, r])
      = .ok (keyedMember false k name optional type) := by
    rw [memberOf_key hk.terminal_mem hkey]
    exact hrest false [.leaf k] rfl
  -- Once behind other members and once as the first one of a type in braces.
  constructor
  · exact h.takes_members (hk.awaits (by decide) fun _ => expects_closeBrace)
      (List.mem_cons_of_mem _ hk.terminal_mem) (.led rfl hmember (.sub hr .nil)) hm
  · refine ⟨_, .start (hk.awaits (by decide) nofun)
      (starts_of_branch? hbraced) (.via hbraced (.led rfl hmember (.sub hr .nil)) he),
      fun whole => ?_⟩
    simp only [bracedOf, hm, hms]
    rfl

/-! ### Properties whose first token is the word `readonly` -/

theorem takes_bracedReadonly {t : Tree}
    (ht : Takes .readonlyRest (.sub .memberEnd :: .tok .closeBrace :: outer) input
      (mark .semicolon :: mid) t)
    (hm : readonlyRestOf (mark .readonlyWord) t = .ok m)
    (hbracket : ∀ k ∈ input.head?, k.terminal ≠ .openBracket) :
    ∃ b, Takes .bracedReadonly outer input rest b
      ∧ ∀ whole, bracedReadonlyOf whole (mark .readonlyWord) b
        = .ok (.object (Tree.textOf whole) (m :: ms)) := by
  cases ht with
  | @start k _ _ _ hk hn ht =>
    have hvia := branch?_bracedReadonly hn (hbracket k rfl)
    obtain ⟨e, he, hms⟩ := h.reads_furtherMembers
    obtain ⟨ts, rfl⟩ := ht.isNode
    refine ⟨_, .start (hk.narrow (starts_of_branch? hvia) (by decide)) (starts_of_branch? hvia)
      (.via hvia ht he), fun whole => ?_⟩
    simp only [bracedReadonlyOf, hm, hms]
    rfl
  | skip =>
    -- The word is the key of a property without type.
    have hvia : branch? .bracedReadonly .semicolon
        = some (.via .memberEnd [.tok .closeBrace]) := by
      decide
    obtain ⟨e, he, hms⟩ := h.unfolds_memberEnd
    obtain ⟨es, rfl⟩ := he.isNode
    cases hm
    refine ⟨_, .of_branch? (k := mark .semicolon) nofun hvia
      (.via hvia he (.tok (u := .closeBrace) rfl .nil)), fun whole => ?_⟩
    simp only [bracedReadonlyOf, hms]
    rfl

/-- What starts with the word `readonly` and has no key in brackets is read in front of other
members. -/
theorem readonlyWord {t : Tree}
    (ht : Takes .readonlyRest (.sub .memberEnd :: .tok .closeBrace :: outer) input
      (mark .semicolon :: mid) t)
    (hm : readonlyRestOf (mark .readonlyWord) t = .ok m)
    (hbracket : ∀ k ∈ input.head?, k.terminal ≠ .openBracket) :
    MembersRead outer (mark .readonlyWord :: input) rest (m :: ms) where
  members := h.takes_marked (n := .readonlyRest) (by decide) ht hm
  braced := by
    obtain ⟨b, hb, hbraced⟩ := h.takes_bracedReadonly ht hm hbracket
    exact ⟨_, .led (u := .readonlyWord) rfl (by decide) (.sub hb .nil), hbraced⟩

/-- A property whose key comes behind the word `readonly` is read in front of other members. -/
theorem readonlyKey {name : Text} (hk : IsKey k name) {type : Option TypeForm}
    (htype : ∀ f ∈ type, f.Reads) (optional : Bool) :
    MembersRead outer (tokensOfKeyed true k optional type ++ mark .semicolon :: mid) rest
      (keyedMember true k name optional type :: ms) := by
  obtain ⟨t, ht, hm⟩ := takes_readonlyRest_key htype optional hk outer mid
  refine h.readonlyWord ht hm fun k hk' => ?_
  cases hk'
  exact (by decide : ∀ t ∈ keyHeads, t ≠ .openBracket) _ hk.terminal_mem

/-- A property whose key is a single token other than the word `readonly` is read in front of other
members. -/
theorem keyed {name : Text} (hk : IsKey k name) (hkey : k.terminal ≠ .readonlyWord)
    {type : Option TypeForm} (htype : ∀ f ∈ type, f.Reads) (readonly optional : Bool) :
    MembersRead outer (tokensOfKeyed readonly k optional type ++ mark .semicolon :: mid) rest
      (keyedMember readonly k name optional type :: ms) := by
  cases readonly with
  | false => exact h.key hk hkey htype optional
  | true => exact h.readonlyKey hk htype optional

/-! ### Properties whose key is in brackets -/

/-- A property whose key is in brackets is read in front of other members. -/
theorem bracket {type : Option TypeForm} (htype : ∀ f ∈ type, f.Reads) (readonly optional : Bool)
    {key : Key} (hkey : ∀ k, key ≠ .plain k) :
    MembersRead outer ((Property.mk readonly key optional type).tokens
        ++ mark .semicolon :: mid) rest
      ((Property.mk readonly key optional type).member :: ms) := by
  obtain ⟨w, k, ks, n, hks, hk, hn, hname⟩ := unfolds_bracketedName htype
    (ahead_memberEnd (.tok .closeBrace :: outer) mid) readonly optional hkey
  obtain ⟨e, he, hms⟩ := h.reads_furtherMembers
  have htokens : (Property.mk readonly key optional type).tokens ++ mark .semicolon :: mid
      = tokensOfReadonly readonly ++ mark .openBracket :: w.token :: k
        :: (ks ++ (tokensOfRest optional type ++ mark .semicolon :: mid)) := by
    rw [Property.tokens, hks]
    simp [tokensOfReadonly, tokensOfRest]
  rw [htokens]
  have htable : ∀ t ∈ [Terminal.dot, .closeBracket],
      t ≠ .name ∧ starts (.bracketedName readonly) t = true
        ∧ branch? (.bracedName readonly) t
          = some (.via (.bracketedName readonly) Nonterminal.furtherMembers) := by
    cases readonly <;> decide
  obtain ⟨hplain, hstarts, hvia⟩ := htable _ hk
  -- What follows the bracket, behind other members and at the start of an object.
  have hbracketed := w.takes (n := .bracketed readonly) (by cases readonly <;> decide)
    (.sub (.of_starts hplain hstarts hn) .nil)
  have hbraced : Takes (.bracedName readonly) outer _ rest _ :=
    .of_branch? hplain hvia (.via hvia hn he)
  have hfirst := w.takes (n := .bracedBracketed readonly)
    (by cases readonly <;> decide) (.sub hbraced .nil)
  cases readonly with
  | false =>
    have hm := hname false [] rfl
    refine ⟨h.takes_marked (by decide) hbracketed hm,
      _, .led (u := .openBracket) rfl (by decide) (.sub hfirst .nil), fun whole => ?_⟩
    simp only [bracedOf, bracedBracketedOf, hm, hms]
    rfl
  | true =>
    have hm := hname true [.leaf (mark .readonlyWord)] rfl
    have hr := Takes.led (k := mark .openBracket) (n := .readonlyRest) (u := .openBracket) rfl
      (by decide) (.sub hbracketed .nil)
    have hbr := Takes.led (k := mark .openBracket) (n := .bracedReadonly) (u := .openBracket) rfl
      (by decide) (.sub hfirst .nil)
    refine ⟨h.takes_marked (by decide) hr hm,
      _, .led (u := .readonlyWord) rfl (by decide) (.sub hbr .nil), fun whole => ?_⟩
    simp only [bracedOf, bracedReadonlyOf, bracedBracketedOf, hm, hms]
    rfl

end MembersRead

/-! ### Lists of properties -/

/-- The type of a property, if it has one. -/
def Property.typeForm : Property → Option TypeForm
  | .mk _ _ _ type => type

theorem MembersRead.property {ms : List Member} (h : MembersRead outer mid rest ms) {p : Property}
    (hp : ∀ f ∈ p.typeForm, f.Reads) :
    MembersRead outer (p.tokens ++ mark .semicolon :: mid) rest (p.member :: ms) := by
  obtain ⟨readonly, key, optional, type⟩ := p
  cases key with
  | member scope m => exact h.bracket hp readonly optional nofun
  | computed w => exact h.bracket hp readonly optional nofun
  | plain key =>
    cases readonly with
    | false =>
      -- The word `readonly` may be a key itself, and then something must follow that is no key.
      by_cases hkey : key.token.terminal = .readonlyWord
      · have htoken := key.token_eq_mark hkey
        obtain ⟨t, ht, hm⟩ := takes_readonlyRest hp optional htoken (.tok .closeBrace :: outer) mid
        have htokens : (Property.mk false (.plain key) optional type).tokens
            = mark .readonlyWord :: tokensOfRest optional type := by
          rw [Property.tokens, Key.tokens, htoken]
          rfl
        rw [htokens, List.cons_append]
        refine h.readonlyWord ht hm fun k hk => ?_
        obtain ⟨k, ks, hinput, hmem, -⟩ : Ahead _ _ (tokensOfRest optional type ++ _) :=
          ahead_rest optional outer mid
        rw [hinput] at hk
        cases hk
        exact (by decide : ∀ t ∈ [Terminal.question, .colon, .semicolon], t ≠ .openBracket) _ hmem
      · exact h.key key.isKey hkey hp optional
    | true => exact h.readonlyKey key.isKey hp optional

/-- Properties are read in front of other members if their types are. -/
theorem MembersRead.append {ms : List Member} (h : MembersRead outer mid rest ms)
    {ps : List Property} (hps : ∀ p ∈ ps, ∀ f ∈ p.typeForm, f.Reads) :
    MembersRead outer (tokensOfProperties ps ++ mid) rest (membersOf ps ++ ms) := by
  induction ps with
  | nil => exact h
  | cons p more ih =>
    obtain ⟨hp, hmore⟩ := List.forall_mem_cons.mp hps
    rw [tokensOfProperties, List.append_assoc]
    exact (ih hmore).property hp

/-- The members of an object or of an interface are read back if their types are. -/
theorem MembersRead.properties {ps : List Property} (h : ∀ p ∈ ps, ∀ f ∈ p.typeForm, f.Reads)
    (outer : List Symbol) (rest : List Token) :
    MembersRead outer (tokensOfProperties ps ++ mark .closeBrace :: rest) rest (membersOf ps) := by
  have hnil : MembersRead outer (mark .closeBrace :: rest) rest [] := .nil
  have hall := hnil.append h
  rw [List.append_nil] at hall
  exact hall

/-! ### Objects -/

theorem primaryOf_brace {n m : Nonterminal} {ts : List Tree} (hk : k.terminal = .openBrace) :
    primaryOf (.node n [.leaf k, .node m ts])
      = bracedOf [.node n [.leaf k, .node m ts]] (.node m ts) := by
  simp only [primaryOf, hk]

theorem Operand.Reads.object {ps : List Property} (h : ∀ p ∈ ps, ∀ f ∈ p.typeForm, f.Reads) :
    (Operand.object ps).Reads := by
  refine .of_primary rfl ⟨nofun, nofun⟩ fun outer mid => ?_
  rw [List.append_assoc, List.singleton_append]
  obtain ⟨t, ht, hbraced⟩ := (MembersRead.properties h outer mid).braced
  obtain ⟨ts, rfl⟩ := ht.isNode
  refine ⟨_, .led (u := .openBrace) rfl (by decide) (.sub ht .nil), fun hts => ?_⟩
  rw [primaryOf_brace rfl, hbraced, textOf_trees hts]
  rfl

end DeclSchema.Canonical
