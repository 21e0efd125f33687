import DeclSchema.Proofs.Declaration.Aliases
import DeclSchema.Proofs.Declaration.Spelling
import DeclSchema.Proofs.Declaration.Statements

/-!
# Literals in declarations

A literal that is put together from spelled characters is read as one token wherever a string is
admitted. As a type it stands for its characters; as a key of a property or of an enum member it
names what its characters are, with any members before it and behind it. Whether a key comes first
in an object type, behind the word `readonly` or behind other members, the grammar has branches of
their own for each of these places, and the key is read alike in all of them.

## Main definitions

* `NamesProperty`, `NamesEnumMember`: a token is the key of a name wherever it stands as a key

## Main results

* `ofSource_interface`, `ofSource_object`, `ofSource_enumeration`: a source of one declaration,
  whatever its members are read from
* `literal_readsBack`: the literal of some characters is read back as them
-/

namespace DeclSchema.Canonical

open Grammar Declaration

variable {outer : List Symbol} {k : Token} {mid : List Token}

/-! ### Sources of one declaration -/

/-- The only declaration of a source is read to the end. -/
theorem takes_end :
    Takes .optionalSemicolon [.sub .statements] [] [] (.node .optionalSemicolon []) :=
  .finish rfl

theorem ofSource_spelling {ks : List Token} (hks : AllSpaced ks) {t : Tree} {ds : List Declaration}
    (ht : Takes .statements [] (unled ks) [] t) (hds : declarationsOf t = .ok ds) :
    ofSource (Tree.spelling ks) = .ok ds := by
  have hread : Grammar.read (Tree.spelling ks) = .ok [t] := by
    rw [← source_unled]
    exact read_of_takes ht (isSpaced_unled hks)
  rw [ofSource, hread]
  simp only [List.mapM_cons, List.mapM_nil, hds]
  simp

/-- An interface is read back if its members are. -/
theorem ofSource_interface (name : Word) (parameters : List Word) (heritage : List HeritageForm)
    {members : List Token} {ms : List Member} (hmembers : AllSpaced members)
    (hms : ∀ outer mid, MembersRead outer (members ++ mark .closeBrace :: mid) mid ms) :
    ofSource (Tree.spelling (mark .interfaceWord :: interfaceTail name parameters heritage members))
      = .ok [.interface name.text
        (textOf (mark .interfaceWord :: interfaceTail name parameters heritage members))
        (parameters.map (·.text)) (heritage.map (·.heritage)) ms] := by
  have hspaced : AllSpaced (mark .interfaceWord
      :: interfaceTail name parameters heritage members) :=
    .mark (.cons name.isSpaced (.append (.append
      (.append (allSpaced_bracketed (.map Word.allSpaced)) (allSpaced_extending heritage))
      (.mark hmembers)) (.mark .nil)))
  obtain ⟨t, ht, hd⟩ := unfolds_interface
    (k := { mark .interfaceWord with trivia := [] }) rfl takes_end name parameters heritage
    (hms _ _) rfl
  rw [List.append_nil] at ht
  obtain ⟨r, hr, hds⟩ := takes_definition (by decide) ht hd (.finish rfl) rfl
  exact ofSource_spelling hspaced hr hds

/-- An enum is read back if its members are. -/
theorem ofSource_enumeration (name : Word) {keys : List (Token × Text)} (hkeys : AreKeys keys)
    (hspaced : AllSpaced (keys.map (·.1))) :
    ofSource (Tree.spelling (mark .enumWord :: enumTail name (keys.map (·.1))))
      = .ok [.enumeration name.text (textOf (mark .enumWord :: enumTail name (keys.map (·.1))))
        (keys.map (·.2))] := by
  have hall : AllSpaced (mark .enumWord :: enumTail name (keys.map (·.1))) :=
    .mark (.cons name.isSpaced (.mark (.append (allSpaced_separated hspaced) (.mark .nil))))
  obtain ⟨t, ht, hd⟩ := unfolds_enumeration
    (k := { mark .enumWord with trivia := [] }) rfl takes_end name hkeys rfl
  rw [List.append_nil] at ht
  obtain ⟨r, hr, hds⟩ := takes_definition (by decide) ht hd (.finish rfl) rfl
  exact ofSource_spelling hall hr hds

/-- An alias is read back if its type is. -/
theorem ofSource_typeAlias (name : Word) (parameters : List Word) {type : List Token}
    {T : TypeExpr} {u : Tree} (htype : AllSpaced type)
    (hu : Takes (.type true) [.tok .semicolon, .sub .statements] (type ++ [mark .semicolon])
      [mark .semicolon] u)
    (hT : typeOf u = .ok T) :
    ofSource (Tree.spelling (mark .typeWord :: aliasTail name parameters type))
      = .ok [.typeAlias name.text (textOf (mark .typeWord :: aliasTail name parameters type))
        (parameters.map (·.text)) (some T)] := by
  have hall : AllSpaced (mark .typeWord :: aliasTail name parameters type) :=
    .mark (.cons name.isSpaced (.append (.append (allSpaced_bracketed (.map Word.allSpaced))
      (.mark htype)) (.mark .nil)))
  obtain ⟨t, ht, hd⟩ := takes_aliasBody (k := { mark .typeWord with trivia := [] }) rfl name
    parameters rfl hu hT
  rw [List.append_nil] at ht
  have hstatement : Takes .statements [] (unled (mark .typeWord :: aliasTail name parameters type))
      [] _ :=
    .led (u := .typeWord) rfl (by decide) (.sub ht (.sub (.finish rfl) .nil))
  exact ofSource_spelling hall hstatement (declarationsOf_typeWord rfl hd rfl)

/-! ### Object types -/

/-- The tokens of an object type around the tokens of its members. -/
def tokensOfObject (members : List Token) : List Token :=
  mark .openBrace :: (members ++ [mark .closeBrace])

/-- An object type with nothing behind it that goes on with a type. -/
theorem takes_object {members : List Token} {ms : List Member}
    (hahead : Ahead afterType outer mid)
    (hms : ∀ outer, MembersRead outer (members ++ mark .closeBrace :: mid) mid ms) :
    ∃ t, Takes (.type true) outer (tokensOfObject members ++ mid) mid t
      ∧ typeOf t = .ok (.object (textOf (tokensOfObject members)) ms) := by
  have hrest := hahead.takes (n := .typeRest true) (by decide)
  have hsuffixes := (hahead.sub (n := .typeRest true) rfl).takes (n := .suffixes) (by decide)
  obtain ⟨b, hb, hbraced⟩ := (hms (.sub .suffixes :: .sub (.typeRest true) :: outer)).braced
  have hprimary := Unfolds.led (n := .primary) (k := mark .openBrace) (u := .openBrace) rfl
    (by decide) (.sub hb .nil)
  have hinput : mark .openBrace :: (members ++ mark .closeBrace :: mid)
      = tokensOfObject members ++ mid := by
    simp [tokensOfObject]
  have htext := tokens_of_unfolds hprimary hinput.symm
  obtain ⟨bs, rfl⟩ := hb.isNode
  have hbranch : branch? (.type true) .openBrace
        = some (.via .operator [.sub (.typeRest true)])
      ∧ branch? .operator .openBrace = some (.via .primary [.sub .suffixes]) := by
    decide
  have htype := Unfolds.via (k := mark .openBrace) hbranch.1
    (.via hbranch.2 hprimary (.sub hsuffixes .nil)) (.sub hrest .nil)
  rw [← hinput]
  refine ⟨_, .of_branch? nofun hbranch.1 htype, ?_⟩
  -- Neither brackets nor bars follow, so the chain has this one type.
  simp only [typeOf_operator, primaryOf_brace (k := mark .openBrace) rfl, hbraced, suffixesOf,
    chainOf, textOf_trees htext]
  rfl

/-- An object type is read back if its members are. -/
theorem ofSource_object (name : Word) (parameters : List Word) {members : List Token}
    {ms : List Member} (hmembers : AllSpaced members)
    (hms : ∀ outer mid, MembersRead outer (members ++ mark .closeBrace :: mid) mid ms) :
    ofSource (Tree.spelling (mark .typeWord :: aliasTail name parameters (tokensOfObject members)))
      = .ok [.typeAlias name.text
        (textOf (mark .typeWord :: aliasTail name parameters (tokensOfObject members)))
        (parameters.map (·.text)) (some (.object (textOf (tokensOfObject members)) ms))] := by
  have hend : Ahead afterType [.tok .semicolon, .sub .statements] [mark .semicolon] :=
    ahead_mark (by decide)
  obtain ⟨u, hu, hT⟩ := takes_object hend (hms · _)
  exact ofSource_typeAlias name parameters (.mark (.append hmembers (.mark .nil))) hu hT

/-! ### Tokens that are keys -/

/-- The tokens of a property between others. -/
def tokensAround (before after : List Property) (property : List Token) : List Token :=
  tokensOfProperties before ++ (property ++ mark .semicolon :: tokensOfProperties after)

/-- A member between properties. -/
def membersAround (before after : List Property) (member : Member) : List Member :=
  membersOf before ++ member :: membersOf after

/-- The token is the key of a property with the name: in an interface and in an object type, between
any other properties, behind the word `readonly` or without it, and with whatever mark and type. -/
structure NamesProperty (k : Token) (name : Text) : Prop where
  interface (declared : Word) (parameters : List Word) (heritage : List HeritageForm)
    (before after : List Property) (readonly optional : Bool) (type : Option TypeForm) :
    ofSource (Tree.spelling (mark .interfaceWord :: interfaceTail declared parameters heritage
        (tokensAround before after (tokensOfKeyed readonly k optional type))))
      = .ok [.interface declared.text
        (textOf (mark .interfaceWord :: interfaceTail declared parameters heritage
          (tokensAround before after (tokensOfKeyed readonly k optional type))))
        (parameters.map (·.text)) (heritage.map (·.heritage))
        (membersAround before after (keyedMember readonly k name optional type))]
  object (declared : Word) (parameters : List Word) (before after : List Property)
    (readonly optional : Bool) (type : Option TypeForm) :
    ofSource (Tree.spelling (mark .typeWord :: aliasTail declared parameters
        (tokensOfObject (tokensAround before after (tokensOfKeyed readonly k optional type)))))
      = .ok [.typeAlias declared.text
        (textOf (mark .typeWord :: aliasTail declared parameters
          (tokensOfObject (tokensAround before after (tokensOfKeyed readonly k optional type)))))
        (parameters.map (·.text))
        (some (.object
          (textOf (tokensOfObject
            (tokensAround before after (tokensOfKeyed readonly k optional type))))
          (membersAround before after (keyedMember readonly k name optional type))))]

/-- The token is a member of an enum with the name, between any other members. -/
def NamesEnumMember (k : Token) (name : Text) : Prop :=
  ∀ (declared : Word) (before after : List PlainKey),
    ofSource (Tree.spelling (mark .enumWord
        :: enumTail declared (before.map (·.token) ++ k :: after.map (·.token))))
      = .ok [.enumeration declared.text
        (textOf (mark .enumWord
          :: enumTail declared (before.map (·.token) ++ k :: after.map (·.token))))
        (before.map (·.text) ++ name :: after.map (·.text))]

namespace IsKey

variable {name : Text}

theorem allSpaced (hspaced : k.IsSpaced) (before after : List Property) (readonly optional : Bool)
    (type : Option TypeForm) :
    AllSpaced (tokensAround before after (tokensOfKeyed readonly k optional type)) := by
  have hreadonly : AllSpaced (tokensOfReadonly readonly) := by
    cases readonly
    · exact .nil
    · exact .mark .nil
  have hrest : AllSpaced (tokensOfRest optional type) := by
    refine .append ?_ (allSpaced_annotated type)
    cases optional
    · exact .nil
    · exact .mark .nil
  exact .append (allSpaced_properties before)
    (.append (.append hreadonly (.cons hspaced hrest)) (.mark (allSpaced_properties after)))

theorem membersRead (h : IsKey k name) (hk : k.terminal ≠ .readonlyWord)
    (before after : List Property) (readonly optional : Bool) (type : Option TypeForm)
    (outer : List Symbol) (mid : List Token) :
    MembersRead outer (tokensAround before after (tokensOfKeyed readonly k optional type)
        ++ mark .closeBrace :: mid) mid
      (membersAround before after (keyedMember readonly k name optional type)) := by
  have hafter := MembersRead.properties (reads_properties after) outer mid
  have hall := (hafter.keyed h hk (reads_annotated type) readonly optional).append
    (reads_properties before)
  rw [tokensAround, List.append_assoc, List.append_assoc, List.cons_append]
  exact hall

theorem namesProperty (h : IsKey k name) (hspaced : k.IsSpaced)
    (hk : k.terminal ≠ .readonlyWord) : NamesProperty k name where
  interface declared parameters heritage before after readonly optional type :=
    ofSource_interface declared parameters heritage
      (allSpaced hspaced before after readonly optional type)
      (h.membersRead hk before after readonly optional type)
  object declared parameters before after readonly optional type :=
    ofSource_object declared parameters (allSpaced hspaced before after readonly optional type)
      (h.membersRead hk before after readonly optional type)

theorem namesEnumMember (h : IsKey k name) (hspaced : k.IsSpaced) : NamesEnumMember k name := by
  intro declared before after
  let pairs : List PlainKey → List (Token × Text) := List.map fun key => (key.token, key.text)
  have hkeys : AreKeys (pairs before ++ (k, name) :: pairs after) := by
    refine List.forall_mem_append.2 ⟨areKeys_plainKeys before, ?_⟩
    exact List.forall_mem_cons.2 ⟨h, areKeys_plainKeys after⟩
  have hspaced : AllSpaced ((pairs before ++ (k, name) :: pairs after).map (·.1)) := by
    have hkeys (keys : List PlainKey) : AllSpaced ((pairs keys).map (·.1)) := by
      simp only [pairs, List.map_map]
      exact List.forall_mem_map.2 fun key _ => key.isSpaced
    rw [List.map_append, List.map_cons]
    exact .append (hkeys before) (.cons hspaced (hkeys after))
  have hall := ofSource_enumeration declared hkeys hspaced
  simp only [pairs, List.map_append, List.map_cons, List.map_map] at hall
  exact hall

end IsKey

end DeclSchema.Canonical

/-! ### Literals -/

namespace DeclSchema.Escape

open Grammar Declaration Canonical

variable {s cs : List Char}

/-- The tree of a type that is a literal. -/
def literalTree (s : List Char) : Tree :=
  .node (.type true) [.node .operator [.node .primary [.leaf ⟨.string, [], s⟩],
    .node .suffixes []], .node (.typeRest true) []]

theorem tokensOf_literalTree (s : List Char) :
    Tree.tokensOf [literalTree s] = [⟨.string, [], s⟩] := by
  simp [literalTree, Tree.tokensOf, Tree.tokens]

namespace IsLiteral

theorem isLexeme (h : IsLiteral s cs) : IsLexeme .string s :=
  ⟨h.ne_nil, h.stringLength_eq, .inr (.inl rfl)⟩

theorem isKey (h : IsLiteral s cs) : IsKey (spaced .string s) (.ofChars cs) where
  terminal_mem := (by decide : Terminal.string ∈ keyHeads)
  lexeme_ne := nofun
  keyOf_eq := h.unquote_eq

/-- A literal is the next token wherever a string is expected, whatever comes behind it. -/
theorem sees (h : IsLiteral s cs) {symbols : List Symbol}
    (hexpects : expects symbols .string = true) (after : List Char) :
    Sees symbols (s ++ after) ⟨.string, [], s⟩ after where
  input_eq := rfl
  triviaLength_eq := by
    obtain ⟨c, rest, rfl, hblank, hslash⟩ := h.isLexeme.exists_head
    exact triviaLength_eq_zero hblank hslash _
  nonempty := h.ne_nil
  lexeme?_eq := IsLexeme.lexeme?_string h.stringLength_eq h.ne_nil (by rw [hexpects, Bool.true_or])
  expected := hexpects

theorem stands (h : IsLiteral s cs) : Stands (.type true) [.tok .semicolon] (literalTree s) := by
  have hsemicolon {symbols : List Symbol} (hexpects : expects symbols .semicolon = true) :
      Sees symbols [';'] ⟨.semicolon, [], [';']⟩ [] :=
    sees_closedMark (u := .semicolon) (by decide) hexpects .nil []
  have hinput : source (Tree.tokensOf [literalTree s]) ++ [';'] = s ++ [';'] := by
    rw [tokensOf_literalTree]
    simp [source, Token.source]
  rw [Stands, hinput]
  have hoperator : Derives (.node .operator ⟨.string, [], s⟩)
      [.sub (.typeRest true), .tok .semicolon] [';'] _ [';'] :=
    .via rfl (.led rfl .nil) (.skip (hsemicolon rfl) rfl .nil)
  exact derives_sub_iff.2
    (.inl ⟨_, _, h.sees rfl _, rfl, .via rfl hoperator (.skip (hsemicolon rfl) rfl .nil)⟩)

/-- A literal is the type of its characters. -/
theorem rereads (h : IsLiteral s cs) :
    Rereads (.literal (.ofChars s) (.ofString "string") (.text (.ofChars cs))) := by
  have htext {t : Tree} (ht : Tree.tokensOf [t] = [⟨.string, [], s⟩]) :
      Tree.textOf [t] = .ofChars s :=
    (textOf_trees ht).trans (textOf_single _)
  refine ⟨literalTree s, h.stands, ?_, (htext (tokensOf_literalTree s)).symm⟩
  have hprimary := primaryOf_string (k := ⟨.string, [], s⟩) rfl h.unquote_eq
  rw [htext (by simp [Tree.tokensOf, Tree.tokens])] at hprimary
  simp only [literalTree, typeOf_operator, hprimary, suffixesOf, chainOf]
  rfl

theorem ofSource_aliasSource (h : IsLiteral s cs) :
    ofSource (aliasSource s) = .ok [.typeAlias (.ofString "T") (.ofChars (aliasSource s)) []
      (some (.literal (.ofChars s) (.ofString "string") (.text (.ofChars cs))))] := by
  obtain ⟨text, htext, hsource⟩ := h.rereads.isAliased
  have hs : s = text := by
    have hglyphs := congrArg Text.glyphs htext
    rwa [TypeExpr.text, Text.glyphs_ofChars, Text.glyphs_ofChars] at hglyphs
  rw [hs] at hsource ⊢
  exact hsource

end IsLiteral

/-- A literal of spelled characters is read as one token, whatever comes behind it. The alias for it
is an alias for the string of these characters, and as a key of a property or of an enum member it
names what they are. -/
theorem literal_readsBack (h : IsLiteral s cs) :
    (∀ admits after, admits .string = true → lexeme? admits (s ++ after) = some (.string, s.length))
      ∧ ofSource (aliasSource s) = .ok [.typeAlias (.ofString "T") (.ofChars (aliasSource s)) []
        (some (.literal (.ofChars s) (.ofString "string") (.text (.ofChars cs))))]
      ∧ NamesProperty (spaced .string s) (.ofChars cs)
      ∧ NamesEnumMember (spaced .string s) (.ofChars cs) := by
  have hspaced : (spaced .string s).IsSpaced := ⟨rfl, h.isLexeme⟩
  refine ⟨?_, h.ofSource_aliasSource, h.isKey.namesProperty hspaced nofun,
    h.isKey.namesEnumMember hspaced⟩
  intro admits after hadmits
  exact IsLexeme.lexeme?_string h.stringLength_eq h.ne_nil hadmits

/-- A literal between single quotes with every way to spell a character. -/
theorem isLiteral_mixed :
    IsLiteral "'a\"\\n\\x41\\u0042\\u\x7b000e9\x7d\\q\\''".toList "a\"\nAB\u00e9q'".toList := by
  have hspelled : SpellsAll '\'' (['a'] ++ (['"'] ++ (['\\', 'n'] ++ ('\\' :: 'x' :: ['4', '1']
      ++ ('\\' :: 'u' :: ['0', '0', '4', '2']
      ++ ('\\' :: 'u' :: '\x7b' :: (['0', '0', '0', 'e', '9'] ++ ['\x7d'])
      ++ (['\\', 'q'] ++ (['\\', '\''] ++ []))))))))
      ['a', '"', '\n', 'A', 'B', '\u00e9', 'q', '\''] :=
    .cons (.raw (by decide) (by decide) (by decide)) <|
    .cons (.raw (by decide) (by decide) (by decide)) <|
    .cons (.control (by decide)) <|
    .cons (.two rfl ⟨by decide, by decide⟩) <|
    .cons (.four rfl ⟨by decide, by decide⟩) <|
    .cons (.braced nofun ⟨by decide, by decide⟩) <|
    .cons (.self (by decide) (by decide)) <|
    .cons (.self (by decide) (by decide)) .nil
  exact .intro (by decide) hspelled

theorem literal_readsBack_mixed :
    ofSource "type T = 'a\"\\n\\x41\\u0042\\u\x7b000e9\x7d\\q\\'';".toList
      = .ok [.typeAlias (.ofString "T")
        (.ofString "type T = 'a\"\\n\\x41\\u0042\\u\x7b000e9\x7d\\q\\'';") []
        (some (.literal (.ofString "'a\"\\n\\x41\\u0042\\u\x7b000e9\x7d\\q\\''")
          (.ofString "string") (.text (.ofString "a\"\nAB\u00e9q'"))))] :=
  (literal_readsBack isLiteral_mixed).2.1

end DeclSchema.Escape
