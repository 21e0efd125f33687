import DeclSchema.Proofs.Declaration.Concatenation
import DeclSchema.Proofs.Declaration.Regrouped
import DeclSchema.Proofs.Grammar.Layout

/-!
# Types as aliases

A type that some tokens before a semicolon are read as is the type of an alias that is written with
the text of these tokens: what stood before the first of them is not in the text, and does not
matter.

## Main definitions

* `aliasSource`: the source of one alias
* `IsAliased`: the alias that is written with the text of a type has that type
* `Rereads`: the text of a type is that of tokens that are read as it before a semicolon

## Main results

* `Derives.lead`, `Stands.lead`: a tree with other blanks before its first token
* `Rereads.isAliased`: what is read before a semicolon is the type of an alias
-/

namespace DeclSchema

namespace Grammar

open Terminal Nonterminal Grammar.Tree

variable {n : Nonterminal} {symbols outer : List Symbol} {input rest : List Char} {k : Token}
  {t : Tree}

/-! ### Blanks before the first token -/

theorem Derives.lead_node {task : Task} {ts : List Tree} (h : Derives task outer input ts rest)
    (htask : task = .node n k) (hts : ts = [t]) (trivia : List Char) :
    Derives (.node n { k with trivia := trivia }) outer input [t.lead trivia] rest := by
  induction h generalizing n k t with
  | nil => cases htask
  | tok => cases htask
  | start => cases htask
  | skip => cases htask
  | finish => cases htask
  | led hbranch h =>
    cases htask
    cases hts
    exact .led hbranch h
  | via hbranch _ h ih =>
    cases htask
    cases hts
    exact .via hbranch (ih rfl rfl) h

/-- The next token is the same behind other blanks. -/
theorem Sees.lead (hk : Sees symbols input k rest) {trivia : List Char} (htrivia : IsTrivia trivia) :
    Sees symbols (trivia ++ (k.lexeme ++ rest)) { k with trivia := trivia } rest where
  input_eq := rfl
  triviaLength_eq := htrivia.triviaLength_eq hk.triviaLength_lexeme
  nonempty := hk.nonempty
  lexeme?_eq := hk.lexeme?_eq
  expected := hk.expected

/-- A tree that stands before a semicolon has a first token, from which the tree is read. -/
theorem Stands.exists_first (h : Stands n outer t) (hn : n.mayBeEmpty = false) :
    ∃ k ks, tokensOf [t] = k :: ks ∧
      Sees (.sub n :: outer) (source (k :: ks) ++ [';']) k (source ks ++ [';']) ∧
      starts n k.terminal = true ∧
      Derives (.node n k) outer (source ks ++ [';']) [t] [';'] := by
  obtain ⟨k, next, hk, hstarts, ht⟩ | ⟨-, -, hempty, -⟩ := derives_sub_iff.1 h
  · obtain ⟨ks, hks, rfl⟩ := ht.exists_tokens
    have hfirst : tokensOf [t] = k :: ks := hks
    rw [hfirst] at hk
    exact ⟨k, ks, hfirst, hk, hstarts, ht⟩
  · rw [hn] at hempty
    cases hempty

/-- A tree that stands before a semicolon does so with other blanks before it. -/
theorem Stands.lead (h : Stands n outer t) (hn : n.mayBeEmpty = false) {trivia : List Char}
    (htrivia : IsTrivia trivia) :
    Derives (.list [.sub n]) outer (trivia ++ (Tree.spelling (tokensOf [t]) ++ [';']))
      [t.lead trivia] [';'] := by
  obtain ⟨k, ks, hks, hk, hstarts, ht⟩ := h.exists_first hn
  have hinput : trivia ++ (Tree.spelling (tokensOf [t]) ++ [';'])
      = trivia ++ (k.lexeme ++ (source ks ++ [';'])) := by
    rw [hks, Tree.spelling, source, List.append_assoc]
  rw [hinput]
  exact derives_sub_iff.2 (.inl ⟨_, _, hk.lead htrivia, hstarts, ht.lead_node rfl rfl trivia⟩)

/-- A token before a gap is the next one where it is awaited. -/
theorem Awaits.sees_gap (h : Awaits symbols k) (htrivia : IsTrivia k.trivia)
    (hlexeme : IsLexeme k.terminal k.lexeme) {after : List Char} (hafter : IsGap after) :
    Sees symbols (k.trivia ++ (k.lexeme ++ after)) k after where
  input_eq := rfl
  triviaLength_eq := by
    obtain ⟨c, more, hc, hblank, hslash⟩ := hlexeme.exists_head
    rw [hc]
    exact htrivia.triviaLength_eq (triviaLength_eq_zero hblank hslash _)
  nonempty := hlexeme.nonempty
  lexeme?_eq := hlexeme.lexeme?_append hafter (by simp [h.expected]) h.plain
  expected := h.expected

end Grammar

/-! ### Aliases -/

namespace Declaration

open Grammar Grammar.Tree Grammar.Terminal Grammar.Nonterminal

/-- The source of the alias `T` for a type with the given text. -/
def aliasSource (cs : List Char) : List Char :=
  "type T = ".toList ++ (cs ++ [';'])

/-- The alias that is written with the text of the type is read as one alias for this very type. -/
def IsAliased (T : TypeExpr) : Prop :=
  ∃ cs, T.text = .ofChars cs ∧
    ofSource (aliasSource cs)
      = .ok [.typeAlias (.ofString "T") (.ofChars (aliasSource cs)) [] (some T)]

/-- The text of the type is that of a tree that is read as the type before a semicolon. -/
def Rereads (T : TypeExpr) : Prop :=
  ∃ u, Stands (.type true) [.tok .semicolon] u ∧ typeOf u = .ok T ∧ T.text = textOf [u]

theorem isGap_space (after : List Char) : IsGap (' ' :: after) := by
  refine isGap_of_isOther ?_
  rintro _ ⟨⟩
  decide

/-- The tree of the body of an alias `T` around a type. -/
def aliasBodyTree (u : Tree) : Tree :=
  .node .aliasBody [.leaf ⟨.name, [' '], ['T']⟩, .node .typeParameters [],
    .leaf ⟨.equals, [' '], ['=']⟩, u.lead [' '], .leaf ⟨.semicolon, [], [';']⟩]

/-- A type that stands before a semicolon is read in the body of an alias. -/
theorem derives_aliasBody {u : Tree} (h : Stands (.type true) [.tok .semicolon] u) :
    Derives (.list [.sub .aliasBody]) [.sub .statements]
      (" T = ".toList ++ (Tree.spelling (tokensOf [u]) ++ [';'])) [aliasBodyTree u] [] := by
  have hspace : IsTrivia [' '] := .blank (by decide) .nil
  have htype : Derives (.list [.sub (.type true)]) [.tok .semicolon, .sub .statements]
      (' ' :: (Tree.spelling (tokensOf [u]) ++ [';'])) [u.lead [' ']] [';'] :=
    (h.lead rfl hspace).congr (by funext v; rfl)
  -- Each token is awaited where it stands, and a blank or the end of the source ends it.
  have hsemicolon : Sees [.tok .semicolon, .sub .statements] [';'] ⟨.semicolon, [], [';']⟩ [] :=
    sees_closedMark (u := .semicolon) (by decide) rfl .nil []
  have hequals {symbols : List Symbol} (hexpects : expects symbols .equals = true) :
      Sees symbols (" = ".toList ++ (Tree.spelling (tokensOf [u]) ++ [';']))
        ⟨.equals, [' '], ['=']⟩ (' ' :: (Tree.spelling (tokensOf [u]) ++ [';'])) :=
    (Awaits.of_expects (k := ⟨.equals, [' '], ['=']⟩) (by decide) hexpects).sees_gap hspace
      (IsLexeme.of_spelling (t := .equals) (by decide)) (isGap_space _)
  have hname : Sees [.sub .aliasBody, .sub .statements]
      (" T = ".toList ++ (Tree.spelling (tokensOf [u]) ++ [';'])) ⟨.name, [' '], ['T']⟩
        (" = ".toList ++ (Tree.spelling (tokensOf [u]) ++ [';'])) := by
    have hwords : ∀ w ∈ words, w.spelling ≠ ['T'] := by decide
    have hawaits : Awaits [.sub .aliasBody, .sub .statements] ⟨.name, [' '], ['T']⟩ :=
      .of_name rfl (by decide) fun w hw _ => hwords w hw
    exact hawaits.sees_gap hspace ⟨by decide, by decide, .inl rfl⟩ (isGap_space _)
  refine derives_sub_iff.2 (.inl ⟨_, _, hname, rfl, (derives_led_iff rfl).2 ⟨_, rfl, ?_⟩⟩)
  exact .skip (hequals rfl) rfl (.tok (hequals rfl) (derives_cons_iff.2
    ⟨_, _, _, rfl, htype, .tok hsemicolon .nil⟩))

/-- A type that is read before a semicolon is the type of the alias that is written with its
text. -/
theorem Rereads.isAliased {T : TypeExpr} (h : Rereads T) : IsAliased T := by
  obtain ⟨u, hu, hT, htext⟩ := h
  have hbody := derives_aliasBody hu
  refine ⟨Tree.spelling (tokensOf [u]), htext, ?_⟩
  -- The only token before the body is the word, and no space stands before it.
  have hword : Sees [.sub .statements] (aliasSource (Tree.spelling (tokensOf [u])))
      ⟨.typeWord, [], "type".toList⟩ (" T = ".toList ++ (Tree.spelling (tokensOf [u]) ++ [';'])) :=
    (Awaits.of_expects (k := ⟨.typeWord, [], "type".toList⟩) (by decide) rfl).sees_gap .nil
      (IsLexeme.of_spelling (t := .typeWord) (by decide)) (isGap_space _)
  have hstatement := ReadsStatement.led (k := ⟨.typeWord, [], "type".toList⟩) rfl hbody
  refine ofSource_eq_ok_iff.2 ⟨_, .next hword hstatement (.finish atEnd_nil), ?_⟩
  -- The tokens of the alias make up its source, so the text of the declaration is the whole of it.
  have hwhole : textOf [.leaf ⟨.typeWord, [], "type".toList⟩, aliasBodyTree u]
      = .ofChars (aliasSource (Tree.spelling (tokensOf [u]))) := by
    obtain ⟨ks, hks, hinput⟩ := hbody.exists_tokens
    have htokens : tokensOf [.leaf ⟨.typeWord, [], "type".toList⟩, aliasBodyTree u]
        = ⟨.typeWord, [], "type".toList⟩ :: ks := congrArg _ hks
    rw [textOf, htokens, Tree.spelling, ← List.append_nil (ks.flatMap _)]
    exact congrArg (fun cs => Text.ofChars ("type".toList ++ cs)) hinput.symm
  rw [declarationsOf_treeOf_cons hstatement, declarationsOf_treeOf_nil]
  have htype : typeOf (u.lead [' ']) = .ok T := (typeOf_lead [' '] u).trans hT
  rw [aliasBodyTree] at hwhole ⊢
  simp only [statementOf, if_true, aliasOf, htype, hwhole, parameterNames]
  rfl

end Declaration

end DeclSchema
