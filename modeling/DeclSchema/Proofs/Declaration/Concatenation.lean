import DeclSchema.Declaration.Source
import DeclSchema.Proofs.Grammar.Listing

/-!
# Sources one after the other

The declarations of two sources with a line end between them are those of the first and then those
of the second, texts included. Blanks and comments before a statement belong to its first token and
are in none of its texts, so a statement is the same declaration wherever it stands.

## Main definitions

* `statementOf`: the declaration of a statement
* `ClosesItsComments`, `EndsInBlock`: what a source must not do for another one to follow it

## Main results

* `ofSource_eq_ok_iff`: the declarations of a source are those of its statements
* `ofSource_append_line`: the declarations of two sources
-/

namespace DeclSchema.Declaration

open Grammar Grammar.Tree Escape

/-! ### Declarations of statements -/

/-- The declaration of the trees of a statement, if it is no skipped one. -/
def statementOf : List Tree → Decoded (Option Declaration)
  | [.leaf word, body] =>
    if word.terminal = .typeWord then aliasOf [.leaf word, body] body else declarationOf body
  | [body] => declarationOf body
  | _ => .ok none

section Statements

variable {k : Token} {input rest : List Char} {ts : List Tree} {ss : List (List Tree)}

theorem declarationsOf_treeOf_nil : declarationsOf (treeOf []) = .ok [] := by
  simp only [treeOf, declarationsOf]

theorem declarationsOf_treeOf_cons (h : ReadsStatement k input ts rest) (ss : List (List Tree)) :
    declarationsOf (treeOf (ts :: ss)) = (do
      let d ← statementOf ts
      return d.toList ++ (← declarationsOf (treeOf ss))) := by
  cases h with
  | led =>
    simp only [treeOf, List.cons_append, List.nil_append, declarationsOf, statementOf]
    split <;> rfl
  | via => simp only [treeOf, List.cons_append, List.nil_append, declarationsOf, statementOf]

/-- What stands before the first token of trees is not in their text. -/
theorem textOf_leaf_congr {k' : Token} (h : k'.lexeme = k.lexeme) (ts : List Tree) :
    textOf (.leaf k' :: ts) = textOf (.leaf k :: ts) := by
  simp [textOf, tokensOf, Tree.tokens, Tree.spelling, h]

theorem textOf_node_congr {k' : Token} (h : k'.lexeme = k.lexeme) (n : Nonterminal)
    (ts : List Tree) :
    textOf [.node n (.leaf k' :: ts)] = textOf [.node n (.leaf k :: ts)] := by
  simp [textOf, tokensOf, Tree.tokens, Tree.spelling, h]

/-- A type alias and an enum use their trees for their texts alone. -/
theorem aliasOf_congr {whole whole' : List Tree} (h : textOf whole = textOf whole') (t : Tree) :
    aliasOf whole t = aliasOf whole' t := by
  unfold aliasOf
  rw [h]

theorem enumerationOf_congr {whole whole' : List Tree} (h : textOf whole = textOf whole')
    (t : Tree) : enumerationOf whole t = enumerationOf whole' t := by
  unfold enumerationOf
  rw [h]

theorem declarationOf_definition_congr {k' : Token} (h : k'.lexeme = k.lexeme) (ts : List Tree) :
    declarationOf (.node .definition (.leaf k' :: ts))
      = declarationOf (.node .definition (.leaf k :: ts)) := by
  have htext := textOf_node_congr h .definition ts
  unfold declarationOf
  split
  -- An interface has a text, and an enum has one, with or without `const` before it.
  case h_6 h =>
    cases h
    simp only [htext]
  case h_7 h =>
    cases h
    exact enumerationOf_congr htext _
  case h_8 h =>
    cases h
    exact enumerationOf_congr htext _
  all_goals simp_all

/-- What stands before a statement does not change its declaration. -/
theorem exists_statement_of_lexeme_eq (h : ReadsStatement k input ts rest) (k' : Token)
    (hterminal : k'.terminal = k.terminal) (hlexeme : k'.lexeme = k.lexeme) :
    ∃ ts', ReadsStatement k' input ts' rest ∧ statementOf ts' = statementOf ts := by
  cases h with
  | @led u n t rest hbranch h =>
    refine ⟨[.leaf k', t], .led (hterminal ▸ hbranch) h, ?_⟩
    simp only [statementOf, hterminal, aliasOf_congr (textOf_leaf_congr hlexeme [t])]
  | @via m t rest hbranch h =>
    -- Only statements that start with a word of their own show its text, which is that of the
    -- lexeme.
    obtain ⟨u, n, hb, -⟩ | ⟨m, hb, hm⟩ := eq_of_branch?_statements hbranch
    · cases hb
    · cases hb
      cases h with
      | @led _ u symbols _ _ _ _ us hword h =>
        refine ⟨_, .via (hterminal ▸ hbranch) (.led (hterminal ▸ hword) h), ?_⟩
        obtain rfl | rfl := hm
        · exact declarationOf_definition_congr hlexeme us
        · simp only [statementOf, declarationOf]
      | via hword =>
        have hmem := List.mem_of_find?_eq_some hword
        obtain rfl | rfl := hm <;> simp [Nonterminal.branches] at hmem

end Statements

/-! ### One list of statements after the other -/

section Listings

variable {input more : List Char} {ss ss' : List (List Tree)}

/-- Blanks and comments and a line end before a file do not change its declarations. -/
theorem exists_listing_prepend_line (h : Listing more ss) {front : List Char}
    (hfront : AtEnd front) :
    ∃ ss', Listing (front ++ '\n' :: more) ss' ∧
      declarationsOf (treeOf ss') = declarationsOf (treeOf ss) := by
  cases h with
  | finish hend => exact ⟨[], .finish (hfront.prepend_line hend), rfl⟩
  | @next _ mid rest k ts ss hk h hrest =>
    obtain ⟨ts', hts', hsame⟩ :=
      exists_statement_of_lexeme_eq h { k with trivia := front ++ '\n' :: k.trivia } rfl rfl
    refine ⟨ts' :: ss, .next (hk.prepend_line hfront) hts' hrest, ?_⟩
    rw [declarationsOf_treeOf_cons hts', declarationsOf_treeOf_cons h, hsame]

theorem eq_nil_of_atEnd (h : Listing input ss) (hend : AtEnd input) : ss = [] := by
  cases h with
  | finish => rfl
  | next hk => exact absurd hend hk.not_atEnd

/-- The declarations of two files, one after the other. -/
theorem exists_listing_append_line (h : Listing input ss) (hmore : Listing more ss')
    {before : Bool} (hclosed : ClosesComments input (tokensOf [treeOf ss]))
    (hapart : endsOpenOf before [treeOf ss] = true → StartsApart more) :
    ∃ all, Listing (input ++ '\n' :: more) all ∧ declarationsOf (treeOf all) = (do
      return (← declarationsOf (treeOf ss)) ++ (← declarationsOf (treeOf ss'))) := by
  induction h generalizing before with
  | finish hend =>
    obtain ⟨all, hall, hsame⟩ := exists_listing_prepend_line hmore hend
    refine ⟨all, hall, ?_⟩
    rw [hsame, declarationsOf_treeOf_nil]
    cases declarationsOf (treeOf ss') <;> rfl
  | @next input mid rest k ts ss hk h hrest ih =>
    obtain ⟨ks, hks, hmid⟩ := h.exists_tokens
    rw [tokensOf_treeOf_cons, hks] at hclosed
    rw [endsOpenOf_treeOf_cons] at hapart
    have hclosed' := hclosed.tail hk
    rw [hmid] at hclosed'
    obtain ⟨hclosed₁, hclosed₂⟩ := hclosed'.of_append
    have hstatement := h.append_line more before hks (hmid ▸ hclosed₁)
      (fun hend => hmore.follows_body hend) fun hend hopen => by
        -- Nothing is left behind the last statement, so it is the end of the file.
        obtain rfl := eq_nil_of_atEnd hrest hend
        exact hmore.follows_block (hapart hopen) hend
    obtain ⟨all, hall, hsame⟩ := ih hclosed₂ hapart
    refine ⟨ts :: all, .next (hk.append_line hclosed.isClear more) hstatement hall, ?_⟩
    rw [declarationsOf_treeOf_cons hstatement, declarationsOf_treeOf_cons h, hsame]
    simp only [bind_assoc, pure_bind, List.append_assoc]

end Listings

/-! ### One source after the other -/

/-- No comment of a source is opened and left open, which would be read as two lexemes. -/
def ClosesItsComments (input : List Char) : Prop :=
  ∀ ts, read input = .ok ts → ClosesComments input (tokensOf ts)

theorem closesItsComments_of_not_isInfix {input : List Char} (h : ¬ ['/', '*'] <:+: input) :
    ClosesItsComments input :=
  fun ts _ => closesComments_of_not_isInfix h (tokensOf ts)

/-- A source ends with a skipped statement that may go on after its last block. -/
def EndsInBlock (input : List Char) : Prop :=
  ∃ ts, read input = .ok ts ∧ endsOpenOf false ts = true

/-- The declarations of a source are those of its statements. -/
theorem ofSource_eq_ok_iff {input : List Char} {ds : List Declaration} :
    ofSource input = .ok ds ↔ ∃ ss, Listing input ss ∧ declarationsOf (treeOf ss) = .ok ds := by
  constructor
  · intro h
    unfold ofSource at h
    cases hread : read input with
    | error rest =>
      rw [hread] at h
      cases h
    | ok ts =>
      obtain ⟨ss, hss, rfl⟩ := read_eq_ok_iff_listing.1 hread
      refine ⟨ss, hss, ?_⟩
      simp only [hread, List.mapM_cons, List.mapM_nil, bind_assoc, pure_bind] at h
      obtain ⟨all, hall, hds⟩ := exists_of_bind_eq_ok h
      cases hds
      simpa using hall
  · rintro ⟨ss, hss, hds⟩
    have hread := read_eq_ok_iff_listing.2 ⟨ss, hss, rfl⟩
    simp only [ofSource, hread, List.mapM_cons, List.mapM_nil, hds]
    simp [bind, Except.bind, pure, Except.pure]

/-- The declarations of two sources with a line end between them are those of the first and then
those of the second. -/
theorem ofSource_append_line {input more : List Char} {ds ds' : List Declaration}
    (hinput : ofSource input = .ok ds) (hmore : ofSource more = .ok ds')
    (hclosed : ClosesItsComments input) (hapart : EndsInBlock input → StartsApart more) :
    ofSource (input ++ '\n' :: more) = .ok (ds ++ ds') := by
  obtain ⟨ss, hss, hds⟩ := ofSource_eq_ok_iff.1 hinput
  obtain ⟨ss', hss', hds'⟩ := ofSource_eq_ok_iff.1 hmore
  have hread := read_eq_ok_iff_listing.2 ⟨ss, hss, rfl⟩
  obtain ⟨all, hall, hsame⟩ := exists_listing_append_line hss hss' (hclosed _ hread)
    fun hopen => hapart ⟨_, hread, hopen⟩
  refine ofSource_eq_ok_iff.2 ⟨all, hall, ?_⟩
  rw [hsame, hds, hds']
  rfl

end DeclSchema.Declaration
