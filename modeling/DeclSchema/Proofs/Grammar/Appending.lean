import DeclSchema.Proofs.Grammar.Derivation

/-!
# Another line behind a file

A file is read in the same way if another line follows it, up to the place where the first file
ends. There the reader has left out what may still follow: a semicolon after a body, or the rest of a
skipped statement after its block. It leaves that out again if the next token belongs to the line
that was added.

## Main definitions

* `ClosesComments`: no comment is opened and left open
* `Tree.endsOpen`: the last token ends a block that more of a skipped statement may follow
* `mayBeLast`, `endsWell`: what a file may end with
* `Follows`: what comes next belongs to another statement

## Main results

* `Sees.append_line`: another line does not change the next token
* `Derives.append_line`: another line does not change what is read
-/

namespace DeclSchema.Grammar

open Terminal Nonterminal Grammar.Tree

/-! ### The next token before another line -/

section Sees

variable {symbols : List Symbol} {input rest : List Char} {k : Token}

theorem isGap_line (more : List Char) : IsGap ('\n' :: more) := by
  rintro c ⟨⟩
  decide

/-- Another line does not change the next token, unless a comment is left open there. -/
theorem Sees.append_line (h : Sees symbols input k rest) (hclear : IsClear input)
    (more : List Char) : Sees symbols (input ++ '\n' :: more) k (rest ++ '\n' :: more) where
  input_eq := by
    rw [h.input_eq]
    simp only [List.append_assoc]
  triviaLength_eq := by
    rw [triviaLength_append_line h.triviaLength_lt hclear, h.triviaLength_eq]
  nonempty := h.nonempty
  lexeme?_eq := by
    rw [← List.append_assoc]
    exact lexeme?_append_gap (isGap_line more) h.lexeme?_eq
  expected := h.expected

/-- Blanks and comments and a line end may stand before the next token. -/
theorem Sees.prepend_line (h : Sees symbols input k rest) {front : List Char}
    (hfront : AtEnd front) :
    Sees symbols (front ++ '\n' :: input) { k with trivia := front ++ '\n' :: k.trivia } rest where
  input_eq := by
    rw [h.input_eq]
    simp only [List.append_assoc, List.cons_append]
  triviaLength_eq := by
    rw [triviaLength_line hfront, h.triviaLength_eq, List.length_append, List.length_cons]
    omega
  nonempty := h.nonempty
  lexeme?_eq := h.lexeme?_eq
  expected := h.expected

theorem AtEnd.prepend_line {front input : List Char} (hfront : AtEnd front) (h : AtEnd input) :
    AtEnd (front ++ '\n' :: input) := by
  rw [AtEnd, triviaLength_line hfront, h, List.length_append, List.length_cons]
  omega

end Sees

/-! ### Comments that are left open -/

/-- No comment is opened and left open: where a token starts, and where the last one ends, the
opening of a comment comes next at no place. -/
def ClosesComments : List Char → List Token → Prop
  | input, [] => IsClear input
  | input, k :: ks => IsClear input ∧ ClosesComments (input.drop k.source.length) ks

section ClosesComments

variable {input : List Char} {ks ks' : List Token}

theorem ClosesComments.isClear (h : ClosesComments input ks) : IsClear input := by
  cases ks with
  | nil => exact h
  | cons k ks => exact h.1

theorem ClosesComments.tail {symbols : List Symbol} {k : Token} {next : List Char}
    (h : ClosesComments input (k :: ks)) (hk : Sees symbols input k next) :
    ClosesComments next ks := by
  have hdrop : input.drop k.source.length = next := by
    rw [hk.input_eq, ← List.append_assoc]
    exact List.drop_left
  exact hdrop ▸ h.2

theorem ClosesComments.of_append {mid : List Char}
    (h : ClosesComments (source ks ++ mid) (ks ++ ks')) :
    ClosesComments (source ks ++ mid) ks ∧ ClosesComments mid ks' := by
  induction ks with
  | nil => exact ⟨h.isClear, h⟩
  | cons k ks ih =>
    have hdrop : (source (k :: ks) ++ mid).drop k.source.length = source ks ++ mid := by
      rw [source, List.flatMap_cons, List.append_assoc]
      exact List.drop_left
    obtain ⟨hclear, hrest⟩ := h
    rw [hdrop] at hrest
    obtain ⟨hfront, hback⟩ := ih hrest
    exact ⟨⟨hclear, hdrop.symm ▸ hfront⟩, hback⟩

/-- No comment is left open where none is opened. -/
theorem closesComments_of_not_isInfix (h : ¬ ['/', '*'] <:+: input) (ks : List Token) :
    ClosesComments input ks := by
  induction ks generalizing input with
  | nil => exact fun hopen => h (hopen.isInfix.trans (List.drop_suffix ..).isInfix)
  | cons k ks ih =>
    refine ⟨fun hopen => h (hopen.isInfix.trans (List.drop_suffix ..).isInfix), ih fun hopen => ?_⟩
    exact h (hopen.trans (List.drop_suffix ..).isInfix)

end ClosesComments

/-! ### What a file ends with -/

mutual

/-- The last token ends a block, and more of a skipped statement may follow it. Where the tree has
no token, `before` tells this of the trees before it. -/
def Tree.endsOpen (before : Bool) : Tree → Bool
  | .leaf _ => false
  | .node .skippedAfterBlock [] => true
  | .node _ ts => endsOpenOf before ts

def endsOpenOf (before : Bool) : List Tree → Bool
  | [] => before
  | t :: ts => endsOpenOf (t.endsOpen before) ts

end

theorem endsOpenOf_node_cons (before : Bool) (n : Nonterminal) (t : Tree) (ts : List Tree) :
    endsOpenOf before [.node n (t :: ts)] = endsOpenOf before (t :: ts) := by
  cases n <;> rfl

theorem endsOpenOf_append (before : Bool) (ts ts' : List Tree) :
    endsOpenOf before (ts ++ ts') = endsOpenOf (endsOpenOf before ts) ts' := by
  induction ts generalizing before with
  | nil => rfl
  | cons t ts ih => exact ih (t.endsOpen before)

/-- The nonterminals that may come last in a statement. -/
def Nonterminal.mayBeLast : Nonterminal → Bool
  | exported | exportedPlain | declared | modifiedType | definition | constant | enumBody
  | aliasBody | optionalSemicolon | skippedStatement | skipped | skippedAfterBlock | exportList
  | exportListAfterBlock => true
  | _ => false

def Symbol.isTok : Symbol → Bool
  | .tok _ => true
  | .sub _ => false

/-- Symbols of which a terminal comes last, or a nonterminal that may be last in a statement, and
none is followed by nothing but nonterminals otherwise. -/
def endsWell : List Symbol → Bool
  | [] => true
  | .tok _ :: symbols => endsWell symbols
  | [.sub n] => n.mayBeLast
  | .sub _ :: symbols => symbols.any Symbol.isTok && endsWell symbols

/-- All symbols of a branch. -/
def Branch.symbols : Branch → List Symbol
  | led t rest => .tok t :: rest
  | via n rest => .sub n :: rest

theorem endsWell_of_branch? {n : Nonterminal} (hn : n.mayBeLast = true) {t : Terminal} {b : Branch}
    (hb : branch? n t = some b) : endsWell b.symbols = true := by
  have hall : (!n.mayBeLast || n.branches.all fun b => endsWell b.symbols) = true := by
    cases n <;> rfl
  rw [hn] at hall
  exact List.all_eq_true.1 hall b (List.mem_of_find?_eq_some hb)

theorem eq_of_mayBeLast {n : Nonterminal} (hn : n.mayBeLast = true) (hempty : n.mayBeEmpty = true) :
    n = .optionalSemicolon ∨ n = .skippedAfterBlock := by
  cases n <;> first
    | exact Or.inl rfl
    | exact Or.inr rfl
    | exact absurd hn Bool.false_ne_true
    | exact absurd hempty Bool.false_ne_true

theorem endsWell_of_cons {s : Symbol} {symbols : List Symbol}
    (h : endsWell (s :: symbols) = true) : endsWell symbols = true := by
  cases s with
  | tok t => exact h
  | sub n =>
    cases symbols with
    | nil => rfl
    | cons s symbols =>
      rw [endsWell, Bool.and_eq_true] at h
      · exact h.2
      · exact List.cons_ne_nil s symbols

def Task.endsWell : Task → Bool
  | .list symbols => Grammar.endsWell symbols
  | .node n _ => n.mayBeLast

/-! ### Another line -/

variable {task : Task} {symbols outer : List Symbol} {input rest : List Char} {ts : List Tree}

theorem Derives.not_atEnd (h : Derives (.list symbols) outer input ts rest)
    (hsymbols : symbols.any Symbol.isTok = true) : ¬ AtEnd input := by
  induction symbols generalizing ts with
  | nil => cases hsymbols
  | cons s symbols ih =>
    cases h with
    | tok hk => exact hk.not_atEnd
    | start hk => exact hk.not_atEnd
    | skip hk => exact hk.not_atEnd
    | finish _ _ h => exact ih h hsymbols

/-- Where the input is at its end, a nonterminal before the symbols to be read is the last one. -/
theorem Derives.eq_nil_of_endsWell {n : Nonterminal}
    (h : Derives (.list symbols) outer input ts rest) (hend : AtEnd input)
    (hwell : Grammar.endsWell (.sub n :: symbols) = true) :
    symbols = [] ∧ n.mayBeLast = true := by
  cases symbols with
  | nil => exact ⟨rfl, hwell⟩
  | cons s symbols =>
    rw [Grammar.endsWell, Bool.and_eq_true] at hwell
    · exact absurd hend (h.not_atEnd hwell.1)
    · exact List.cons_ne_nil s symbols

/-- What comes next does not start the nonterminal `n`, which may only be followed by another
statement. -/
def Follows (n : Nonterminal) (input : List Char) : Prop :=
  AtEnd input ∨
    ∃ k next, Sees [.sub n, .sub .statements] input k next ∧ starts n k.terminal = false

/-- What is read where the input ends is the end of a statement, and what follows it in `input`
belongs to another one. -/
structure Ends (task : Task) (outer : List Symbol) (isOpen : Bool) (input : List Char) :
    Prop where
  outer_eq : outer = [.sub .statements]
  endsWell : task.endsWell = true
  semicolon : Follows .optionalSemicolon input
  block : isOpen = true → Follows .skippedAfterBlock input

namespace Ends

variable {isOpen : Bool}

theorem of_cons {s : Symbol} (h : Ends (.list (s :: symbols)) outer isOpen input) :
    Ends (.list symbols) outer isOpen input :=
  ⟨h.outer_eq, endsWell_of_cons h.endsWell, h.semicolon, h.block⟩

theorem of_branch? {n : Nonterminal} {k : Token} {b : Branch}
    (h : Ends (.node n k) outer isOpen input) (hb : branch? n k.terminal = some b) :
    Ends (.list b.symbols) outer isOpen input :=
  ⟨h.outer_eq, endsWell_of_branch? h.endsWell hb, h.semicolon, h.block⟩

/-- The nonterminal before what is read at the end is the last one, so nothing is read behind it. -/
theorem lead {n : Nonterminal} {t : Tree} {before : Bool} {more : List Char} (k : Token)
    (h : Derives (.list symbols) outer input ts rest)
    (hends : AtEnd rest → Ends (.list (.sub n :: symbols)) outer (endsOpenOf before (t :: ts))
      (rest ++ '\n' :: more)) (hend : AtEnd input) :
    Ends (.node n k) (symbols ++ outer) (endsOpenOf before [t]) (input ++ '\n' :: more) := by
  obtain rfl := h.rest_eq_of_atEnd hend
  obtain ⟨houter, hwell, hsemicolon, hblock⟩ := hends hend
  obtain ⟨rfl, hlast⟩ := h.eq_nil_of_endsWell hend hwell
  cases h
  exact ⟨houter, hlast, hsemicolon, hblock⟩

end Ends

/-- Another line does not change what is read. Where nothing is left of the input, it has to end a
statement that does not go on in that line. -/
theorem Derives.append_line (h : Derives task outer input ts rest) (more : List Char)
    (before : Bool) {ks : List Token} (hks : tokensOf ts = task.taken ++ ks)
    (hclosed : ClosesComments input ks)
    (hends : AtEnd rest → Ends task outer (endsOpenOf before ts) (rest ++ '\n' :: more)) :
    Derives task outer (input ++ '\n' :: more) ts (rest ++ '\n' :: more) := by
  -- Only the last part of a file meets `hends`: a part before another one leaves something of the
  -- input, and where it does not, `Ends.lead` shows that nothing is read behind it.
  induction h generalizing before ks with
  | nil => exact .nil
  | tok hk h ih =>
    obtain ⟨ks, hks', -⟩ := h.exists_tokens
    obtain rfl : _ :: ks = _ := by simpa [tokensOf, Tree.tokens, hks', Task.taken] using hks
    exact .tok (hk.append_line hclosed.isClear more)
      (ih false hks' (hclosed.tail hk) fun hend => (hends hend).of_cons)
  | @start n symbols outer input next mid rest k t ts hk hn ht h iht ih =>
    obtain ⟨ks₁, hks₁, hnext⟩ := ht.exists_tokens
    obtain ⟨ks₂, hks₂, -⟩ := h.exists_tokens
    obtain rfl : k :: (ks₁ ++ ks₂) = ks := by
      simp only [tokensOf, List.append_nil] at hks₁ hks
      simpa [hks₁, hks₂, Task.taken] using hks
    have hclosed' := hclosed.tail hk
    rw [hnext] at hclosed'
    obtain ⟨hclosed₁, hclosed₂⟩ := hclosed'.of_append
    exact .start (hk.append_line hclosed.isClear more) hn
      (iht before hks₁ (hnext ▸ hclosed₁) (Ends.lead k h hends))
      (ih (t.endsOpen before) hks₂ hclosed₂ fun hend => (hends hend).of_cons)
  | @skip n symbols outer input next rest k ts hk hn h ih =>
    exact .skip (hk.append_line hclosed.isClear more) hn
      (ih ((Tree.node n []).endsOpen before) hks hclosed fun hend => (hends hend).of_cons)
  | @finish n symbols outer input rest ts hend hn h ih =>
    -- What was left out at the end is left out before the other line too.
    obtain rfl := h.rest_eq_of_atEnd hend
    obtain ⟨rfl, hwell, hsemicolon, hblock⟩ := hends hend
    obtain ⟨rfl, hlast⟩ := h.eq_nil_of_endsWell hend hwell
    cases h
    have hfollows : Follows n (rest ++ '\n' :: more) := by
      obtain rfl | rfl := eq_of_mayBeLast hlast hn
      · exact hsemicolon
      · exact hblock rfl
    obtain hmore | ⟨k, next, hk, hstarts⟩ := hfollows
    · exact .finish hmore hn .nil
    · exact .skip hk hstarts .nil
  | led hbranch h ih =>
    obtain ⟨ks, hks', -⟩ := h.exists_tokens
    obtain rfl : ks = _ := by simpa [tokensOf, Tree.tokens, hks', Task.taken] using hks
    rw [endsOpenOf_node_cons] at hends
    exact .led hbranch (ih false hks' hclosed fun hend => ((hends hend).of_branch? hbranch).of_cons)
  | @via n m symbols outer input mid rest k t ts hbranch ht h iht ih =>
    obtain ⟨ks₁, hks₁, hinput⟩ := ht.exists_tokens
    obtain ⟨ks₂, hks₂, -⟩ := h.exists_tokens
    obtain rfl : ks₁ ++ ks₂ = ks := by
      simp only [tokensOf, Tree.tokens, List.append_nil] at hks₁ hks
      simpa [hks₁, hks₂, Task.taken] using hks
    rw [hinput] at hclosed
    obtain ⟨hclosed₁, hclosed₂⟩ := hclosed.of_append
    rw [endsOpenOf_node_cons] at hends
    have hsymbols hend := (hends hend).of_branch? hbranch
    exact .via hbranch (iht before hks₁ (hinput ▸ hclosed₁) (Ends.lead k h hsymbols))
      (ih (t.endsOpen before) hks₂ hclosed₂ fun hend => (hsymbols hend).of_cons)

end DeclSchema.Grammar
