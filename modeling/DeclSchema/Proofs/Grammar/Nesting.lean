import Mathlib.Data.List.Basic
import DeclSchema.Proofs.Grammar.Listing
import DeclSchema.Proofs.Grammar.Shape

/-!
# Nested brackets

Brackets are nested where each one that closes closes the last one that is open, and none is left
open. Not every nonterminal has nested brackets of its own: what follows an opening parenthesis in a
type is split among nonterminals of which each takes the closing one, and a mapped type closes the
bracket and the brace that were opened before it was told apart from an object type. What a
nonterminal closes beyond what it opens is the same in all its branches, so it can be told from the
nonterminal alone, and the branches are checked against it one by one.

## Main definitions

* `nest`, `IsNested`: the brackets that characters leave open, and nested brackets
* `IsPair`: an opening bracket and the one that closes it
* `Nonterminal.owes`: what a nonterminal closes beyond what it opens
* `skeleton`: the words and marks of tokens

## Main results

* `nest_append_owed`: brackets that are open further out make no difference
* `IsPair.not_between`: where nothing is left open, no pair of brackets is around
* `Fits.nest_skeleton`: the brackets of trees are those that their symbols owe
* `ReadsStatement.isNested`: the brackets of a statement are nested
-/

namespace DeclSchema.Grammar

open Terminal Nonterminal Grammar.Tree

/-! ### Brackets among characters -/

/-- The bracket that closes an opening one. -/
def closer? : Char → Option Char
  | '(' => some ')'
  | '[' => some ']'
  | '{' => some '}'
  | _ => none

def isCloser (c : Char) : Bool :=
  c == ')' || c == ']' || c == '}'

def isBracket (c : Char) : Bool :=
  (closer? c).isSome || isCloser c

/-- The brackets that are owed after a character, where `owed` were before it: an opening bracket
owes its closing one, and a closing one must be owed first. -/
def nestStep (owed : List Char) (c : Char) : Option (List Char) :=
  match closer? c with
  | some d => some (d :: owed)
  | none =>
    if isCloser c then
      match owed with
      | d :: owed => if d = c then some owed else none
      | [] => none
    else some owed

/-- The brackets that are owed after characters, if none of them closes what is not owed first. -/
def nest (owed cs : List Char) : Option (List Char) :=
  cs.foldlM nestStep owed

/-- The brackets among the characters are balanced and properly nested. -/
def IsNested (cs : List Char) : Prop :=
  nest [] cs = some []

instance : DecidablePred IsNested :=
  fun cs => inferInstanceAs (Decidable (nest [] cs = some []))

section Nest

variable {owed owed' cs ds : List Char} {c : Char}

@[simp] theorem nest_nil (owed : List Char) : nest owed [] = some owed :=
  rfl

theorem nest_cons (owed : List Char) (c : Char) (cs : List Char) :
    nest owed (c :: cs) = (nestStep owed c).bind (nest · cs) :=
  List.foldlM_cons

theorem nest_append (owed cs ds : List Char) :
    nest owed (cs ++ ds) = (nest owed cs).bind (nest · ds) :=
  List.foldlM_append

theorem nestStep_of_not_bracket (hc : isBracket c = false) : nestStep owed c = some owed := by
  rw [isBracket, Bool.or_eq_false_iff, Option.isSome_eq_false_iff, Option.isNone_iff_eq_none] at hc
  simp [nestStep, hc]

/-- Characters that are no brackets open and close nothing. -/
theorem nest_of_not_bracket (hcs : ∀ c ∈ cs, isBracket c = false) : nest owed cs = some owed := by
  induction cs with
  | nil => rfl
  | cons c cs ih =>
    obtain ⟨hc, hcs⟩ := List.forall_mem_cons.1 hcs
    rw [nest_cons, nestStep_of_not_bracket hc, Option.bind_some, ih hcs]

theorem nestStep_append_owed (h : nestStep owed c = some owed') (more : List Char) :
    nestStep (owed ++ more) c = some (owed' ++ more) := by
  unfold nestStep at h ⊢
  split at h
  · cases h
    rfl
  · split at h
    · next hcloser =>
      rw [if_pos hcloser]
      split at h
      · next d owed =>
        split at h
        · next hd =>
          cases h
          simp [hd]
        · cases h
      · cases h
    · next hplain =>
      cases h
      rw [if_neg hplain]

/-- Brackets that are open further out make no difference. -/
theorem nest_append_owed (h : nest owed cs = some owed') (more : List Char) :
    nest (owed ++ more) cs = some (owed' ++ more) := by
  induction cs generalizing owed with
  | nil =>
    cases h
    rfl
  | cons c cs ih =>
    rw [nest_cons] at h
    obtain ⟨mid, hstep, hcs⟩ := Option.bind_eq_some_iff.1 h
    rw [nest_cons, nestStep_append_owed hstep, Option.bind_some, ih hcs]

/-- Nested brackets leave open what was open before. -/
theorem IsNested.nest_eq (h : IsNested cs) (owed : List Char) : nest owed cs = some owed :=
  nest_append_owed h owed

theorem isNested_of_not_bracket (hcs : ∀ c ∈ cs, isBracket c = false) : IsNested cs :=
  nest_of_not_bracket hcs

theorem IsNested.append (hcs : IsNested cs) (hds : IsNested ds) : IsNested (cs ++ ds) := by
  rw [IsNested, nest_append, hcs, Option.bind_some, hds]

/-- What is owed can be told up to any place. -/
theorem exists_nest_of_append (h : nest owed (cs ++ ds) = some owed') :
    ∃ mid, nest owed cs = some mid ∧ nest mid ds = some owed' :=
  Option.bind_eq_some_iff.1 (nest_append owed cs ds ▸ h)

end Nest

/-! ### Pairs of brackets -/

/-- At two places stand an opening bracket and the one that closes it. -/
structure IsPair (cs : List Char) (i j : Nat) : Prop where
  lt : i < j
  opens : ∃ c d, cs[i]? = some c ∧ closer? c = some d ∧ cs[j]? = some d
  isNested : IsNested ((cs.take j).drop (i + 1))

/-- A place before which nothing is left open is between no pair of brackets. -/
theorem IsPair.not_between {cs : List Char} {i j place : Nat} (h : IsPair cs i j)
    (hplace : IsNested (cs.take place)) : ¬ (i < place ∧ place ≤ j) := by
  rintro ⟨hi, hj⟩
  obtain ⟨c, d, hopen, hcloser, hclose⟩ := h.opens
  obtain ⟨hlt, -⟩ := List.getElem?_eq_some_iff.1 hclose
  -- What stands before the place: up to the bracket, the bracket, and a part of what it encloses.
  have hsplit : cs.take place = cs.take i ++ (c :: (cs.take place).drop (i + 1)) := by
    have hfirst : (cs.take place).take (i + 1) = cs.take i ++ [c] := by
      rw [List.take_take, Nat.min_eq_left hi, List.take_add_one, hopen, Option.toList_some]
    have hwhole := List.take_append_drop (i + 1) (cs.take place)
    rw [hfirst, List.append_assoc, List.singleton_append] at hwhole
    exact hwhole.symm
  have hbetween : (cs.take j).drop (i + 1)
      = (cs.take place).drop (i + 1) ++ (cs.take j).drop place := by
    have hwhole := List.take_append_drop place (cs.take j)
    rw [List.take_take, Nat.min_eq_left hj] at hwhole
    have hlength : (cs.take place).length = place := List.length_take_of_le (by omega)
    rw [← List.drop_append_of_le_length (by omega), hwhole]
  obtain ⟨mid, hmid, -⟩ := exists_nest_of_append (hbetween ▸ h.isNested)
  rw [IsNested, hsplit] at hplace
  obtain ⟨owed, -, hrest⟩ := exists_nest_of_append hplace
  have hstep : nestStep owed c = some (d :: owed) := by simp only [nestStep, hcloser]
  have hleft := nest_append_owed hmid (d :: owed)
  rw [nest_cons, hstep, Option.bind_some, ← List.nil_append (d :: owed), hleft] at hrest
  simp at hrest

/-! ### Brackets among tokens -/

/-- The words and marks of tokens, without their names, quoted texts and other lexemes. -/
def skeleton (ks : List Token) : List Char :=
  ks.flatMap fun k => k.terminal.spelling

theorem skeleton_cons (k : Token) (ks : List Token) :
    skeleton (k :: ks) = k.terminal.spelling ++ skeleton ks :=
  List.flatMap_cons

theorem skeleton_append (ks ls : List Token) : skeleton (ks ++ ls) = skeleton ks ++ skeleton ls :=
  List.flatMap_append

/-- The brackets that a nonterminal closes without having opened them, innermost first. -/
def Nonterminal.owes : Nonterminal → List Char
  | parenthesis _ | parenthesisName _ | functionRest => [')']
  | bracketed _ | bracketedName _ | arrayOrIndex => [']']
  | braced | bracedReadonly => ['}']
  | bracedBracketed _ | bracedName _ | mapped => [']', '}']
  | _ => []

/-- The brackets that are owed after a symbol. -/
def settle (owed : List Char) : Symbol → Option (List Char)
  | .tok t => nest owed t.spelling
  | .sub n => owed.dropPrefix? n.owes

/-- A branch closes what its nonterminal owes. -/
theorem settle_symbols {n : Nonterminal} {b : Branch} (hb : b ∈ n.branches) :
    b.symbols.foldlM settle n.owes = some [] := by
  have hall : n.branches.all (fun b => b.symbols.foldlM settle n.owes == some []) = true := by
    cases n <;> first | decide | (rename_i b; cases b <;> decide +kernel)
  exact eq_of_beq (List.all_eq_true.1 hall b hb)

theorem owes_eq_nil {n : Nonterminal} (hn : n.mayBeEmpty = true) : n.owes = [] := by
  cases n <;> first | rfl | cases hn

/-- The brackets of trees are those that their symbols owe. -/
theorem Fits.nest_skeleton {symbols : List Symbol} {ts : List Tree} (h : Fits symbols ts)
    {owed owed' : List Char} (hsettle : symbols.foldlM settle owed = some owed') :
    nest owed (skeleton (tokensOf ts)) = some owed' := by
  induction h generalizing owed owed' with
  | nil => exact hsettle
  | tok hk _ ih =>
    rw [List.foldlM_cons] at hsettle
    obtain ⟨mid, hfirst, hrest⟩ := Option.bind_eq_some_iff.1 hsettle
    rw [settle, ← hk] at hfirst
    rw [tokensOf, Tree.tokens, List.singleton_append, skeleton_cons, nest_append, hfirst]
    exact ih hrest
  | empty hn _ ih =>
    rw [List.foldlM_cons, settle, owes_eq_nil hn, List.dropPrefix?_nil] at hsettle
    exact ih hsettle
  | node hb _ _ _ ihus ih =>
    rw [List.foldlM_cons] at hsettle
    obtain ⟨mid, hfirst, hrest⟩ := Option.bind_eq_some_iff.1 hsettle
    -- The node settles the brackets that it owes, with the others left below them.
    obtain ⟨owes, rfl, howes⟩ := List.dropPrefix?_eq_some_iff.1 hfirst
    obtain rfl := eq_of_beq howes
    have hnode := nest_append_owed (ihus (settle_symbols hb)) mid
    rw [tokensOf, Tree.tokens, skeleton_append, nest_append, hnode]
    exact ih hrest

/-- The brackets of a nonterminal that owes none are nested. -/
theorem HasShape.isNested {n : Nonterminal} {t : Tree} (h : HasShape n t) (hn : n.owes = []) :
    IsNested (skeleton (tokensOf [t])) := by
  refine Fits.nest_skeleton h ?_
  rw [List.foldlM_cons, settle, hn]
  rfl

/-! ### Statements -/

section Statements

variable {k : Token} {input mid rest : List Char} {ts : List Tree}

/-- A statement is a tree of a nonterminal of its own, or such a tree behind a word. -/
theorem ReadsStatement.exists_hasShape (hk : Sees [.sub .statements] input k mid)
    (h : ReadsStatement k mid ts rest) :
    ∃ n t, HasShape n t ∧ (ts = [t] ∧ (n = .definition ∨ n = .skippedStatement) ∨
      ts = [.leaf k, t] ∧ ((k.terminal = .exportWord ∧ n = .exported)
        ∨ (k.terminal = .declareWord ∧ n = .declared)
        ∨ (k.terminal = .typeWord ∧ n = .aliasBody))) := by
  cases h with
  | @led u n t rest hbranch h =>
    obtain rfl := eq_of_branch?_led hbranch
    refine ⟨n, t, h.fits, .inr ⟨rfl, ?_⟩⟩
    have hmem := List.mem_of_find?_eq_some hbranch
    simpa [branches] using hmem
  | @via m t rest hbranch h =>
    obtain ⟨u, n, hb, -⟩ | ⟨_, hb, hm⟩ := eq_of_branch?_statements hbranch
    · cases hb
    · cases hb
      have hstarts : ∀ u, starts m u = true → expects [.sub .statements] u = true :=
        fun u hu => expects_of_starts (starts_of_via (List.mem_of_find?_eq_some hbranch) hu)
      obtain ⟨us, ⟨⟩, hread, b, hb, hus⟩ := h.task_fits hk hstarts
      exact ⟨m, _, .node hb hus hread .nil, .inl ⟨rfl, hm⟩⟩

/-- The brackets of a statement are nested. -/
theorem ReadsStatement.isNested (hk : Sees [.sub .statements] input k mid)
    (h : ReadsStatement k mid ts rest) : IsNested (skeleton (tokensOf ts)) := by
  obtain ⟨n, t, ht, ⟨rfl, rfl | rfl⟩ | ⟨rfl, hword⟩⟩ := h.exists_hasShape hk
  · exact ht.isNested rfl
  · exact ht.isNested rfl
  · have hk : IsNested k.terminal.spelling ∧ n.owes = [] := by
      obtain ⟨hk, rfl⟩ | ⟨hk, rfl⟩ | ⟨hk, rfl⟩ := hword <;> rw [hk] <;> decide
    rw [tokensOf, Tree.tokens, List.singleton_append, skeleton_cons]
    exact hk.1.append (ht.isNested hk.2)

end Statements

end DeclSchema.Grammar
