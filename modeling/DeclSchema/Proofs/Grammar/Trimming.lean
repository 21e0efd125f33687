import DeclSchema.Proofs.Grammar.Regrouping

/-!
# The beginnings of types

Where a type was read, what may be left out behind one of its tokens can be left out indeed: the
tokens up to that one are read as a type of their own before a semicolon.

## Main definitions

* `Empties`: trees of nonterminals that are all left out
* `Trims`, `TrimsStarted`: trees that are cut off behind one of their tokens
* `EndsAs`: what follows a type may be replaced with a semicolon
* `Stands`: the tokens of a tree are read as that tree before a semicolon

## Main results

* `Derives.trim`: trees that are cut off are read before a semicolon
* `Stands.trim`, `ReadAs.stands`: trees that stand before a semicolon
-/

namespace DeclSchema.Grammar

open Terminal Nonterminal Grammar.Tree

/-! ### Trees that are cut off -/

/-- The nonterminals of the trees are left out. -/
inductive Empties : List Tree → List Tree → Prop where
  | nil : Empties [] []
  | cons {n : Nonterminal} {us ts ts' : List Tree} (hn : n.mayBeEmpty = true)
      (h : Empties ts ts') : Empties (.node n us :: ts) (.node n [] :: ts')

mutual

/-- The trees are cut off somewhere. -/
inductive Trims : List Tree → List Tree → Prop where
  | here {ts ts' : List Tree} (h : Empties ts ts') : Trims ts ts'
  | behind {ts ts' : List Tree} (h : TrimsStarted ts ts') : Trims ts ts'

/-- The trees are cut off behind the first tree or inside it. -/
inductive TrimsStarted : List Tree → List Tree → Prop where
  | keep {t : Tree} {ts ts' : List Tree} (h : Trims ts ts') : TrimsStarted (t :: ts) (t :: ts')
  | inside {n : Nonterminal} {us us' ts ts' : List Tree} (hus : TrimsStarted us us')
      (h : Empties ts ts') : TrimsStarted (.node n us :: ts) (.node n us' :: ts')

end

/-- The trees of a task are cut off; a nonterminal keeps its first token. -/
def Task.Trims (ts ts' : List Tree) : Task → Prop
  | .list _ => Grammar.Trims ts ts'
  | .node n _ => ∃ us us', ts = [.node n us] ∧ ts' = [.node n us'] ∧ TrimsStarted us us'

section Derives

variable {task : Task} {symbols outer outer' : List Symbol} {input rest back : List Char}
  {ts ts' : List Tree}

theorem Empties.all_mayBeEmpty (h : Empties ts ts')
    (hts : Derives (.list symbols) outer input ts rest) : symbols.all Symbol.mayBeEmpty = true := by
  induction h generalizing symbols input with
  | nil =>
    cases hts
    rfl
  | cons hn _ ih =>
    cases hts with
    | start _ _ ht hts =>
      cases ht <;> exact Bool.and_eq_true_iff.2 ⟨hn, ih hts⟩
    | skip _ _ hts => exact Bool.and_eq_true_iff.2 ⟨hn, ih hts⟩
    | finish _ _ hts => exact Bool.and_eq_true_iff.2 ⟨hn, ih hts⟩

theorem expects_of_all_mayBeEmpty (h : symbols.all Symbol.mayBeEmpty = true) {u : Terminal}
    (hu : expects outer u = true) : expects (symbols ++ outer) u = true := by
  induction symbols with
  | nil => exact hu
  | cons s symbols ih =>
    rw [List.all_cons, Bool.and_eq_true] at h
    cases s with
    | tok t => cases h.1
    | sub n => exact expects_of_mayBeEmpty h.1 (ih h.2)

/-- The same tokens may come next where `outer'` follow, and a semicolon besides. -/
structure EndsAs (outer outer' : List Symbol) : Prop where
  expects_imp : ∀ u, expects outer' u = true → expects outer u = true ∨ u = .semicolon
  semicolon : expects outer' .semicolon = true

namespace EndsAs

theorem of_semicolon (h : expects outer .semicolon = true) : EndsAs outer outer :=
  ⟨fun _ hu => .inl hu, h⟩

/-- A type may end before a semicolon. -/
theorem before_semicolon (outer : List Symbol) : EndsAs outer [.tok .semicolon] :=
  ⟨fun _ hu => .inr (beq_iff_eq.1 hu).symm, rfl⟩

theorem closesAs (h : EndsAs outer outer') (back : List Char) : ClosesAs outer outer' [] back :=
  ⟨h.expects_imp, .inl ⟨rfl, h.semicolon⟩⟩

theorem expects_append (h : EndsAs outer outer') (symbols : List Symbol) (u : Terminal) :
    expects (symbols ++ outer') u = true → expects (symbols ++ outer) u = true ∨ u = .semicolon :=
  (h.closesAs []).expects_append symbols u

/-- The type may also end before what may be left out. -/
theorem append (h : EndsAs outer outer') (hall : symbols.all Symbol.mayBeEmpty = true) :
    EndsAs (symbols ++ outer) (symbols ++ outer') :=
  ⟨h.expects_append symbols, expects_of_all_mayBeEmpty hall h.semicolon⟩

end EndsAs

/-- Nonterminals that are left out are read before a semicolon. -/
theorem Derives.empties (hts : Derives (.list symbols) outer input ts rest) (h : Empties ts ts')
    (hsemicolon : expects outer' .semicolon = true) (hwell : closesWell symbols = true) :
    Derives (.list symbols) outer' [';'] ts' [';'] := by
  have hall := h.all_mayBeEmpty hts
  induction h generalizing symbols input rest with
  | nil =>
    cases hts
    exact .nil
  | @cons n us _ _ hn _ ih =>
    -- An empty node comes from a nonterminal, read or left out.
    obtain ⟨symbols, rfl, _, _, hts⟩ : ∃ symbols', symbols = .sub n :: symbols' ∧
        ∃ input' rest', Derives (.list symbols') outer input' _ rest' := by
      cases hts with
      | start _ _ ht hts => cases ht <;> exact ⟨_, rfl, _, _, hts⟩
      | skip _ _ hts => exact ⟨_, rfl, _, _, hts⟩
      | finish _ _ hts => exact ⟨_, rfl, _, _, hts⟩
    rw [List.all_cons, Bool.and_eq_true] at hall
    exact .skip_semicolon hn (endsTypes_of_closesWell hwell hall.2)
      (expects_of_all_mayBeEmpty hall.2 hsemicolon) (ih hts (closesWell_of_cons hwell) hall.2)

/-- Before the place where the trees are cut off, the same token comes next as before the
semicolon. -/
def Task.ClosesAs (outer outer' : List Symbol) (x back : List Char) : Task → Prop
  | .list symbols => Grammar.ClosesAs (symbols ++ outer) (symbols ++ outer') x back
  | .node _ _ => True

theorem Derives.exists_node {n : Nonterminal} {k : Token} {t : Tree}
    (h : Derives (.node n k) outer input [t] rest) : ∃ us, t = .node n us := by
  cases h with
  | led => exact ⟨_, rfl⟩
  | via => exact ⟨_, rfl⟩

/-- The trees are read from a first part of the input, before a semicolon. -/
def Task.ReadsFront (task : Task) (outer outer' : List Symbol) (input : List Char)
    (ts : List Tree) : Prop :=
  ∃ x back, input = x ++ back ∧ Derives task outer' (x ++ [';']) ts [';'] ∧
    task.ClosesAs outer outer' x back

/-- Trees of which nothing is left are read from no input. -/
theorem Derives.readsFront_of_empties (h : Derives (.list symbols) outer input ts rest)
    (hempty : Empties ts ts') (hends : EndsAs outer outer') (hwell : closesWell symbols = true) :
    (Task.list symbols).ReadsFront outer outer' input ts' :=
  ⟨[], input, rfl, h.empties hempty hends.semicolon hwell,
    (hends.append (hempty.all_mayBeEmpty h)).closesAs input⟩

/-- Only what may come last in a type is cut off behind. -/
theorem Derives.endsTypes_of_front {n : Nonterminal} {x : List Char}
    (hwell : closesWell (.sub n :: symbols) = true)
    (h : Derives (.list symbols) outer (x ++ [';']) ts [';']) (hx : x = []) :
    n.endsTypes = true := by
  subst hx
  exact endsTypes_of_closesWell hwell h.mayBeEmpty

/-- A token that is seen before the place where the trees are cut off comes next before it too. -/
theorem EndsAs.closesAs_of_sees (hends : EndsAs outer outer') {x v back : List Char} {k : Token}
    (hk : Sees (symbols ++ outer) (x ++ back) k (v ++ back))
    (hexpects : expects (symbols ++ outer') k.terminal = true) :
    ClosesAs (symbols ++ outer) (symbols ++ outer') x back :=
  ⟨hends.expects_append symbols, .inr ⟨k, v, ClosesAs.spots_of_sees hk, hexpects⟩⟩

/-- Where all that is behind is cut off, a nonterminal that was left out is left out again. -/
theorem Derives.readsFront_of_skip {n : Nonterminal} (h : Derives (.list symbols) outer' [';'] ts [';'])
    (hempty : n.mayBeEmpty = true) (hnext : expects (symbols ++ outer') .semicolon = true)
    (hends : EndsAs outer outer') (hwell : closesWell (.sub n :: symbols) = true) :
    (Task.list (.sub n :: symbols)).ReadsFront outer outer' input (.node n [] :: ts) :=
  ⟨[], input, rfl, .skip_semicolon hempty (endsTypes_of_closesWell hwell h.mayBeEmpty) hnext h,
    hends.expects_append (.sub n :: symbols), .inl ⟨rfl, expects_of_mayBeEmpty hempty hnext⟩⟩

/-- Trees that are cut off are read before a semicolon. -/
theorem Derives.trim (h : Derives task outer input ts rest) (hends : EndsAs outer outer')
    (hwell : task.closesWell = true) (htrims : task.Trims ts ts') :
    task.ReadsFront outer outer' input ts' := by
  -- What comes before the cut is read from the same tokens, since none of them goes on behind it.
  induction h generalizing outer' ts' with
  | nil =>
    cases htrims with
    | here hempty => exact Derives.nil.readsFront_of_empties hempty hends hwell
    | behind htrims => cases htrims
  | tok hk h ih =>
    cases htrims with
    | here hempty => cases hempty
    | behind htrims =>
      cases htrims with
      | keep htrims =>
        obtain ⟨x, back, rfl, hx, -⟩ := ih hends hwell htrims
        obtain ⟨y, rfl⟩ := exists_append hk.isSuffix
        exact ⟨y, back, rfl, .tok (hk.cut (hends.expects_append (.tok _ :: _)) hk.expected) hx,
          hends.closesAs_of_sees hk hk.expected⟩
  | start hk hn ht h iht ih =>
    cases htrims with
    | here hempty => exact (Derives.start hk hn ht h).readsFront_of_empties hempty hends hwell
    | behind htrims =>
      cases htrims with
      | keep htrims =>
        obtain ⟨x, back, rfl, hx, hclose⟩ := ih hends (closesWell_of_cons hwell) htrims
        obtain ⟨v, rfl⟩ := exists_append ht.isSuffix
        obtain ⟨y, rfl⟩ := exists_append hk.isSuffix
        have htree := ht.cut rfl rfl hclose (hx.endsTypes_of_front hwell)
        exact ⟨y, back, rfl, .start (hk.cut (hends.expects_append (.sub _ :: _))
          (expects_of_starts hn)) hn htree hx, hends.closesAs_of_sees hk (expects_of_starts hn)⟩
      | inside hus hempty =>
        obtain ⟨_, ⟨⟩⟩ := ht.exists_node
        have hall := hempty.all_mayBeEmpty h
        obtain ⟨v, back, rfl, hv, -⟩ := iht (hends.append hall)
          (endsTypes_of_closesWell hwell hall) ⟨_, _, rfl, rfl, hus⟩
        obtain ⟨y, rfl⟩ := exists_append hk.isSuffix
        have hlast := h.empties hempty hends.semicolon (closesWell_of_cons hwell)
        exact ⟨y, back, rfl, .start (hk.cut (hends.expects_append (.sub _ :: _))
          (expects_of_starts hn)) hn hv hlast, hends.closesAs_of_sees hk (expects_of_starts hn)⟩
  | skip hk hn h ih =>
    cases htrims with
    | here hempty => exact (Derives.skip hk hn h).readsFront_of_empties hempty hends hwell
    | behind htrims =>
      cases htrims with
      | keep htrims =>
        have hempty := expects_of_sees hk hn
        obtain ⟨x, back, rfl, hx, hclose⟩ := ih hends (closesWell_of_cons hwell) htrims
        -- Either all that is behind is cut off, or what was skipped to is still there.
        obtain ⟨rfl, hnext⟩ | ⟨k', v, hspots, hexpects⟩ := hclose.next
        · exact hx.readsFront_of_skip hempty hnext hends hwell
        · obtain ⟨rfl, rfl⟩ := (ClosesAs.spots_of_skip hk hn).eq hspots
          have hexpects := expects_of_mayBeEmpty hempty hexpects
          exact ⟨x, back, rfl, .skip (hk.cut (hends.expects_append (.sub _ :: _)) hexpects) hn hx,
            hends.closesAs_of_sees hk hexpects⟩
      | inside hus => cases hus
  | finish hend hn h ih =>
    cases htrims with
    | here hempty => exact (Derives.finish hend hn h).readsFront_of_empties hempty hends hwell
    | behind htrims =>
      cases htrims with
      | keep htrims =>
        obtain ⟨x, back, rfl, hx, hclose⟩ := ih hends (closesWell_of_cons hwell) htrims
        obtain ⟨rfl, hnext⟩ | ⟨k', v, hspots, -⟩ := hclose.next
        · exact hx.readsFront_of_skip hn hnext hends hwell
        · exact absurd hend hspots.not_atEnd
      | inside hus => cases hus
  | led hbranch h ih =>
    obtain ⟨us, us', ⟨⟩, rfl, htrims⟩ := htrims
    cases htrims with
    | keep htrims =>
      obtain ⟨x, back, rfl, hx, -⟩ := ih hends (closesWell_of_branch? hwell hbranch) htrims
      exact ⟨x, back, rfl, .led hbranch hx, trivial⟩
  | via hbranch ht h iht ih =>
    obtain ⟨us, us', ⟨⟩, rfl, htrims⟩ := htrims
    have hsymbols := closesWell_of_branch? hwell hbranch
    cases htrims with
    | keep htrims =>
      obtain ⟨x, back, rfl, hx, hclose⟩ := ih hends (closesWell_of_cons hsymbols) htrims
      obtain ⟨v, rfl⟩ := exists_append ht.isSuffix
      have htree := ht.cut rfl rfl hclose (hx.endsTypes_of_front hsymbols)
      exact ⟨v, back, rfl, .via hbranch htree hx, trivial⟩
    | inside hus hempty =>
      obtain ⟨_, ⟨⟩⟩ := ht.exists_node
      have hall := hempty.all_mayBeEmpty h
      obtain ⟨v, back, rfl, hv, -⟩ := iht (hends.append hall)
        (endsTypes_of_closesWell hsymbols hall) ⟨_, _, rfl, rfl, hus⟩
      exact ⟨v, back, rfl, .via hbranch hv
        (h.empties hempty hends.semicolon (closesWell_of_cons hsymbols)), trivial⟩

end Derives

/-! ### Trees that stand before a semicolon -/

/-- The tokens of the tree are read as the tree of the nonterminal before a semicolon. -/
def Stands (n : Nonterminal) (outer : List Symbol) (t : Tree) : Prop :=
  Derives (.list [.sub n]) outer (source (tokensOf [t]) ++ [';']) [t] [';']

section Stands

variable {n : Nonterminal} {outer outer' : List Symbol} {input rest : List Char} {t t' : Tree}

/-- What is read of trees that are cut off stands before a semicolon. -/
theorem Derives.stands_trim (h : Derives (.list [.sub n]) outer input [t] rest)
    (hends : EndsAs outer outer') (hn : n.endsTypes = true) (htrims : Trims [t] [t']) :
    Stands n outer' t' := by
  have hwell : closesWell [.sub n] = true := by rw [closesWell, hn]; rfl
  obtain ⟨x, back, -, hx, -⟩ := h.trim hends hwell htrims
  obtain ⟨ks, hks, hinput⟩ := hx.exists_tokens
  obtain rfl : x = source ks := List.append_cancel_right hinput
  rw [Stands, show tokensOf [t'] = ks from hks]
  exact hx

theorem trims_refl (ts : List Tree) : Trims ts ts := by
  induction ts with
  | nil => exact .here .nil
  | cons t ts ih => exact .behind (.keep ih)

/-- A nonterminal that may come last in a type is read again before a semicolon. -/
theorem Derives.stands (h : Derives (.list [.sub n]) outer input [t] rest)
    (hends : EndsAs outer outer') (hn : n.endsTypes = true) : Stands n outer' t :=
  h.stands_trim hends hn (trims_refl _)

theorem Stands.trim (h : Stands n outer t) (hsemicolon : expects outer .semicolon = true)
    (hn : n.endsTypes = true) (htrims : Trims [t] [t']) : Stands n outer t' :=
  Derives.stands_trim h (.of_semicolon hsemicolon) hn htrims

/-- Wherever a tree is read, its tokens are read as it before a semicolon. -/
theorem ReadAs.stands (h : ReadAs n t) (hn : n.endsTypes = true) (hempty : n.mayBeEmpty = false) :
    Stands n [.tok .semicolon] t := by
  obtain @⟨symbols, outer, input, next, rest, k, hk, hstarts, h⟩ := h
  have hstarted : starts n k.terminal = true := by
    cases h with
    | led hbranch => exact starts_of_branch? hbranch
    | via hbranch => exact starts_of_branch? hbranch
  have hsees : Sees (.sub n :: outer) input k next := by
    refine ((ClosesAs.spots_of_sees hk).of_admits (expects_of_starts hstarted)
      (.of_imp fun v hv => ?_)).sub_sees (expects_of_starts hstarted) ?_
    · rw [expects, hempty, Bool.false_and, Bool.or_false] at hv
      exact hstarts v hv
    · rintro rfl
      cases hn
  have hread : Derives (.list [.sub n]) outer input [t] rest :=
    derives_sub_iff.2 (.inl ⟨k, next, hsees, hstarted, h⟩)
  exact hread.stands (.before_semicolon outer) hn

theorem Stands.hasShape (h : Stands n outer t) : HasShape n t :=
  Derives.fits h

/-- What is read up to a semicolon stands before it. -/
theorem stands_of_derives (h : Derives (.list [.sub n]) outer input [t] [';']) :
    Stands n outer t := by
  obtain ⟨ks, hks, rfl⟩ := h.exists_tokens
  rw [Stands, show tokensOf [t] = ks from hks]
  exact h

end Stands

end DeclSchema.Grammar
