import DeclSchema.Proofs.Grammar.Cutting
import DeclSchema.Proofs.Grammar.Shape

/-!
# Types before a semicolon

Where a type was read, the rest of the input may be replaced with a semicolon: the same type is read
again. The reader looks one token beyond the type, and what may follow the type is left out before a
semicolon just as before the token that was there. This holds of any part of a type that may come
last in it, too.

## Main definitions

* `Nonterminal.endsTypes`, `closesWell`: what a type may end with
* `ClosesAs`: the rest of the input may be replaced with a semicolon

## Main results

* `ClosesAs.list`: what comes before the rest does not matter
* `Derives.cut`: what is read before the rest is read again before a semicolon
-/

namespace DeclSchema.Grammar

open Terminal Nonterminal

/-! ### What a type may end with -/

/-- The nonterminals that may come last in a type. -/
def Nonterminal.endsTypes : Nonterminal → Bool
  | type _ | typeRest _ | suffixedRest _ | namedRest _ | parenthesis _ | parenthesisName _
  | parenthesisEnd _ | functionRest | constructorRest | intersection | moreOperands | operator
  | primary | suffixes | arrayOrIndex | typeQuery | importType | dotted | typeArguments | braced
  | bracedReadonly | bracedBracketed _ | bracedName _ | mapped | returnType | returnName
  | asserted => true
  | _ => false

def Symbol.mayBeEmpty : Symbol → Bool
  | .tok _ => false
  | .sub n => n.mayBeEmpty

/-- Symbols of which each nonterminal that may come last may come last in a type. -/
def closesWell : List Symbol → Bool
  | [] => true
  | .tok _ :: symbols => closesWell symbols
  | .sub n :: symbols => (n.endsTypes || !symbols.all Symbol.mayBeEmpty) && closesWell symbols

def Task.closesWell : Task → Bool
  | .list symbols => Grammar.closesWell symbols
  | .node n _ => n.endsTypes

theorem closesWell_of_branch? {n : Nonterminal} (hn : n.endsTypes = true) {t : Terminal}
    {b : Branch} (hb : branch? n t = some b) : closesWell b.symbols = true := by
  have hall : (!n.endsTypes || n.branches.all fun b => closesWell b.symbols) = true := by
    cases n <;> first | rfl | (rename_i b; cases b <;> rfl)
  rw [hn] at hall
  exact List.all_eq_true.1 hall b (List.mem_of_find?_eq_some hb)

/-- Nothing that may be left out at the end of a type starts with a semicolon. -/
theorem starts_semicolon {n : Nonterminal} (hn : n.endsTypes = true) (hempty : n.mayBeEmpty = true) :
    starts n .semicolon = false := by
  cases n <;> first
    | exact absurd hn Bool.false_ne_true
    | exact absurd hempty Bool.false_ne_true
    | rfl
    | (rename_i b; cases b <;> rfl)

theorem closesWell_of_cons {s : Symbol} {symbols : List Symbol}
    (h : closesWell (s :: symbols) = true) : closesWell symbols = true := by
  cases s with
  | tok t => exact h
  | sub n =>
    rw [closesWell, Bool.and_eq_true] at h
    exact h.2

theorem endsTypes_of_closesWell {n : Nonterminal} {symbols : List Symbol}
    (h : closesWell (.sub n :: symbols) = true) (hempty : symbols.all Symbol.mayBeEmpty = true) :
    n.endsTypes = true := by
  rw [closesWell, hempty, Bool.and_eq_true, Bool.or_eq_true] at h
  exact h.1.resolve_right Bool.false_ne_true

/-! ### Inputs and what is left of them -/

section Derives

variable {task : Task} {symbols outer outer' : List Symbol} {input rest x w back : List Char}
  {ts : List Tree}

/-- What is left of the input is its last part. -/
theorem Derives.isSuffix (h : Derives task outer input ts rest) : rest <:+ input := by
  obtain ⟨ks, -, hinput⟩ := h.exists_tokens
  exact ⟨source ks, hinput.symm⟩

theorem Sees.isSuffix {k : Token} (h : Sees symbols input k rest) : rest <:+ input :=
  ⟨k.trivia ++ k.lexeme, by rw [h.input_eq, List.append_assoc]⟩

/-- Symbols from which nothing is read may be left out. -/
theorem Derives.mayBeEmpty (h : Derives (.list symbols) outer input ts input) :
    symbols.all Symbol.mayBeEmpty = true := by
  have hsees : ∀ {symbols outer : List Symbol} {s : Symbol} {next : List Char} {k : Token},
      Sees (s :: symbols ++ outer) input k next → input <:+ next → False := by
    intro symbols outer s next k hk hnext
    have := hk.length_lt
    have := hnext.length_le
    omega
  induction symbols generalizing ts with
  | nil => rfl
  | cons s symbols ih =>
    rw [List.all_cons, Bool.and_eq_true]
    cases h with
    | tok hk h => exact (hsees hk h.isSuffix).elim
    | start hk _ ht h => exact (hsees hk (h.isSuffix.trans ht.isSuffix)).elim
    | skip hk hn h => exact ⟨expects_of_sees hk hn, ih h⟩
    | finish _ hn h => exact ⟨hn, ih h⟩

/-! ### The rest of the input -/

theorem exists_append {next : List Char} (h : w ++ back <:+ next) : ∃ v, next = v ++ back := by
  obtain ⟨v, rfl⟩ := h
  exact ⟨v ++ w, by rw [List.append_assoc]⟩

/-- Where `outer` follow, the rest of the input is `w ++ back`; a semicolon may stand in the place
of `back` where `outer'` follow. The next token belongs to `w`, or `w` is empty and the semicolon
comes next. -/
structure ClosesAs (outer outer' : List Symbol) (w back : List Char) : Prop where
  expects_imp : ∀ u, expects outer' u = true → expects outer u = true ∨ u = .semicolon
  next : w = [] ∧ expects outer' .semicolon = true ∨
    ∃ k v, Spots (expects outer) (w ++ back) k (v ++ back) ∧ expects outer' k.terminal = true

namespace ClosesAs

theorem expects_append (h : ClosesAs outer outer' w back) (symbols : List Symbol) (u : Terminal)
    (hu : expects (symbols ++ outer') u = true) :
    expects (symbols ++ outer) u = true ∨ u = .semicolon := by
  induction symbols with
  | nil => exact h.expects_imp u hu
  | cons s symbols ih =>
    cases s with
    | tok t => exact .inl hu
    | sub n =>
      simp only [List.cons_append, expects, Bool.or_eq_true, Bool.and_eq_true] at hu ⊢
      obtain hstarts | ⟨hempty, hu⟩ := hu
      · exact .inl (.inl hstarts)
      · exact (ih hu).imp (fun hu => .inr ⟨hempty, hu⟩) id

/-- The token that is seen where a nonterminal is left out is seen behind it too. -/
theorem spots_of_skip {n : Nonterminal} {k : Token} {next : List Char}
    (hk : Sees (.sub n :: symbols) input k next) (hn : starts n k.terminal = false) :
    Spots (expects symbols) input k next := by
  have hexpected := hk.expected
  simp only [expects, hn, Bool.false_or, Bool.and_eq_true] at hexpected
  refine hk.spots.of_admits hexpected.2 (.of_imp fun v hv => ?_)
  rw [expects_of_mayBeEmpty hexpected.1 hv, Bool.true_or]

theorem spots_of_sees {k : Token} {next : List Char} (hk : Sees symbols input k next) :
    Spots (expects symbols) input k next :=
  hk.spots.of_admits hk.expected (.of_imp fun v hv => by rw [hv, Bool.true_or])

/-- What is read before the rest of the input comes before it in a longer rest. -/
theorem list (hclose : ClosesAs outer outer' w back)
    (h : Derives (.list symbols) outer (x ++ back) ts (w ++ back)) :
    ClosesAs (symbols ++ outer) (symbols ++ outer') x back := by
  refine ⟨hclose.expects_append symbols, ?_⟩
  -- A token that is taken lies before the rest; a nonterminal that is left out has the same token
  -- next as what comes behind it.
  induction symbols generalizing ts with
  | nil =>
    obtain rfl : x = w := by
      generalize hinput : x ++ back = input at h
      generalize hrest : w ++ back = rest at h
      cases h
      exact List.append_cancel_right (hinput.trans hrest.symm)
    exact hclose.next
  | cons s symbols ih =>
    cases h with
    | tok hk h =>
      obtain ⟨v, rfl⟩ := exists_append h.isSuffix
      exact .inr ⟨_, v, spots_of_sees hk, hk.expected⟩
    | start hk hn ht h =>
      obtain ⟨v, rfl⟩ := exists_append (h.isSuffix.trans ht.isSuffix)
      exact .inr ⟨_, v, spots_of_sees hk, expects_of_starts hn⟩
    | skip hk hn h =>
      have hempty := expects_of_sees hk hn
      obtain ⟨hnil, hsemicolon⟩ | ⟨k', v, hspots, hexpects⟩ := ih h
      · exact .inl ⟨hnil, expects_of_mayBeEmpty hempty hsemicolon⟩
      · obtain ⟨rfl, rfl⟩ := (spots_of_skip hk hn).eq hspots
        exact .inr ⟨_, v, spots_of_sees hk, expects_of_mayBeEmpty hempty hexpects⟩
    | finish hend hn h =>
      obtain ⟨hnil, hsemicolon⟩ | ⟨k', v, hspots, -⟩ := ih h
      · exact .inl ⟨hnil, expects_of_mayBeEmpty hn hsemicolon⟩
      · exact absurd hend hspots.not_atEnd

end ClosesAs

/-! ### A semicolon in the place of the rest -/

theorem reserves_cons (s : Symbol) (symbols symbols' : List Symbol) :
    reserves (s :: symbols) = reserves (s :: symbols') := by
  cases s with
  | tok t => rfl
  | sub n => cases n <;> rfl

/-- A token before the rest of the input is seen before a semicolon too. -/
theorem Sees.cut {s : Symbol} {k : Token} {v : List Char}
    (hk : Sees (s :: symbols ++ outer) (x ++ back) k (v ++ back))
    (himp : ∀ u, expects (s :: symbols ++ outer') u = true →
      expects (s :: symbols ++ outer) u = true ∨ u = .semicolon)
    (hexpects : expects (s :: symbols ++ outer') k.terminal = true) :
    Sees (s :: symbols ++ outer') (x ++ [';']) k (v ++ [';']) := by
  have hcut := hk.spots.cut
  refine (hcut.of_admits (by rw [hexpects, Bool.true_or]) (hcut.addsNothing fun u hu => ?_)).sees
    hexpects
  rw [Bool.or_eq_true] at hu ⊢
  obtain hu | hu := hu
  · exact (himp u hu).imp .inl id
  · rw [List.cons_append, reserves_cons s _ (symbols ++ outer)] at hu
    exact .inl (.inr hu)

/-- Where nothing of the input is kept but a nonterminal comes before the rest, it may come last in
a type. -/
theorem endsTypes_of_derives {n : Nonterminal}
    (hwell : w = [] → closesWell (.sub n :: symbols) = true)
    (h : Derives (.list symbols) outer (x ++ back) ts (w ++ back)) (hx : x = []) :
    n.endsTypes = true := by
  subst hx
  obtain rfl : w = [] := by
    have := h.isSuffix.length_le
    rw [List.nil_append, List.length_append] at this
    exact List.length_eq_zero_iff.1 (by omega)
  exact endsTypes_of_closesWell (hwell rfl) h.mayBeEmpty

/-- What may come last in a type is left out before a semicolon. -/
theorem Derives.skip_semicolon {n : Nonterminal} (hempty : n.mayBeEmpty = true)
    (hends : n.endsTypes = true) (hsemicolon : expects (symbols ++ outer) .semicolon = true)
    (h : Derives (.list symbols) outer [';'] ts rest) :
    Derives (.list (.sub n :: symbols)) outer [';'] (.node n [] :: ts) rest :=
  .skip (sees_closedMark (u := .semicolon) (by decide) (expects_of_mayBeEmpty hempty hsemicolon)
    .nil []) (starts_semicolon hends hempty) h

/-- What is read before the rest of the input is read again where a semicolon stands in the place of
`back`. -/
theorem Derives.cut (h : Derives task outer input ts rest) (hinput : input = x ++ back)
    (hrest : rest = w ++ back) (hclose : ClosesAs outer outer' w back)
    (hwell : w = [] → task.closesWell = true) :
    Derives task outer' (x ++ [';']) ts (w ++ [';']) := by
  induction h generalizing outer' x w with
  | nil =>
    obtain rfl := List.append_cancel_right (hinput.symm.trans hrest)
    exact .nil
  | tok hk h ih =>
    subst hinput hrest
    obtain ⟨v, rfl⟩ := exists_append h.isSuffix
    exact .tok (hk.cut (hclose.expects_append (.tok _ :: _)) hk.expected)
      (ih rfl rfl hclose hwell)
  | start hk hn ht h iht ih =>
    subst hinput hrest
    obtain ⟨u, rfl⟩ := exists_append h.isSuffix
    obtain ⟨v, rfl⟩ := exists_append ht.isSuffix
    exact .start (hk.cut (hclose.expects_append (.sub _ :: _)) (expects_of_starts hn)) hn
      (iht rfl rfl (hclose.list h) (endsTypes_of_derives hwell h))
      (ih rfl rfl hclose fun hw => closesWell_of_cons (hwell hw))
  | skip hk hn h ih =>
    subst hinput hrest
    have hempty := expects_of_sees hk hn
    have hrest := ih rfl rfl hclose fun hw => closesWell_of_cons (hwell hw)
    -- Either the semicolon comes next in the place of `back`, or the next token is still before it.
    obtain ⟨rfl, hsemicolon⟩ | ⟨k, v, hspots, hexpects⟩ := (hclose.list h).next
    · exact .skip_semicolon hempty (endsTypes_of_derives hwell h rfl) hsemicolon hrest
    · obtain ⟨rfl, rfl⟩ := (ClosesAs.spots_of_skip hk hn).eq hspots
      exact .skip (hk.cut (hclose.expects_append (.sub _ :: _))
        (expects_of_mayBeEmpty hempty hexpects)) hn hrest
  | finish hend hn h ih =>
    subst hinput hrest
    have hrest := ih rfl rfl hclose fun hw => closesWell_of_cons (hwell hw)
    obtain ⟨rfl, hsemicolon⟩ | ⟨k, v, hspots, -⟩ := (hclose.list h).next
    · exact .skip_semicolon hn (endsTypes_of_derives hwell h rfl) hsemicolon hrest
    · exact absurd hend hspots.not_atEnd
  | led hbranch h ih =>
    exact .led hbranch (ih hinput hrest hclose fun hw => closesWell_of_branch? (hwell hw) hbranch)
  | via hbranch ht h iht ih =>
    subst hinput hrest
    obtain ⟨u, rfl⟩ := exists_append h.isSuffix
    have hsymbols hw := closesWell_of_branch? (hwell hw) hbranch
    exact .via hbranch (iht rfl rfl (hclose.list h) (endsTypes_of_derives hsymbols h))
      (ih rfl rfl hclose fun hw => closesWell_of_cons (hsymbols hw))

end Derives

end DeclSchema.Grammar
