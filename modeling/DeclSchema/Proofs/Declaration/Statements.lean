import DeclSchema.Declaration.Source
import DeclSchema.Proofs.Declaration.Members
import DeclSchema.Proofs.Declaration.Names

/-!
# Declarations read back

Every type of a canonical source is read back, by recursion over the types and their parts. With
them the clauses of a declaration are, and with these the declarations. A declaration is followed by
the word that the next one starts with, or by the end of the source.

## Main results

* `Operand.reads`, `TypeForm.reads`: all types are read back
* `takes_typeParameters`, `takes_heritage`, `takes_enumMembers`: the clauses of a declaration
* `takes_statements`: lists of declarations
* `ofSource_print`: reading a canonical source gives the declarations that it was printed from
-/

namespace DeclSchema.Canonical

open Grammar Declaration
open Grammar.Tree (tokensOf)

variable {symbols outer : List Symbol} {k : Token} {input mid rest : List Token}

/-! ### Types -/

mutual

theorem Operand.reads (o : Operand) : o.Reads := by
  cases o with
  | simple s => exact .simple s
  | generic name first more => exact .generic name first.reads (reads_types more)
  | qualified scope middle member => exact .qualified scope middle member
  | string value => exact .string value
  | number n => exact .number n
  | negative n => exact .negative n
  | parenthesized inner => exact .parenthesized inner.reads
  | array element => exact .array element.reads
  | object members => exact .object (reads_properties members)

theorem TypeForm.reads (f : TypeForm) : f.Reads := by
  cases f with
  | union head more => exact .union head.reads (reads_operands more)

theorem reads_operands (os : List Operand) : ∀ o ∈ os, o.Reads := by
  cases os with
  | nil => exact nofun
  | cons o more => exact List.forall_mem_cons.mpr ⟨o.reads, reads_operands more⟩

theorem reads_types (fs : List TypeForm) : ∀ f ∈ fs, f.Reads := by
  cases fs with
  | nil => exact nofun
  | cons f more => exact List.forall_mem_cons.mpr ⟨f.reads, reads_types more⟩

theorem Property.reads (p : Property) : ∀ f ∈ p.typeForm, f.Reads := by
  cases p with
  | mk readonly key optional type => exact reads_annotated type

theorem reads_annotated (type : Option TypeForm) : ∀ f ∈ type, f.Reads := by
  cases type with
  | none => exact nofun
  | some f =>
    intro _ hf
    cases hf
    exact f.reads

theorem reads_properties (ps : List Property) : ∀ p ∈ ps, ∀ f ∈ p.typeForm, f.Reads := by
  cases ps with
  | nil => exact nofun
  | cons p more => exact List.forall_mem_cons.mpr ⟨p.reads, reads_properties more⟩

end

/-! ### Type parameters -/

theorem continued_append (separator : Terminal) (first : List Token) (more : List (List Token)) :
    continued separator (first :: more) ++ mid
      = mark separator :: (first ++ (continued separator more ++ mid)) := by
  simp [continued]

theorem bracketed_append (first : List Token) (more : List (List Token)) :
    bracketed (first :: more) ++ mid
      = mark .less :: (first ++ (continued .comma more ++ mark .greater :: mid)) := by
  simp [bracketed]

/-- A comma comes next, or what closes the list. -/
theorem ahead_continued {n : Nonterminal} {closing : Terminal} (items : List (List Token))
    (hn : n.mayBeEmpty = true ∧ starts n .comma = true) (symbols : List Symbol) (mid : List Token) :
    Ahead [.comma, closing] (.sub n :: .tok closing :: symbols)
      (continued .comma items ++ mark closing :: mid) := by
  cases items with
  | nil => exact (ahead_mark (by simp)).sub hn.1
  | cons first more => exact ahead_start (by simp) hn.2

/-- The tree of a type parameter without bound and default. -/
def parameterTree (w : Word) : Tree :=
  .node .typeParameter [.leaf w.token, .node .bound [], .node .defaultType []]

/-- A type parameter has neither bound nor default where others or the closing bracket follow it. -/
theorem reads_typeParameter (ws : List Word) (symbols : List Symbol) (mid : List Token) :
    Reads [.sub .bound, .sub .defaultType] (.sub .moreTypeParameters :: .tok .greater :: symbols)
      (continued .comma (ws.map ([·.token])) ++ mark .greater :: mid)
      (continued .comma (ws.map ([·.token])) ++ mark .greater :: mid)
      [.node .bound [], .node .defaultType []] :=
  have hahead : Ahead [.comma, .greater] _ _ :=
    ahead_continued (n := .moreTypeParameters) (ws.map ([·.token])) (by decide) symbols mid
  .sub ((hahead.sub (n := .defaultType) rfl).takes (by decide))
    (.sub (hahead.takes (by decide)) .nil)

theorem takes_moreTypeParameters (ws : List Word) (symbols : List Symbol) (mid : List Token) :
    ∃ t, Takes .moreTypeParameters (.tok .greater :: symbols)
        (continued .comma (ws.map ([·.token])) ++ mark .greater :: mid) (mark .greater :: mid) t
      ∧ parameterNames t = ws.map (·.text) := by
  induction ws with
  | nil => exact ⟨_, .omitted (u := .greater) rfl (by decide) rfl, rfl⟩
  | cons w ws ih =>
    obtain ⟨t, ht, hnames⟩ := ih
    have hw := w.takes (n := .typeParameter) (by decide)
      (reads_typeParameter ws symbols mid)
    refine ⟨_, .led (u := .comma) rfl (by decide) (.sub hw (.sub ht .nil)), ?_⟩
    rw [parameterNames, hnames]
    rfl

/-- The type parameters of a declaration, if there are any. -/
theorem takes_typeParameters (ws : List Word)
    (hahead : Ahead [.extendsWord, .openBrace, .equals] symbols mid) :
    ∃ t, Takes .typeParameters symbols (bracketed (ws.map ([·.token])) ++ mid) mid t
      ∧ parameterNames t = ws.map (·.text) := by
  cases ws with
  | nil => exact ⟨_, hahead.takes (by decide), rfl⟩
  | cons w ws =>
    obtain ⟨t, ht, hnames⟩ := takes_moreTypeParameters ws symbols mid
    have hlist : Takes .typeParameterList symbols
        (w.token :: (continued .comma (ws.map ([·.token])) ++ mark .greater :: mid)) mid
        (.node .typeParameterList [parameterTree w, t, .leaf (mark .greater)]) := by
      refine .start (w.awaits (by decide)) (by decide : starts _ .name = true)
        (.via (by decide : branch? _ .name = _) (.led (u := .name) rfl (by decide)
          (reads_typeParameter ws symbols mid))
          (.sub ht (.tok (u := .greater) rfl .nil)))
    rw [List.map_cons, bracketed_append]
    refine ⟨_, .led (u := .less) rfl (by decide) (.sub hlist .nil), ?_⟩
    rw [parameterNames, parameterNames, hnames]
    rfl

/-! ### Heritage -/

theorem tokensOfTypes_eq (fs : List TypeForm) :
    tokensOfTypes fs = continued .comma (fs.map (·.tokens)) := by
  induction fs with
  | nil => rfl
  | cons f more ih =>
    rw [tokensOfTypes, ih]
    rfl

theorem typesOf_eq (fs : List TypeForm) : typesOf fs = fs.map (·.type) := by
  induction fs with
  | nil => rfl
  | cons f more ih => rw [typesOf, ih, List.map_cons]

/-- The type arguments of an entry, if there are any. -/
theorem takes_typeArguments (fs : List TypeForm)
    (hahead : Ahead [.comma, .openBrace] symbols mid) :
    ∃ t, Takes .typeArguments symbols (bracketed (fs.map (·.tokens)) ++ mid) mid t
      ∧ typeArgumentsOf t = .ok (fs.map (·.type)) := by
  cases fs with
  | nil => exact ⟨_, hahead.takes (by decide), rfl⟩
  | cons f more =>
    have hnil : Reads [] symbols mid mid [] := .nil
    obtain ⟨ft, m, hread, -, hf, hm⟩ := reads_arguments f.reads (reads_types more) hnil
    rw [tokensOfTypes_eq] at hread
    rw [typesOf_eq] at hm
    rw [List.map_cons, bracketed_append]
    exact ⟨_, .led (u := .less) rfl (by decide) hread, typeArgumentsOf_eq hf hm⟩

theorem ahead_typeArguments (fs : List TypeForm) (hahead : Ahead [.comma, .openBrace] symbols mid) :
    Ahead [.less, .comma, .openBrace] (.sub .typeArguments :: symbols)
      (bracketed (fs.map (·.tokens)) ++ mid) := by
  cases fs with
  | nil => exact (hahead.sub rfl).mono (by decide)
  | cons f more => exact ahead_start (by decide) (by decide)

theorem takes_heritageType (h : HeritageForm) (hahead : Ahead [.comma, .openBrace] symbols mid) :
    ∃ t, Takes .heritageType symbols (h.tokens ++ mid) mid t
      ∧ heritageOf t = .ok h.heritage := by
  obtain ⟨a, ha, harguments⟩ := takes_typeArguments h.arguments hahead
  obtain ⟨d, hd, hnames⟩ := takes_dotted h.more
    ((ahead_typeArguments h.arguments hahead).takes (by decide))
  have ht := h.first.takes (n := .heritageType) (by decide) (.sub hd (.sub ha .nil))
  have htokens : h.first.token :: (continued .dot (h.more.map ([·.token]))
      ++ (bracketed (h.arguments.map (·.tokens)) ++ mid)) = h.tokens ++ mid := by
    simp [HeritageForm.tokens]
  rw [htokens] at ht
  refine ⟨_, ht, ?_⟩
  have htext : tokensOf [.node .heritageType [.leaf h.first.token, d, a]] = h.tokens := by
    rw [tokensOf, tokensOf, List.append_nil, tokens_of_takes ht]
  simp only [heritageOf, harguments, hnames, textOf_trees htext]
  rfl

/-- An entry and the entries behind it, after the word or the mark that they start with. -/
theorem takes_entries {n : Nonterminal} {u : Terminal}
    (hn : u ≠ .name ∧ branch? n u = some (.led u [.sub .heritageType, .sub .moreHeritage]))
    (h : HeritageForm) {more : List HeritageForm} {m : Tree}
    (hm : Takes .moreHeritage (.tok .openBrace :: symbols)
      (continued .comma (more.map (·.tokens)) ++ mark .openBrace :: mid) (mark .openBrace :: mid) m)
    (hmore : heritageListOf m = .ok (more.map (·.heritage))) :
    ∃ t, Takes n (.tok .openBrace :: symbols)
        (mark u :: (h.tokens ++ (continued .comma (more.map (·.tokens)) ++ mark .openBrace :: mid)))
        (mark .openBrace :: mid) t
      ∧ heritageListOf t = .ok ((h :: more).map (·.heritage)) := by
  obtain ⟨t, ht, hheritage⟩ := takes_heritageType h
    (ahead_continued (n := .moreHeritage) (more.map (·.tokens)) (by decide) symbols mid)
  refine ⟨_, .led (u := u) rfl hn (.sub ht (.sub hm .nil)), ?_⟩
  simp only [heritageListOf, hheritage, hmore]
  rfl

theorem takes_moreHeritage (hs : List HeritageForm) (symbols : List Symbol) (mid : List Token) :
    ∃ t, Takes .moreHeritage (.tok .openBrace :: symbols)
        (continued .comma (hs.map (·.tokens)) ++ mark .openBrace :: mid) (mark .openBrace :: mid) t
      ∧ heritageListOf t = .ok (hs.map (·.heritage)) := by
  induction hs with
  | nil => exact ⟨_, .omitted (u := .openBrace) rfl (by decide) rfl, rfl⟩
  | cons h more ih =>
    obtain ⟨m, hm, hmore⟩ := ih
    rw [List.map_cons, continued_append]
    exact takes_entries (by decide) h hm hmore

/-- The entries of an `extends` clause, if there are any. -/
theorem takes_heritage (hs : List HeritageForm) (symbols : List Symbol) (mid : List Token) :
    ∃ t, Takes .heritage (.tok .openBrace :: symbols) (extending hs ++ mark .openBrace :: mid)
        (mark .openBrace :: mid) t
      ∧ heritageListOf t = .ok (hs.map (·.heritage)) := by
  cases hs with
  | nil => exact ⟨_, .omitted (u := .openBrace) rfl (by decide) rfl, rfl⟩
  | cons h more =>
    obtain ⟨m, hm, hmore⟩ := takes_moreHeritage more symbols mid
    rw [extending, List.cons_append, List.append_assoc]
    exact takes_entries (by decide) h hm hmore

theorem ahead_heritage (hs : List HeritageForm) (symbols : List Symbol) (mid : List Token) :
    Ahead [.extendsWord, .openBrace, .equals] (.sub .heritage :: .tok .openBrace :: symbols)
      (extending hs ++ mark .openBrace :: mid) := by
  cases hs with
  | nil => exact (ahead_mark (by decide)).sub rfl
  | cons h more => exact ahead_start (by decide) (by decide)

/-- The type parameters and the `extends` clause of an interface, with whatever comes behind the
opening brace. -/
theorem reads_clauses (parameters : List Word) (heritage : List HeritageForm) {ts : List Tree}
    (h : Reads (.tok .openBrace :: symbols) outer (mark .openBrace :: mid) rest ts) :
    ∃ p e, Reads (.sub .typeParameters :: .sub .heritage :: .tok .openBrace :: symbols) outer
        (bracketed (parameters.map ([·.token])) ++ (extending heritage ++ mark .openBrace :: mid))
        rest (p :: e :: ts)
      ∧ parameterNames p = parameters.map (·.text)
      ∧ heritageListOf e = .ok (heritage.map (·.heritage)) := by
  obtain ⟨p, hp, hnames⟩ := takes_typeParameters parameters
    (ahead_heritage heritage (symbols ++ outer) mid)
  obtain ⟨e, he, hheritage⟩ := takes_heritage heritage (symbols ++ outer) mid
  exact ⟨p, e, .sub hp (.sub he h), hnames, hheritage⟩

/-! ### Members of an enum -/

/-- Tokens with commas between them. -/
def separated : List Token → List Token
  | [] => []
  | first :: more => first :: continued .comma (more.map ([·]))

theorem enumerated_eq (keys : List PlainKey) :
    enumerated keys = separated (keys.map (·.token)) := by
  cases keys with
  | nil => rfl
  | cons first more =>
    rw [enumerated, List.map_cons, separated, List.map_map]
    rfl

theorem allSpaced_separated {ks : List Token} (h : AllSpaced ks) : AllSpaced (separated ks) := by
  cases ks with
  | nil => exact .nil
  | cons first more =>
    obtain ⟨hfirst, hmore⟩ := List.forall_mem_cons.mp h
    exact .cons hfirst (.continued (List.forall_mem_map.mpr fun k hk => .single (hmore k hk)))

/-- Keys without brackets, with the names that they are for. -/
def AreKeys (keys : List (Token × Text)) : Prop :=
  ∀ p ∈ keys, IsKey p.1 p.2

theorem areKeys_plainKeys (keys : List PlainKey) :
    AreKeys (keys.map fun key => (key.token, key.text)) :=
  List.forall_mem_map.mpr fun key _ => key.isKey

/-- A member of an enum and the members behind it. -/
theorem takes_enumMember {name : Text} (hk : IsKey k name) {more : List (Token × Text)} {m : Tree}
    (hm : Takes .moreEnumMembers (.tok .closeBrace :: symbols)
      (continued .comma ((more.map (·.1)).map ([·])) ++ mark .closeBrace :: mid)
      (mark .closeBrace :: mid) m)
    (hmore : enumMembersOf m = .ok (more.map (·.2))) :
    ∃ t, Takes .enumMembers (.tok .closeBrace :: symbols)
        (k :: (continued .comma ((more.map (·.1)).map ([·])) ++ mark .closeBrace :: mid))
        (mark .closeBrace :: mid) t
      ∧ enumMembersOf t = .ok (name :: more.map (·.2)) := by
  have hbranch : ∀ t ∈ keyHeads, branch? .enumMember t = some (.led t [])
      ∧ branch? .enumMembers t
        = some (.via .enumMember [.sub .initializer, .sub .moreEnumMembers]) := by
    decide
  obtain ⟨hled, hvia⟩ := hbranch _ hk.terminal_mem
  have hmarks : Ahead [.comma, .closeBrace] (.sub .moreEnumMembers :: .tok .closeBrace :: symbols)
      (continued .comma ((more.map (·.1)).map ([·])) ++ mark .closeBrace :: mid) :=
    ahead_continued _ (by decide) symbols mid
  have hinitializer := hmarks.takes (n := .initializer) (by decide)
  refine ⟨_, .start (hk.awaits (by decide) fun _ => expects_closeBrace)
    (starts_of_branch? hvia)
    (.via hvia (.led rfl hled .nil) (.sub hinitializer (.sub hm .nil))), ?_⟩
  simp only [enumMembersOf, hk.keyOf_eq, hmore]
  rfl

theorem takes_moreEnumMembers {keys : List (Token × Text)} (hkeys : AreKeys keys)
    (symbols : List Symbol) (mid : List Token) :
    ∃ t, Takes .moreEnumMembers (.tok .closeBrace :: symbols)
        (continued .comma ((keys.map (·.1)).map ([·])) ++ mark .closeBrace :: mid)
        (mark .closeBrace :: mid) t
      ∧ enumMembersOf t = .ok (keys.map (·.2)) := by
  induction keys with
  | nil => exact ⟨_, .omitted (u := .closeBrace) rfl (by decide) rfl, rfl⟩
  | cons key more ih =>
    obtain ⟨hkey, hmore⟩ := List.forall_mem_cons.mp hkeys
    obtain ⟨m, hm, hnames⟩ := ih hmore
    obtain ⟨t, ht, hall⟩ := takes_enumMember hkey hm hnames
    rw [List.map_cons, List.map_cons, continued_append]
    exact ⟨_, .led (u := .comma) rfl (by decide) (.sub ht .nil), hall⟩

/-- The members of an enum, if there are any. -/
theorem takes_enumMembers {keys : List (Token × Text)} (hkeys : AreKeys keys)
    (symbols : List Symbol) (mid : List Token) :
    ∃ t, Takes .enumMembers (.tok .closeBrace :: symbols)
        (separated (keys.map (·.1)) ++ mark .closeBrace :: mid) (mark .closeBrace :: mid) t
      ∧ enumMembersOf t = .ok (keys.map (·.2)) := by
  cases keys with
  | nil => exact ⟨_, .omitted (u := .closeBrace) rfl (by decide) rfl, rfl⟩
  | cons key more =>
    obtain ⟨hkey, hmore⟩ := List.forall_mem_cons.mp hkeys
    obtain ⟨m, hm, hnames⟩ := takes_moreEnumMembers hmore symbols mid
    exact takes_enumMember hkey hm hnames

/-! ### Declarations -/

/-- The words that a declaration starts with. -/
def declarationHeads : List Terminal :=
  [.interfaceWord, .enumWord, .typeWord]

theorem Statement.head_mem (s : Statement) : s.head ∈ declarationHeads := by
  cases s <;> simp [head, declarationHeads]

/-- What comes after a declaration is no semicolon. -/
theorem takes_optionalSemicolon (ss : List Statement) :
    Takes .optionalSemicolon [.sub .statements] (ss.flatMap (·.tokens)) (ss.flatMap (·.tokens))
      (.node .optionalSemicolon []) := by
  cases ss with
  | nil => exact .finish rfl
  | cons s ss =>
    have hheads : ∀ t ∈ declarationHeads,
        (t ≠ .name ∧ Nonterminal.optionalSemicolon.mayBeEmpty = true
          ∧ starts .optionalSemicolon t = false) ∧ expects [.sub .statements] t = true := by
      decide
    obtain ⟨homitted, hexpects⟩ := hheads _ s.head_mem
    exact .omitted (u := s.head) rfl homitted hexpects

theorem tokensOf_word (k : Token) (t : Tree) : tokensOf [.leaf k, t] = k :: t.tokens := by
  simp [tokensOf, Tree.tokens]

/-- What follows the word `interface`, around the tokens of the members. -/
def interfaceTail (name : Word) (parameters : List Word) (heritage : List HeritageForm)
    (members : List Token) : List Token :=
  name.token :: (bracketed (parameters.map ([·.token])) ++ extending heritage
    ++ mark .openBrace :: members ++ [mark .closeBrace])

/-- What follows the word `enum`, around the tokens of the members. -/
def enumTail (name : Word) (members : List Token) : List Token :=
  name.token :: mark .openBrace :: (separated members ++ [mark .closeBrace])

/-- What follows the word `type`, around the tokens of the type. -/
def aliasTail (name : Word) (parameters : List Word) (type : List Token) : List Token :=
  name.token :: (bracketed (parameters.map ([·.token])) ++ mark .equals :: type
    ++ [mark .semicolon])

section Declaration

variable (hk : k.lexeme = k.terminal.spelling)
  (hmid : Takes .optionalSemicolon [.sub .statements] mid mid (.node .optionalSemicolon []))

include hk

omit hmid in
/-- The text of a declaration, whatever comes before its first word. -/
theorem textOf_statement {head : Terminal} (hhead : k.terminal = head) {ts : List Tree}
    {tail : List Token} (hts : tokensOf ts = k :: tail) :
    Tree.textOf ts = textOf (mark head :: tail) := by
  rw [textOf_trees hts, textOf, Tree.spelling, hk, hhead]
  rfl

omit hmid in
/-- An alias of whatever type is read between the equals sign and the semicolon. -/
theorem takes_aliasBody (name : Word) (parameters : List Word) (hhead : k.terminal = .typeWord)
    {symbols : List Symbol} {mid ks : List Token} {T : TypeExpr} {u : Tree}
    (hu : Takes (.type true) (.tok .semicolon :: symbols) (ks ++ mark .semicolon :: mid)
      (mark .semicolon :: mid) u)
    (hT : typeOf u = .ok T) :
    ∃ t, Takes .aliasBody symbols (aliasTail name parameters ks ++ mid) mid t
      ∧ aliasOf [.leaf k, t] t = .ok (some (.typeAlias name.text
        (textOf (mark .typeWord :: aliasTail name parameters ks)) (parameters.map (·.text))
        (some T))) := by
  have hequals : Ahead [.extendsWord, .openBrace, .equals]
      (.tok .equals :: .sub (.type true) :: .tok .semicolon :: symbols)
      (mark .equals :: (ks ++ mark .semicolon :: mid)) :=
    ahead_mark (by decide)
  obtain ⟨p, hp, hnames⟩ := takes_typeParameters parameters hequals
  have hbody := name.takes (n := .aliasBody) (by decide)
    (.sub hp (.tok (u := .equals) rfl (.sub hu (.tok (u := .semicolon) rfl .nil))))
  -- The tokens that were read one after the other are those the alias is printed with.
  have htail : name.token :: (bracketed (parameters.map ([·.token]))
        ++ mark .equals :: (ks ++ mark .semicolon :: mid))
      = aliasTail name parameters ks ++ mid := by
    simp [aliasTail]
  rw [htail] at hbody
  refine ⟨_, hbody, ?_⟩
  have htext := textOf_statement hk hhead
    ((tokensOf_word k _).trans (congrArg (k :: ·) (tokens_of_takes hbody)))
  simp only [aliasOf, htext, hnames, hT]
  rfl

include hmid

theorem unfolds_interface (name : Word) (parameters : List Word) (heritage : List HeritageForm)
    {members : List Token} {ms : List Member}
    (hms : MembersRead [.sub .optionalSemicolon, .sub .statements]
      (members ++ mark .closeBrace :: mid) mid ms)
    (hhead : k.terminal = .interfaceWord) :
    ∃ t, Unfolds .definition [.sub .statements] k
        (interfaceTail name parameters heritage members ++ mid) mid t
      ∧ declarationOf t = .ok (some (.interface name.text
        (textOf (mark .interfaceWord :: interfaceTail name parameters heritage members))
        (parameters.map (·.text)) (heritage.map (·.heritage)) ms)) := by
  obtain ⟨m, hm, hmembers⟩ := hms.members
  have hbody : Reads [.tok .openBrace, .sub .members, .tok .closeBrace, .sub .optionalSemicolon]
      [.sub .statements] (mark .openBrace :: (members ++ mark .closeBrace :: mid)) mid _ :=
    .tok rfl (.sub hm (.tok rfl (.sub hmid .nil)))
  obtain ⟨p, h, hclauses, hnames, hheritage⟩ := reads_clauses parameters heritage hbody
  have hu := Unfolds.led (n := .definition) hhead (by decide)
    (.tok (k := name.token) (u := .name) rfl hclauses)
  have htail : name.token :: (bracketed (parameters.map ([·.token]))
        ++ (extending heritage ++ mark .openBrace :: (members ++ mark .closeBrace :: mid)))
      = interfaceTail name parameters heritage members ++ mid := by
    simp [interfaceTail]
  rw [htail] at hu
  refine ⟨_, hu, ?_⟩
  have htext := textOf_statement hk hhead (tokens_of_unfolds hu rfl)
  simp only [declarationOf, htext, hnames, hheritage, hmembers]
  rfl

theorem unfolds_enumeration (name : Word) {keys : List (Token × Text)} (hkeys : AreKeys keys)
    (hhead : k.terminal = .enumWord) :
    ∃ t, Unfolds .definition [.sub .statements] k
        (enumTail name (keys.map (·.1)) ++ mid) mid t
      ∧ declarationOf t = .ok (some (.enumeration name.text
        (textOf (mark .enumWord :: enumTail name (keys.map (·.1)))) (keys.map (·.2)))) := by
  obtain ⟨m, hm, hnames⟩ := takes_enumMembers hkeys [.sub .optionalSemicolon, .sub .statements] mid
  have hbody := name.takes (n := .enumBody) (by decide)
    (.tok (u := .openBrace) (k := mark .openBrace) rfl
      (.sub hm (.tok (u := .closeBrace) rfl (.sub hmid .nil))))
  have hu := Unfolds.led (n := .definition) hhead (by decide) (.sub hbody .nil)
  have htail : name.token :: mark .openBrace
        :: (separated (keys.map (·.1)) ++ mark .closeBrace :: mid)
      = enumTail name (keys.map (·.1)) ++ mid := by
    simp [enumTail]
  rw [htail] at hu
  refine ⟨_, hu, ?_⟩
  have htext := textOf_statement hk hhead (tokens_of_unfolds hu rfl)
  simp only [declarationOf, enumerationOf, htext, hnames]
  rfl

end Declaration

/-! ### Lists of declarations -/

theorem declarationsOf_node {n m : Nonterminal} {ts : List Tree} {r : Tree} {d : Declaration}
    {ds : List Declaration} (hd : declarationOf (.node m ts) = .ok (some d))
    (hds : declarationsOf r = .ok ds) :
    declarationsOf (.node n [.node m ts, r]) = .ok (d :: ds) := by
  simp only [declarationsOf, hd, hds]
  rfl

theorem declarationsOf_typeWord {n : Nonterminal} {body r : Tree} {d : Declaration}
    {ds : List Declaration} (hk : k.terminal = .typeWord)
    (hd : aliasOf [.leaf k, body] body = .ok (some d)) (hds : declarationsOf r = .ok ds) :
    declarationsOf (.node n [.leaf k, body, r]) = .ok (d :: ds) := by
  simp only [declarationsOf, hk, if_true, hd, hds]
  rfl

/-- An interface or an enum is read in front of other declarations. -/
theorem takes_definition {t r : Tree} {d : Declaration} {ds : List Declaration}
    (hk : k.terminal ∈ [Terminal.interfaceWord, .enumWord])
    (ht : Unfolds .definition [.sub .statements] k input mid t)
    (hd : declarationOf t = .ok (some d)) (hr : Takes .statements [] mid [] r)
    (hds : declarationsOf r = .ok ds) :
    ∃ t', Takes .statements [] (k :: input) [] t' ∧ declarationsOf t' = .ok (d :: ds) := by
  have hbranch : ∀ t ∈ [Terminal.interfaceWord, .enumWord], t ≠ .name
      ∧ branch? .statements t = some (.via .definition [.sub .statements]) := by
    decide
  obtain ⟨hname, hvia⟩ := hbranch _ hk
  obtain ⟨ts, rfl⟩ := ht.isNode
  exact ⟨_, .of_branch? hname hvia (.via hvia ht (.sub hr .nil)), declarationsOf_node hd hds⟩

/-- A declaration is read in front of others, whatever comes before its first word. -/
theorem takes_statement (s : Statement) (hhead : k.terminal = s.head)
    (hk : k.lexeme = k.terminal.spelling)
    (hmid : Takes .optionalSemicolon [.sub .statements] mid mid (.node .optionalSemicolon []))
    {r : Tree} {ds : List Declaration} (hr : Takes .statements [] mid [] r)
    (hds : declarationsOf r = .ok ds) :
    ∃ t, Takes .statements [] (k :: (s.tail ++ mid)) [] t
      ∧ declarationsOf t = .ok (s.declaration :: ds) := by
  cases s with
  | interface name parameters heritage members =>
    obtain ⟨t, ht, hd⟩ := unfolds_interface hk hmid name parameters heritage
      (.properties (reads_properties members) _ _) hhead
    exact takes_definition (by simp [hhead, Statement.head]) ht hd hr hds
  -- The keys of the enum are printed with the tokens they are read from.
  | enumeration name members =>
    obtain ⟨t, ht, hd⟩ := unfolds_enumeration hk hmid name (areKeys_plainKeys members) hhead
    have htail : enumTail name ((members.map fun key => (key.token, key.text)).map (·.1))
        = (Statement.enumeration name members).tail := by
      rw [List.map_map, Statement.tail, enumerated_eq]
      rfl
    rw [htail] at ht hd
    rw [List.map_map] at hd
    exact takes_definition (by simp [hhead, Statement.head]) ht hd hr hds
  | typeAlias name parameters type =>
    have hend : Ahead afterType [.tok .semicolon, .sub .statements] (mark .semicolon :: mid) :=
      ahead_mark (by decide)
    obtain ⟨u, hu, htype⟩ := type.reads.takes hend
    obtain ⟨t, ht, hd⟩ := takes_aliasBody hk name parameters hhead hu htype
    exact ⟨_, .led (u := .typeWord) hhead (by decide) (.sub ht (.sub hr .nil)),
      declarationsOf_typeWord hhead hd hds⟩

theorem takes_statements (ss : List Statement) :
    ∃ t, Takes .statements [] (ss.flatMap (·.tokens)) [] t
      ∧ declarationsOf t = .ok (ss.map (·.declaration)) := by
  induction ss with
  | nil => exact ⟨_, .finish rfl, rfl⟩
  | cons s ss ih =>
    obtain ⟨r, hr, hds⟩ := ih
    exact takes_statement (k := mark s.head) s rfl rfl (takes_optionalSemicolon ss) hr hds

/-- The tokens of a whole source, where no space comes before the first one. -/
theorem takes_unled (ss : List Statement) :
    ∃ t, Takes .statements [] (unled (ss.flatMap (·.tokens))) [] t
      ∧ declarationsOf t = .ok (ss.map (·.declaration)) := by
  cases ss with
  | nil => exact ⟨_, .finish rfl, rfl⟩
  | cons s ss =>
    obtain ⟨r, hr, hds⟩ := takes_statements ss
    exact takes_statement (k := { mark s.head with trivia := [] }) s rfl rfl
      (takes_optionalSemicolon ss) hr hds

/-- Reading a canonical source gives the declarations that it was printed from, in order. -/
theorem ofSource_print (ss : List Statement) :
    ofSource (print ss) = .ok (ss.map (·.declaration)) := by
  obtain ⟨t, ht, hds⟩ := takes_unled ss
  have hspaced : IsSpaced (unled (ss.flatMap (·.tokens))) :=
    isSpaced_unled (AllSpaced.flatMap fun s _ => s.allSpaced)
  have hread : Grammar.read (print ss) = .ok [t] := by
    rw [print, ← source_unled]
    exact read_of_takes ht hspaced
  rw [ofSource, hread]
  simp only [List.mapM_cons, List.mapM_nil, hds]
  simp

end DeclSchema.Canonical
