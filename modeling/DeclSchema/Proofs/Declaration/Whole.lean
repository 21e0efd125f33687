import DeclSchema.Proofs.Declaration.Building
import DeclSchema.Proofs.Declaration.Concatenation
import DeclSchema.Proofs.Declaration.Escapes

/-!
# What becomes of a source

A source is refused where its reading stops, or it becomes declarations all of whose nodes are
sound, or one of its string tokens has an escape with a number that is no code point. The texts of
the declarations stand in the source one behind the other.

## Main definitions

* `OccurInTurn`: texts that stand in a text one behind the other

## Main results

* `ofSource_yields`: what a source that is read becomes
* `ofSource_cases`: a source is refused, or becomes whole declarations, or has an escape without a
  code point
-/

namespace DeclSchema.Declaration

open Grammar Grammar.Tree Grammar.Terminal Grammar.Nonterminal Escape

variable {ks : List Token} {t : Tree}

/-! ### Statements -/

section Statements

/-- The declaration of a statement, if there is one, is found. -/
def FoundDeclaration (ks ls : List Token) (d : Option Declaration) : Prop :=
  ∀ d' ∈ d, Found ks ls (.declaration d')

theorem foundDeclaration_none (ks ls : List Token) : FoundDeclaration ks ls none :=
  nofun

theorem FoundDeclaration.mono {ls ms : List Token} {d : Option Declaration}
    (h : FoundDeclaration ks ms d) (hms : ms <:+: ls) : FoundDeclaration ks ls d :=
  fun d' hd' => (h d' hd').mono hms

theorem Yields.declaration_mono {ls ms : List Token} {x : Decoded (Option Declaration)}
    (h : Yields ks (FoundDeclaration ks ms) x) (hms : ms <:+: ls) :
    Yields ks (FoundDeclaration ks ls) x :=
  h.imp fun _ hd => hd.mono hms

theorem heritageOf_found (h : HasShape .heritageType t) (hin : BuildsBelow ks t) :
    Yields ks (fun base => Found ks (tokensOf [t]) (.heritage base)) (heritageOf t) := by
  obtain ⟨us, ht, -, b, hb, hus⟩ := h.exists_branch rfl
  rw [ht] at hin ⊢
  simp only [branches, List.mem_cons, List.not_mem_nil, or_false] at hb
  obtain rfl := hb
  simp only [Branch.symbols, fits_tok_iff, fits_sub_iff, fits_nil_iff] at hus
  obtain ⟨name, _, rfl, -, d, _, rfl, hd, a, _, rfl, ha, rfl⟩ := hus
  simp only [heritageOf]
  refine (typeArgumentsOf_found ha (hin.child (by simp))).bind fun As hAs => ?_
  refine .of_trees _ (Node.heritage_ne_type _) rfl List.infix_rfl trivial ?_ fun p hp => ?_
  · refine List.forall_mem_singleton.2 (IsRaw.spelled (isRaw_joined (isRaw_ofString _) ?_) ks)
    exact List.forall_mem_cons.2 ⟨isRaw_lexemeOf name, isRaw_dottedNames d⟩
  · obtain ⟨A, hA, rfl⟩ := List.mem_map.1 hp
    exact (hAs A hA).mono (child_isInfix (by simp))

theorem heritageListOf_found {n : Nonterminal} {t : Tree} (hn : n = .heritage ∨ n = .moreHeritage)
    (h : HasShape n t) (hin : BuildsBelow ks t) :
    Yields ks (fun bases => ∀ base ∈ bases, Found ks (tokensOf [t]) (.heritage base))
      (heritageListOf t) := by
  obtain ⟨-, ht⟩ | ⟨us, ht, -, b, hb, hus⟩ := h.exists_cases
  · rw [ht]
    simp only [heritageListOf]
    exact List.forall_mem_nil _
  rw [ht] at hin ⊢
  -- Both nonterminals have one branch, which differs in its word only.
  have hb' : ∃ u, b = .led u [.sub .heritageType, .sub .moreHeritage] := by
    obtain rfl | rfl := hn
    · exact ⟨_, List.mem_singleton.1 hb⟩
    · exact ⟨_, List.mem_singleton.1 hb⟩
  obtain ⟨u, rfl⟩ := hb'
  simp only [Branch.symbols, fits_tok_iff, fits_sub_iff, fits_nil_iff] at hus
  obtain ⟨k, _, rfl, -, f, _, rfl, hf, m, _, rfl, hm, rfl⟩ := hus
  obtain ⟨fs, rfl⟩ := exists_node_of_hasShape hf
  obtain ⟨ms, rfl⟩ := exists_node_of_hasShape hm
  simp only [heritageListOf]
  refine (heritageOf_found hf (hin.child (by simp))).bind fun base hbase => ?_
  refine (heritageListOf_found (.inr rfl) hm (hin.child (by simp))).bind fun bases hbases => ?_
  exact List.forall_mem_cons.2 ⟨hbase.mono (child_isInfix (by simp)),
    fun base' hbase' => (hbases base' hbase').mono (child_isInfix (by simp))⟩
termination_by sizeOf t
decreasing_by all_goals (subst ht; exact BuildsBelow.sizeOf_child (by simp))

theorem enumMembersOf_spelled {n : Nonterminal} {t : Tree}
    (hn : n = .enumMembers ∨ n = .moreEnumMembers) (h : HasShape n t) (hin : BuildsBelow ks t) :
    Yields ks (fun names => ∀ name ∈ names, Spelled ks name) (enumMembersOf t) := by
  obtain ⟨-, ht⟩ | ⟨us, ht, -, b, hb, hus⟩ := h.exists_cases
  · obtain rfl | rfl := hn
    all_goals
      rw [ht]
      simp only [enumMembersOf]
      exact List.forall_mem_nil _
  rw [ht] at hin ⊢
  obtain rfl | rfl := hn
  all_goals
    simp only [branches, List.mem_cons, List.not_mem_nil, or_false] at hb
    obtain rfl := hb
    simp only [Branch.symbols, fits_tok_iff, fits_sub_iff, fits_nil_iff] at hus
  · obtain ⟨e, _, rfl, he, i, _, rfl, hi, m, _, rfl, hm, rfl⟩ := hus
    obtain ⟨es, rfl, -, b, hb, hes⟩ := he.exists_branch rfl
    obtain ⟨is, rfl⟩ := exists_node_of_hasShape hi
    obtain ⟨ms, rfl⟩ := exists_node_of_hasShape hm
    -- Whichever token the key is, it is the only one of the member.
    have hkey : ∃ k, es = [.leaf k] := by
      simp only [branches, propertyKey, List.cons_append, List.nil_append, List.mem_cons,
        List.not_mem_nil, or_false] at hb
      obtain rfl | rfl | rfl | rfl := hb
      all_goals
        simp only [Branch.symbols, fits_tok_iff, fits_nil_iff] at hes
        obtain ⟨k, _, rfl, -, rfl⟩ := hes
        exact ⟨k, rfl⟩
    obtain ⟨k, rfl⟩ := hkey
    simp only [enumMembersOf]
    refine (yields_keyOf ((hin.child (List.mem_cons_self ..)).leaf_mem (by simp))).bind
      fun name hname => ?_
    refine (enumMembersOf_spelled (.inr rfl) hm (hin.child (by simp))).bind fun names hnames => ?_
    exact List.forall_mem_cons.2 ⟨hname, hnames⟩
  · obtain ⟨k, _, rfl, -, m, _, rfl, hm, rfl⟩ := hus
    obtain ⟨ms, rfl⟩ := exists_node_of_hasShape hm
    simp only [enumMembersOf]
    exact enumMembersOf_spelled (.inl rfl) hm (hin.child (by simp))
termination_by sizeOf t
decreasing_by all_goals (subst ht; exact BuildsBelow.sizeOf_child (by simp))

theorem enumerationOf_found {whole : List Tree} (h : HasShape .enumBody t)
    (hin : BuildsBelow ks t) :
    Yields ks (FoundDeclaration ks (tokensOf whole)) (enumerationOf whole t) := by
  obtain ⟨us, ht, -, b, hb, hus⟩ := h.exists_branch rfl
  rw [ht] at hin ⊢
  simp only [branches, List.mem_cons, List.not_mem_nil, or_false] at hb
  obtain rfl := hb
  simp only [Branch.symbols, fits_tok_iff, fits_sub_iff, fits_nil_iff] at hus
  obtain ⟨name, _, rfl, -, k, _, rfl, -, m, _, rfl, hm, k', _, rfl, -, s, _, rfl, hs, rfl⟩ := hus
  simp only [enumerationOf]
  refine (enumMembersOf_spelled (.inl rfl) hm (hin.child (by simp))).bind fun names hnames => ?_
  rintro _ ⟨⟩
  exact .of_trees whole (Node.declaration_ne_type _) rfl List.infix_rfl trivial
    (List.forall_mem_cons.2 ⟨(isRaw_lexemeOf name).spelled ks, hnames⟩) (List.forall_mem_nil _)

theorem aliasOf_found {whole : List Tree} (h : HasShape .aliasBody t)
    (ht : tokensOf [t] <:+: tokensOf whole) (hin : BuildsBelow ks t) :
    Yields ks (FoundDeclaration ks (tokensOf whole)) (aliasOf whole t) := by
  obtain ⟨us, rfl, -, b, hb, hus⟩ := h.exists_branch rfl
  simp only [branches, List.mem_cons, List.not_mem_nil, or_false] at hb
  obtain rfl := hb
  simp only [Branch.symbols, fits_tok_iff, fits_sub_iff, fits_nil_iff] at hus
  obtain ⟨name, _, rfl, -, p, _, rfl, hp, k, _, rfl, -, type, _, rfl, htype, k', _, rfl, -,
    rfl⟩ := hus
  simp only [aliasOf]
  refine (hin.type (by simp) htype).bind fun T hT => ?_
  rintro _ ⟨⟩
  refine .of_trees whole (Node.declaration_ne_type _) rfl List.infix_rfl rfl ?_ ?_
  · exact List.forall_mem_cons.2 ⟨(isRaw_lexemeOf name).spelled ks,
      fun t ht => (isRaw_parameterNames p t ht).spelled ks⟩
  · exact List.forall_mem_singleton.2 (hT.mono ((child_isInfix (by simp)).trans ht))

/-- An interface, an enum, or a statement that starts with `const`. -/
theorem definition_found (h : HasShape .definition t) (hin : BuildsBelow ks t) :
    Yields ks (FoundDeclaration ks (tokensOf [t])) (declarationOf t) := by
  obtain ⟨us, rfl, -, b, hb, hus⟩ := h.exists_branch rfl
  simp only [branches, List.mem_cons, List.not_mem_nil, or_false] at hb
  obtain rfl | rfl | rfl := hb
  all_goals simp only [Branch.symbols, fits_tok_iff, fits_sub_iff, fits_nil_iff] at hus
  · obtain ⟨k, _, rfl, -, name, _, rfl, -, p, _, rfl, hp, e, _, rfl, he, k', _, rfl, -, m, _, rfl,
      hm, k'', _, rfl, -, s, _, rfl, hs, rfl⟩ := hus
    simp only [declarationOf]
    refine (heritageListOf_found (.inl rfl) he (hin.child (by simp))).bind fun bases hbases => ?_
    refine (membersOf_found hm (hin.child (by simp))).bind fun members hmembers => ?_
    rintro _ ⟨⟩
    refine .of_trees _ (Node.declaration_ne_type _) rfl List.infix_rfl trivial ?_ ?_
    · exact List.forall_mem_cons.2 ⟨(isRaw_lexemeOf name).spelled ks,
        fun t ht => (isRaw_parameterNames p t ht).spelled ks⟩
    -- The children of an interface are its bases and its members.
    · intro q hq
      obtain hq | hq := List.mem_append.1 hq
      · obtain ⟨base, hbase, rfl⟩ := List.mem_map.1 hq
        exact (hbases base hbase).mono (child_isInfix (by simp))
      · obtain ⟨m, hm, rfl⟩ := List.mem_map.1 hq
        exact (hmembers m hm).mono (child_isInfix (by simp))
  · obtain ⟨k, _, rfl, -, e, _, rfl, he, rfl⟩ := hus
    obtain ⟨es, rfl⟩ := exists_node_of_hasShape he
    simp only [declarationOf]
    exact enumerationOf_found he (hin.child (by simp))
  · obtain ⟨k, _, rfl, -, c, _, rfl, hc, rfl⟩ := hus
    obtain ⟨cs, rfl, -, b, hb, hcs⟩ := hc.exists_branch rfl
    simp only [branches, List.mem_cons, List.not_mem_nil, or_false] at hb
    obtain rfl | rfl := hb
    all_goals simp only [Branch.symbols, fits_tok_iff, fits_sub_iff, fits_nil_iff] at hcs
    · obtain ⟨k', _, rfl, -, e, _, rfl, he, rfl⟩ := hcs
      simp only [declarationOf]
      exact enumerationOf_found he ((hin.child (List.mem_cons_of_mem _
        (List.mem_cons_self ..))).child (by simp))
    · obtain ⟨s, _, rfl, hs, rfl⟩ := hcs
      simp only [declarationOf]
      exact foundDeclaration_none ks _

theorem declared_found (h : HasShape .declared t) (hin : BuildsBelow ks t) :
    Yields ks (FoundDeclaration ks (tokensOf [t])) (declarationOf t) := by
  obtain ⟨us, rfl, -, b, hb, hus⟩ := h.exists_branch rfl
  simp only [branches, List.mem_cons, List.not_mem_nil, or_false] at hb
  obtain rfl | rfl | rfl := hb
  all_goals simp only [Branch.symbols, fits_tok_iff, fits_sub_iff, fits_nil_iff] at hus
  · obtain ⟨k, _, rfl, -, m, _, rfl, hm, rfl⟩ := hus
    obtain ⟨ms, rfl, -, b, hb, hms⟩ := hm.exists_branch rfl
    simp only [branches, List.mem_cons, List.not_mem_nil, or_false] at hb
    obtain rfl | rfl | rfl := hb
    all_goals simp only [Branch.symbols, fits_tok_iff, fits_sub_iff, fits_nil_iff] at hms
    · obtain ⟨body, _, rfl, hbody, rfl⟩ := hms
      obtain ⟨bs, rfl⟩ := exists_node_of_hasShape hbody
      simp only [declarationOf]
      -- The text of the alias starts at the word before its body.
      have hin' := hin.child (List.mem_cons_of_mem _ (List.mem_cons_self ..))
      refine (aliasOf_found hbody (tokensOf_isInfix (List.suffix_cons ..).isInfix)
        (hin'.child (by simp))).declaration_mono ?_
      exact ⟨[], [], by simp [tokensOf, Tree.tokens]⟩
    · obtain ⟨k', _, rfl, -, i, _, rfl, hi, k'', _, rfl, -, e, _, rfl, he, rfl⟩ := hms
      simp only [declarationOf]
      exact foundDeclaration_none ks _
    · obtain ⟨k', _, rfl, -, e, _, rfl, he, rfl⟩ := hms
      simp only [declarationOf]
      exact foundDeclaration_none ks _
  · obtain ⟨d, _, rfl, hd, rfl⟩ := hus
    simp only [declarationOf]
    exact (definition_found hd (hin.child (by simp))).declaration_mono (child_isInfix (by simp))
  · obtain ⟨d, _, rfl, hd, rfl⟩ := hus
    obtain ⟨ds, rfl⟩ := exists_node_of_hasShape hd
    simp only [declarationOf]
    exact foundDeclaration_none ks _

theorem exportedPlain_found (h : HasShape .exportedPlain t) (hin : BuildsBelow ks t) :
    Yields ks (FoundDeclaration ks (tokensOf [t])) (declarationOf t) := by
  obtain ⟨us, rfl, -, b, hb, hus⟩ := h.exists_branch rfl
  simp only [branches, List.mem_cons, List.not_mem_nil, or_false] at hb
  obtain rfl | rfl := hb
  all_goals simp only [Branch.symbols, fits_sub_iff, fits_nil_iff] at hus
  · obtain ⟨d, _, rfl, hd, rfl⟩ := hus
    simp only [declarationOf]
    exact (declared_found hd (hin.child (by simp))).declaration_mono (child_isInfix (by simp))
  · obtain ⟨d, _, rfl, hd, rfl⟩ := hus
    obtain ⟨ds, rfl⟩ := exists_node_of_hasShape hd
    simp only [declarationOf]
    exact foundDeclaration_none ks _

theorem exported_found (h : HasShape .exported t) (hin : BuildsBelow ks t) :
    Yields ks (FoundDeclaration ks (tokensOf [t])) (declarationOf t) := by
  obtain ⟨us, rfl, -, b, hb, hus⟩ := h.exists_branch rfl
  simp only [branches, List.mem_cons, List.not_mem_nil, or_false] at hb
  obtain rfl | rfl | rfl := hb
  all_goals simp only [Branch.symbols, fits_tok_iff, fits_sub_iff, fits_nil_iff] at hus
  · obtain ⟨k, _, rfl, -, d, _, rfl, hd, rfl⟩ := hus
    simp only [declarationOf]
    exact (declared_found hd (hin.child (by simp))).declaration_mono (child_isInfix (by simp))
  · obtain ⟨k, _, rfl, -, d, _, rfl, hd, rfl⟩ := hus
    simp only [declarationOf]
    exact (exportedPlain_found hd (hin.child (by simp))).declaration_mono (child_isInfix (by simp))
  · obtain ⟨d, _, rfl, hd, rfl⟩ := hus
    simp only [declarationOf]
    exact (exportedPlain_found hd (hin.child (by simp))).declaration_mono (child_isInfix (by simp))

end Statements

/-! ### Texts one behind the other -/

/-- The texts stand in `s` one behind the other. -/
def OccurInTurn : List Text → Text → Prop
  | [], _ => True
  | t :: ts, s => ∃ front back, s = front ++ (t ++ back) ∧ OccurInTurn ts back

section OccurInTurn

variable {ts : List Text} {s : Text}

theorem OccurInTurn.prepend (h : OccurInTurn ts s) (front : Text) :
    OccurInTurn ts (front ++ s) := by
  cases ts with
  | nil => trivial
  | cons t ts =>
    obtain ⟨before, back, rfl, hts⟩ := h
    exact ⟨front ++ before, back, by rw [List.append_assoc], hts⟩

theorem OccurInTurn.append (h : OccurInTurn ts s) (back : Text) : OccurInTurn ts (s ++ back) := by
  induction ts generalizing s with
  | nil => trivial
  | cons t ts ih =>
    obtain ⟨before, after, rfl, hts⟩ := h
    exact ⟨before, after ++ back, by simp only [List.append_assoc], ih hts⟩

/-- A text stands in the characters of its tokens. -/
theorem Occurs.exists_append {t : Text} {ls : List Token} (h : Occurs t ls) :
    ∃ front back, Text.ofChars (source ls) = front ++ (t ++ back) := by
  obtain ⟨part, hpart, rfl⟩ := h
  have hinfix : spelling part <:+: source ls :=
    (spelling_isInfix hpart).trans (spelling_isSuffix ls).isInfix
  obtain ⟨front, back, hsource⟩ := hinfix
  refine ⟨.ofChars front, .ofChars back, ?_⟩
  rw [← hsource, List.append_assoc]
  simp only [Text.ofChars, List.map_append]

theorem OccurInTurn.cons {t : Text} {ls : List Token} (ht : Occurs t ls)
    (h : OccurInTurn ts s) : OccurInTurn (t :: ts) (.ofChars (source ls) ++ s) := by
  obtain ⟨front, back, hls⟩ := ht.exists_append
  exact ⟨front, back ++ s, by rw [hls]; simp only [List.append_assoc], h.prepend back⟩

end OccurInTurn

/-! ### Whole files -/

/-- All nodes of the declarations are sound, and their texts stand in `s` one behind the other. -/
def FoundInTurn (ks : List Token) (s : Text) (ds : List Declaration) : Prop :=
  (∀ d ∈ ds, (Node.declaration d).Everywhere (Sound ks)) ∧ OccurInTurn (ds.map (·.text)) s

/-- The declaration of a statement, if there is one, is in front of those of the statements behind
it. -/
theorem FoundInTurn.prepend {ls : List Token} {s : Text} {d : Option Declaration}
    {ds : List Declaration} (hd : FoundDeclaration ks ls d) (h : FoundInTurn ks s ds) :
    FoundInTurn ks (.ofChars (source ls) ++ s) (d.toList ++ ds) := by
  cases d with
  | none => exact ⟨h.1, h.2.prepend _⟩
  | some d =>
    obtain ⟨htext, hsound⟩ := hd d rfl
    exact ⟨List.forall_mem_cons.2 ⟨hsound, h.1⟩, .cons htext h.2⟩

theorem source_append (ls ms : List Token) : source (ls ++ ms) = source ls ++ source ms :=
  List.flatMap_append

/-- The trees `front` of a statement before the statements behind it. -/
theorem yields_statement (front : List Tree) {rest : Tree} {x : Decoded (Option Declaration)}
    {y : Decoded (List Declaration)} (hx : Yields ks (FoundDeclaration ks (tokensOf front)) x)
    (hy : Yields ks (FoundInTurn ks (.ofChars (source (tokensOf [rest])))) y) :
    Yields ks (FoundInTurn ks (.ofChars (source (tokensOf [.node .statements (front ++ [rest])]))))
      (do
        let d ← x
        return d.toList ++ (← y)) := by
  refine hx.bind fun d hd => hy.bind fun ds hds => ?_
  rw [tokensOf_node, tokensOf_append, source_append, Text.ofChars, List.map_append]
  exact hds.prepend hd

theorem declarationsOf_found {t : Tree} (h : HasShape .statements t) (hin : BuildsBelow ks t) :
    Yields ks (FoundInTurn ks (.ofChars (source (tokensOf [t])))) (declarationsOf t) := by
  obtain ⟨-, ht⟩ | ⟨us, ht, -, b, hb, hus⟩ := h.exists_cases
  · rw [ht]
    simp only [declarationsOf]
    exact ⟨List.forall_mem_nil _, trivial⟩
  rw [ht] at hin ⊢
  simp only [branches, List.mem_cons, List.not_mem_nil, or_false] at hb
  obtain rfl | rfl | rfl | rfl | rfl := hb
  all_goals simp only [Branch.symbols, fits_tok_iff, fits_sub_iff, fits_nil_iff] at hus
  -- After `export`, after `declare`, an alias, another definition, and a statement that declares
  -- nothing.
  · obtain ⟨k, _, rfl, hk, d, _, rfl, hd, r, _, rfl, hr, rfl⟩ := hus
    simp only [declarationsOf, hk, reduceCtorEq, if_false]
    refine yields_statement [.leaf k, d] ?_
      (declarationsOf_found hr (hin.child (by simp)))
    exact (exported_found hd (hin.child (by simp))).declaration_mono
      (tokensOf_isInfix (List.suffix_cons ..).isInfix)
  · obtain ⟨k, _, rfl, hk, d, _, rfl, hd, r, _, rfl, hr, rfl⟩ := hus
    simp only [declarationsOf, hk, reduceCtorEq, if_false]
    refine yields_statement [.leaf k, d] ?_
      (declarationsOf_found hr (hin.child (by simp)))
    exact (declared_found hd (hin.child (by simp))).declaration_mono
      (tokensOf_isInfix (List.suffix_cons ..).isInfix)
  · obtain ⟨k, _, rfl, hk, d, _, rfl, hd, r, _, rfl, hr, rfl⟩ := hus
    simp only [declarationsOf, hk, if_true]
    refine yields_statement [.leaf k, d] ?_
      (declarationsOf_found hr (hin.child (by simp)))
    exact aliasOf_found hd (tokensOf_isInfix (List.suffix_cons ..).isInfix)
      (hin.child (by simp))
  · obtain ⟨d, _, rfl, hd, r, _, rfl, hr, rfl⟩ := hus
    obtain ⟨ds, rfl⟩ := exists_node_of_hasShape hd
    simp only [declarationsOf]
    exact yields_statement [.node .definition ds]
      (definition_found hd (hin.child (by simp)))
      (declarationsOf_found hr (hin.child (by simp)))
  · obtain ⟨d, _, rfl, hd, r, _, rfl, hr, rfl⟩ := hus
    obtain ⟨ds, rfl⟩ := exists_node_of_hasShape hd
    simp only [declarationsOf]
    refine yields_statement [.node .skippedStatement ds] ?_
      (declarationsOf_found hr (hin.child (by simp)))
    simp only [declarationOf]
    exact foundDeclaration_none ks _
termination_by sizeOf t
decreasing_by all_goals (subst ht; exact BuildsBelow.sizeOf_child (by simp))

/-- A source that is read becomes declarations that are found in it one behind the other, or one of
its string tokens spells nothing. -/
theorem ofSource_yields {input : List Char} {ts : List Tree} (h : read input = .ok ts) :
    Yields (tokensOf ts) (FoundInTurn (tokensOf ts) (.ofChars input)) (ofSource input) := by
  obtain ⟨rest, hderives⟩ := read_eq_ok_iff.1 h
  obtain ⟨ks, hks, hinput⟩ := hderives.exists_tokens
  obtain ⟨t, _, rfl, hshape, hnil⟩ := fits_sub_iff.1 hderives.fits
  obtain rfl := fits_nil_iff.1 hnil
  have hfound := declarationsOf_found hshape (buildsBelow t List.infix_rfl)
  have hsource : ofSource input = declarationsOf t := by
    simp only [ofSource, h, List.mapM_cons, List.mapM_nil]
    cases declarationsOf t with
    | error f => rfl
    | ok ds => exact congrArg Except.ok (List.append_nil ds)
  have htext : Text.ofChars input = .ofChars (source (tokensOf [t])) ++ .ofChars rest := by
    rw [hks, hinput, Text.ofChars, List.map_append]
    rfl
  rw [hsource, htext]
  exact hfound.imp fun ds hds => ⟨hds.1, hds.2.append _⟩

/-- A source is refused where its reading stops, or it becomes whole declarations, or one of its
string tokens has an escape with a number that is no code point. The last case has a fault of its
own, which is not the one of a source that is refused. -/
theorem ofSource_cases (input : List Char) :
    (∃ rest, read input = .error rest ∧ ofSource input = .error (invalidAt input rest)) ∨
      (∃ ds, ofSource input = .ok ds ∧ ∀ d ∈ ds, (Node.declaration d).Everywhere Node.IsWhole) ∨
        ∃ ts, read input = .ok ts ∧ ∃ k ∈ tokensOf ts, k.terminal = .string ∧
          ∃ n ∈ numbersOf k.lexeme, 0x110000 ≤ n ∧ ofSource input = .error (pointFault n) := by
  cases hread : read input with
  | error rest => exact .inl ⟨rest, rfl, by simp only [ofSource, hread]⟩
  | ok ts =>
    have hyields := ofSource_yields hread
    cases hds : ofSource input with
    | ok ds =>
      rw [hds] at hyields
      exact .inr (.inl ⟨ds, rfl, fun d hd => (hyields.1 d hd).imp fun _ h => h.whole⟩)
    | error f =>
      rw [hds] at hyields
      obtain ⟨k, hk, hstring, hfault⟩ := hyields
      have hreflects := unquote_reflects k.lexeme
      rw [hfault] at hreflects
      obtain ⟨n, hn, hge, rfl⟩ := hreflects
      exact .inr (.inr ⟨ts, rfl, k, hk, hstring, n, hn, hge, rfl⟩)

end DeclSchema.Declaration
