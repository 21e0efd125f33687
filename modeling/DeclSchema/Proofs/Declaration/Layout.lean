import DeclSchema.Declaration.Source
import DeclSchema.Proofs.Declaration.Bare
import DeclSchema.Proofs.Declaration.Building

/-!
# Declarations of sources with other blanks

Blanks between the tokens of a source are in the raw texts of its declarations and nowhere else.

## Main results

* `declarationsOf_bare`: what stands before the tokens of a file is in the raw texts alone
* `ofSource_insert_blanks`: the declarations of a source with more blanks between two tokens
-/

namespace DeclSchema.Declaration

open Grammar Grammar.Tree Escape

/-! ### Declarations -/

section Statements

variable {t : Tree}

theorem parameterNames_bare (t : Tree) : parameterNames t.bare = parameterNames t := by
  fun_induction parameterNames t with
  | case1 u list ih => exact ih
  | case2 first more u ihfirst ihmore =>
    simp only [Tree.bare, bareOf, parameterNames, ihfirst, ihmore]
  | case3 u first more ihfirst ihmore =>
    simp only [Tree.bare, bareOf, parameterNames, ihfirst, ihmore]
  | case4 k us => rfl
  | case5 t hlist hfirst hmore hname =>
    -- The bare tree has the form of another branch only if the tree has it.
    unfold parameterNames
    split
    · rename_i heq
      simp only [bare_eq_node_iff, bareOf_eq_cons_iff, bareOf_eq_nil_iff] at heq
      obtain ⟨_, rfl, _, _, rfl, -, _, _, rfl, -, rfl⟩ := heq
      exact (hlist _ _ rfl).elim
    · rename_i heq
      simp only [bare_eq_node_iff, bareOf_eq_cons_iff, bareOf_eq_nil_iff] at heq
      obtain ⟨_, rfl, _, _, rfl, -, _, _, rfl, -, _, _, rfl, -, rfl⟩ := heq
      exact (hfirst _ _ _ rfl).elim
    · rename_i heq
      simp only [bare_eq_node_iff, bareOf_eq_cons_iff, bareOf_eq_nil_iff] at heq
      obtain ⟨_, rfl, _, _, rfl, -, _, _, rfl, -, _, _, rfl, -, rfl⟩ := heq
      exact (hmore _ _ _ rfl).elim
    · rename_i heq
      simp only [bare_eq_node_iff, bareOf_eq_cons_iff, bare_eq_leaf_iff] at heq
      obtain ⟨_, rfl, _, _, rfl, ⟨_, rfl, -⟩, -⟩ := heq
      exact (hname _ _ rfl).elim
    · rfl

theorem enumMembersOf_bare (t : Tree) : enumMembersOf t.bare = enumMembersOf t := by
  fun_induction enumMembersOf t with
  | case1 n k u more ih =>
    simp only [Tree.bare, bareOf, enumMembersOf, ih]
    rfl
  | case2 u rest ih => exact ih
  | case3 t hkey hmore =>
    -- The bare tree has the form of another branch only if the tree has it.
    unfold enumMembersOf
    split
    · rename_i heq
      simp only [bare_eq_node_iff, bareOf_eq_cons_iff, bareOf_eq_nil_iff, bare_eq_leaf_iff] at heq
      obtain ⟨_, rfl, _, _, rfl, ⟨_, rfl, _, _, rfl, ⟨_, rfl, -⟩, rfl⟩, _, _, rfl, -, _, _, rfl, -,
        rfl⟩ := heq
      exact (hkey _ _ _ _ rfl).elim
    · rename_i heq
      simp only [bare_eq_node_iff, bareOf_eq_cons_iff, bareOf_eq_nil_iff] at heq
      obtain ⟨_, rfl, _, _, rfl, -, _, _, rfl, -, rfl⟩ := heq
      exact (hmore _ _ rfl).elim
    · rfl

theorem heritageOf_bare (t : Tree) :
    Agree Heritage.withoutTexts (heritageOf t.bare) (heritageOf t) :=
  match t with
  | .node _ [.leaf name, dotted, arguments] => by
    simp only [Tree.bare, bareOf, heritageOf, dottedNames_bare]
    refine (typeArgumentsOf_bare (agreesBelow arguments)).bind fun Ts Ts' hTs => .ok ?_
    simp only [Heritage.withoutTexts, TypeExpr.withoutTextsOfTypes_eq, hTs]
    rfl
  | .leaf _ | .node _ [] | .node _ [.leaf _] | .node _ [.node _ _] | .node _ [.leaf _, _]
  | .node _ [.node _ _, _] | .node _ [.node _ _, _, _] | .node _ (.leaf _ :: _ :: _ :: _ :: _)
  | .node _ (.node _ _ :: _ :: _ :: _ :: _) => .ok rfl

theorem heritageListOf_bare (t : Tree) :
    Agree (List.map Heritage.withoutTexts) (heritageListOf t.bare) (heritageListOf t) :=
  match t with
  | .node _ [_, first, more] =>
    (heritageOf_bare first).bind fun b b' hb => (heritageListOf_bare more).bind fun bs bs' hbs =>
      .ok (by rw [List.map_cons, List.map_cons, hb, hbs])
  | .leaf _ | .node _ [] | .node _ [_] | .node _ [_, _] | .node _ (_ :: _ :: _ :: _ :: _) => .ok rfl

/-- The declarations of two statements, if any, agree where their texts are left out. -/
abbrev AgreeDeclared : Decoded (Option Declaration) → Decoded (Option Declaration) → Prop :=
  Agree (Option.map Declaration.withoutTexts)

theorem enumerationOf_bare (whole whole' : List Tree) (t : Tree) :
    AgreeDeclared (enumerationOf whole t.bare) (enumerationOf whole' t) :=
  match t with
  | .node _ [.leaf _, _, members, _, _] => by
    simp only [Tree.bare, bareOf, enumerationOf, enumMembersOf_bare]
    exact (Agree.refl (f := id) _).bind fun names names' hnames => by
      obtain rfl : names = names' := hnames
      exact .ok rfl
  | .leaf _ | .node _ [] | .node _ [.leaf _] | .node _ [.node _ _] | .node _ [.leaf _, _]
  | .node _ [.node _ _, _] | .node _ [.leaf _, _, _] | .node _ [.node _ _, _, _]
  | .node _ [.leaf _, _, _, _] | .node _ [.node _ _, _, _, _] | .node _ [.node _ _, _, _, _, _]
  | .node _ (.leaf _ :: _ :: _ :: _ :: _ :: _ :: _)
  | .node _ (.node _ _ :: _ :: _ :: _ :: _ :: _ :: _) => .ok rfl

theorem aliasOf_bare (whole whole' : List Tree) (t : Tree) :
    AgreeDeclared (aliasOf whole t.bare) (aliasOf whole' t) := by
  fun_cases aliasOf whole' t with
  | case1 k parameters u type v =>
    simp only [Tree.bare, bareOf, aliasOf, parameterNames_bare]
    refine (typeOf_bare (agreesBelow type)).bind fun T T' hT => .ok ?_
    simp only [Option.map_some, Declaration.withoutTexts, TypeExpr.withoutTextsOfOptional, hT]
    rfl
  | case2 n hbody =>
    unfold aliasOf
    split
    · rename_i heq
      simp only [bare_eq_node_iff, bareOf_eq_cons_iff, bareOf_eq_nil_iff, bare_eq_leaf_iff] at heq
      obtain ⟨_, rfl, _, _, rfl, ⟨_, rfl, -⟩, _, _, rfl, -, _, _, rfl, -, _, _, rfl, -, _, _, rfl, -,
        rfl⟩ := heq
      exact (hbody _ _ _ _ _ rfl).elim
    · exact .ok rfl

theorem declarationOf_bare (t : Tree) : AgreeDeclared (declarationOf t.bare) (declarationOf t) := by
  fun_induction declarationOf t with
  | case1 k rest ih => exact ih
  | case2 rest ih => cases rest <;> exact ih
  | case3 rest ih => exact ih
  | case4 word n body => exact aliasOf_bare _ _ body
  | case5 rest ih => cases rest <;> exact ih
  | case6 u name parameters heritage v members w x =>
    simp only [Tree.bare, bareOf, declarationOf, parameterNames_bare]
    refine (heritageListOf_bare heritage).bind fun bs bs' hbs =>
      (membersOf_bare members (agreesBelow members)).bind fun ms ms' hms => .ok ?_
    simp only [Option.map_some, Declaration.withoutTexts, TypeExpr.withoutTextsOfBases_eq,
      TypeExpr.withoutTextsOfMembers_eq, hbs, hms]
    rfl
  | case7 u children => exact enumerationOf_bare _ _ (.node .enumBody children)
  | case8 u v body => exact enumerationOf_bare _ _ body
  | case9 t h1 h2 h3 h4 h5 h6 h7 h8 =>
    -- The bare tree has the form of another branch only if the tree has it.
    unfold declarationOf
    split
    all_goals try simp only [bare_eq_node_iff, bareOf_eq_cons_iff, bareOf_eq_nil_iff,
      bare_eq_leaf_iff] at *
    · rename_i heq
      obtain ⟨_, rfl, _, _, rfl, ⟨_, rfl, -⟩, _, _, rfl, -, rfl⟩ := heq
      exact (h1 _ _ rfl).elim
    · rename_i heq
      obtain ⟨_, rfl, _, _, rfl, -, rfl⟩ := heq
      exact (h2 _ rfl).elim
    · rename_i heq
      obtain ⟨_, rfl, _, _, rfl, -, rfl⟩ := heq
      exact (h3 _ rfl).elim
    · rename_i heq
      obtain ⟨_, rfl, _, _, rfl, ⟨_, rfl, -⟩, _, _, rfl, ⟨_, rfl, _, _, rfl, -, rfl⟩, rfl⟩ := heq
      exact (h4 _ _ _ rfl).elim
    · rename_i heq
      obtain ⟨_, rfl, _, _, rfl, -, rfl⟩ := heq
      exact (h5 _ rfl).elim
    · rename_i heq
      obtain ⟨_, rfl, _, _, rfl, -, _, _, rfl, ⟨_, rfl, -⟩, _, _, rfl, -, _, _, rfl, -, _, _, rfl, -,
        _, _, rfl, -, _, _, rfl, -, _, _, rfl, -, rfl⟩ := heq
      exact (h6 _ _ _ _ _ _ _ _ rfl).elim
    · rename_i heq
      obtain ⟨_, rfl, _, _, rfl, -, _, _, rfl, ⟨_, rfl, -⟩, rfl⟩ := heq
      exact (h7 _ _ rfl).elim
    · rename_i heq
      obtain ⟨_, rfl, _, _, rfl, -, _, _, rfl, ⟨_, rfl, _, _, rfl, -, _, _, rfl, -, rfl⟩, rfl⟩ := heq
      exact (h8 _ _ _ rfl).elim
    · exact .ok rfl

theorem agree_statement {x x' : Decoded (Option Declaration)} {xs xs' : Decoded (List Declaration)}
    (h : AgreeDeclared x x') (hs : Agree (List.map Declaration.withoutTexts) xs xs') :
    Agree (List.map Declaration.withoutTexts)
      (x >>= fun d => do return d.toList ++ (← xs)) (x' >>= fun d => do return d.toList ++ (← xs')) :=
  h.bind fun d d' hd => hs.bind fun ds ds' hds => .ok (by
    rw [List.map_append, List.map_append, ← Option.toList_map, ← Option.toList_map, hd, hds])

/-- What stands before the tokens of a file is in the raw texts of its declarations alone. -/
theorem declarationsOf_bare (t : Tree) :
    Agree (List.map Declaration.withoutTexts) (declarationsOf t.bare) (declarationsOf t) :=
  match t with
  | .node _ [.leaf word, body, rest] => by
    unfold declarationsOf
    dsimp only [Tree.bare, bareOf, Token.bare]
    split
    · exact agree_statement (aliasOf_bare _ _ body) (declarationsOf_bare rest)
    · exact agree_statement (declarationOf_bare body) (declarationsOf_bare rest)
  | .node _ [.leaf k, rest] =>
    agree_statement (declarationOf_bare (.leaf k)) (declarationsOf_bare rest)
  | .node _ [.node n us, rest] =>
    agree_statement (declarationOf_bare (.node n us)) (declarationsOf_bare rest)
  | .leaf _ | .node _ [] | .node _ [.leaf _] | .node _ [.node _ _] | .node _ [.node _ _, _, _]
  | .node _ (.leaf _ :: _ :: _ :: _ :: _) | .node _ (.node _ _ :: _ :: _ :: _ :: _) => .ok rfl

end Statements

theorem exists_of_toOption_map {α β : Type} {e : Type} {x : Except e α} {f : α → β} {b : β}
    (h : x.toOption.map f = some b) : ∃ a, x = .ok a ∧ f a = b := by
  cases x with
  | error e => cases h
  | ok a => exact ⟨a, rfl, Option.some.inj h⟩

theorem agree_mapM_bareOf (ts : List Tree) :
    Agree (List.map (List.map Declaration.withoutTexts)) ((bareOf ts).mapM declarationsOf)
      (ts.mapM declarationsOf) := by
  induction ts with
  | nil => exact .ok rfl
  | cons t ts ih =>
    rw [bareOf, List.mapM_cons, List.mapM_cons]
    refine (declarationsOf_bare t).bind fun ds ds' hds => ih.bind fun dss dss' hdss => .ok ?_
    rw [List.map_cons, List.map_cons, hds, hdss]

/-! ### Sources -/

/-- Two sources that are read as the same tree but for what stands before its tokens have the same
declarations but for their texts, or the same fault. -/
theorem agree_ofSource {input input' : List Char} {ts ts' : List Tree}
    (h : read input = .ok ts) (h' : read input' = .ok ts') (hts : bareOf ts = bareOf ts') :
    Agree (List.map Declaration.withoutTexts) (ofSource input) (ofSource input') := by
  have hall : Agree (List.map (List.map Declaration.withoutTexts)) (ts.mapM declarationsOf)
      (ts'.mapM declarationsOf) :=
    (agree_mapM_bareOf ts).symm.trans (hts ▸ agree_mapM_bareOf ts')
  simp only [ofSource, h, h']
  exact hall.bind fun dss dss' hdss => .ok (by rw [List.map_flatten, List.map_flatten, hdss])

/-- Blanks between two tokens of a source, before the first or behind the last leave its
declarations as they are but for their texts. -/
theorem ofSource_insert_blanks {front back ws : List Char} {ds : List Declaration}
    (hds : ofSource (front ++ back) = .ok ds) (hplace : IsBoundary front back)
    (hws : ∀ c ∈ ws, isBlank c = true) :
    ∃ ds', ofSource (front ++ (ws ++ back)) = .ok ds' ∧
      ds'.map Declaration.withoutTexts = ds.map Declaration.withoutTexts := by
  obtain ⟨ts, ts', hread, hread', hts⟩ := exists_read_insert hws hplace
  have hagree := agree_ofSource hread hread' hts.symm
  rw [hds] at hagree
  obtain ⟨ds', hds', hsame⟩ := hagree.exists_ok
  exact ⟨ds', hds', hsame.symm⟩

/-- A type alias with a tab and a line end before its semicolon. -/
theorem ofSource_insert_tab :
    ∃ ds ds', ofSource ("type A = 1".toList ++ ";".toList) = .ok ds ∧
      ds.map (·.name) = [.ofString "A"] ∧
      ofSource ("type A = 1".toList ++ ("\t\n".toList ++ ";".toList)) = .ok ds' ∧
      ds'.map Declaration.withoutTexts = ds.map Declaration.withoutTexts := by
  have hread : (read "type A = 1;".toList).toOption.map
        (fun ts => (tokensOf ts).map Token.source)
      = some (["type", " A", " =", " 1", ";"].map String.toList) := by
    decide +kernel
  have hnames : (ofSource "type A = 1;".toList).toOption.map (fun ds => ds.map (·.name))
      = some [.ofString "A"] := by
    decide +kernel
  obtain ⟨ts, hts, htokens⟩ := exists_of_toOption_map hread
  obtain ⟨ds, hds, hname⟩ := exists_of_toOption_map hnames
  have hfront : source ((tokensOf ts).take 4) = "type A = 1".toList := by
    rw [source, List.flatMap_def, List.map_take, htokens]
    decide
  have hread' : Grammar.read (source ((tokensOf ts).take 4) ++ ";".toList) = .ok ts := by
    rw [hfront]
    exact hts
  -- The place of the blanks is the one behind the fourth token.
  have hplace := (isBoundary_of_tokens hread' (List.take_append_drop 4 _).symm).1
  rw [hfront] at hplace
  have hws : ∀ c ∈ ['\t', '\n'], isBlank c = true :=
    List.forall_mem_cons.2 ⟨rfl, List.forall_mem_singleton.2 rfl⟩
  obtain ⟨ds', hds', hsame⟩ := ofSource_insert_blanks hds hplace hws
  exact ⟨ds, ds', hds, hname, hds', hsame⟩

end DeclSchema.Declaration
