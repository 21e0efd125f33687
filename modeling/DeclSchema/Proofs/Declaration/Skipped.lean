import DeclSchema.Proofs.Declaration.Concatenation
import DeclSchema.Proofs.Grammar.Skipped

/-!
# Statements that declare nothing

A skipped statement is told by its first words. It is read up to its end, whatever stands in its
brackets, and adds no declaration to those of the sources around it.

## Main definitions

* `heads`: the first words of skipped statements
* `IsSkipped`: skipped statements

## Main results

* `IsSkipped.readsNothing`: a skipped statement is read, as no declaration
* `ofSource_insert`: sources one after the other, and with a skipped statement between them
-/

namespace DeclSchema.Declaration

open Grammar Grammar.Terminal

/-! ### Skipped statements -/

/-- The words that a statement may have before its own one. -/
def modifiers : List (List Terminal) :=
  [[], [exportWord], [exportWord, declareWord], [exportWord, defaultWord], [declareWord]]

/-- The words of statements that are skipped. -/
def skippedWords : List Terminal :=
  [functionWord, classWord, abstractWord, namespaceWord, moduleWord, globalWord, constWord, letWord,
   varWord, importWord]

/-- The first words of statements that are skipped. -/
def heads : List (List Terminal) :=
  (modifiers.flatMap fun ms => skippedWords.map fun w => ms ++ [w])
    ++ [[exportWord], [exportWord, defaultWord]]

/-- Words with spacing between them. -/
inductive Spells : List Terminal → List Char → Prop where
  | single {w : Terminal} : Spells [w] w.spelling
  | cons {w : Terminal} {ws : List Terminal} {gap s : List Char} (hgap : IsSpacing gap)
      (hne : gap ≠ []) (h : Spells ws s) : Spells (w :: ws) (w.spelling ++ (gap ++ s))

theorem Spells.eq_of_single {w : Terminal} {front : List Char} (h : Spells [w] front) :
    front = w.spelling := by
  cases h with
  | single => rfl
  | cons _ _ h => cases h

theorem Spells.exists_of_cons {w v : Terminal} {ws : List Terminal} {front : List Char}
    (h : Spells (w :: v :: ws) front) :
    ∃ gap s, IsSpacing gap ∧ gap ≠ [] ∧ Spells (v :: ws) s ∧ front = w.spelling ++ (gap ++ s) := by
  cases h with
  | cons hgap hne h => exact ⟨_, _, hgap, hne, h, rfl⟩

/-- The first words of a skipped statement and what follows them. The truth value tells that the
statement ends with a block. -/
inductive IsSkipped (inBlock : Bool) : List Char → Prop where
  | intro {ws : List Terminal} {front body : List Char} (hhead : ws ∈ heads)
      (hfront : Spells ws front) (hbody : IsBody inBlock body) : IsSkipped inBlock (front ++ body)

/-! ### Reading a skipped statement -/

/-- The text `s` is read as the nonterminal `n` before `after`, and it is no declaration. -/
structure Drops (n : Nonterminal) (s after : List Char) : Prop where
  isGap : IsGap (s ++ after)
  exists_derives : ∃ t, Derives (.list [.sub n]) [.sub .statements] (s ++ after) [t] after ∧
    declarationOf t = .ok none

/-- The nonterminal that a word of a skipped statement leads. -/
def leadOf (w : Terminal) : Nonterminal :=
  if w = constWord then .definition else .skippedStatement

theorem branch?_of_mem_skippedWords : ∀ w ∈ skippedWords,
    w ∈ words ∧ branch? .statements w = some (.via (leadOf w) [.sub .statements]) ∧
      branch? .declared w = some (.via (leadOf w) []) ∧
      branch? .exportedPlain w = some (.via .declared []) ∧
      branch? .exported w = some (.via .exportedPlain []) := by
  decide

section Drops

variable {inBlock : Bool} {gap s after : List Char} {w : Terminal} {n : Nonterminal}

theorem isGap_of_isSpacing (hgap : IsSpacing gap) (hne : gap ≠ []) (rest : List Char) :
    IsGap (gap ++ rest) :=
  isGap_of_isOther (hgap.isOther_head fun h => absurd h hne)

/-- After `export` or `export default` a run may follow at once. -/
theorem drops_body (hbody : IsBody inBlock s)
    (hafter : inBlock = true → Follows .skippedAfterBlock after)
    (hn : n = .exportedPlain ∨ n = .exported) : Drops n s after where
  isGap := isGap_of_isOther (hbody.isOther_head after)
  exists_derives := by
    obtain ⟨ts, h⟩ := hbody.exists_derives
      (show n ∈ opensRun by obtain rfl | rfl := hn <;> decide) hafter
    refine ⟨_, h, ?_⟩
    obtain rfl | rfl := hn <;> simp [inRun, declarationOf]

/-- The word of a skipped statement leads a run. -/
theorem exists_derives_leadOf (hw : w ∈ skippedWords) (hbody : IsBody inBlock s)
    (hafter : inBlock = true → Follows .skippedAfterBlock after) (trivia : List Char) :
    ∃ t, Derives (.node (leadOf w) ⟨w, trivia, w.spelling⟩) [.sub .statements] (s ++ after) [t]
      after ∧ declarationOf t = .ok none := by
  by_cases hconst : w = constWord
  · subst hconst
    obtain ⟨ts, h⟩ := hbody.exists_derives (n := .constant) (by decide) hafter
    refine ⟨_, .led (n := .definition) (u := constWord) rfl h, ?_⟩
    simp [inRun, declarationOf]
  · obtain ⟨ts, h⟩ := hbody.exists_derives (n := .skipped) (by decide) hafter
    have hall : ∀ w ∈ skippedWords, w ≠ constWord →
        branch? .skippedStatement w = some (.led w [.sub .skipped]) := by
      decide
    rw [leadOf, if_neg hconst]
    exact ⟨_, .led (hall w hw hconst) h, by simp [declarationOf]⟩

/-- After modifiers a word of a skipped statement and its run may follow. -/
theorem drops_word (hgap : IsSpacing gap) (hne : gap ≠ []) (hw : w ∈ skippedWords)
    (hbody : IsBody inBlock s) (hafter : inBlock = true → Follows .skippedAfterBlock after)
    (hn : n = .declared ∨ n = .exportedPlain ∨ n = .exported) :
    Drops n (gap ++ (w.spelling ++ s)) after where
  isGap := by
    rw [List.append_assoc]
    exact isGap_of_isSpacing hgap hne _
  exists_derives := by
    obtain ⟨hwords, -, hdeclared, hplain, hexported⟩ := branch?_of_mem_skippedWords w hw
    obtain ⟨t, ht, hnone⟩ := exists_derives_leadOf hw hbody hafter gap
    have hsees {m : Nonterminal} (hstarts : starts m w = true) :
        Sees [.sub m, .sub .statements] (gap ++ (w.spelling ++ (s ++ after)))
          ⟨w, gap, w.spelling⟩ (s ++ after) :=
      sees_word hwords (expects_of_starts hstarts) hgap.isTrivia
        (isGap_of_isOther (hbody.isOther_head after))
    simp only [List.append_assoc]
    -- Each nonterminal leads to the statement through those after it.
    obtain rfl | rfl | rfl := hn
    · have hstarts := starts_of_branch? hdeclared
      refine ⟨_, .start (hsees hstarts) hstarts (.via hdeclared ht .nil) .nil, ?_⟩
      simpa [declarationOf] using hnone
    · have hstarts := starts_of_branch? hplain
      refine ⟨_, .start (hsees hstarts) hstarts
        (.via hplain (.via hdeclared ht .nil) .nil) .nil, ?_⟩
      simpa [declarationOf] using hnone
    · have hstarts := starts_of_branch? hexported
      refine ⟨_, .start (hsees hstarts) hstarts
        (.via hexported (.via hplain (.via hdeclared ht .nil) .nil) .nil) .nil, ?_⟩
      simpa [declarationOf] using hnone

/-- After `export` another modifier may follow. -/
theorem Drops.modified (h : Drops n s after) (hgap : IsSpacing gap) (hne : gap ≠ [])
    (hw : (w, n) ∈ [(declareWord, .declared), (defaultWord, .exportedPlain)]) :
    Drops .exported (gap ++ (w.spelling ++ s)) after where
  isGap := by
    rw [List.append_assoc]
    exact isGap_of_isSpacing hgap hne _
  exists_derives := by
    have hall : ∀ p ∈ [(declareWord, .declared), (defaultWord, .exportedPlain)],
        p.1 ∈ words ∧ branch? .exported p.1 = some (.led p.1 [.sub p.2]) := by
      decide
    obtain ⟨hwords, hbranch⟩ := hall _ hw
    have hstarts := starts_of_branch? hbranch
    obtain ⟨t, ht, hnone⟩ := h.exists_derives
    have hk : Sees [.sub .exported, .sub .statements] (gap ++ (w.spelling ++ (s ++ after)))
        ⟨w, gap, w.spelling⟩ (s ++ after) :=
      sees_word hwords (expects_of_starts hstarts) hgap.isTrivia h.isGap
    simp only [List.append_assoc]
    refine ⟨_, .start hk hstarts (.led hbranch ht) .nil, ?_⟩
    simpa [declarationOf] using hnone

/-- A statement is read at the front of the input up to `after`, and it is no declaration. -/
def ReadsNothing (input after : List Char) : Prop :=
  ∃ k next ts, Sees [.sub .statements] input k next ∧ IsGap next ∧
    ReadsStatement k next ts after ∧ statementOf ts = .ok none

theorem Drops.readsNothing (h : Drops n s after)
    (hw : (w, n) ∈ [(exportWord, .exported), (declareWord, .declared)]) :
    ReadsNothing (w.spelling ++ (s ++ after)) after := by
  have hall : ∀ p ∈ [(exportWord, .exported), (declareWord, .declared)],
      p.1 ∈ words ∧ p.1 ≠ typeWord ∧
        branch? .statements p.1 = some (.led p.1 [.sub p.2, .sub .statements]) := by
    decide
  obtain ⟨hwords, htype, hbranch⟩ := hall _ hw
  obtain ⟨t, ht, hnone⟩ := h.exists_derives
  have hk : Sees [.sub .statements] (w.spelling ++ (s ++ after)) ⟨w, [], w.spelling⟩ (s ++ after) :=
    sees_word hwords (expects_of_starts (starts_of_branch? hbranch)) .nil h.isGap
  refine ⟨_, _, _, hk, h.isGap, .led hbranch ht, ?_⟩
  simpa [statementOf, htype] using hnone

theorem readsNothing_word (hw : w ∈ skippedWords) (hbody : IsBody inBlock s)
    (hafter : inBlock = true → Follows .skippedAfterBlock after) :
    ReadsNothing (w.spelling ++ (s ++ after)) after := by
  obtain ⟨hwords, hbranch, -⟩ := branch?_of_mem_skippedWords w hw
  obtain ⟨t, ht, hnone⟩ := exists_derives_leadOf hw hbody hafter []
  have hgap := isGap_of_isOther (hbody.isOther_head after)
  have hk : Sees [.sub .statements] (w.spelling ++ (s ++ after)) ⟨w, [], w.spelling⟩ (s ++ after) :=
    sees_word hwords (expects_of_starts (starts_of_branch? hbranch)) .nil hgap
  exact ⟨_, _, _, hk, hgap, .via hbranch ht, by simpa [statementOf] using hnone⟩

/-- A skipped statement is read up to its end, and it is no declaration. Behind a block the next
token has to belong to another statement. -/
theorem IsSkipped.readsNothing (h : IsSkipped inBlock s)
    (hafter : inBlock = true → Follows .skippedAfterBlock after) :
    ReadsNothing (s ++ after) after := by
  obtain ⟨hhead, hfront, hbody⟩ := h
  simp only [heads, List.mem_append, List.mem_flatMap, List.mem_map, modifiers, List.mem_cons,
    List.not_mem_nil, or_false] at hhead
  obtain ⟨ms, rfl | rfl | rfl | rfl | rfl, w, hw, rfl⟩ | rfl | rfl := hhead
  -- The words in front are taken off one by one, and the reading is put together from the last.
  · obtain rfl := hfront.eq_of_single
    simp only [List.append_assoc]
    exact readsNothing_word hw hbody hafter
  · obtain ⟨gap, _, hgap, hne, hsecond, rfl⟩ := hfront.exists_of_cons
    obtain rfl := hsecond.eq_of_single
    have h := drops_word hgap hne hw hbody hafter (.inr (.inr rfl))
    simpa only [List.append_assoc] using h.readsNothing (w := exportWord) (by simp)
  · obtain ⟨gap, _, hgap, hne, hsecond, rfl⟩ := hfront.exists_of_cons
    obtain ⟨gap', _, hgap', hne', hthird, rfl⟩ := hsecond.exists_of_cons
    obtain rfl := hthird.eq_of_single
    have h := (drops_word hgap' hne' hw hbody hafter (.inl rfl)).modified (w := declareWord) hgap
      hne (by simp)
    simpa only [List.append_assoc] using h.readsNothing (w := exportWord) (by simp)
  · obtain ⟨gap, _, hgap, hne, hsecond, rfl⟩ := hfront.exists_of_cons
    obtain ⟨gap', _, hgap', hne', hthird, rfl⟩ := hsecond.exists_of_cons
    obtain rfl := hthird.eq_of_single
    have h := (drops_word hgap' hne' hw hbody hafter (.inr (.inl rfl))).modified (w := defaultWord)
      hgap hne (by simp)
    simpa only [List.append_assoc] using h.readsNothing (w := exportWord) (by simp)
  · obtain ⟨gap, _, hgap, hne, hsecond, rfl⟩ := hfront.exists_of_cons
    obtain rfl := hsecond.eq_of_single
    have h := drops_word hgap hne hw hbody hafter (.inl rfl)
    simpa only [List.append_assoc] using h.readsNothing (w := declareWord) (by simp)
  · obtain rfl := hfront.eq_of_single
    have h := drops_body hbody hafter (.inr rfl)
    simpa only [List.append_assoc] using h.readsNothing (w := exportWord) (by simp)
  · obtain ⟨gap, _, hgap, hne, hsecond, rfl⟩ := hfront.exists_of_cons
    obtain rfl := hsecond.eq_of_single
    have h := (drops_body hbody hafter (.inl rfl)).modified (w := defaultWord) hgap hne (by simp)
    simpa only [List.append_assoc] using h.readsNothing (w := exportWord) (by simp)

end Drops

/-! ### Inserting a skipped statement -/

section Insert

variable {inBlock : Bool} {input after s : List Char} {ss : List (List Tree)}

theorem ReadsNothing.exists_listing (h : ReadsNothing input after) (hafter : Listing after ss) :
    ∃ ss', Listing input ss' ∧ declarationsOf (treeOf ss') = declarationsOf (treeOf ss) := by
  obtain ⟨k, next, ts, hk, -, hts, hnone⟩ := h
  refine ⟨ts :: ss, .next hk hts hafter, ?_⟩
  rw [declarationsOf_treeOf_cons hts, hnone]
  cases declarationsOf (treeOf ss) <;> rfl

theorem ReadsNothing.startsApart (h : ReadsNothing input after) : StartsApart input := by
  obtain ⟨k, next, ts, hk, hnext, -, -⟩ := h
  refine startsApart_of_word hk.starts_statements (hk.lexeme_eq ▸ hk.drop_triviaLength)
    fun c hc => ?_
  refine Bool.eq_false_iff.2 fun hpart => ?_
  exact absurd (goesOn_of_isNamePart hpart) (by simp [hnext c hc])

/-- A skipped statement is a source of no declarations. -/
theorem IsSkipped.ofSource_eq (h : IsSkipped inBlock s) : ofSource s = .ok [] := by
  have hread := h.readsNothing fun _ => .inl atEnd_nil
  rw [List.append_nil] at hread
  obtain ⟨ss, hss, hsame⟩ := hread.exists_listing (.finish atEnd_nil)
  exact ofSource_eq_ok_iff.2 ⟨ss, hss, hsame.trans declarationsOf_treeOf_nil⟩

/-- A skipped statement before a source does not change its declarations. -/
theorem IsSkipped.ofSource_line (h : IsSkipped inBlock s) {more : List Char} {ds : List Declaration}
    (hmore : ofSource more = .ok ds) (hapart : inBlock = true → StartsApart more) :
    ofSource (s ++ '\n' :: more) = .ok ds ∧ StartsApart (s ++ '\n' :: more) := by
  obtain ⟨ss, hss, hds⟩ := ofSource_eq_ok_iff.1 hmore
  have hread : ReadsNothing (s ++ '\n' :: more) ('\n' :: more) :=
    h.readsNothing fun hblock => hss.follows_block (hapart hblock) atEnd_nil
  obtain ⟨ss', hss', hline⟩ := exists_listing_prepend_line hss atEnd_nil
  obtain ⟨all, hall, hsame⟩ := hread.exists_listing hss'
  exact ⟨ofSource_eq_ok_iff.2 ⟨all, hall, hsame.trans (hline.trans hds)⟩, hread.startsApart⟩

/-- A source declares what is seen of it. -/
theorem exists_of_names_eq (s : List Char) (ns : List Text)
    (h : (ofSource s).toOption.map (fun ds => ds.map (·.name)) = some ns) :
    ∃ ds, ofSource s = .ok ds ∧ ds.map (·.name) = ns := by
  cases hds : ofSource s with
  | error fault =>
    rw [hds] at h
    cases h
  | ok ds =>
    rw [hds] at h
    exact ⟨ds, rfl, Option.some.inj h⟩

/-- A skipped statement is a source of no declarations. Two sources with a line end between them
declare what the first does and then what the second does, and so they do with a skipped statement
on the lines between them. Only behind a block of a skipped statement, the first word of the second
source has to be told apart from a longer name. -/
theorem ofSource_insert {input skipped more : List Char} {ds ds' : List Declaration}
    (hinput : ofSource input = .ok ds) (hmore : ofSource more = .ok ds')
    (hclosed : ClosesItsComments input) (hskipped : IsSkipped inBlock skipped) :
    ofSource skipped = .ok [] ∧
      ((EndsInBlock input → StartsApart more) →
        ofSource (input ++ '\n' :: more) = .ok (ds ++ ds')) ∧
      ((inBlock = true → StartsApart more) →
        ofSource (input ++ '\n' :: (skipped ++ '\n' :: more)) = .ok (ds ++ ds')) := by
  refine ⟨hskipped.ofSource_eq, ofSource_append_line hinput hmore hclosed, fun hapart => ?_⟩
  obtain ⟨hrest, hstarts⟩ := hskipped.ofSource_line hmore hapart
  exact ofSource_append_line hinput hrest hclosed fun _ => hstarts

/-- A module with a line of its own between a type alias and an interface. -/
theorem ofSource_insert_module :
    ∃ ds ds', ofSource "type A = 1;".toList = .ok ds ∧ ds.map (·.name) = [.ofString "A"] ∧
      ofSource "interface B {}".toList = .ok ds' ∧ ds'.map (·.name) = [.ofString "B"] ∧
      ofSource "declare module M { a }".toList = .ok [] ∧
      ofSource "type A = 1;\ninterface B {}".toList = .ok (ds ++ ds') ∧
      ofSource "type A = 1;\ndeclare module M { a }\ninterface B {}".toList
        = .ok (ds ++ ds') := by
  obtain ⟨ds, hinput, hds⟩ := exists_of_names_eq "type A = 1;".toList [.ofString "A"]
    (by decide +kernel)
  obtain ⟨ds', hmore, hds'⟩ := exists_of_names_eq "interface B {}".toList [.ofString "B"]
    (by decide +kernel)
  have hspace : IsSpacing [' '] := ⟨.blank (by decide) .nil, by rintro c ⟨⟩; decide⟩
  have hne : [' '] ≠ [] := by decide
  have hfront : Spells [declareWord, moduleWord] "declare module".toList :=
    .cons (w := declareWord) hspace hne .single
  have hblock : Filling " a ".toList :=
    .plain hspace.isTrivia (by decide) (by decide) (.trivia hspace.isTrivia)
  have hbody : IsBody true " M { a }".toList :=
    .lexeme hspace hne (.word (s := ['M']) (by decide) (by decide) (by decide))
      (.block hspace hblock)
  have hskipped : IsSkipped true "declare module M { a }".toList :=
    .intro (by decide) hfront hbody
  have hapart : StartsApart "interface B {}".toList :=
    have hword : "interface B {}".toList.drop (triviaLength "interface B {}".toList)
        = interfaceWord.spelling ++ " B {}".toList := by decide +kernel
    startsApart_of_word rfl hword (by rintro c ⟨⟩; decide)
  obtain ⟨hnone, happend, hinsert⟩ := ofSource_insert hinput hmore
    (closesItsComments_of_not_isInfix (by decide +kernel)) hskipped
  exact ⟨ds, ds', hinput, hds, hmore, hds', hnone, happend fun _ => hapart, hinsert fun _ => hapart⟩

/-- At the start of a source the first letters of `interfaceA` are read as the word `interface`, and
behind the block of a function they are the beginning of a name. -/
theorem ofSource_function_interface :
    ∃ ds, ofSource "function f() {}".toList = .ok [] ∧
      ofSource "interfaceA {}".toList = .ok ds ∧ ds.map (·.name) = [.ofString "A"] ∧
      ClosesItsComments "function f() {}".toList ∧
      ofSource ("function f() {}".toList ++ '\n' :: "interfaceA {}".toList) ≠ .ok ([] ++ ds) := by
  obtain ⟨ds, hmore, hds⟩ := exists_of_names_eq "interfaceA {}".toList [.ofString "A"]
    (by decide +kernel)
  obtain ⟨none, hinput, hnone⟩ := exists_of_names_eq "function f() {}".toList []
    (by decide +kernel)
  obtain ⟨all, hboth, hall⟩ := exists_of_names_eq
    ("function f() {}".toList ++ '\n' :: "interfaceA {}".toList) [] (by decide +kernel)
  obtain rfl := List.map_eq_nil_iff.1 hnone
  obtain rfl := List.map_eq_nil_iff.1 hall
  refine ⟨ds, hinput, hmore, hds, closesItsComments_of_not_isInfix (by decide +kernel), fun h => ?_⟩
  rw [hboth] at h
  cases h
  cases hds

end Insert

end DeclSchema.Declaration
