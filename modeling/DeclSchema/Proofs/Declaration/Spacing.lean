import DeclSchema.Proofs.Declaration.Canonical
import DeclSchema.Proofs.Grammar.Reading

/-!
# Spaces in canonical sources

Every token of a canonical source is a lexeme with a space before it. The printed source leaves out
the first of these spaces.

## Main results

* `Operand.allSpaced`, `Statement.allSpaced`: the tokens of types and declarations
* `print_eq_intercalate`: a printed source is its lexemes with single spaces between them
* `source_unled`, `isSpaced_unled`: the tokens of a printed source
-/

namespace DeclSchema.Canonical

open Grammar

/-! ### Single tokens -/

theorem isSpaced_mark {t : Terminal} (ht : t.spelling ≠ []) : (mark t).IsSpaced :=
  ⟨rfl, .of_spelling ht⟩

theorem Word.isSpaced (w : Word) : w.token.IsSpaced :=
  ⟨rfl, w.nonempty, w.nameLength_eq, .inl rfl⟩

theorem Numeral.isSpaced (n : Numeral) : n.token.IsSpaced :=
  ⟨rfl, n.nonempty, n.numberLength_eq, .inr (.inr (.inl rfl))⟩

theorem isSpaced_stringToken (t : Text) : (stringToken t).IsSpaced :=
  ⟨rfl, nofun, Escape.stringLength_quoted t, .inr (.inl rfl)⟩

theorem PlainKey.isSpaced (key : PlainKey) : key.token.IsSpaced := by
  cases key with
  | word w =>
    by_cases hw : w.chars = Terminal.readonlyWord.spelling
    · rw [PlainKey.token, if_pos hw]
      exact isSpaced_mark nofun
    · rw [PlainKey.token, if_neg hw]
      exact w.isSpaced
  | string t => exact isSpaced_stringToken t
  | number n => exact n.isSpaced

theorem Simple.isSpaced (s : Simple) : (spaced .name s.chars).IsSpaced := by
  cases s with
  | keyword word => exact word.isSpaced
  | truth b => cases b <;> exact ⟨rfl, nofun, by decide, .inl rfl⟩
  | null => exact ⟨rfl, nofun, by decide, .inl rfl⟩
  | reference name => exact name.isSpaced

/-! ### Lists of tokens -/

/-- All of the tokens are lexemes with a space before them. -/
def AllSpaced (ks : List Token) : Prop :=
  ∀ k ∈ ks, k.IsSpaced

namespace AllSpaced

theorem nil : AllSpaced [] :=
  nofun

theorem cons {k : Token} {ks : List Token} (hk : k.IsSpaced) (hks : AllSpaced ks) :
    AllSpaced (k :: ks) :=
  List.forall_mem_cons.mpr ⟨hk, hks⟩

theorem single {k : Token} (hk : k.IsSpaced) : AllSpaced [k] :=
  cons hk nil

theorem mark {t : Terminal} {ks : List Token} (hks : AllSpaced ks)
    (ht : t.spelling ≠ [] := by decide) : AllSpaced (mark t :: ks) :=
  cons (isSpaced_mark ht) hks

theorem append {ks ks' : List Token} (hks : AllSpaced ks) (hks' : AllSpaced ks') :
    AllSpaced (ks ++ ks') :=
  List.forall_mem_append.mpr ⟨hks, hks'⟩

theorem flatMap {α : Type} {items : List α} {f : α → List Token}
    (h : ∀ x ∈ items, AllSpaced (f x)) : AllSpaced (items.flatMap f) := by
  intro k hk
  obtain ⟨x, hx, hmem⟩ := List.mem_flatMap.mp hk
  exact h x hx k hmem

theorem continued {separator : Terminal} {items : List (List Token)}
    (h : ∀ ks ∈ items, AllSpaced ks) (hs : separator.spelling ≠ [] := by decide) :
    AllSpaced (continued separator items) :=
  flatMap fun ks hks => mark (h ks hks) hs

theorem map {α : Type} {items : List α} {f : α → List Token} (h : ∀ x, AllSpaced (f x)) :
    ∀ ks ∈ items.map f, AllSpaced ks :=
  List.forall_mem_map.mpr fun x _ => h x

end AllSpaced

theorem Word.allSpaced (w : Word) : AllSpaced [w.token] :=
  .single w.isSpaced

theorem Key.allSpaced (key : Key) : AllSpaced key.tokens := by
  cases key with
  | plain key => exact .single key.isSpaced
  | member scope m =>
    exact .mark (.cons scope.isSpaced (.mark (.cons m.isSpaced (.mark .nil))))
  | computed w => exact .mark (.cons w.isSpaced (.mark .nil))

/-! ### Types -/

mutual

theorem Operand.allSpaced (o : Operand) : AllSpaced o.tokens := by
  cases o with
  | simple s => exact .single s.isSpaced
  | generic name first more =>
    exact .cons name.isSpaced (.mark
      (.append (.append first.allSpaced (allSpaced_types more)) (.mark .nil)))
  | qualified scope middle m =>
    exact .cons scope.isSpaced (.continued (.map Word.allSpaced))
  | string value => exact .single (isSpaced_stringToken value)
  | number n => exact .single n.isSpaced
  | negative n => exact .mark (.single n.isSpaced)
  | parenthesized inner => exact .mark (.append inner.allSpaced (.mark .nil))
  | array element => exact .append element.allSpaced (.mark (.mark .nil))
  | object members =>
    exact .mark (.append (allSpaced_properties members) (.mark .nil))

theorem TypeForm.allSpaced (t : TypeForm) : AllSpaced t.tokens := by
  cases t with
  | union head more => exact .append head.allSpaced (allSpaced_operands more)

theorem allSpaced_operands (os : List Operand) : AllSpaced (tokensOfOperands os) := by
  cases os with
  | nil => exact .nil
  | cons o more => exact .mark (.append o.allSpaced (allSpaced_operands more))

theorem allSpaced_types (ts : List TypeForm) : AllSpaced (tokensOfTypes ts) := by
  cases ts with
  | nil => exact .nil
  | cons t more => exact .mark (.append t.allSpaced (allSpaced_types more))

theorem Property.allSpaced (p : Property) : AllSpaced p.tokens := by
  cases p with
  | mk readonly key optional type =>
    have hreadonly : AllSpaced (if readonly then [mark .readonlyWord] else []) := by
      cases readonly
      · exact .nil
      · exact .mark .nil
    have hoptional : AllSpaced (if optional then [mark .question] else []) := by
      cases optional
      · exact .nil
      · exact .mark .nil
    exact .append (.append hreadonly key.allSpaced)
      (.append hoptional (allSpaced_annotated type))

theorem allSpaced_annotated (t : Option TypeForm) : AllSpaced (tokensOfAnnotated t) := by
  cases t with
  | none => exact .nil
  | some t => exact .mark t.allSpaced

theorem allSpaced_properties (ps : List Property) : AllSpaced (tokensOfProperties ps) := by
  cases ps with
  | nil => exact .nil
  | cons p more => exact .append p.allSpaced (.mark (allSpaced_properties more))

end

/-! ### Declarations -/

theorem allSpaced_bracketed {items : List (List Token)} (h : ∀ ks ∈ items, AllSpaced ks) :
    AllSpaced (bracketed items) := by
  cases items with
  | nil => exact .nil
  | cons first more =>
    obtain ⟨hfirst, hmore⟩ := List.forall_mem_cons.mp h
    exact .mark (.append (.append hfirst (.continued hmore)) (.mark .nil))

theorem HeritageForm.allSpaced (h : HeritageForm) : AllSpaced h.tokens :=
  .append (.cons h.first.isSpaced (.continued (.map Word.allSpaced)))
    (allSpaced_bracketed (.map TypeForm.allSpaced))

theorem allSpaced_extending (hs : List HeritageForm) : AllSpaced (extending hs) := by
  cases hs with
  | nil => exact .nil
  | cons first more =>
    exact .mark (.append first.allSpaced (.continued (.map HeritageForm.allSpaced)))

theorem allSpaced_enumerated (keys : List PlainKey) : AllSpaced (enumerated keys) := by
  cases keys with
  | nil => exact .nil
  | cons first more =>
    exact .cons first.isSpaced (.continued (.map fun key => .single key.isSpaced))

namespace Statement

theorem allSpaced_tail (s : Statement) : AllSpaced s.tail := by
  cases s with
  | interface name parameters heritage members =>
    exact .cons name.isSpaced (.append (.append
      (.append (allSpaced_bracketed (.map Word.allSpaced)) (allSpaced_extending heritage))
      (.mark (allSpaced_properties members))) (.mark .nil))
  | enumeration name members =>
    exact .cons name.isSpaced (.mark
      (.append (allSpaced_enumerated members) (.mark .nil)))
  | typeAlias name parameters type =>
    exact .cons name.isSpaced (.append (.append (allSpaced_bracketed (.map Word.allSpaced))
      (.mark type.allSpaced)) (.mark .nil))

theorem spelling_head_ne_nil (s : Statement) : s.head.spelling ≠ [] := by
  cases s <;> nofun

theorem allSpaced (s : Statement) : AllSpaced s.tokens :=
  .mark s.allSpaced_tail s.spelling_head_ne_nil

end Statement

/-! ### Printed sources -/

theorem spelling_cons_cons {k l : Token} {ks : List Token} (hl : l.IsSpaced) :
    Tree.spelling (k :: l :: ks) = k.lexeme ++ [' '] ++ Tree.spelling (l :: ks) := by
  rw [Tree.spelling, Tree.spelling, List.flatMap_cons, Token.source, hl.trivia]
  simp

theorem spelling_eq_intercalate {ks : List Token} (h : AllSpaced ks) :
    Tree.spelling ks = [' '].intercalate (ks.map (·.lexeme)) := by
  cases ks with
  | nil => rfl
  | cons k ks =>
    induction ks generalizing k with
    | nil => simp [Tree.spelling, List.intercalate]
    | cons l ks ih =>
      obtain ⟨-, hls⟩ := List.forall_mem_cons.mp h
      rw [spelling_cons_cons (hls l (List.mem_cons_self ..)), ih l hls]
      simp only [List.map_cons, List.intercalate_cons_cons]

/-- A printed source is the lexemes of its tokens with single spaces between them. -/
theorem print_eq_intercalate (ss : List Statement) :
    print ss = [' '].intercalate ((ss.flatMap (·.tokens)).map (·.lexeme)) :=
  spelling_eq_intercalate (.flatMap fun s _ => s.allSpaced)

example :
    print [.interface ⟨"Box".toList, nofun, by decide⟩ [⟨"T".toList, nofun, by decide⟩] []
      [.mk true (.plain (.word ⟨"kind".toList, nofun, by decide⟩)) false
        (some (.union (.string (.ofString "a")) []))]]
      = "interface Box < T > \x7b readonly kind : \"a\" ; \x7d".toList := by
  decide

/-- Tokens without the space before the first one. -/
def unled : List Token → List Token
  | [] => []
  | k :: ks => { k with trivia := [] } :: ks

theorem source_unled (ks : List Token) : source (unled ks) = Tree.spelling ks := by
  cases ks <;> rfl

theorem isSpaced_unled {ks : List Token} (h : AllSpaced ks) : IsSpaced (unled ks) := by
  cases ks with
  | nil => trivial
  | cons k ks =>
    obtain ⟨hk, hks⟩ := List.forall_mem_cons.mp h
    exact ⟨.inl rfl, hk.lexeme, hks⟩

end DeclSchema.Canonical
