import DeclSchema.Declaration.OfTree
import DeclSchema.Proofs.Declaration.Nodes
import DeclSchema.Proofs.Grammar.Shape
import Mathlib.Data.List.Infix

/-!
# Nodes from trees

What is to be shown of every node that is built from trees: it lacks nothing, the texts of its parts
are pieces of its own text, each of its strings is raw or spelled by a string token, and if it is a
type, some tree of a type was read for it. A computation that builds nodes fails only where a string
token spells nothing.

## Main definitions

* `TypeExpr.Spine`: the types that share a tree with a type
* `Arises`: the types that trees of types are read for
* `Sound`: what holds of every node
* `Yields`, `Gives`: what holds of a value, or else a string token spells nothing; what holds of a
  value if there is one
* `Occurs`, `Found`, `FoundType`: nodes with texts in some tokens

## Main results

* `Found.of_trees`, `FoundType.of_trees`: a node is found where its parts are
* `FoundType.found`: a type that a tree is read for is found
-/

namespace DeclSchema

/-- The types that share a tree with a type: itself, the members of a union and the elements of an
array that do. -/
inductive TypeExpr.Spine : TypeExpr → TypeExpr → Prop where
  | refl (t : TypeExpr) : Spine t t
  | member {text : Text} {members : List TypeExpr} {m s : TypeExpr} (hm : m ∈ members)
      (h : Spine m s) : Spine (.union text members) s
  | element {text : Text} {e s : TypeExpr} (h : Spine e s) : Spine (.array text (some e)) s

namespace Declaration

open Grammar Grammar.Tree Grammar.Nonterminal Escape

/-- The type is read from a tree of its own, whose tokens are among `ks`: as a type, as the type that
a function returns, or as a name in parentheses at the start of a type. -/
inductive Origin (ks : List Token) : TypeExpr → Prop where
  | type {t : Tree} {T : TypeExpr} (h : ReadAs (.type true) t) (hks : tokensOf [t] <:+: ks)
      (hT : typeOf t = .ok T) : Origin ks T
  | returned {t : Tree} {T : TypeExpr} (h : ReadAs .returnType t) (hks : tokensOf [t] <:+: ks)
      (hT : returnTypeOf t = .ok T) : Origin ks T
  | name {k closing : Token} {rest : Tree}
      (h : ReadAs (.parenthesis true)
        (.node (.parenthesis true)
          [.leaf k, .node (.parenthesisName true) [.leaf closing, rest]]))
      (hks : [k] <:+: ks) : Origin ks (referenceType (lexemeOf k) [lexemeOf k] [])
  | named {k : Token} {n : Nonterminal} {us : List Tree} {closing rest : Tree} {T : TypeExpr}
      (h : ReadAs (.parenthesis true)
        (.node (.parenthesis true)
          [.leaf k, .node (.parenthesisName true) [.node n us, closing, rest]]))
      (hks : tokensOf [.leaf k, .node n us] <:+: ks)
      (hT : namedOf [.leaf k, .node n us] [.leaf k] [lexemeOf k] (.node n us) = .ok T) : Origin ks T

/-- The type shares a tree with a type that a tree is read for. -/
def Arises (ks : List Token) (s : TypeExpr) : Prop :=
  ∃ T, Origin ks T ∧ T.Spine s

/-- The text is raw, or one of the string tokens spells it. -/
def Spelled (ks : List Token) (t : Text) : Prop :=
  (∃ cs, t = .ofChars cs) ∨ ∃ k ∈ ks, k.terminal = .string ∧ unquote k.lexeme = .ok t

/-- What holds of every node that is built from trees whose tokens are among `ks`. -/
structure Sound (ks : List Token) (n : Node) : Prop where
  whole : n.IsWhole
  parts : ∀ p ∈ n.parts, p.text <:+: n.text
  strings : ∀ t ∈ n.strings, Spelled ks t
  arises : ∀ T, n = .type T → Arises ks T

/-! ### Computations -/

section Yields

variable {α β : Type} {ks : List Token} {p q : α → Prop} {r : β → Prop} {x : Decoded α}

/-- The value has the property, or one of the string tokens spells nothing. -/
def Yields (ks : List Token) (p : α → Prop) : Decoded α → Prop
  | .ok a => p a
  | .error f => ∃ k ∈ ks, k.terminal = .string ∧ unquote k.lexeme = .error f

theorem Yields.imp (h : Yields ks p x) (hpq : ∀ a, p a → q a) : Yields ks q x := by
  cases x with
  | ok a => exact hpq a h
  | error f => exact h

theorem Yields.bind {f : α → Decoded β} (h : Yields ks p x) (hf : ∀ a, p a → Yields ks r (f a)) :
    Yields ks r (x >>= f) := by
  cases x with
  | ok a => exact hf a h
  | error f => exact h

theorem Yields.map {f : α → β} (h : Yields ks p x) (hf : ∀ a, p a → r (f a)) :
    Yields ks r (f <$> x) := by
  cases x with
  | ok a => exact hf a h
  | error f => exact h

theorem yields_mapM {xs : List (Decoded α)} (h : ∀ x ∈ xs, Yields ks p x) :
    Yields ks (fun as => ∀ a ∈ as, p a) (xs.mapM id) := by
  induction xs with
  | nil => exact nofun
  | cons x xs ih =>
    rw [List.mapM_cons]
    refine (h x (List.mem_cons_self ..)).bind fun a ha => ?_
    refine (ih fun y hy => h y (List.mem_cons_of_mem _ hy)).bind fun as has => ?_
    exact List.forall_mem_cons.2 ⟨ha, has⟩

end Yields

section Gives

variable {α β : Type} {p : α → Prop} {a : α} {x : Decoded β}

/-- The value that is given, if one is, has the property. -/
def Gives (p : α → Prop) (x : Decoded α) : Prop :=
  ∀ a, x = .ok a → p a

theorem gives_ok (h : p a) : Gives p (.ok a) := by
  rintro _ ⟨⟩
  exact h

theorem gives_bind {f : β → Decoded α} (h : ∀ b, Gives p (f b)) : Gives p (x >>= f) := by
  intro a ha
  obtain ⟨b, -, ha⟩ := exists_of_bind_eq_ok ha
  exact h b a ha

theorem forall_of_mapM {xs : List (Decoded α)} {as : List α} (h : ∀ x ∈ xs, Gives p x)
    (hxs : xs.mapM id = .ok as) : ∀ a ∈ as, p a := by
  induction xs generalizing as with
  | nil =>
    cases hxs
    exact nofun
  | cons x xs ih =>
    rw [List.mapM_cons] at hxs
    obtain ⟨a, ha, hxs⟩ := exists_of_bind_eq_ok hxs
    obtain ⟨as, has, hxs⟩ := exists_of_bind_eq_ok hxs
    cases hxs
    exact List.forall_mem_cons.2 ⟨h x List.mem_cons_self a ha,
      ih (fun y hy => h y (List.mem_cons_of_mem _ hy)) has⟩

end Gives

/-! ### Texts in tokens -/

section Occurs

variable {t : Text} {ls ms : List Token}

/-- The text is that of some consecutive tokens among `ls`. -/
def Occurs (t : Text) (ls : List Token) : Prop :=
  ∃ part, part <:+: ls ∧ t = .ofChars (spelling part)

theorem spelling_isSuffix (ls : List Token) : spelling ls <:+ ls.flatMap Token.source := by
  cases ls with
  | nil => exact List.suffix_rfl
  | cons k ls =>
    refine ⟨k.trivia, ?_⟩
    rw [spelling, List.flatMap_cons, Token.source, List.append_assoc]

theorem spelling_append (k : Token) (ls ms : List Token) :
    spelling (k :: ls ++ ms) = spelling (k :: ls) ++ ms.flatMap Token.source := by
  simp only [spelling, List.cons_append, List.flatMap_append, List.append_assoc]

/-- The characters of consecutive tokens are consecutive. -/
theorem spelling_isInfix (h : ms <:+: ls) : spelling ms <:+: spelling ls := by
  obtain ⟨front, back, rfl⟩ := h
  cases ms with
  | nil => exact List.nil_infix
  | cons k ms =>
    rw [List.append_assoc]
    cases front with
    | nil =>
      rw [List.nil_append, spelling_append]
      exact (List.prefix_append ..).isInfix
    | cons f front =>
      rw [spelling_append, List.flatMap_append]
      have hms : spelling (k :: ms) <:+: (k :: ms).flatMap Token.source :=
        (spelling_isSuffix _).isInfix
      exact hms.trans ((List.prefix_append ..).isInfix.trans (List.suffix_append ..).isInfix)

theorem Occurs.mono (h : Occurs t ms) (hms : ms <:+: ls) : Occurs t ls := by
  obtain ⟨part, hpart, rfl⟩ := h
  exact ⟨part, hpart.trans hms, rfl⟩

theorem occurs_textOf (ts : List Tree) : Occurs (textOf ts) (tokensOf ts) :=
  ⟨_, List.infix_rfl, rfl⟩

theorem Occurs.isInfix (h : Occurs t ls) : t <:+: Text.ofChars (spelling ls) := by
  obtain ⟨part, hpart, rfl⟩ := h
  exact (spelling_isInfix hpart).map _

theorem Occurs.spelled (h : Occurs t ls) (ks : List Token) : Spelled ks t := by
  obtain ⟨part, -, rfl⟩ := h
  exact .inl ⟨_, rfl⟩

end Occurs

/-! ### Nodes in tokens -/

section Found

variable {ks ls ms : List Token} {n : Node} {T : TypeExpr}

/-- The text of the node is among the tokens, and all nodes within it are sound. -/
def Found (ks ls : List Token) (n : Node) : Prop :=
  Occurs n.text ls ∧ n.Everywhere (Sound ks)

/-- The text of the type is among the tokens, and all nodes within it are sound if a tree is read
for it. -/
def FoundType (ks ls : List Token) (T : TypeExpr) : Prop :=
  Occurs T.text ls ∧ ((∀ S, T.Spine S → Arises ks S) → (Node.type T).Everywhere (Sound ks))

theorem Found.mono (h : Found ks ms n) (hms : ms <:+: ls) : Found ks ls n :=
  ⟨h.1.mono hms, h.2⟩

theorem FoundType.mono (h : FoundType ks ms T) (hms : ms <:+: ls) : FoundType ks ls T :=
  ⟨h.1.mono hms, h.2⟩

/-- A type that a tree is read for is found. -/
theorem FoundType.found (h : FoundType ks ls T) (horigin : Origin ks T) : Found ks ls (.type T) :=
  ⟨h.1, h.2 fun _ hS => ⟨T, horigin, hS⟩⟩

/-- What is found in the tokens of trees is a piece of their text. -/
theorem Found.isInfix {trees : List Tree} (h : Found ks (tokensOf trees) n) :
    n.text <:+: textOf trees :=
  h.1.isInfix

section Trees

variable {trees : List Tree}

theorem Sound.of_trees (trees : List Tree) (htext : n.text = textOf trees) (hwhole : n.IsWhole)
    (hnames : ∀ t ∈ n.names, Spelled ks t) (hparts : ∀ p ∈ n.parts, p.text <:+: textOf trees)
    (harises : ∀ T, n = .type T → Arises ks T) : Sound ks n where
  whole := hwhole
  parts := htext ▸ hparts
  strings := List.forall_mem_cons.2 ⟨htext ▸ (occurs_textOf trees).spelled ks, hnames⟩
  arises := harises

/-- A node other than a type is found where its parts are. -/
theorem Found.of_trees (trees : List Tree) (hn : ∀ T, n ≠ .type T) (htext : n.text = textOf trees)
    (htrees : tokensOf trees <:+: ls) (hwhole : n.IsWhole)
    (hnames : ∀ t ∈ n.names, Spelled ks t)
    (hparts : ∀ p ∈ n.parts, Found ks (tokensOf trees) p) : Found ks ls n :=
  ⟨htext ▸ (occurs_textOf trees).mono htrees,
    .intro (.of_trees _ htext hwhole hnames (fun p hp => (hparts p hp).isInfix)
      fun T hT => absurd hT (hn T)) fun p hp => (hparts p hp).2⟩

/-- A type is found where its parts are. -/
theorem FoundType.of_trees (trees : List Tree) (htext : T.text = textOf trees)
    (htrees : tokensOf trees <:+: ls)
    (hwhole : (Node.type T).IsWhole) (hnames : ∀ t ∈ (Node.type T).names, Spelled ks t)
    (hparts : ∀ p ∈ (Node.type T).parts, Found ks (tokensOf trees) p) : FoundType ks ls T := by
  refine ⟨htext ▸ (occurs_textOf trees).mono htrees, fun harises => ?_⟩
  refine .intro (.of_trees _ htext hwhole hnames (fun p hp => (hparts p hp).isInfix) ?_)
    fun p hp => (hparts p hp).2
  rintro _ ⟨⟩
  exact harises T (.refl T)

/-- The element of an array shares its tree, so it is enough that a tree is read for the array. -/
theorem FoundType.array {e : TypeExpr} (h : FoundType ks (tokensOf trees) e)
    (htrees : tokensOf trees <:+: ls) : FoundType ks ls (.array (textOf trees) (some e)) := by
  refine ⟨(occurs_textOf trees).mono htrees, fun harises => ?_⟩
  refine .intro (.of_trees trees rfl rfl nofun ?_ ?_) ?_
  · rintro p hp
    obtain rfl := List.mem_singleton.1 hp
    exact h.1.isInfix
  · rintro _ ⟨⟩
    exact harises _ (.refl _)
  · rintro p hp
    obtain rfl := List.mem_singleton.1 hp
    exact h.2 fun S hS => harises S (.element hS)

/-- The members of a union share its tree. -/
theorem FoundType.union {members : List TypeExpr}
    (h : ∀ m ∈ members, FoundType ks (tokensOf trees) m) (htrees : tokensOf trees <:+: ls) :
    FoundType ks ls (.union (textOf trees) members) := by
  refine ⟨(occurs_textOf trees).mono htrees, fun harises => ?_⟩
  refine .intro (.of_trees trees rfl trivial nofun ?_ ?_) ?_
  · rintro p hp
    obtain ⟨m, hm, rfl⟩ := List.mem_map.1 hp
    exact (h m hm).1.isInfix
  · rintro _ ⟨⟩
    exact harises _ (.refl _)
  · rintro p hp
    obtain ⟨m, hm, rfl⟩ := List.mem_map.1 hp
    exact (h m hm).2 fun S hS => harises S (.member hm hS)

end Trees

end Found

end Declaration

end DeclSchema
