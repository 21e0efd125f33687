import DeclSchema.Proofs.Table.Walk
import Mathlib.Data.Fintype.Order
import Mathlib.Data.Set.Finite.List

/-!
# Unfolding the bases of an interface

Where no interface extends itself, not even by way of others, its values can be written out: those
of its first base, those of its second base, and so on, and then its own, where the values of a base
are written out in the same way. Here a common base is written out at every mention. The walk passes
over all mentions of it but the first one. This only leaves out values that stand further left
already: the first mention was walked through to its end, since on a graph without cycles the walk
does not come across an interface while it is still in the middle of it. So the first occurrences are
the same, in the same order.

## Main definitions

* `Table.Unfolds`: the values of an interface, written out
* `Table.Finished`: an interface whose values stand in a list already

## Main results

* `Table.exists_unfolds`: the values can be written out if no cycle is reached
* `Table.Unfolds.walksLike`: a walk emits the values written out, but for repetitions
* `Table.valuesOf_eq_unfolded`: the values of an interface are the first occurrences among them
-/

namespace DeclSchema.Table

variable {t : Table} {name : Text} {full : List LiteralValue}

/-- Among some names, those of interfaces. -/
def interfacesAmong (t : Table) (names : List Text) : List Text :=
  names.filter fun n => t.IsInterface n

/-- The values of an interface, written out: those of its bases in the order of their mention, and
then its own. -/
inductive Unfolds (t : Table) : Text → List LiteralValue → Prop where
  | intro {name : Text} {heritage : List Heritage} {members : List Member}
      {valuesAt : Text → List LiteralValue} (hname : t.interface? name = some (heritage, members))
      (h : ∀ base ∈ t.interfacesAmong (heritage.map Heritage.name), Unfolds t base (valuesAt base)) :
      Unfolds t name ((t.interfacesAmong (heritage.map Heritage.name)).flatMap valuesAt ++
        members.filterMap memberValue?)

/-- No interface that is reached extends itself, not even by way of others. -/
def ReachesNoCycle (t : Table) (name : Text) : Prop :=
  ∀ n, t.Reaches name n → ¬Relation.TransGen t.Extends n n

theorem mem_interfacesAmong {names : List Text} {n : Text} :
    n ∈ t.interfacesAmong names ↔ n ∈ names ∧ t.IsInterface n := by
  simp [interfacesAmong]

theorem Unfolds.of_eq {heritage : List Heritage} {members : List Member}
    (valuesAt : Text → List LiteralValue) (hname : t.interface? name = some (heritage, members))
    (h : ∀ base ∈ t.interfacesAmong (heritage.map Heritage.name), t.Unfolds base (valuesAt base))
    (hfull : full = (t.interfacesAmong (heritage.map Heritage.name)).flatMap valuesAt ++
      members.filterMap memberValue?) : t.Unfolds name full :=
  hfull ▸ .intro hname h

theorem Unfolds.isInterface (h : t.Unfolds name full) : t.IsInterface name := by
  cases h with
  | intro hname => exact isInterface_iff.2 ⟨_, _, hname⟩

/-- Values are written out in one way. -/
theorem Unfolds.unique {full' : List LiteralValue} (h : t.Unfolds name full)
    (h' : t.Unfolds name full') : full = full' := by
  induction h generalizing full' with
  | intro hname _ ih =>
    cases h' with
    | intro hname' h' =>
      cases hname.symm.trans hname'
      congr 1
      exact List.flatMap_congr fun base hbase => ih base hbase (h' base hbase)

/-- What an interface with values that are written out reaches has such values too. -/
theorem Unfolds.of_reaches {n : Text} (h : t.Unfolds name full) (hn : t.Reaches name n) :
    ∃ vs, t.Unfolds n vs := by
  induction hn with
  | refl => exact ⟨full, h⟩
  | tail _ hextends ih =>
    obtain ⟨_, h⟩ := ih
    obtain ⟨heritage, members, hname, hbase, hi⟩ := hextends
    cases h with
    | intro hname' h =>
      cases hname.symm.trans hname'
      exact ⟨_, h _ (mem_interfacesAmong.2 ⟨hbase, hi⟩)⟩

/-- An interface with values that are written out does not extend itself. -/
theorem Unfolds.not_extends_self (h : t.Unfolds name full) :
    ¬Relation.TransGen t.Extends name name := by
  -- Otherwise a base would extend itself too, since a cycle can be entered anywhere.
  induction h with
  | intro hname _ ih =>
    intro hcycle
    obtain ⟨base, hextends, hback⟩ := Relation.TransGen.head'_iff.1 hcycle
    obtain ⟨heritage, members, hname', hbase, hi⟩ := id hextends
    cases hname.symm.trans hname'
    exact ih base (mem_interfacesAmong.2 ⟨hbase, hi⟩) (Relation.TransGen.tail' hback hextends)

/-- Values that are written out end somewhere, so no cycle is reached. -/
theorem Unfolds.reachesNoCycle (h : t.Unfolds name full) : t.ReachesNoCycle name := by
  intro n hn
  obtain ⟨_, h⟩ := h.of_reaches hn
  exact h.not_extends_self

/-- If no cycle is reached, the values can be written out. -/
theorem exists_unfolds (hi : t.IsInterface name) (h : t.ReachesNoCycle name) :
    ∃ full, t.Unfolds name full := by
  -- Among the finitely many interfaces that are reached, those that an interface extends lie below
  -- it, and without a cycle there is no endless descent.
  have hfinite : Finite {n // t.Reaches name n} :=
    ((List.finite_toSet t.names).subset fun n hn =>
      mem_names_of_isInterface (Reaches.isInterface hn hi)).to_subtype
  let below : {n // t.Reaches name n} → {n // t.Reaches name n} → Prop :=
    fun a b => Relation.TransGen t.Extends b a
  have htrans : IsTrans _ below := ⟨fun a b c hab hbc => hbc.trans hab⟩
  have hirrefl : Std.Irrefl below := ⟨fun a ha => h a a.2 ha⟩
  have hstep : ∀ a, (∀ b, below b a → ∃ full, t.Unfolds b full) → ∃ full, t.Unfolds a full := by
    rintro ⟨n, hn⟩ ih
    obtain ⟨heritage, members, hname⟩ := isInterface_iff.1 (hn.isInterface hi)
    have hbases : ∀ base, ∃ vs,
        base ∈ t.interfacesAmong (heritage.map Heritage.name) → t.Unfolds base vs := by
      intro base
      by_cases hbase : base ∈ t.interfacesAmong (heritage.map Heritage.name)
      · obtain ⟨hmem, hb⟩ := mem_interfacesAmong.1 hbase
        have hextends : t.Extends n base := ⟨heritage, members, hname, hmem, hb⟩
        obtain ⟨vs, hvs⟩ := ih ⟨base, hn.tail hextends⟩ (.single hextends)
        exact ⟨vs, fun _ => hvs⟩
      · exact ⟨[], fun hmem => absurd hmem hbase⟩
    choose valuesAt hvaluesAt using hbases
    exact ⟨_, .intro hname hvaluesAt⟩
  exact (Finite.wellFounded_of_trans_of_irrefl below).induction ⟨name, .refl⟩ hstep

/-! ### Walking through what is written out -/

/-- The values of an interface, written out, stand in a list already. -/
def Finished (t : Table) (out : List LiteralValue) (n : Text) : Prop :=
  ∃ vs, t.Unfolds n vs ∧ vs ⊆ out

theorem Finished.mono {out out' : List LiteralValue} {n : Text} (h : t.Finished out n)
    (hout : out ⊆ out') : t.Finished out' n := by
  obtain ⟨vs, hvs, hsubset⟩ := h
  exact ⟨vs, hvs, List.Subset.trans hsubset hout⟩

/-- A walk in two parts. -/
theorem Walks.of_append {visited : List Text} {front back : List Errand} {names : List Text}
    {values : List LiteralValue} (h : t.Walks visited (front ++ back) names values) :
    ∃ names₁ values₁ names₂ values₂, t.Walks visited front names₁ values₁ ∧
      t.Walks (names₁.reverse ++ visited) back names₂ values₂ ∧
      names = names₁ ++ names₂ ∧ values = values₁ ++ values₂ := by
  -- By induction on the walk: an errand of the front part is dealt with first, and where it is an
  -- interface that is entered, its errands come to stand in the front part.
  generalize hagenda : front ++ back = agenda at h
  induction h generalizing front with
  | done =>
    obtain ⟨rfl, rfl⟩ := List.append_eq_nil_iff.1 hagenda
    exact ⟨[], [], [], [], .done, .done, rfl, rfl⟩
  | emit h ih =>
    cases front with
    | nil =>
      subst hagenda
      exact ⟨[], [], _, _, .done, .emit h, rfl, rfl⟩
    | cons errand front =>
      cases hagenda
      obtain ⟨names₁, values₁, names₂, values₂, h₁, h₂, rfl, rfl⟩ := ih rfl
      exact ⟨names₁, _, names₂, values₂, .emit h₁, h₂, rfl, (List.append_assoc ..).symm⟩
  | enter hname hnew h ih =>
    cases front with
    | nil =>
      subst hagenda
      exact ⟨[], [], _, _, .done, .enter hname hnew h, rfl, rfl⟩
    | cons errand front =>
      cases hagenda
      obtain ⟨names₁, values₁, names₂, values₂, h₁, h₂, rfl, rfl⟩ := ih (List.append_assoc ..)
      refine ⟨_, values₁, names₂, values₂, .enter hname hnew h₁, ?_, rfl, rfl⟩
      rwa [List.reverse_cons, List.append_assoc]
  | pass hold h ih =>
    cases front with
    | nil =>
      subst hagenda
      exact ⟨[], [], _, _, .done, .pass hold h, rfl, rfl⟩
    | cons errand front =>
      cases hagenda
      obtain ⟨names₁, values₁, names₂, values₂, h₁, h₂, rfl, rfl⟩ := ih rfl
      exact ⟨names₁, values₁, names₂, values₂, .pass hold h₁, h₂, rfl, rfl⟩

/-- The walk through an agenda comes to the values `full`, but for repetitions, and finishes what it
enters. This is so whatever was visited and emitted before, provided that those of the visited
interfaces are finished that are reached from the names that the walk starts from. -/
def WalksLike (t : Table) (starts : List Text) (agenda : List Errand) (full : List LiteralValue) :
    Prop :=
  ∀ visited out names values, t.Walks visited agenda names values →
    (∀ n ∈ visited, ∀ start ∈ starts, t.Reaches start n → t.Finished out n) →
    (out ++ values).eraseDups = (out ++ full).eraseDups ∧
      ∀ n ∈ names, t.Finished (out ++ values) n

namespace WalksLike

theorem nil : t.WalksLike [] [] [] := by
  rintro visited out names values ⟨⟩ -
  exact ⟨rfl, nofun⟩

theorem emit (own : List LiteralValue) : t.WalksLike [] [.emit own] own := by
  rintro visited out names values h -
  cases h with
  | emit h =>
    cases h
    rw [List.append_nil]
    exact ⟨rfl, nofun⟩

/-- A name that is not that of an interface is passed over. -/
theorem other {b : Text} (hb : ¬t.IsInterface b) : t.WalksLike [] [.visit b] [] := by
  rintro visited out names values h -
  cases h with
  | enter hname => exact absurd (isInterface_iff.2 ⟨_, _, hname⟩) hb
  | pass _ h =>
    cases h
    exact ⟨rfl, nofun⟩

theorem append {starts starts' : List Text} {agenda agenda' : List Errand}
    {full full' : List LiteralValue} (h : t.WalksLike starts agenda full)
    (h' : t.WalksLike starts' agenda' full') :
    t.WalksLike (starts ++ starts') (agenda ++ agenda') (full ++ full') := by
  intro visited out names values hwalk hfinished
  obtain ⟨names₁, values₁, names₂, values₂, hwalk₁, hwalk₂, rfl, rfl⟩ := hwalk.of_append
  obtain ⟨heq, hnames⟩ := h visited out names₁ values₁ hwalk₁ fun n hn start hstart =>
    hfinished n hn start (List.mem_append_left _ hstart)
  -- For the second part, what the first part entered is visited, and finished by now.
  have hfinished' : ∀ n ∈ names₁.reverse ++ visited, ∀ start ∈ starts', t.Reaches start n →
      t.Finished (out ++ values₁) n := by
    intro n hn start hstart hreaches
    rcases List.mem_append.1 hn with hn | hn
    · exact hnames n (List.mem_reverse.1 hn)
    · exact (hfinished n hn start (List.mem_append_right _ hstart) hreaches).mono
        (List.subset_append_left _ _)
  obtain ⟨heq', hnames'⟩ := h' _ (out ++ values₁) names₂ values₂ hwalk₂ hfinished'
  rw [← List.append_assoc, ← List.append_assoc]
  refine ⟨heq'.trans (eraseDups_append_congr heq full'), fun n hn => ?_⟩
  rcases List.mem_append.1 hn with hn | hn
  · exact (hnames n hn).mono (List.subset_append_left _ _)
  · exact hnames' n hn

/-- The interfaces among some names are walked through one after the other. -/
theorem visits {valuesAt : Text → List LiteralValue} (names : List Text)
    (h : ∀ b ∈ t.interfacesAmong names, t.WalksLike [b] [.visit b] (valuesAt b)) :
    t.WalksLike (t.interfacesAmong names) (names.map .visit)
      ((t.interfacesAmong names).flatMap valuesAt) := by
  induction names with
  | nil => exact nil
  | cons b rest ih =>
    -- The names that are those of no interface are left out on both sides.
    have hrest := ih fun b hb => h b <| by
      obtain ⟨hmem, hi⟩ := mem_interfacesAmong.1 hb
      exact mem_interfacesAmong.2 ⟨List.mem_cons_of_mem _ hmem, hi⟩
    by_cases hb : t.IsInterface b
    · have hcons : t.interfacesAmong (b :: rest) = b :: t.interfacesAmong rest :=
        List.filter_cons_of_pos (decide_eq_true hb)
      rw [hcons, List.flatMap_cons]
      exact (h b (hcons ▸ List.mem_cons_self)).append hrest
    · have hcons : t.interfacesAmong (b :: rest) = t.interfacesAmong rest :=
        List.filter_cons_of_neg fun hd => hb (of_decide_eq_true hd)
      rw [hcons]
      exact (other hb).append hrest

end WalksLike

/-- The walk from an interface comes to its values, written out, but for repetitions. -/
theorem Unfolds.walksLike (h : t.Unfolds name full) : t.WalksLike [name] [.visit name] full := by
  induction h with
  | @intro name heritage members valuesAt hname hbases ih =>
    have hfull : t.Unfolds name _ := .intro hname hbases
    intro visited out names values hwalk hfinished
    cases hwalk with
    | pass hold hrest =>
      -- The interface was visited before, so it is finished, and what is written out is not new.
      cases hrest
      obtain ⟨vs, hvs, hsubset⟩ := hfinished name (hold hfull.isInterface) name
        (List.mem_singleton.2 rfl) .refl
      cases hvs.unique hfull
      rw [List.append_nil, eraseDups_append_of_subset hsubset]
      exact ⟨rfl, nofun⟩
    | enter hname' hnew hrest =>
      cases hname.symm.trans hname'
      have hvisits : heritage.map (fun base => Errand.visit base.name) =
          (heritage.map Heritage.name).map .visit := by
        rw [List.map_map]
        rfl
      rw [List.append_nil, errands, hvisits] at hrest
      -- The interface itself is visited and not finished, but no base of it leads back to it.
      have hfinished' : ∀ n ∈ name :: visited,
          ∀ b ∈ t.interfacesAmong (heritage.map Heritage.name) ++ [], t.Reaches b n →
            t.Finished out n := by
        intro n hn b hb hreaches
        rw [List.append_nil] at hb
        obtain ⟨hmem, hi⟩ := mem_interfacesAmong.1 hb
        have hextends : t.Extends name b := ⟨heritage, members, hname, hmem, hi⟩
        rcases List.mem_cons.1 hn with rfl | hn
        · exact absurd (Relation.TransGen.head' hextends hreaches) hfull.not_extends_self
        · exact hfinished n hn name (List.mem_singleton.2 rfl) (.head hextends hreaches)
      have hparts := (WalksLike.visits _ ih).append (.emit (members.filterMap memberValue?))
      obtain ⟨heq, hnames⟩ := hparts _ out _ _ hrest hfinished'
      refine ⟨heq, List.forall_mem_cons.2 ⟨⟨_, hfull, fun v hv => ?_⟩, hnames⟩⟩
      rw [← List.mem_eraseDups, heq, List.mem_eraseDups]
      exact List.mem_append_right _ hv

/-- **Passing over what was visited loses nothing.** If no cycle is reached from an interface, its
values can be written out, in one way, and the first occurrences among what is written out are the
values of the interface, in this order. -/
theorem valuesOf_eq_unfolded (hi : t.IsInterface name) (h : t.ReachesNoCycle name) :
    ∃ full, t.Unfolds name full ∧ (∀ full', t.Unfolds name full' → full' = full) ∧
      t.valuesOf name = full.eraseDups := by
  obtain ⟨full, hfull⟩ := exists_unfolds hi h
  obtain ⟨names, hwalk⟩ := t.exists_walks [] [.visit name]
  obtain ⟨heq, -⟩ := hfull.walksLike [] [] names _ hwalk nofun
  exact ⟨full, hfull, fun full' h' => h'.unique hfull, heq⟩

/-- An interface with two bases, which have a base and a value in common. -/
def diamondTable : Table :=
  .ofDeclarations
    [sampleInterface "A" ["B", "C", "G"] "a", sampleInterface "B" ["D"] "b",
      sampleInterface "C" ["D", "E"] "b", sampleInterface "D" [] "d",
      .typeAlias (.ofString "E") [] [] none]

/-- Written out, the values of the common base and the common value stand there twice. -/
theorem valuesOf_eq_unfolded_diamondTable :
    diamondTable.IsInterface (.ofString "A") ∧
    diamondTable.ReachesNoCycle (.ofString "A") ∧
    ∃ full, diamondTable.Unfolds (.ofString "A") full ∧
      full = ["d", "b", "d", "b", "a"].map (.text ∘ .ofString) ∧
      diamondTable.valuesOf (.ofString "A") = full.eraseDups ∧
      diamondTable.valuesOf (.ofString "A") = ["d", "b", "a"].map (.text ∘ .ofString) := by
  -- The values are written out from the common base on.
  have hd : diamondTable.Unfolds (.ofString "D") [.text (.ofString "d")] :=
    .of_eq (fun _ => []) rfl nofun rfl
  have hbases : ∀ b ∈ [Text.ofString "D"], diamondTable.Unfolds b [.text (.ofString "d")] := by
    intro b hb
    rw [List.mem_singleton.1 hb]
    exact hd
  have hb : diamondTable.Unfolds (.ofString "B") (["d", "b"].map (.text ∘ .ofString)) :=
    .of_eq (fun _ => [.text (.ofString "d")]) rfl hbases rfl
  have hc : diamondTable.Unfolds (.ofString "C") (["d", "b"].map (.text ∘ .ofString)) :=
    .of_eq (fun _ => [.text (.ofString "d")]) rfl hbases rfl
  have hbases' : ∀ b ∈ [Text.ofString "B", Text.ofString "C"],
      diamondTable.Unfolds b (["d", "b"].map (.text ∘ .ofString)) :=
    List.forall_mem_cons.2 ⟨hb, List.forall_mem_cons.2 ⟨hc, nofun⟩⟩
  have ha : diamondTable.Unfolds (.ofString "A")
      (["d", "b", "d", "b", "a"].map (.text ∘ .ofString)) :=
    .of_eq (fun _ => ["d", "b"].map (.text ∘ .ofString)) rfl hbases' rfl
  obtain ⟨full, hfull, hunique, hvalues⟩ := valuesOf_eq_unfolded ha.isInterface ha.reachesNoCycle
  refine ⟨ha.isInterface, ha.reachesNoCycle, full, hfull, (hunique _ ha).symm, hvalues, ?_⟩
  rw [hvalues, ← hunique _ ha]
  decide

end DeclSchema.Table
