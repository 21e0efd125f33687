import DeclSchema.Entries
import DeclSchema.Proofs.FirstOccurrence

/-!
# Laws of entries

New keys are added at the end, so entries with new keys are just put behind the others. Sorting
entries forgets the order in which they were put: there is one ascending order of distinct keys.

## Main results

* `Entries.putAll_of_disjoint`: pairs with new keys
* `Entries.keys_putAll`, `Entries.get?_putAll_of_mem`: pairs with any keys
* `Entries.keys_ofList`, `Entries.exists_last_of_mem_ofList`: pairs of which many have one key
* `Entries.pairwise_sorted_of_nodup`: sorting gives a strictly ascending order
* `Entries.sorted_eq_of_perm`: the order before sorting does not matter
-/

namespace DeclSchema

/-! ### The order of texts -/

namespace Text

theorem le_cons_cons {p q : CodePoint} {as bs : Text} :
    le (p :: as) (q :: bs) = true ↔
      p.value < q.value ∨ p.value = q.value ∧ as.le bs = true := by
  simp only [le, Bool.or_eq_true, Bool.and_eq_true, decide_eq_true_eq, beq_iff_eq]

theorem le_total (a b : Text) : (a.le b || b.le a) = true := by
  rw [Bool.or_eq_true]
  induction a generalizing b with
  | nil => exact Or.inl rfl
  | cons p as ih =>
    cases b with
    | nil => exact Or.inr rfl
    | cons q bs =>
      rw [le_cons_cons, le_cons_cons]
      rcases Nat.lt_trichotomy p.value q.value with h | h | h
      · exact Or.inl (Or.inl h)
      · exact (ih bs).imp (fun hab => Or.inr ⟨h, hab⟩) (fun hba => Or.inr ⟨h.symm, hba⟩)
      · exact Or.inr (Or.inl h)

theorem le_trans {a b c : Text} (hab : a.le b = true) (hbc : b.le c = true) :
    a.le c = true := by
  induction a generalizing b c with
  | nil => rfl
  | cons p as ih =>
    cases b with
    | nil => cases hab
    | cons q bs =>
      cases c with
      | nil => cases hbc
      | cons r cs =>
        -- The first difference of the three texts decides, and it is at one of two places.
        rw [le_cons_cons] at hab hbc ⊢
        rcases hab with hpq | ⟨hpq, hab⟩ <;> rcases hbc with hqr | ⟨hqr, hbc⟩
        · exact Or.inl (Nat.lt_trans hpq hqr)
        · exact Or.inl (hqr ▸ hpq)
        · exact Or.inl (hpq ▸ hqr)
        · exact Or.inr ⟨hpq.trans hqr, ih hab hbc⟩

theorem le_antisymm {a b : Text} (hab : a.le b = true) (hba : b.le a = true) : a = b := by
  induction a generalizing b with
  | nil =>
    cases b with
    | nil => rfl
    | cons q bs => cases hba
  | cons p as ih =>
    cases b with
    | nil => cases hab
    | cons q bs =>
      rw [le_cons_cons] at hab hba
      -- The first characters cannot differ in both directions.
      rcases hab with hpq | ⟨hpq, hab⟩ <;> rcases hba with hqp | ⟨hqp, hba⟩
      · omega
      · omega
      · omega
      · obtain ⟨v, hv⟩ := p
        obtain ⟨v', hv'⟩ := q
        cases hpq
        rw [ih hab hba]

end Text

namespace Entries

variable {α : Type}

/-! ### New keys -/

theorem put_of_notMem {key : Text} {entries : Entries α} (h : key ∉ keys entries) (value : α) :
    put key value entries = entries ++ [(key, value)] := by
  induction entries with
  | nil => rfl
  | cons p rest ih =>
    -- The walk passes the first pair, since its key is another one.
    simp only [keys_cons, List.mem_cons, not_or] at h
    obtain ⟨hne, hrest⟩ := h
    rw [put, if_neg (Ne.symm hne), ih hrest, List.cons_append]

@[simp] theorem keys_append (entries more : Entries α) :
    keys (entries ++ more) = keys entries ++ keys more :=
  List.map_append

theorem keys_put_of_notMem {key : Text} {entries : Entries α} (h : key ∉ keys entries)
    (value : α) : keys (put key value entries) = keys entries ++ [key] := by
  rw [put_of_notMem h, keys_append]
  rfl

/-- Pairs with new keys are added at the end. -/
theorem putAll_of_disjoint {pairs entries : Entries α} (hn : (keys pairs).Nodup)
    (hd : ∀ key ∈ keys pairs, key ∉ keys entries) : putAll pairs entries = entries ++ pairs := by
  induction pairs generalizing entries with
  | nil => exact (List.append_nil entries).symm
  | cons p rest ih =>
    rw [keys_cons, List.nodup_cons] at hn
    obtain ⟨hp, hrest⟩ := hn
    change putAll rest (put p.1 p.2 entries) = _
    rw [put_of_notMem (hd p.1 List.mem_cons_self), ih hrest]
    · rw [List.append_assoc, List.singleton_append]
    · -- The other keys are new behind the first one too, since no key comes twice.
      intro key hk hmem
      rw [keys_append] at hmem
      rcases List.mem_append.1 hmem with hmem | hmem
      · exact hd key (List.mem_cons_of_mem _ hk) hmem
      · have : key = p.1 := List.mem_singleton.1 hmem
        exact hp (this ▸ hk)

/-! ### Any keys -/

theorem keys_put_of_mem {key : Text} {entries : Entries α} (h : key ∈ keys entries) (value : α) :
    keys (put key value entries) = keys entries := by
  induction entries with
  | nil => cases h
  | cons p rest ih =>
    unfold put
    split
    · rfl
    · next hne =>
      have hrest : key ∈ keys rest := (List.mem_cons.1 h).resolve_left fun he => hne he.symm
      rw [keys_cons, keys_cons, ih hrest]

/-- Putting pairs does not move a key that is there, and adds the others in their order. -/
theorem keys_putAll {pairs entries : Entries α} (hn : (keys pairs).Nodup) :
    keys (putAll pairs entries) =
      keys entries ++ (keys pairs).filter fun key => key ∉ keys entries := by
  induction pairs generalizing entries with
  | nil => simp [putAll]
  | cons p rest ih =>
    rw [keys_cons, List.nodup_cons] at hn
    obtain ⟨hp, hrest⟩ := hn
    change keys (putAll rest (put p.1 p.2 entries)) = _
    rw [ih hrest, keys_cons]
    by_cases hmem : p.1 ∈ keys entries
    · rw [keys_put_of_mem hmem, List.filter_cons_of_neg (by simpa using hmem)]
    · -- The key goes to the end, and none of the remaining ones is the same.
      have hother : ∀ key ∈ keys rest, key ≠ p.1 := by
        rintro key hk rfl
        exact hp hk
      have hfilter : (keys rest).filter (fun key => key ∉ keys entries ++ [p.1]) =
          (keys rest).filter fun key => key ∉ keys entries :=
        List.filter_congr fun key hk => by simp [hother key hk]
      rw [keys_put_of_notMem hmem, hfilter, List.filter_cons_of_pos (by simpa using hmem),
        List.append_assoc, List.singleton_append]

/-- Entries of distinct keys stay such. -/
theorem nodup_keys_put {entries : Entries α} (hn : (keys entries).Nodup) (key : Text) (value : α) :
    (keys (put key value entries)).Nodup := by
  by_cases h : key ∈ keys entries
  · rwa [keys_put_of_mem h]
  · rw [keys_put_of_notMem h, List.nodup_append]
    refine ⟨hn, by simp, ?_⟩
    rintro a ha b hb rfl
    exact h (List.mem_singleton.1 hb ▸ ha)

theorem nodup_keys_ofList (pairs : List (Text × α)) : (keys (ofList pairs)).Nodup := by
  suffices h : ∀ entries : Entries α, (keys entries).Nodup → (keys (putAll pairs entries)).Nodup by
    exact h [] List.nodup_nil
  induction pairs with
  | nil => exact fun _ hn => hn
  | cons p rest ih => exact fun entries hn => ih _ (nodup_keys_put hn p.1 p.2)

theorem get?_putAll_of_notMem {key : Text} {pairs entries : Entries α} (h : key ∉ keys pairs) :
    get? key (putAll pairs entries) = get? key entries := by
  induction pairs generalizing entries with
  | nil => rfl
  | cons p rest ih =>
    rw [keys_cons, List.mem_cons, not_or] at h
    exact (ih h.2).trans (get?_put_of_ne h.1 p.2 entries)

theorem get?_putAll_of_mem {key : Text} {pairs entries : Entries α} (hn : (keys pairs).Nodup)
    (h : key ∈ keys pairs) : get? key (putAll pairs entries) = get? key pairs := by
  induction pairs generalizing entries with
  | nil => cases h
  | cons p rest ih =>
    rw [keys_cons, List.nodup_cons] at hn
    obtain ⟨hp, hrest⟩ := hn
    change get? key (putAll rest (put p.1 p.2 entries)) = get? key (p :: rest)
    rcases List.mem_cons.1 h with rfl | hk
    · -- No later pair has the key again.
      rw [get?_putAll_of_notMem hp, get?_put_self, get?, if_pos rfl]
    · have hne : p.1 ≠ key := by
        rintro rfl
        exact hp hk
      rw [ih hrest hk, get?, if_neg hne]

/-! ### One key -/

theorem put_put (key : Text) (value old : α) (entries : Entries α) :
    put key value (put key old entries) = put key value entries := by
  induction entries with
  | nil => simp [put]
  | cons p rest ih =>
    by_cases h : p.1 = key
    · simp [put, h]
    · simp [put, h, ih]

theorem put_of_get?_eq_some {key : Text} {value : α} {entries : Entries α}
    (h : get? key entries = some value) : put key value entries = entries := by
  induction entries with
  | nil => cases h
  | cons p rest ih =>
    unfold get? at h
    unfold put
    split at h
    · next hk =>
      cases h
      rw [if_pos hk]
    · next hk => rw [if_neg hk, ih h]

/-- To remove a key that was new takes back what was put. -/
theorem remove_put {key : Text} {entries : Entries α} (h : key ∉ keys entries) (value : α) :
    remove key (put key value entries) = entries := by
  have hothers : entries.filter (·.1 ≠ key) = entries := by
    refine List.filter_eq_self.2 fun p hp => decide_eq_true ?_
    rintro rfl
    exact h (List.mem_map.2 ⟨p, hp, rfl⟩)
  rw [put_of_notMem h, remove, List.filter_append, hothers]
  simp

/-! ### Values, and parts of entries -/

theorem get?_of_mem {key : Text} {value : α} {entries : Entries α} (hn : (keys entries).Nodup)
    (h : (key, value) ∈ entries) : get? key entries = some value := by
  induction entries with
  | nil => cases h
  | cons p rest ih =>
    rw [keys_cons, List.nodup_cons] at hn
    obtain ⟨hp, hrest⟩ := hn
    unfold get?
    rcases List.mem_cons.1 h with rfl | h
    · exact if_pos rfl
    · have hne : p.1 ≠ key := by
        intro he
        exact hp (he ▸ List.mem_map.2 ⟨_, h, rfl⟩)
      rw [if_neg hne, ih hrest h]

theorem get?_eq_some_iff {key : Text} {value : α} {entries : Entries α}
    (hn : (keys entries).Nodup) : get? key entries = some value ↔ (key, value) ∈ entries :=
  ⟨mem_of_get?, get?_of_mem hn⟩

theorem nodup_of_nodup_keys {entries : Entries α} (hn : (keys entries).Nodup) : entries.Nodup :=
  List.Pairwise.of_map _ (fun _ _ hne he => hne (congrArg Prod.fst he)) hn

/-- Entries of distinct keys with the same values are the same up to their order. -/
theorem perm_of_get?_eq {entries more : Entries α} (hn : (keys entries).Nodup)
    (hm : (keys more).Nodup) (h : ∀ key, get? key entries = get? key more) :
    entries.Perm more := by
  refine (List.perm_ext_iff_of_nodup (nodup_of_nodup_keys hn) (nodup_of_nodup_keys hm)).2
    fun p => ?_
  rw [← get?_eq_some_iff hn, ← get?_eq_some_iff hm, h]

theorem get?_eq_of_perm {entries more : Entries α} (hn : (keys entries).Nodup)
    (hp : entries.Perm more) (key : Text) : get? key entries = get? key more := by
  have hm : (keys more).Nodup := (hp.map _).nodup_iff.1 hn
  refine Option.ext fun value => ?_
  rw [get?_eq_some_iff hn, get?_eq_some_iff hm, hp.mem_iff]

theorem get?_map {β : Type} (f : α → β) (key : Text) (entries : Entries α) :
    get? key (entries.map fun p => (p.1, f p.2)) = (get? key entries).map f := by
  induction entries with
  | nil => rfl
  | cons p rest ih =>
    rw [List.map_cons, get?, get?]
    split
    · rfl
    · exact ih

theorem remove_map {β : Type} (f : α → β) (key : Text) (entries : Entries α) :
    remove key (entries.map fun p => (p.1, f p.2)) =
      (remove key entries).map fun p => (p.1, f p.2) := by
  rw [remove, List.filter_map]
  rfl

theorem remove_perm {entries more : Entries α} (hp : entries.Perm more) (key : Text) :
    (remove key entries).Perm (remove key more) :=
  hp.filter _

theorem nodup_keys_remove {entries : Entries α} (hn : (keys entries).Nodup) (key : Text) :
    (keys (remove key entries)).Nodup :=
  hn.sublist (List.filter_sublist.map _)

theorem mem_keys_remove {k key : Text} {entries : Entries α} :
    k ∈ keys (remove key entries) ↔ k ∈ keys entries ∧ k ≠ key := by
  constructor
  · intro h
    obtain ⟨p, hp, rfl⟩ := List.mem_map.1 h
    obtain ⟨hp, hk⟩ := List.mem_filter.1 hp
    exact ⟨List.mem_map.2 ⟨p, hp, rfl⟩, of_decide_eq_true hk⟩
  · rintro ⟨h, hk⟩
    obtain ⟨p, hp, rfl⟩ := List.mem_map.1 h
    exact List.mem_map.2 ⟨p, List.mem_filter.2 ⟨hp, decide_eq_true hk⟩, rfl⟩

/-! ### Pairs of which many have one key -/

theorem ofList_concat (pairs : List (Text × α)) (p : Text × α) :
    ofList (pairs ++ [p]) = put p.1 p.2 (ofList pairs) := by
  rw [ofList, ofList, putAll, putAll, List.foldl_append]
  rfl

/-- The keys stand where they are put first. -/
theorem keys_ofList (pairs : List (Text × α)) : keys (ofList pairs) = (keys pairs).eraseDups := by
  induction pairs using List.reverseRecOn with
  | nil => rfl
  | append_singleton pairs p ih =>
    rw [ofList_concat, keys_append, keys_cons, keys_nil]
    by_cases hp : p.1 ∈ keys pairs
    · have hold : [p.1] ⊆ keys pairs := fun key hkey => List.mem_singleton.1 hkey ▸ hp
      rw [keys_put_of_mem (by rwa [ih, List.mem_eraseDups]), ih,
        eraseDups_append_of_subset hold]
    · rw [keys_put_of_notMem (by rwa [ih, List.mem_eraseDups]), ih, eraseDups_concat_of_notMem hp]

/-- A key has the value that is put last. -/
theorem exists_last_of_mem_ofList {pairs : List (Text × α)} {key : Text} {value : α}
    (h : (key, value) ∈ ofList pairs) :
    ∃ front back, pairs = front ++ (key, value) :: back ∧ ∀ p ∈ back, p.1 ≠ key := by
  induction pairs using List.reverseRecOn with
  | nil => cases h
  | append_singleton pairs p ih =>
    rw [ofList_concat] at h
    have hget := get?_of_mem (nodup_keys_put (nodup_keys_ofList pairs) p.1 p.2) h
    by_cases hp : key = p.1
    · subst hp
      rw [get?_put_self] at hget
      cases hget
      exact ⟨pairs, [], rfl, nofun⟩
    · -- The last pair has another key, so the value was there before.
      rw [get?_put_of_ne hp] at hget
      obtain ⟨front, back, rfl, hback⟩ := ih (mem_of_get? hget)
      refine ⟨front, back ++ [p], by simp, ?_⟩
      intro q hq
      rcases List.mem_append.1 hq with hq | hq
      · exact hback q hq
      · rw [List.mem_singleton.1 hq]
        exact Ne.symm hp

/-! ### Sorting -/

theorem sorted_perm (entries : Entries α) : entries.sorted.Perm entries :=
  List.mergeSort_perm _ _

theorem pairwise_sorted (entries : Entries α) :
    entries.sorted.Pairwise fun p q => p.1.le q.1 = true := by
  refine List.pairwise_mergeSort ?_ ?_ entries
  · intro p q r
    exact Text.le_trans
  · intro p q
    exact Text.le_total p.1 q.1

/-- Entries of distinct keys are in strictly ascending order after sorting. -/
theorem pairwise_sorted_of_nodup {entries : Entries α} (hn : (keys entries).Nodup) :
    entries.sorted.Pairwise fun p q => p.1.le q.1 = true ∧ p.1 ≠ q.1 := by
  have hkeys : (keys entries.sorted).Nodup := ((sorted_perm entries).map _).nodup_iff.2 hn
  exact (pairwise_sorted entries).and (List.Pairwise.of_map _ (fun _ _ h => h) hkeys)

/-- Entries of distinct keys have one ascending order. -/
theorem sorted_eq_of_perm {entries more : Entries α} (hn : (keys entries).Nodup)
    (hp : entries.Perm more) : entries.sorted = more.sorted := by
  have hperm : entries.sorted.Perm more.sorted :=
    (sorted_perm entries).trans (hp.trans (sorted_perm more).symm)
  refine List.Perm.eq_of_pairwise (fun p q hp hq hpq hqp => ?_) (pairwise_sorted entries)
    (pairwise_sorted more) hperm
  -- Two entries of one key are the same one.
  have hkey : p.1 = q.1 := Text.le_antisymm hpq hqp
  have hp : get? p.1 entries = some p.2 := get?_of_mem hn ((sorted_perm entries).mem_iff.1 hp)
  have hq : get? q.1 entries = some q.2 :=
    get?_of_mem hn ((sorted_perm entries).mem_iff.1 (hperm.mem_iff.2 hq))
  rw [hkey, hq] at hp
  exact Prod.ext hkey (Option.some.inj hp).symm

end Entries

end DeclSchema
