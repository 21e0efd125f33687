import DeclSchema.Proofs.Entries
import DeclSchema.Options

/-!
# Options from an object

An object of options gives values to some options; the others have their defaults, and a key that
stands for nothing has no effect. Only the policy for empty unions is checked. So the object in
which options are listed gives these options back.

Five keys are no options and have an effect all the same, for they stand for what options have
beside their values: a value can take the place of the check, of the listing, or of everything that
is set, and there are two things that no value can take the place of.

## Main definitions

* `Options.reserved`: the keys that have an effect and are no options
* `Options.slots`: the keys that stand for something
* `Options.given?`, `Options.overridden`: the values that an object gives to options, and the
  options that have these values and the defaults
* `Options.IsComplete`: options that all have values of their own
* `Options.NamesPolicy`: the values that the check accepts
* `Options.obstacle?`: the fault of an entry that cannot be put

## Main results

* `Options.foldlM_step`: what entries make of the defaults
* `Options.check_eq_ok_iff`, `Options.check_eq_error_iff`: what the check accepts
* `Options.ofObject_settles`: what becomes of an object of options
-/

namespace DeclSchema

namespace Options

/-! ### Keys -/

/-- The keys of options. -/
def optionKeys : List Text :=
  Key.all.map fun key => .ofString key.label

/-- The key for everything that is set. -/
def wholeKey : Text := .ofString "__dict__"

/-- The keys for everything that is set and for what no value can take the place of. -/
def rigid : List Text :=
  [wholeKey, .ofString "__class__", .ofString "__weakref__"]

/-- The keys that have an effect in an object of options and are no options. -/
def reserved : List Text :=
  Duty.all.map (fun d => .ofString d.label) ++ rigid

/-- The keys that stand for something, with what they stand for. -/
def slots : List (Text × Slot) :=
  Key.all.map (fun key => (.ofString key.label, .option key)) ++
    (Duty.all.map (fun d => (.ofString d.label, .duty d)) ++
      [(wholeKey, .whole), (.ofString "__class__", .sort), (.ofString "__weakref__", .holders)])

theorem Key.mem_all (key : Key) : key ∈ all := by
  cases key <;> decide

theorem Duty.mem_all (d : Duty) : d ∈ all := by
  cases d <;> decide

theorem Slot.ofText?_of_mem : ∀ p ∈ slots, Slot.ofText? p.1 = some p.2 := by
  decide +kernel

theorem Slot.ofText?_label (key : Key) :
    Slot.ofText? (.ofString key.label) = some (.option key) :=
  ofText?_of_mem _ (List.mem_append_left _ (List.mem_map.2 ⟨key, key.mem_all, rfl⟩))

theorem Slot.ofText?_dutyLabel (d : Duty) : Slot.ofText? (.ofString d.label) = some (.duty d) :=
  ofText?_of_mem _ (List.mem_append_right _
    (List.mem_append_left _ (List.mem_map.2 ⟨d, d.mem_all, rfl⟩)))

theorem Slot.ofText?_wholeKey : Slot.ofText? wholeKey = some .whole :=
  ofText?_of_mem (wholeKey, .whole) (by simp [slots])

theorem Slot.ofText?_sortKey : Slot.ofText? (.ofString "__class__") = some .sort :=
  ofText?_of_mem (.ofString "__class__", .sort) (by simp [slots])

theorem Slot.ofText?_holdersKey : Slot.ofText? (.ofString "__weakref__") = some .holders :=
  ofText?_of_mem (.ofString "__weakref__", .holders) (by simp [slots])

theorem Slot.key_of_option {t : Text} {key : Key} (h : Slot.ofText? t = some (.option key)) :
    Key.ofText? t = some key := by
  unfold Slot.ofText? at h
  repeat' split at h
  all_goals simp_all

theorem Slot.duty_of_duty {t : Text} {d : Duty} (h : Slot.ofText? t = some (.duty d)) :
    Key.ofText? t = none ∧ Duty.ofText? t = some d := by
  unfold Slot.ofText? at h
  repeat' split at h
  all_goals simp_all

theorem Key.ofText?_label (key : Key) : Key.ofText? (.ofString key.label) = some key :=
  Slot.key_of_option (Slot.ofText?_label key)

theorem Key.eq_label {t : Text} {key : Key} (h : Key.ofText? t = some key) :
    t = .ofString key.label :=
  (of_decide_eq_true (List.find?_some h :)).symm

theorem Key.label_inj {k key : Key} (h : Text.ofString k.label = .ofString key.label) :
    k = key := by
  have hk := Key.ofText?_label k
  rw [h, Key.ofText?_label] at hk
  exact (Option.some.inj hk).symm

theorem Duty.ofText?_label (d : Duty) :
    Key.ofText? (.ofString d.label) = none ∧ Duty.ofText? (.ofString d.label) = some d :=
  Slot.duty_of_duty (Slot.ofText?_dutyLabel d)

theorem Duty.eq_label {t : Text} {d : Duty} (h : Duty.ofText? t = some d) :
    t = .ofString d.label :=
  (of_decide_eq_true (List.find?_some h :)).symm

theorem Slot.ofText?_of_key {t : Text} {key : Key} (h : Key.ofText? t = some key) :
    Slot.ofText? t = some (.option key) := by
  rw [Key.eq_label h, Slot.ofText?_label]

theorem Slot.ofText?_of_duty {t : Text} {d : Duty} (h : Duty.ofText? t = some d) :
    Slot.ofText? t = some (.duty d) := by
  rw [Duty.eq_label h, Slot.ofText?_dutyLabel]

theorem Slot.ofText?_eq_none {t : Text} (hrigid : t ∉ rigid) (hkey : Key.ofText? t = none)
    (hduty : Duty.ofText? t = none) : Slot.ofText? t = none := by
  simp only [rigid, wholeKey, List.mem_cons, List.not_mem_nil, or_false, not_or] at hrigid
  simp only [Slot.ofText?, hrigid, if_false, hkey, hduty]

/-- A rigid key stands for something that is neither an option nor a duty. -/
theorem Slot.isSome_of_mem_rigid {t : Text} (h : t ∈ rigid) :
    (Slot.ofText? t).isSome ∧ ∀ key, Slot.ofText? t ≠ some (.option key) := by
  simp only [rigid, List.mem_cons, List.not_mem_nil, or_false] at h
  obtain rfl | rfl | rfl := h
  · simp [ofText?_wholeKey]
  · simp [ofText?_sortKey]
  · simp [ofText?_holdersKey]

/-- The keys of options are not reserved. -/
theorem notMem_reserved : ∀ t ∈ optionKeys, t ∉ reserved := by
  intro t ht hreserved
  obtain ⟨key, -, rfl⟩ := List.mem_map.1 ht
  obtain hduty | hrigid := List.mem_append.1 hreserved
  · obtain ⟨d, -, hd⟩ := List.mem_map.1 hduty
    have hkey := (Duty.ofText?_label d).1
    rw [hd, Key.ofText?_label] at hkey
    cases hkey
  · exact (Slot.isSome_of_mem_rigid hrigid).2 key (Slot.ofText?_label key)

theorem Key.isSome_ofText?_iff {t : Text} : (Key.ofText? t).isSome ↔ t ∈ optionKeys := by
  constructor
  · intro h
    obtain ⟨key, hkey⟩ := Option.isSome_iff_exists.1 h
    exact List.mem_map.2 ⟨key, key.mem_all, (Key.eq_label hkey).symm⟩
  · intro h
    obtain ⟨key, -, rfl⟩ := List.mem_map.1 h
    rw [Key.ofText?_label]
    rfl

theorem Duty.isSome_ofText?_iff {t : Text} :
    (Duty.ofText? t).isSome ↔ t ∈ Duty.all.map fun d => Text.ofString d.label := by
  constructor
  · intro h
    obtain ⟨d, hd⟩ := Option.isSome_iff_exists.1 h
    exact List.mem_map.2 ⟨d, d.mem_all, (Duty.eq_label hd).symm⟩
  · intro h
    obtain ⟨d, -, rfl⟩ := List.mem_map.1 h
    rw [(Duty.ofText?_label d).2]
    rfl

/-- A key stands for something if it is that of an option or a reserved one. -/
theorem Slot.isSome_ofText?_iff {t : Text} :
    (Slot.ofText? t).isSome ↔ t ∈ optionKeys ++ reserved := by
  rw [reserved, List.mem_append, List.mem_append, ← Key.isSome_ofText?_iff,
    ← Duty.isSome_ofText?_iff]
  constructor
  · intro h
    by_cases hrigid : t ∈ rigid
    · exact .inr (.inr hrigid)
    -- Beside the rigid keys only those of options and duties are looked up.
    · refine Decidable.by_contra fun hnone => ?_
      simp only [not_or, Option.not_isSome_iff_eq_none] at hnone
      rw [Slot.ofText?_eq_none hrigid hnone.1 hnone.2.1] at h
      cases h
  · rintro (h | h | h)
    · obtain ⟨key, hkey⟩ := Option.isSome_iff_exists.1 h
      rw [Slot.ofText?_of_key hkey]
      rfl
    · obtain ⟨d, hd⟩ := Option.isSome_iff_exists.1 h
      rw [Slot.ofText?_of_duty hd]
      rfl
    · exact (Slot.isSome_of_mem_rigid h).1

/-! ### Values and defaults -/

/-- The value that an object gives to an option, which is the last one if there are several. -/
def given? (fields : List (Text × Json)) (key : Key) : Option Json :=
  Entries.get? (.ofString key.label) (Entries.ofList fields)

/-- The default options, overridden by the values that an object gives. A value that it gives for a
duty takes the place of that duty. -/
def overridden (fields : List (Text × Json)) : Options where
  own? key := some ((given? fields key).getD (default key))
  displaced := (fields.filterMap fun f => Duty.ofText? f.1).reverse

/-- All options have values of their own. -/
def IsComplete (o : Options) : Prop :=
  ∀ key, (o.own? key).isSome

theorem isComplete_overridden (fields : List (Text × Json)) : (overridden fields).IsComplete :=
  fun _ => rfl

theorem IsComplete.has {o : Options} (h : o.IsComplete) (key : Key) : o.has key = true := by
  rw [Options.has, h key, Bool.or_true]

theorem given?_concat (fields : List (Text × Json)) (f : Text × Json) (key : Key) :
    given? (fields ++ [f]) key =
      if f.1 = .ofString key.label then some f.2 else given? fields key := by
  rw [given?, Entries.ofList_concat]
  split
  · next h => rw [h, Entries.get?_put_self]
  · next h => rw [Entries.get?_put_of_ne (Ne.symm h)]; rfl

section Overridden

variable {fields : List (Text × Json)} {f : Text × Json}

theorem overridden_concat_of_key {key : Key} (h : Key.ofText? f.1 = some key) :
    overridden (fields ++ [f]) = (overridden fields).set key f.2 := by
  have hduty : Duty.ofText? f.1 = none := by
    refine Option.eq_none_iff_forall_ne_some.2 fun d hd => ?_
    rw [Duty.eq_label hd, (Duty.ofText?_label d).1] at h
    cases h
  simp only [overridden, Options.set, Options.mk.injEq, List.filterMap_append,
    List.filterMap_cons, hduty, List.filterMap_nil, List.append_nil, and_true]
  funext k
  rw [given?_concat, Key.eq_label h]
  by_cases hk : k = key
  · subst hk
    simp
  · rw [if_neg fun hlabel => hk (Key.label_inj hlabel).symm, if_neg hk]

theorem overridden_concat_of_none (h : Key.ofText? f.1 = none) :
    overridden (fields ++ [f]) = { overridden fields with
      displaced := (Duty.ofText? f.1).toList ++ (overridden fields).displaced } := by
  have hvalues (key : Key) : given? (fields ++ [f]) key = given? fields key := by
    rw [given?_concat, if_neg]
    rintro hlabel
    rw [hlabel, Key.ofText?_label] at h
    cases h
  simp only [overridden, hvalues, Options.mk.injEq, List.filterMap_append, List.reverse_append,
    true_and]
  cases hd : Duty.ofText? f.1 <;> simp [hd]

end Overridden

/-! ### Entries that are put -/

section Step

variable {o : Options} {fields : List (Text × Json)} {f : Text × Json}

/-- Where all options have values, an entry for one is put in any case. -/
theorem putField_eq_renew (ho : o.IsComplete) (f : Text × Json) : o.putField f = o.renew f := by
  unfold renew
  split
  · next key hslot =>
    rw [if_pos (ho.has key), putField, hslot]
    rfl
  · rfl

theorem renew_overridden (h : f.1 ∉ rigid) :
    (overridden fields).renew f = .ok (overridden (fields ++ [f])) := by
  rw [← putField_eq_renew (isComplete_overridden fields)]
  cases hkey : Key.ofText? f.1 with
  | some key =>
    rw [putField, Slot.ofText?_of_key hkey, overridden_concat_of_key hkey]
    rfl
  | none =>
    rw [overridden_concat_of_none hkey]
    cases hduty : Duty.ofText? f.1 with
    | some d =>
      rw [putField, Slot.ofText?_of_duty hduty]
      rfl
    | none =>
      rw [putField, Slot.ofText?_eq_none h hkey hduty]
      rfl

/-- What entries make of the defaults, whether only options are admitted as keys or not. -/
theorem foldlM_step {step : Options → Text × Json → Except Fault Options}
    (hstep : ∀ o f, o.IsComplete → step o f = o.renew f) (h : ∀ f ∈ fields, f.1 ∉ rigid) :
    fields.foldlM step defaults = .ok (overridden fields) := by
  -- Induction from the end: the last value that is given counts.
  induction fields using List.reverseRecOn with
  | nil => rfl
  | append_singleton fields f ih =>
    rw [List.forall_mem_append] at h
    rw [List.foldlM_append, ih h.1]
    change ([f].foldlM step (overridden fields)) = _
    rw [List.foldlM_cons, hstep _ _ (isComplete_overridden fields),
      renew_overridden (h.2 f (List.mem_singleton_self f))]
    rfl

/-- An entry whose key stands for nothing is not put. -/
theorem foldlM_filter (o : Options) (fields : List (Text × Json)) :
    (fields.filter fun f => (Slot.ofText? f.1).isSome).foldlM renew o = fields.foldlM renew o := by
  induction fields generalizing o with
  | nil => rfl
  | cons f fields ih =>
    cases hslot : Slot.ofText? f.1 with
    | some slot =>
      rw [List.filter_cons_of_pos (by simp [hslot]), List.foldlM_cons, List.foldlM_cons]
      exact congrArg _ (funext fun o => ih o)
    | none =>
      have hskip : o.renew f = .ok o := by simp only [renew, putField, hslot]
      rw [List.filter_cons_of_neg (by simp [hslot]), List.foldlM_cons, hskip]
      exact ih o

end Step

/-! ### The check -/

/-- The policies for empty unions. -/
def policies : List Text :=
  ["error", "any", "empty"].map .ofString

def NamesPolicy (value : Json) : Prop :=
  ∃ t ∈ policies, value = .text t

theorem unionPolicy?_eq_none_iff {o : Options} :
    o.unionPolicy? = none ↔ ¬ NamesPolicy (o.get .emptyUnion) := by
  have hpolicies (t : Text) : t ∈ policies ↔
      t = .ofString "error" ∨ t = .ofString "any" ∨ t = .ofString "empty" := by
    simp [policies]
  unfold unionPolicy? NamesPolicy
  cases o.get .emptyUnion
  case text t =>
    simp only [Json.text.injEq, exists_eq_right', hpolicies]
    grind
  all_goals simp

theorem check_eq_ok_iff {o : Options} (h : .check ∉ o.displaced) :
    o.check = .ok () ↔ NamesPolicy (o.get .emptyUnion) := by
  rw [check, if_neg h]
  cases hp : o.unionPolicy? with
  | none => simp [unionPolicy?_eq_none_iff.1 hp]
  | some policy =>
    simp only [true_iff]
    refine Classical.not_not.1 fun hnone => ?_
    rw [unionPolicy?_eq_none_iff.2 hnone] at hp
    cases hp

theorem check_eq_error_iff {o : Options} (h : .check ∉ o.displaced) {fault : Fault} :
    o.check = .error fault ↔
      ¬ NamesPolicy (o.get .emptyUnion) ∧ fault = .unknownPolicy (o.get .emptyUnion).quoted := by
  rw [← check_eq_ok_iff h, check, if_neg h]
  cases o.unionPolicy? <;> simp [eq_comm]

/-! ### Objects of options -/

section Objects

variable {o : Options} {fields : List (Text × Json)} {fault : Fault}

theorem get_overridden (fields : List (Text × Json)) (key : Key) :
    (overridden fields).get key = (given? fields key).getD (default key) :=
  rfl

theorem ofObject_eq_check (h : ∀ f ∈ fields, f.1 ∉ rigid) :
    ofObject (.object fields) = (overridden fields).check >>= fun _ => .ok (overridden fields) := by
  rw [ofObject, foldlM_step (fun _ _ _ => rfl) h]
  rfl

theorem ofFields_eq_check (h : ∀ f ∈ fields, f.1 ∈ optionKeys) :
    ofFields (.object fields) = (overridden fields).check >>= fun _ => .ok (overridden fields) := by
  have hall : fields.all (fun f => (Key.ofText? f.1).isSome) = true :=
    List.all_eq_true.2 fun f hf => Key.isSome_ofText?_iff.2 (h f hf)
  have hrigid : ∀ f ∈ fields, f.1 ∉ rigid := fun f hf hmem =>
    notMem_reserved _ (h f hf) (List.mem_append_right _ hmem)
  rw [ofFields, if_pos hall, putFields, foldlM_step (fun _ f ho => putField_eq_renew ho f) hrigid]
  rfl

/-- An entry that is for no option changes no value. -/
theorem overridden_filter (fields : List (Text × Json)) :
    overridden (fields.filter fun f => f.1 ∈ optionKeys) =
      { overridden fields with displaced := [] } := by
  induction fields using List.reverseRecOn with
  | nil => rfl
  | append_singleton fields f ih =>
    rw [List.filter_append]
    cases hkey : Key.ofText? f.1 with
    | some key =>
      have hmem : f.1 ∈ optionKeys := Key.isSome_ofText?_iff.1 (by simp [hkey])
      rw [List.filter_cons_of_pos (by simpa using hmem), List.filter_nil,
        overridden_concat_of_key hkey, ih, overridden_concat_of_key hkey]
      rfl
    | none =>
      have hmem : f.1 ∉ optionKeys := by rw [← Key.isSome_ofText?_iff, hkey]; exact nofun
      rw [List.filter_cons_of_neg (by simpa using hmem), List.filter_nil, List.append_nil, ih,
        overridden_concat_of_none hkey]

theorem mem_displaced_iff {d : Duty} :
    d ∈ (overridden fields).displaced ↔ .ofString d.label ∈ Entries.keys fields := by
  simp only [overridden, List.mem_reverse, List.mem_filterMap]
  constructor
  · rintro ⟨f, hf, hd⟩
    exact List.mem_map.2 ⟨f, hf, Duty.eq_label hd⟩
  · intro h
    obtain ⟨f, hf, hlabel⟩ := List.mem_map.1 h
    refine ⟨f, hf, ?_⟩
    rw [hlabel, (Duty.ofText?_label d).2]

theorem displaced_eq_nil (h : ∀ f ∈ fields, f.1 ∉ reserved) :
    (overridden fields).displaced = [] := by
  refine List.eq_nil_iff_forall_not_mem.2 fun d hd => ?_
  obtain ⟨f, hf, hlabel⟩ := List.mem_map.1 (mem_displaced_iff.1 hd)
  exact h f hf (List.mem_append_left _ (List.mem_map.2 ⟨d, d.mem_all, hlabel.symm⟩))

/-- All options are listed where they have values and nothing is in the place of the listing. -/
theorem listing_eq_ok (ho : o.IsComplete) (h : .listing ∉ o.displaced) :
    o.listing = .ok (.object o.fields) := by
  rw [listing, if_neg h, if_pos (List.all_eq_true.2 fun key _ => ho.has key)]

/-- Options that have values of their own are those that their listing gives. -/
theorem overridden_fields (ho : o.IsComplete) (h : o.displaced = []) : overridden o.fields = o := by
  have hnodup : (Entries.keys o.fields).Nodup := by
    have hkeys : Entries.keys o.fields = optionKeys := by
      rw [Entries.keys, Options.fields, List.map_map]
      rfl
    rw [hkeys, optionKeys]
    have hall : Key.all.Nodup := by decide
    exact List.pairwise_map.2 (hall.imp fun hne hlabel => hne (Key.label_inj hlabel))
  -- Each key is listed once, so the value that counts is the one in the list.
  have hgiven (key : Key) : given? o.fields key = some (o.get key) := by
    have hlist : Entries.ofList o.fields = o.fields :=
      (Entries.putAll_of_disjoint hnodup fun _ _ => List.not_mem_nil).trans (List.nil_append _)
    rw [given?, hlist]
    exact Entries.get?_of_mem hnodup (List.mem_map.2 ⟨key, key.mem_all, rfl⟩)
  have hduties : (overridden o.fields).displaced = [] := by
    refine displaced_eq_nil fun f hf => ?_
    obtain ⟨key, hkey, rfl⟩ := List.mem_map.1 hf
    exact notMem_reserved _ (List.mem_map.2 ⟨key, hkey, rfl⟩)
  cases o with
  | mk own? displaced =>
    cases h
    rw [Options.mk.injEq]
    refine ⟨funext fun key => ?_, hduties⟩
    obtain ⟨value, hvalue⟩ := Option.isSome_iff_exists.1 (ho key)
    change some ((given? _ key).getD (default key)) = own? key
    rw [hgiven, Option.getD_some, Options.get, hvalue, Option.getD_some]
    exact hvalue.symm

/-- Entries whose keys stand for nothing have no effect. -/
theorem ofObject_filter (fields : List (Text × Json)) :
    ofObject (.object (fields.filter fun f => f.1 ∈ optionKeys ++ reserved)) =
      ofObject (.object fields) := by
  have hstands : (fun f : Text × Json => decide (f.1 ∈ optionKeys ++ reserved)) =
      fun f => (Slot.ofText? f.1).isSome := by
    funext f
    rw [Bool.eq_iff_iff, decide_eq_true_iff, Slot.isSome_ofText?_iff]
  rw [hstands, ofObject, ofObject, foldlM_filter]

section Plain

variable (h : ∀ f ∈ fields, f.1 ∉ reserved)

include h

theorem notMem_rigid : ∀ f ∈ fields, f.1 ∉ rigid :=
  fun f hf hmem => h f hf (List.mem_append_right _ hmem)

/-- Without reserved keys, an object gives the options that its entries for options give where no
other keys are admitted. -/
theorem ofObject_eq_ofFields :
    ofObject (.object fields) = ofFields (.object (fields.filter fun f => f.1 ∈ optionKeys)) := by
  have hgives : overridden (fields.filter fun f => f.1 ∈ optionKeys) = overridden fields := by
    rw [overridden_filter, ← displaced_eq_nil h]
  rw [ofObject_eq_check (notMem_rigid h),
    ofFields_eq_check fun f hf => of_decide_eq_true (List.mem_filter.1 hf).2, hgives]

theorem ofObject_eq_error_iff :
    ofObject (.object fields) = .error fault ↔
      ∃ v, given? fields .emptyUnion = some v ∧ ¬ NamesPolicy v ∧
        fault = .unknownPolicy v.quoted := by
  have hdefault : NamesPolicy (default .emptyUnion) := ⟨_, List.mem_cons_self, rfl⟩
  have hcheck : ofObject (.object fields) = .error fault ↔
      (overridden fields).check = .error fault := by
    rw [ofObject_eq_check (notMem_rigid h)]
    cases (overridden fields).check <;> simp [bind, Except.bind]
  rw [hcheck, check_eq_error_iff (by simp [displaced_eq_nil h]), get_overridden]
  cases given? fields .emptyUnion <;> simp [hdefault]

theorem eq_overridden_of_ofObject (ho : ofObject (.object fields) = .ok o) :
    o = overridden fields ∧ o.IsComplete ∧ o.displaced = [] := by
  rw [ofObject_eq_check (notMem_rigid h)] at ho
  obtain ⟨-, -, ho⟩ := exists_of_bind_eq_ok ho
  cases ho
  exact ⟨rfl, isComplete_overridden fields, displaced_eq_nil h⟩

end Plain

/-- Options that all have values of their own and pass the check are read from their listing. -/
theorem ofObject_fields (ho : o.IsComplete) (hdisplaced : o.displaced = [])
    (hcheck : o.check = .ok ()) : ofObject (.object o.fields) = .ok o := by
  have hkeys : ∀ f ∈ o.fields, f.1 ∉ rigid := by
    intro f hf hmem
    obtain ⟨key, hkey, rfl⟩ := List.mem_map.1 hf
    exact notMem_reserved _ (List.mem_map.2 ⟨key, hkey, rfl⟩) (List.mem_append_right _ hmem)
  rw [ofObject_eq_check hkeys, overridden_fields ho hdisplaced, hcheck]
  rfl

end Objects

/-! ### Reserved keys -/

section Reserved

variable {fields : List (Text × Json)} {f : Text × Json} {fault : Fault}

/-- The fault of an entry that can be put into no options. -/
def obstacle? (f : Text × Json) : Option Fault :=
  if f.1 = wholeKey then
    match f.2 with
    | .object _ => none
    | _ => some .mistypedOption
  else if f.1 = .ofString "__class__" then some .mistypedOption
  else if f.1 = .ofString "__weakref__" then some .fixedOption
  else none

theorem renew_of_obstacle (o : Options) (h : obstacle? f = some fault) :
    o.renew f = .error fault := by
  obtain ⟨t, v⟩ := f
  unfold obstacle? at h
  split at h
  · next ht =>
    obtain rfl : t = wholeKey := ht
    simp only [renew, putField, Slot.ofText?_wholeKey]
    cases v <;> cases h <;> rfl
  split at h
  · next ht =>
    obtain rfl : t = .ofString "__class__" := ht
    simp only [renew, putField, Slot.ofText?_sortKey]
    cases h
    rfl
  split at h
  · next ht =>
    obtain rfl : t = .ofString "__weakref__" := ht
    simp only [renew, putField, Slot.ofText?_holdersKey]
    cases h
    rfl
  · cases h

theorem exists_renew (o : Options) (h : obstacle? f = none) : ∃ o', o.renew f = .ok o' := by
  obtain ⟨t, v⟩ := f
  by_cases hwhole : t = wholeKey
  · subst hwhole
    cases v with
    | object whole =>
      exact ⟨ofWhole whole, by simp only [renew, putField, Slot.ofText?_wholeKey]; rfl⟩
    | _ => cases h
  -- Of the rigid keys only that of the whole passes, and it was dealt with above.
  · have hrigid : t ∉ rigid := by
      unfold obstacle? at h
      rw [if_neg hwhole] at h
      simp only [rigid, List.mem_cons, List.not_mem_nil, or_false, not_or]
      refine ⟨hwhole, fun hsort => ?_, fun hholders => ?_⟩
      · rw [if_pos hsort] at h
        cases h
      · split at h
        · cases h
        · cases h
    cases hkey : Key.ofText? t with
    | some key =>
      simp only [renew, Slot.ofText?_of_key hkey]
      exact ⟨_, rfl⟩
    | none =>
      cases hduty : Duty.ofText? t with
      | some d =>
        simp only [renew, putField, Slot.ofText?_of_duty hduty]
        exact ⟨_, rfl⟩
      | none =>
        simp only [renew, putField, Slot.ofText?_eq_none hrigid hkey hduty]
        exact ⟨_, rfl⟩

theorem foldlM_renew_of_obstacle (o : Options) (h : fields.findSome? obstacle? = some fault) :
    fields.foldlM renew o = .error fault := by
  induction fields generalizing o with
  | nil => cases h
  | cons f fields ih =>
    rw [List.foldlM_cons]
    rw [List.findSome?_cons] at h
    cases hf : obstacle? f with
    | some _ =>
      rw [hf] at h
      cases h
      rw [renew_of_obstacle o hf]
      rfl
    | none =>
      rw [hf] at h
      -- What comes before the first obstacle can be put, with whatever effect on the options.
      obtain ⟨o', ho'⟩ := exists_renew o hf
      rw [ho']
      exact ih o' h

theorem exists_foldlM_renew (o : Options) (h : fields.findSome? obstacle? = none) :
    ∃ o', fields.foldlM renew o = .ok o' := by
  induction fields generalizing o with
  | nil => exact ⟨o, rfl⟩
  | cons f fields ih =>
    rw [List.findSome?_eq_none_iff, List.forall_mem_cons] at h
    obtain ⟨o', ho'⟩ := exists_renew o h.1
    rw [List.foldlM_cons, ho']
    exact ih o' (List.findSome?_eq_none_iff.2 h.2)

/-- The first entry that can be put into no options is the fault. -/
theorem ofObject_of_obstacle (h : fields.findSome? obstacle? = some fault) :
    ofObject (.object fields) = .error fault := by
  rw [ofObject, foldlM_renew_of_obstacle defaults h]
  rfl

/-- An object in the place of everything that is set undoes what stands before it. -/
theorem ofObject_whole {front back whole : List (Text × Json)}
    (h : front.findSome? obstacle? = none) :
    ofObject (.object (front ++ (wholeKey, .object whole) :: back)) =
      ofObject (.object ((wholeKey, .object whole) :: back)) := by
  have hwhole (o : Options) : o.renew (wholeKey, .object whole) = .ok (ofWhole whole) := by
    simp only [renew, putField, Slot.ofText?_wholeKey]
    rfl
  obtain ⟨o, ho⟩ := exists_foldlM_renew defaults h
  rw [ofObject, ofObject, List.foldlM_append, ho, List.foldlM_cons, hwhole]
  change (do
    let o ← (o.renew (wholeKey, .object whole) >>= fun o => back.foldlM renew o)
    o.check
    return o) = _
  rw [hwhole]

/-- A value in the place of the check cannot be called. -/
theorem ofObject_of_check (h : ∀ f ∈ fields, f.1 ∉ rigid)
    (hcheck : .ofString Duty.check.label ∈ Entries.keys fields) :
    ofObject (.object fields) = .error .mistypedOption := by
  rw [ofObject_eq_check h, check, if_pos (mem_displaced_iff.2 hcheck)]
  rfl

/-- A value in the place of the listing changes nothing but that the options cannot be listed. -/
theorem ofObject_of_listing (h : ∀ f ∈ fields, f.1 ∉ rigid)
    (hcheck : .ofString Duty.check.label ∉ Entries.keys fields)
    (hlisting : .ofString Duty.listing.label ∈ Entries.keys fields) {o : Options}
    (ho : ofObject (.object fields) = .ok o) :
    ofObject (.object (fields.filter fun f => f.1 ∈ optionKeys)) = .ok { o with displaced := [] } ∧
      o.listing = .error .mistypedOption := by
  rw [ofObject_eq_check h] at ho
  obtain ⟨⟨⟩, hok, ho⟩ := exists_of_bind_eq_ok ho
  cases ho
  rw [check_eq_ok_iff fun hd => hcheck (mem_displaced_iff.1 hd)] at hok
  constructor
  -- Without the reserved keys the same options are put, and the check passes as before.
  · have hkeys : ∀ f ∈ fields.filter (fun f => f.1 ∈ optionKeys), f.1 ∉ rigid :=
      fun f hf => h f (List.mem_filter.1 hf).1
    have hplain : ({ overridden fields with displaced := [] } : Options).check = .ok () :=
      (check_eq_ok_iff List.not_mem_nil).2 hok
    rw [ofObject_eq_check hkeys, overridden_filter, hplain]
    rfl
  · rw [listing, if_pos (mem_displaced_iff.2 hlisting)]

end Reserved

/-! ### What becomes of an object of options -/

/-- **What becomes of an object of options.** Keys that stand for nothing have no effect. Without
reserved keys, an object gives the options that its entries for options give as the only ones; it is
refused just where it gives a value that names no policy, and otherwise all options have the values
that it gives, or else their defaults. Options are read from their listing again.

Reserved keys are no options, and they do have an effect. What cannot be put is a fault, and an
object can undo what stands before it. A value in the place of the check is a fault, and one in the
place of the listing leaves options that cannot be listed. -/
theorem ofObject_settles (fields : List (Text × Json)) :
    ofObject (.object (fields.filter fun f => f.1 ∈ optionKeys ++ reserved)) =
      ofObject (.object fields) ∧
    ((∀ f ∈ fields, f.1 ∉ reserved) →
      ofObject (.object fields) = ofFields (.object (fields.filter fun f => f.1 ∈ optionKeys)) ∧
      (∀ fault, ofObject (.object fields) = .error fault ↔
        ∃ v, given? fields .emptyUnion = some v ∧ ¬ NamesPolicy v ∧
          fault = .unknownPolicy v.quoted) ∧
      ∀ o, ofObject (.object fields) = .ok o →
        o.IsComplete ∧ o.displaced = [] ∧ o.check = .ok () ∧
          o.listing = .ok (.object (Key.all.map fun key =>
            (.ofString key.label, (given? fields key).getD (default key))))) ∧
    (∀ o : Options, o.IsComplete → o.displaced = [] → o.check = .ok () →
      ∃ values, o.listing = .ok values ∧ ofObject values = .ok o) ∧
    (∀ fault, fields.findSome? obstacle? = some fault →
      ofObject (.object fields) = .error fault) ∧
    (fields.findSome? obstacle? = none → ∀ whole back,
      ofObject (.object (fields ++ (wholeKey, .object whole) :: back)) =
        ofObject (.object ((wholeKey, .object whole) :: back))) ∧
    ((∀ f ∈ fields, f.1 ∉ rigid) →
      (.ofString Duty.check.label ∈ Entries.keys fields →
        ofObject (.object fields) = .error .mistypedOption) ∧
      (.ofString Duty.check.label ∉ Entries.keys fields →
        .ofString Duty.listing.label ∈ Entries.keys fields →
        ∀ o, ofObject (.object fields) = .ok o →
          ofObject (.object (fields.filter fun f => f.1 ∈ optionKeys)) =
              .ok { o with displaced := [] } ∧
            o.listing = .error .mistypedOption)) := by
  refine ⟨ofObject_filter fields, fun h => ⟨ofObject_eq_ofFields h,
    fun _ => ofObject_eq_error_iff h, fun o ho => ?_⟩, fun o ho hd hcheck =>
    ⟨_, listing_eq_ok ho (by simp [hd]), ofObject_fields ho hd hcheck⟩,
    fun _ => ofObject_of_obstacle, fun h _ _ => ofObject_whole h,
    fun h => ⟨ofObject_of_check h, fun hc hl o => ofObject_of_listing h hc hl⟩⟩
  -- What is left is that the options that are read pass the check, which reading them has made.
  obtain ⟨rfl, hcomplete, hd⟩ := eq_overridden_of_ofObject h ho
  refine ⟨hcomplete, hd, ?_, listing_eq_ok hcomplete (by simp [hd])⟩
  rw [ofObject_eq_check (notMem_rigid h)] at ho
  obtain ⟨⟨⟩, hcheck, -⟩ := exists_of_bind_eq_ok ho
  exact hcheck

/-- The key of the check is no option, and it has an effect all the same: a number in the place of
the check is a fault, while the root that is named beside a key for nothing is listed. -/
theorem ofObject_settles_check :
    ofObject (.object [(.ofString "validate", .integer 1)]) = .error .mistypedOption ∧
      ∃ o, ofObject (.object [(.ofString "root_name", .text (.ofString "Root")),
          (.ofString "not_an_option", .integer 1)]) = .ok o ∧
        ∃ values, o.listing = .ok values ∧ ofObject values = .ok o ∧
          values.field? (.ofString "root_name") = some (.text (.ofString "Root")) := by
  obtain ⟨-, -, -, -, -, hreserved⟩ := ofObject_settles [(.ofString "validate", .integer 1)]
  refine ⟨(hreserved (by decide +kernel)).1 (by decide +kernel), ?_⟩
  obtain ⟨-, hplain, hround, -⟩ := ofObject_settles
    [(.ofString "root_name", .text (.ofString "Root")), (.ofString "not_an_option", .integer 1)]
  obtain ⟨-, herror, hlisted⟩ := hplain (by decide +kernel)
  cases ho : ofObject (.object [(.ofString "root_name", .text (.ofString "Root")),
      (.ofString "not_an_option", .integer 1)]) with
  | error fault =>
    obtain ⟨v, hv, -⟩ := (herror fault).1 ho
    have hnone : given? [(.ofString "root_name", .text (.ofString "Root")),
        (.ofString "not_an_option", .integer 1)] .emptyUnion = none := rfl
    cases hnone.symm.trans hv
  | ok o =>
    obtain ⟨hcomplete, hd, hcheck, hlisting⟩ := hlisted o ho
    obtain ⟨values, hvalues, hagain⟩ := hround o hcomplete hd hcheck
    refine ⟨o, rfl, values, hvalues, hagain, ?_⟩
    cases hvalues.symm.trans hlisting
    rfl

end Options

end DeclSchema
