import Mathlib

/-!
# Totals of a map

The sum of the values of a finite map, and how it changes when an entry is put
or erased.
-/

namespace MapTotal

variable {α β : Type} {cmp : α → α → Ordering} [Std.TransCmp cmp] [Std.LawfulEqCmp cmp]

section Entries
variable (m : Std.ExtTreeMap α β cmp)

omit [Std.LawfulEqCmp cmp] in
theorem nodup_keys : m.keys.Nodup := by
  refine Std.ExtTreeMap.distinct_keys.imp ?_
  rintro a b hab rfl
  exact hab Std.ReflCmp.compare_self

omit [Std.LawfulEqCmp cmp] in
theorem nodup_fst_toList : (m.toList.map Prod.fst).Nodup := by
  rw [List.nodup_iff_pairwise_ne, List.pairwise_map]
  refine Std.ExtTreeMap.distinct_keys_toList.imp ?_
  intro a b hab heq
  rw [heq] at hab
  exact hab Std.ReflCmp.compare_self

omit [Std.LawfulEqCmp cmp] in
theorem nodup_toList : m.toList.Nodup := (nodup_fst_toList m).of_map

theorem mem_toList_erase {k : α} {e : α × β} :
    e ∈ (m.erase k).toList ↔ k ≠ e.1 ∧ m[e.1]? = some e.2 := by
  rw [Std.ExtTreeMap.mem_toList_iff_getElem?_eq_some, Std.ExtTreeMap.getElem?_erase]
  by_cases hk : k = e.1
  · subst hk
    simp
  · simp [hk]

/-- The entries of a map that has one at `k`: that entry and those of the rest. -/
theorem toList_perm_of_getElem? {k : α} {v : β} (h : m[k]? = some v) :
    m.toList.Perm ((k, v) :: (m.erase k).toList) := by
  refine (List.perm_ext_iff_of_nodup (nodup_toList m) ?_).mpr ?_
  · refine List.nodup_cons.mpr ⟨?_, nodup_toList _⟩
    intro hmem
    exact ((mem_toList_erase m).mp hmem).1 rfl
  · rintro ⟨k', v'⟩
    rw [List.mem_cons, mem_toList_erase, Std.ExtTreeMap.mem_toList_iff_getElem?_eq_some]
    constructor
    · intro hget
      by_cases hk : k = k'
      · subst hk
        rw [h] at hget
        exact Or.inl (by rw [Option.some.inj hget])
      · exact Or.inr ⟨hk, hget⟩
    · rintro (heq | ⟨-, hget⟩)
      · obtain ⟨rfl, rfl⟩ := Prod.mk.inj heq
        exact h
      · exact hget

omit [Std.LawfulEqCmp cmp] in
theorem values_eq : m.values = m.toList.map Prod.snd := by
  have hfold : m.values = m.foldr (fun _ v vs => v :: vs) [] := by
    obtain ⟨m⟩ := m
    induction m using Std.ExtDTreeMap.inductionOn with
    | mk m => rfl
  rw [hfold, Std.ExtTreeMap.foldr_eq_foldr_toList]
  generalize m.toList = l
  induction l with
  | nil => rfl
  | cons a l ih => rw [List.foldr_cons, ih, List.map_cons]

/-- The entries whose value satisfies a test, counted by their keys. -/
theorem encard_keys_where (p : β → Bool) :
    {k : α | ∃ v, m[k]? = some v ∧ p v = true}.encard = m.values.countP p := by
  classical
  let ks := (m.toList.filter fun kv => p kv.2).map Prod.fst
  have hnodup : ks.Nodup := (nodup_fst_toList m).sublist (List.filter_sublist.map _)
  have hset : {k : α | ∃ v, m[k]? = some v ∧ p v = true} = (ks.toFinset : Set α) := by
    ext k
    simp [ks, Std.ExtTreeMap.mem_toList_iff_getElem?_eq_some]
  rw [hset, Set.encard_coe_eq_coe_finsetCard, List.toFinset_card_of_nodup hnodup, values_eq,
    List.countP_map, List.countP_eq_length_filter, List.length_map]
  rfl

theorem erase_insert_self (k : α) (v : β) : (m.insert k v).erase k = m.erase k := by
  refine Std.ExtTreeMap.ext_getElem? fun a => ?_
  rw [Std.ExtTreeMap.getElem?_erase, Std.ExtTreeMap.getElem?_erase]
  by_cases hka : k = a
  · simp [hka]
  · simp [hka, Std.ExtTreeMap.getElem?_insert]

theorem erase_eq_self {k : α} (h : m[k]? = none) : m.erase k = m := by
  refine Std.ExtTreeMap.ext_getElem? fun a => ?_
  rw [Std.ExtTreeMap.getElem?_erase]
  by_cases hka : k = a
  · subst hka
    simp [h]
  · simp [hka]

/-! ### Weights -/

/-- The sum of what `f` gives for the values. -/
def weight (f : β → Nat) : Nat := (m.toList.map fun kv => f kv.2).sum

variable (f : β → Nat)

theorem weight_of_getElem? {k : α} {v : β} (h : m[k]? = some v) :
    weight m f = f v + weight (m.erase k) f := by
  have hperm := (toList_perm_of_getElem? m h).map fun kv => f kv.2
  rw [weight, hperm.sum_eq, List.map_cons, List.sum_cons, weight]

theorem weight_insert (k : α) (v : β) : weight (m.insert k v) f = f v + weight (m.erase k) f := by
  have h : (m.insert k v)[k]? = some v := Std.ExtTreeMap.getElem?_insert_self
  rw [weight_of_getElem? _ f h, erase_insert_self]

/-- Erasing an entry takes its weight off. -/
theorem weight_erase (k : α) : weight m f = m[k]?.elim 0 f + weight (m.erase k) f := by
  cases h : m[k]? with
  | some v => exact weight_of_getElem? m f h
  | none => rw [erase_eq_self m h, Option.elim_none, Nat.zero_add]

omit [Std.LawfulEqCmp cmp] in
/-- The number of entries whose value satisfies a test, as a weight. -/
theorem weight_ite (p : β → Bool) :
    (weight m fun v => if p v = true then 1 else 0) = m.values.countP p := by
  rw [weight, values_eq, List.countP_map]
  generalize m.toList = l
  induction l with
  | nil => rfl
  | cons kv rest ih =>
    rw [List.map_cons, List.sum_cons, ih, List.countP_cons, Nat.add_comm]
    rfl

/-- A map that has every entry of another that counts there weighs no less. -/
theorem weight_le {n : Std.ExtTreeMap α β cmp} {g : β → Nat}
    (h : ∀ (k : α) v, m[k]? = some v → f v ≠ 0 → n[k]? = some v ∧ f v ≤ g v) :
    weight m f ≤ weight n g := by
  classical
  have hkeep : weight m f = ((m.toList.filter fun kv => f kv.2 ≠ 0).map fun kv => f kv.2).sum := by
    rw [weight]
    generalize m.toList = l
    induction l with
    | nil => rfl
    | cons kv rest ih =>
      rw [List.map_cons, List.sum_cons, ih, List.filter_cons]
      by_cases hzero : f kv.2 = 0
      · simp [hzero]
      · simp [hzero]
  have hentry : ∀ kv ∈ m.toList.filter fun kv => f kv.2 ≠ 0,
      n[kv.1]? = some kv.2 ∧ f kv.2 ≤ g kv.2 := by
    intro kv hkv
    obtain ⟨hmem, hcounts⟩ := List.mem_filter.mp hkv
    exact h kv.1 kv.2 (Std.ExtTreeMap.mem_toList_iff_getElem?_eq_some.mp hmem)
      (of_decide_eq_true hcounts)
  rw [hkeep]
  calc ((m.toList.filter fun kv => f kv.2 ≠ 0).map fun kv => f kv.2).sum
      ≤ ((m.toList.filter fun kv => f kv.2 ≠ 0).map fun kv => g kv.2).sum :=
        List.sum_le_sum fun kv hkv => (hentry kv hkv).2
    _ ≤ weight n g := by
        have hsub : (m.toList.filter fun kv => f kv.2 ≠ 0).Subperm n.toList :=
          ((nodup_toList m).filter _).subperm fun kv hkv =>
            Std.ExtTreeMap.mem_toList_iff_getElem?_eq_some.mpr (hentry kv hkv).1
        obtain ⟨l, hperm, hsublist⟩ := hsub
        rw [weight, ← (hperm.map fun kv => g kv.2).sum_eq]
        exact (hsublist.map fun kv => g kv.2).sum_le_sum fun x _ => Nat.zero_le x

end Entries

/-- The sum of the values. -/
def total (m : Std.ExtTreeMap α Nat cmp) : Nat := (m.toList.map Prod.snd).sum

variable (m : Std.ExtTreeMap α Nat cmp)

omit [Std.LawfulEqCmp cmp] in
theorem total_empty : total (∅ : Std.ExtTreeMap α Nat cmp) = 0 := rfl

theorem total_insert (k : α) (v : Nat) : total (m.insert k v) = v + total (m.erase k) :=
  weight_insert m id k v

/-- A map of weights has the total of the map it weighs. -/
theorem total_eq_weight {n : Std.ExtTreeMap α β cmp} {f : β → Nat}
    (h : ∀ k : α, m[k]? = n[k]?.map f) : total m = weight n f := by
  have hperm : m.toList.Perm (n.toList.map fun kv => (kv.1, f kv.2)) := by
    refine (List.perm_ext_iff_of_nodup (nodup_toList m) ?_).mpr ?_
    · refine (nodup_toList n).map_on ?_
      rintro ⟨k, v⟩ hkv ⟨k', v'⟩ hkv' heq
      rw [Std.ExtTreeMap.mem_toList_iff_getElem?_eq_some] at hkv hkv'
      obtain rfl : k = k' := (Prod.mk.inj heq).1
      obtain rfl := Option.some.inj (hkv.symm.trans hkv')
      rfl
    · rintro ⟨k, x⟩
      rw [Std.ExtTreeMap.mem_toList_iff_getElem?_eq_some, h k, Option.map_eq_some_iff, List.mem_map]
      constructor
      · rintro ⟨v, hv, rfl⟩
        exact ⟨(k, v), Std.ExtTreeMap.mem_toList_iff_getElem?_eq_some.mpr hv, rfl⟩
      · rintro ⟨⟨k', v⟩, hkv, heq⟩
        obtain ⟨rfl, rfl⟩ := Prod.mk.inj heq
        exact ⟨v, Std.ExtTreeMap.mem_toList_iff_getElem?_eq_some.mp hkv, rfl⟩
  rw [total, weight, (hperm.map Prod.snd).sum_eq, List.map_map]
  rfl

/-- Erasing an entry takes its value off. -/
theorem total_erase (k : α) : total m = m.getD k 0 + total (m.erase k) := by
  have h := weight_erase m id k
  rw [Std.ExtTreeMap.getD_eq_getD_getElem?]
  cases hk : m[k]? with
  | some v =>
    rw [hk] at h
    exact h
  | none =>
    rw [hk] at h
    exact h

theorem getD_le_total (k : α) : m.getD k 0 ≤ total m := by
  rw [total_erase m k]
  exact Nat.le_add_right _ _

end MapTotal
