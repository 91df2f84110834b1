import PoorguyMem.Lib.MapTotal

/-!
# Maps of maps

A map whose values have maps of their own has a value at a path of two keys. The paths under
the wanted outer keys, each of them once.
-/

namespace NestedMap

variable {α β γ δ : Type} {cmp : α → α → Ordering} [Std.TransCmp cmp]
  {cmp' : γ → γ → Ordering} [Std.TransCmp cmp']
  (wanted : α → Bool) (inner : β → Std.ExtTreeMap γ δ cmp') (m : Std.ExtTreeMap α β cmp)

/-- The entries under the wanted keys. -/
def entries : List (α × β) := m.toList.filter fun kv => wanted kv.1

def paths : List (α × γ) :=
  (entries wanted m).flatMap fun kv => (inner kv.2).keys.map fun key => (kv.1, key)

theorem length_paths : (paths wanted inner m).length =
    ((entries wanted m).map fun kv => (inner kv.2).size).sum := by
  rw [paths, List.length_flatMap]
  congr 1
  refine List.map_congr_left fun kv _ => ?_
  rw [List.length_map, Std.ExtTreeMap.length_keys]

theorem nodup_paths : (paths wanted inner m).Nodup := by
  have hfst : ((entries wanted m).map Prod.fst).Nodup :=
    (MapTotal.nodup_fst_toList m).sublist (List.filter_sublist.map _)
  rw [paths, List.nodup_flatMap]
  constructor
  · intro kv _
    refine (MapTotal.nodup_keys (inner kv.2)).map fun a b hab => ?_
    exact (Prod.mk.inj hab).2
  · -- the paths of two entries differ in the outer key
    refine (List.pairwise_map.mp (List.nodup_iff_pairwise_ne.mp hfst)).imp ?_
    intro kv kv' hne path hpath hpath'
    obtain ⟨key, -, rfl⟩ := List.mem_map.mp hpath
    obtain ⟨key', -, heq⟩ := List.mem_map.mp hpath'
    exact hne (Prod.mk.inj heq).1.symm

variable [Std.LawfulEqCmp cmp] [Std.LawfulEqCmp cmp']

omit [Std.LawfulEqCmp cmp'] in
theorem mem_entries {a : α} {v : β} :
    (a, v) ∈ entries wanted m ↔ wanted a = true ∧ m[a]? = some v := by
  rw [entries, List.mem_filter, Std.ExtTreeMap.mem_toList_iff_getElem?_eq_some, and_comm]

theorem mem_paths {a : α} {c : γ} : (a, c) ∈ paths wanted inner m ↔
    wanted a = true ∧ (m[a]?.bind fun v => (inner v)[c]?).isSome = true := by
  rw [paths, List.mem_flatMap]
  constructor
  · rintro ⟨⟨a', v⟩, hkv, hpath⟩
    obtain ⟨key, hkey, heq⟩ := List.mem_map.mp hpath
    obtain ⟨rfl, rfl⟩ := Prod.mk.inj heq
    obtain ⟨hwanted, hv⟩ := (mem_entries wanted m).mp hkv
    refine ⟨hwanted, ?_⟩
    dsimp only
    rw [hv, Option.bind_some, ← Std.ExtTreeMap.mem_iff_isSome_getElem?]
    exact Std.ExtTreeMap.mem_keys.mp hkey
  · rintro ⟨hwanted, hsome⟩
    obtain ⟨x, hx⟩ := Option.isSome_iff_exists.mp hsome
    obtain ⟨v, hv, hc⟩ := Option.bind_eq_some_iff.mp hx
    refine ⟨(a, v), (mem_entries wanted m).mpr ⟨hwanted, hv⟩, List.mem_map.mpr ⟨c, ?_, rfl⟩⟩
    rw [Std.ExtTreeMap.mem_keys, Std.ExtTreeMap.mem_iff_isSome_getElem?]
    exact Option.isSome_iff_exists.mpr ⟨x, hc⟩

end NestedMap
