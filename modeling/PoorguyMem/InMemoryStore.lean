import PoorguyMem.EloqStore
import PoorguyMem.Lib.SortedPages

/-!
# The store in memory

`InMemoryStoreAdapter` spreads its rows over 32 shards by a hash of the namespace
and the key, and keeps a map of keys for every namespace of a shard. Whatever the
hash, it answers like one ordered map.
-/

namespace PoorguyMem

open ByteString SortedPages

variable {K : Type}

/-! ### The adapter -/

abbrev shardCount : Nat := 32

/-- One shard, `db`, holds a table for each namespace that has a row in it. -/
structure InMemoryStoreAdapter where
  shards : Fin shardCount → StringMap Table
  approxMemUsedBytes : UInt64
  approxItemCount : UInt64

namespace InMemoryStoreAdapter

def empty : InMemoryStoreAdapter := ⟨fun _ => ∅, 0, 0⟩

/-- `sizeof(StoredValue)`: a string of 32 bytes and a time of 8. -/
def storedValueBytes : Nat := 40

def entryFootprintBytes (nameSpace key value : Bytes) : Nat :=
  nameSpace.length + key.length + value.length + storedValueBytes

def shardIndex (env : Platform K) (nameSpace key : Bytes) : Fin shardCount :=
  Fin.ofNat shardCount (env.hash (nameSpace ++ ascii ":" ++ key)).toNat

def upsertLocked (adapter : InMemoryStoreAdapter) (shard : Fin shardCount)
    (nameSpace key value : Bytes) (ts : UInt64) : InMemoryStoreAdapter :=
  let db := adapter.shards shard
  let nsMap := db.getD nameSpace ∅
  let shards := Function.update adapter.shards shard
    (db.insert nameSpace (nsMap.insert key ⟨value, ts⟩))
  let newBytes := entryFootprintBytes nameSpace key value
  match nsMap[key]? with
  | none =>
    { shards := shards
      approxMemUsedBytes := adapter.approxMemUsedBytes + UInt64.ofNat newBytes
      approxItemCount := adapter.approxItemCount + 1 }
  | some existing =>
    let oldBytes := entryFootprintBytes nameSpace key existing.value
    { adapter with
      shards := shards
      approxMemUsedBytes :=
        if oldBytes ≤ newBytes then
          adapter.approxMemUsedBytes + UInt64.ofNat (newBytes - oldBytes)
        else adapter.approxMemUsedBytes - UInt64.ofNat (oldBytes - newBytes) }

def deleteLocked (adapter : InMemoryStoreAdapter) (shard : Fin shardCount)
    (nameSpace key : Bytes) : InMemoryStoreAdapter :=
  let db := adapter.shards shard
  match db[nameSpace]? with
  | none => adapter
  | some nsMap =>
    match nsMap[key]? with
    | none => adapter
    | some existing =>
      let rest := nsMap.erase key
      { shards := Function.update adapter.shards shard
          (if rest.isEmpty then db.erase nameSpace else db.insert nameSpace rest)
        approxMemUsedBytes := adapter.approxMemUsedBytes -
          UInt64.ofNat (entryFootprintBytes nameSpace key existing.value)
        approxItemCount := adapter.approxItemCount - 1 }

def put (env : Platform K) (adapter : InMemoryStoreAdapter) (nameSpace key value : Bytes)
    (ts : UInt64) : InMemoryStoreAdapter × StoreResult :=
  (adapter.upsertLocked (shardIndex env nameSpace key) nameSpace key value ts, ⟨true, []⟩)

/-- The time of a deletion is not used. -/
def delete (env : Platform K) (adapter : InMemoryStoreAdapter) (nameSpace key : Bytes)
    (_ts : UInt64) : InMemoryStoreAdapter × StoreResult :=
  (adapter.deleteLocked (shardIndex env nameSpace key) nameSpace key, ⟨true, []⟩)

def get (env : Platform K) (adapter : InMemoryStoreAdapter) (nameSpace key : Bytes) : GetResult :=
  match (adapter.shards (shardIndex env nameSpace key))[nameSpace]? with
  | none => ⟨false, [], []⟩
  | some nsMap =>
    match nsMap[key]? with
    | none => ⟨false, [], []⟩
    | some v => ⟨true, v.value, []⟩

/-- The entries of one shard from `begin` on, up to `endKey`. -/
def scanShard (adapter : InMemoryStoreAdapter) (nameSpace begin endKey : Bytes)
    (shard : Fin shardCount) : List KeyValueEntry :=
  match (adapter.shards shard)[nameSpace]? with
  | none => []
  | some nsMap =>
    ((nsMap.toList.dropWhile fun kv => lt kv.1 begin).takeWhile fun kv =>
      endKey = [] || lt kv.1 endKey).map fun kv => ⟨nameSpace, kv.1, kv.2.value, kv.2.ts⟩

def scan (adapter : InMemoryStoreAdapter) (nameSpace begin endKey : Bytes) (limit : Nat) :
    ScanResult :=
  let out := (List.finRange shardCount).flatMap (adapter.scanShard nameSpace begin endKey)
  let sorted := out.insertionSort fun l r => EloqStoreAdapter.entryBefore r l = false
  ⟨if 0 < limit then sorted.take limit else sorted, []⟩

def batchWrite (env : Platform K) :
    InMemoryStoreAdapter → List WriteEntry → InMemoryStoreAdapter × StoreResult
  | adapter, [] => (adapter, ⟨true, []⟩)
  | adapter, w :: rest =>
    let (adapter, res) :=
      match w.op with
      | .delete => adapter.delete env w.entry.nameSpace w.entry.key w.entry.ts
      | .upsert => adapter.put env w.entry.nameSpace w.entry.key w.entry.value w.entry.ts
    if res.ok then batchWrite env adapter rest else (adapter, res)

def approximateUsage (adapter : InMemoryStoreAdapter) : StoreUsage where
  memUsedBytes := adapter.approxMemUsedBytes.toNat
  diskUsedBytes := 0
  itemCount := adapter.approxItemCount.toNat

end InMemoryStoreAdapter

/-! ### The order of scanned entries -/

/-- The keys of two entries are in ascending order. -/
def KeyBefore (a b : KeyValueEntry) : Prop := lt a.key b.key = true

instance : DecidableRel KeyBefore := fun _ _ => inferInstanceAs (Decidable (_ = _))

instance : Std.Asymm KeyBefore where
  asymm a b h h' := by
    have hab : compare a.key b.key = .lt := Ordering.isLT_iff_eq_lt.mp h
    have hba : compare b.key a.key = .lt := Ordering.isLT_iff_eq_lt.mp h'
    rw [@Std.OrientedCmp.eq_swap _ compare _ a.key b.key, hba] at hab
    cases hab

namespace EloqStoreAdapter

/-- By key, then by time, the latest first. -/
def entryCmp : KeyValueEntry → KeyValueEntry → Ordering :=
  compareLex (compareOn KeyValueEntry.key) fun a b => compare b.ts a.ts

instance : Std.TransCmp entryCmp := by
  have : Std.TransCmp fun a b : KeyValueEntry => compare b.ts a.ts :=
    inferInstanceAs (Std.TransCmp fun a b => compareOn KeyValueEntry.ts b a)
  exact inferInstanceAs (Std.TransCmp (compareLex (compareOn KeyValueEntry.key) _))

theorem entryBefore_eq (a b : KeyValueEntry) :
    entryBefore b a = false ↔ (entryCmp a b).isLE = true := by
  rw [entryBefore, entryCmp, compareLex, compareOn]
  by_cases hkey : b.key = a.key
  · rw [if_pos hkey, hkey, Std.compare_self]
    simp [Ordering.then, Std.isLE_compare]
  · have hne : compare a.key b.key ≠ .eq := fun h => hkey (Std.compare_eq_iff_eq.mp h).symm
    rw [if_neg hkey, lt, @Std.OrientedCmp.eq_swap _ compare _ b.key a.key]
    cases hcmp : compare a.key b.key <;> simp_all [Ordering.then]

instance : Std.Total fun a b : KeyValueEntry => entryBefore b a = false where
  total a b := by
    rw [entryBefore_eq, entryBefore_eq]
    cases hab : (entryCmp a b).isLE with
    | true => exact Or.inl rfl
    | false =>
      have hlt : entryCmp b a = .lt := Std.OrientedCmp.lt_of_not_isLE (by simp [hab])
      exact Or.inr (Ordering.isLE_of_eq_lt hlt)

instance : IsTrans KeyValueEntry fun a b => entryBefore b a = false where
  trans a b c hab hbc := by
    rw [entryBefore_eq] at hab hbc ⊢
    exact Std.TransCmp.isLE_trans hab hbc

/-- Entries of different keys are sorted strictly by key. -/
theorem pairwise_sorted {out : List KeyValueEntry} (h : out.Pairwise fun a b => a.key ≠ b.key) :
    (out.insertionSort fun l r => entryBefore r l = false).Pairwise KeyBefore := by
  have hperm := List.perm_insertionSort (fun l r : KeyValueEntry => entryBefore r l = false) out
  have hdistinct := (hperm.pairwise_iff fun {a b} hab => Ne.symm hab).mpr h
  have hsorted := List.pairwise_insertionSort
    (fun l r : KeyValueEntry => entryBefore r l = false) out
  refine (hsorted.and hdistinct).imp ?_
  rintro a b ⟨hle, hne⟩
  rw [entryBefore, if_neg (Ne.symm hne), lt, @Std.OrientedCmp.eq_swap _ compare] at hle
  have hne' : compare a.key b.key ≠ .eq := fun heq => hne (Std.compare_eq_iff_eq.mp heq)
  rw [KeyBefore, lt]
  cases hcmp : compare a.key b.key with
  | lt => rfl
  | eq => exact absurd hcmp hne'
  | gt =>
    rw [hcmp] at hle
    cases hle

end EloqStoreAdapter

/-! ### Scans of one ordered map -/

/-- A key from `begin` on, and before `endKey` where there is one. -/
def InRange (begin endKey key : Bytes) : Prop :=
  le begin key = true ∧ (endKey = [] ∨ lt key endKey = true)

namespace Table
variable (table : Table)

theorem pairwise_toList : table.toList.Pairwise fun a b => lt a.1 b.1 = true :=
  Std.ExtTreeMap.ordered_keys_toList.imp fun {_ _} hab => Ordering.isLT_iff_eq_lt.mpr hab

/-- The rows of a range as entries of a namespace, in the order of their keys. -/
def rangeEntries (nameSpace begin endKey : Bytes) : List KeyValueEntry :=
  (table.toList.filter fun kv => le begin kv.1 && (endKey = [] || lt kv.1 endKey)).map
    fun kv => ⟨nameSpace, kv.1, kv.2.value, kv.2.ts⟩

variable {table} {nameSpace begin endKey : Bytes}

theorem pairwise_rangeEntries : (table.rangeEntries nameSpace begin endKey).Pairwise KeyBefore := by
  rw [rangeEntries, List.pairwise_map]
  exact table.pairwise_toList.filter _

theorem mem_rangeEntries {e : KeyValueEntry} : e ∈ table.rangeEntries nameSpace begin endKey ↔
    e.nameSpace = nameSpace ∧ table[e.key]? = some ⟨e.value, e.ts⟩ ∧
      InRange begin endKey e.key := by
  simp only [rangeEntries, List.mem_map, List.mem_filter, Bool.and_eq_true, Bool.or_eq_true,
    decide_eq_true_eq, InRange]
  constructor
  · rintro ⟨kv, ⟨hkv, hrange⟩, rfl⟩
    exact ⟨rfl, Std.ExtTreeMap.mem_toList_iff_getElem?_eq_some.mp hkv, hrange⟩
  · rintro ⟨rfl, hrow, hrange⟩
    exact ⟨(e.key, ⟨e.value, e.ts⟩),
      ⟨Std.ExtTreeMap.mem_toList_iff_getElem?_eq_some.mpr hrow, hrange⟩, rfl⟩

end Table

namespace Store

theorem scan_eq (store : Store) (nameSpace begin endKey : Bytes) (limit : Nat) :
    store.scan nameSpace begin endKey limit =
      let entries := (store.table nameSpace).rangeEntries nameSpace begin endKey
      ⟨if 0 < limit then entries.take limit else entries, []⟩ := rfl

/-- A sorted list of the entries of a range is what a scan gives. -/
theorem rangeEntries_unique (store : Store) {nameSpace begin endKey : Bytes} {entries : List KeyValueEntry}
    (hsorted : entries.Pairwise KeyBefore)
    (hmem : ∀ e, e ∈ entries ↔ e.nameSpace = nameSpace ∧
      (store.table nameSpace)[e.key]? = some ⟨e.value, e.ts⟩ ∧ InRange begin endKey e.key) :
    entries = (store.table nameSpace).rangeEntries nameSpace begin endKey :=
  hsorted.eq_of_mem_iff Table.pairwise_rangeEntries fun e =>
    (hmem e).trans Table.mem_rangeEntries.symm

end Store

/-- The row a write leaves under its key. -/
def WriteEntry.outcome (w : WriteEntry) : Option StoredValue :=
  match w.op with
  | .delete => none
  | .upsert => some ⟨w.entry.value, w.entry.ts⟩

theorem Store.lookup_applyEntry (store : Store) (w : WriteEntry) (nameSpace key : Bytes) :
    ((store.applyEntry w).table nameSpace)[key]? =
      if w.entry.nameSpace = nameSpace ∧ w.entry.key = key then w.outcome
      else (store.table nameSpace)[key]? := by
  rw [applyEntry]
  dsimp only
  by_cases hns : w.entry.nameSpace = nameSpace
  · subst hns
    rw [Function.update_self, Table.applyEntry, WriteEntry.outcome]
    simp only [true_and]
    cases w.op with
    | upsert => exact lookup_insert ..
    | delete => exact lookup_erase ..
  · rw [Function.update_of_ne (Ne.symm hns), if_neg fun h => hns h.1]

/-! ### The adapter is one ordered map -/

namespace InMemoryStoreAdapter

/-- The row of a key in one shard. -/
def row (adapter : InMemoryStoreAdapter) (shard : Fin shardCount) (nameSpace key : Bytes) :
    Option StoredValue :=
  ((adapter.shards shard).getD nameSpace ∅)[key]?

theorem row_eq (adapter : InMemoryStoreAdapter) (shard : Fin shardCount) (nameSpace key : Bytes) :
    adapter.row shard nameSpace key =
      (adapter.shards shard)[nameSpace]?.bind fun nsMap => nsMap[key]? := by
  rw [row, Std.ExtTreeMap.getD_eq_getD_getElem?]
  cases (adapter.shards shard)[nameSpace]? <;> simp

/-- The shards hold the rows of a store, each in the shard of its key. -/
def Refines (env : Platform K) (adapter : InMemoryStoreAdapter) (store : Store) : Prop :=
  ∀ (shard : Fin shardCount) (nameSpace key : Bytes), adapter.row shard nameSpace key =
    if shard = shardIndex env nameSpace key then (store.table nameSpace)[key]? else none

variable {env : Platform K} {adapter : InMemoryStoreAdapter} {store : Store}

theorem refines_empty (env : Platform K) : Refines env empty Store.empty := by
  intro shard nameSpace key
  simp [row, empty, Store.empty]

/-- An update of the shard of a key that changes its row alone. -/
theorem Refines.update (h : Refines env adapter store) (w : WriteEntry) (next : StringMap Table)
    (hnext : ∀ nameSpace key : Bytes, (next[nameSpace]?.bind fun nsMap => nsMap[key]?) =
      if w.entry.nameSpace = nameSpace ∧ w.entry.key = key then w.outcome
      else adapter.row (shardIndex env w.entry.nameSpace w.entry.key) nameSpace key)
    {adapter' : InMemoryStoreAdapter} (hshards : adapter'.shards = Function.update adapter.shards
      (shardIndex env w.entry.nameSpace w.entry.key) next) :
    Refines env adapter' (store.applyEntry w) := by
  intro shard nameSpace key
  rw [row_eq, hshards, Store.lookup_applyEntry]
  by_cases hshard : shard = shardIndex env w.entry.nameSpace w.entry.key
  · subst hshard
    rw [Function.update_self, hnext]
    split
    · rename_i hsame
      rw [← hsame.1, ← hsame.2, if_pos rfl]
    · exact h _ nameSpace key
  · rw [Function.update_of_ne hshard, ← row_eq, h]
    split
    · rename_i hroute
      refine (if_neg fun hsame => hshard ?_).symm
      rw [hroute, ← hsame.1, ← hsame.2]
    · rfl

theorem Refines.put (h : Refines env adapter store) (nameSpace key value : Bytes) (ts : UInt64) :
    Refines env (adapter.put env nameSpace key value ts).1
      (store.applyEntry (upsertEntry nameSpace key value ts)) := by
  let shard := shardIndex env nameSpace key
  let next := (adapter.shards shard).insert nameSpace
    (((adapter.shards shard).getD nameSpace ∅).insert key ⟨value, ts⟩)
  refine h.update (upsertEntry nameSpace key value ts) next ?_ ?_
  · intro nameSpace' key'
    change ((Std.ExtTreeMap.insert _ _ _)[nameSpace']?.bind _) = _
    rw [lookup_insert]
    by_cases hns : nameSpace = nameSpace'
    · subst hns
      rw [if_pos rfl, Option.bind_some, lookup_insert]
      exact if_congr (by simp [upsertEntry]) rfl rfl
    · rw [if_neg hns, if_neg fun hsame => hns hsame.1]
      exact (row_eq ..).symm
  · change (upsertLocked adapter shard nameSpace key value ts).shards = _
    unfold upsertLocked
    dsimp only
    split <;> rfl

theorem Refines.delete (h : Refines env adapter store) (nameSpace key : Bytes) (ts : UInt64) :
    Refines env (adapter.delete env nameSpace key ts).1
      (store.applyEntry (deleteEntry nameSpace key ts)) := by
  let shard := shardIndex env nameSpace key
  change Refines env (adapter.deleteLocked shard nameSpace key) _
  have hrow := h shard nameSpace key
  -- without a row there is nothing to delete, in the adapter and in the store
  have missing : (store.table nameSpace)[key]? = none →
      Refines env adapter (store.applyEntry (deleteEntry nameSpace key ts)) := by
    intro hnone shard' nameSpace' key'
    rw [Store.lookup_applyEntry, h]
    refine if_congr Iff.rfl ?_ rfl
    split
    · rename_i hsame
      rw [← hsame.1, ← hsame.2]
      exact hnone
    · rfl
  rw [if_pos rfl, row_eq] at hrow
  unfold deleteLocked
  dsimp only
  split
  · rename_i hdb
    rw [hdb] at hrow
    exact missing hrow.symm
  · rename_i nsMap hdb
    rw [hdb, Option.bind_some] at hrow
    split
    · rename_i hkey
      exact missing (hrow.symm.trans hkey)
    · refine h.update (deleteEntry nameSpace key ts) _ ?_ rfl
      intro nameSpace' key'
      have hbind := bind_lookup_replace (adapter.shards shard) nameSpace nameSpace' key'
        (nsMap.erase key) id
      simp only [id] at hbind
      rw [hbind]
      by_cases hns : nameSpace = nameSpace'
      · subst hns
        rw [if_pos rfl, lookup_erase]
        refine if_congr (by simp [deleteEntry]) rfl ?_
        change _ = adapter.row shard nameSpace key'
        rw [row_eq, hdb]
        rfl
      · rw [if_neg hns, if_neg fun hsame => hns hsame.1]
        exact (row_eq ..).symm

theorem Refines.batchWrite (h : Refines env adapter store) (entries : List WriteEntry) :
    Refines env (adapter.batchWrite env entries).1 (store.apply entries) := by
  induction entries generalizing adapter store with
  | nil => exact h
  | cons w rest ih =>
    obtain ⟨op, nameSpace, key, value, ts⟩ := w
    cases op with
    | upsert => exact ih (h.put nameSpace key value ts)
    | delete =>
      have hdelete := ih (h.delete nameSpace key ts)
      -- the value of a deletion is not used
      have hstore : store.applyEntry (deleteEntry nameSpace key ts) =
          store.applyEntry ⟨.delete, ⟨nameSpace, key, value, ts⟩⟩ := rfl
      rw [hstore] at hdelete
      exact hdelete

theorem Refines.get (h : Refines env adapter store) (nameSpace key : Bytes) :
    adapter.get env nameSpace key = store.get nameSpace key := by
  have hrow := h (shardIndex env nameSpace key) nameSpace key
  rw [if_pos rfl, row_eq] at hrow
  rw [InMemoryStoreAdapter.get, Store.get, ← hrow]
  cases (adapter.shards (shardIndex env nameSpace key))[nameSpace]? <;> rfl

/-- The rows of a shard in a range. -/
theorem scanShard_eq (adapter : InMemoryStoreAdapter) (nameSpace begin endKey : Bytes)
    (shard : Fin shardCount) : adapter.scanShard nameSpace begin endKey shard =
      ((adapter.shards shard).getD nameSpace ∅).rangeEntries nameSpace begin endKey := by
  rw [scanShard, Std.ExtTreeMap.getD_eq_getD_getElem?]
  cases (adapter.shards shard)[nameSpace]? with
  | none => rfl
  | some nsMap =>
    have hbegin : nsMap.toList.Pairwise fun a b => lt b.1 begin = true → lt a.1 begin = true := by
      refine nsMap.pairwise_toList.imp fun {a b} hab hb => ?_
      exact Ordering.isLT_iff_eq_lt.mpr (Std.TransCmp.lt_trans (Ordering.isLT_iff_eq_lt.mp hab)
        (Ordering.isLT_iff_eq_lt.mp hb))
    have hend : nsMap.toList.Pairwise fun a b =>
        (endKey = [] || lt b.1 endKey) = true → (endKey = [] || lt a.1 endKey) = true := by
      refine nsMap.pairwise_toList.imp fun {a b} hab hb => ?_
      rw [Bool.or_eq_true] at hb ⊢
      refine hb.imp id fun hb => ?_
      exact Ordering.isLT_iff_eq_lt.mpr (Std.TransCmp.lt_trans (Ordering.isLT_iff_eq_lt.mp hab)
        (Ordering.isLT_iff_eq_lt.mp hb))
    have hle : ∀ k : Bytes, (!lt k begin) = le begin k := by
      intro k
      rw [lt, le, @Std.OrientedCmp.eq_swap _ compare _ k begin]
      cases compare begin k <;> rfl
    dsimp only
    rw [dropWhile_eq_filter hbegin, takeWhile_eq_filter (hend.filter _), List.filter_filter,
      Option.getD_some, Table.rangeEntries]
    refine congrArg (List.map _) (List.filter_congr fun kv _ => ?_)
    rw [hle, Bool.and_comm]

/-- A scan of the shards is a scan of the store. -/
theorem Refines.scan (h : Refines env adapter store) (nameSpace begin endKey : Bytes)
    (limit : Nat) :
    adapter.scan nameSpace begin endKey limit = store.scan nameSpace begin endKey limit := by
  let out := (List.finRange shardCount).flatMap (adapter.scanShard nameSpace begin endKey)
  have hmem : ∀ e, e ∈ out ↔ e.nameSpace = nameSpace ∧
      (store.table nameSpace)[e.key]? = some ⟨e.value, e.ts⟩ ∧ InRange begin endKey e.key := by
    intro e
    have hrow : ∀ shard, ((adapter.shards shard).getD nameSpace ∅)[e.key]? =
        if shard = shardIndex env nameSpace e.key then (store.table nameSpace)[e.key]? else none :=
      fun shard => h shard nameSpace e.key
    simp only [out, List.mem_flatMap, List.mem_finRange, true_and, scanShard_eq,
      Table.mem_rangeEntries, hrow]
    constructor
    · rintro ⟨shard, hns, hread, hrange⟩
      split at hread
      · exact ⟨hns, hread, hrange⟩
      · cases hread
    · rintro ⟨hns, hread, hrange⟩
      exact ⟨_, hns, (if_pos rfl).trans hread, hrange⟩
  have hdistinct : out.Pairwise fun a b => a.key ≠ b.key := by
    refine List.pairwise_flatMap.mpr ⟨fun shard _ => ?_, ?_⟩
    · rw [scanShard_eq]
      refine Table.pairwise_rangeEntries.imp fun {a b} hab hkey => ?_
      rw [KeyBefore, hkey, lt, Std.compare_self] at hab
      cases hab
    · refine (List.nodup_finRange shardCount).imp fun {s s'} hne a ha b hb hkey => ?_
      rw [scanShard_eq, Table.mem_rangeEntries] at ha hb
      -- a row lies in the shard of its key alone
      have hshard : ∀ shard key v, adapter.row shard nameSpace key = some v →
          shard = shardIndex env nameSpace key := by
        intro shard key v hread
        rw [h] at hread
        split at hread
        · assumption
        · cases hread
      have hs := hshard s a.key _ ha.2.1
      have hs' := hshard s' b.key _ hb.2.1
      rw [hkey] at hs
      exact hne (hs.trans hs'.symm)
  have hsorted := Store.rangeEntries_unique store
    (EloqStoreAdapter.pairwise_sorted hdistinct)
    fun e => (List.mem_insertionSort _).trans (hmem e)
  rw [InMemoryStoreAdapter.scan, Store.scan_eq]
  dsimp only
  rw [hsorted]

end InMemoryStoreAdapter

end PoorguyMem
