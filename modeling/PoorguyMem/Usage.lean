import PoorguyMem.Backends

/-!
# The usage of the store in memory

The adapter counts its entries and their bytes by differences. After any calls the
two counters are those of the live entries, and none of the differences taken off
is more than there is. As counters of 64 bits they hold the exact numbers where
these fit.
-/

namespace PoorguyMem

open ByteString

variable {K : Type}

/-! ### Calls as writes -/

/-- A batch is its writes one by one. -/
def StoreCall.writes : StoreCall → List WriteEntry
  | put nameSpace key value ts => [upsertEntry nameSpace key value ts]
  | delete nameSpace key ts => [deleteEntry nameSpace key ts]
  | batchWrite entries => entries

/-- What the last write of a key left there. -/
def lastWritten (writes : List WriteEntry) (nameSpace key : Bytes) : Option StoredValue :=
  (writes.filter fun w => w.entry.nameSpace = nameSpace ∧ w.entry.key = key).getLast?.bind
    WriteEntry.outcome

theorem lookup_apply_eq_lastWritten (writes : List WriteEntry) (nameSpace key : Bytes) :
    ((Store.empty.apply writes).table nameSpace)[key]? = lastWritten writes nameSpace key := by
  induction writes using List.reverseRecOn with
  | nil => simp [Store.empty, lastWritten]
  | append_singleton writes w ih =>
    rw [Store.apply, List.foldl_append, List.foldl_cons, List.foldl_nil, ← Store.apply,
      Store.lookup_applyEntry, ih, lastWritten, lastWritten, List.filter_append]
    by_cases hname : w.entry.nameSpace = nameSpace ∧ w.entry.key = key
    · rw [if_pos hname, List.filter_cons_of_pos (by simpa using hname), List.filter_nil,
        List.getLast?_concat, Option.bind_some]
    · rw [if_neg hname, List.filter_cons_of_neg (by simpa using hname), List.filter_nil,
        List.append_nil]

namespace InMemoryStoreAdapter

/-- One write of a batch. -/
def writeEntry (env : Platform K) (adapter : InMemoryStoreAdapter) (w : WriteEntry) :
    InMemoryStoreAdapter :=
  match w.op with
  | .delete => (adapter.delete env w.entry.nameSpace w.entry.key w.entry.ts).1
  | .upsert => (adapter.put env w.entry.nameSpace w.entry.key w.entry.value w.entry.ts).1

theorem batchWrite_eq_foldl (env : Platform K) (adapter : InMemoryStoreAdapter)
    (entries : List WriteEntry) :
    (adapter.batchWrite env entries).1 = entries.foldl (writeEntry env) adapter := by
  induction entries generalizing adapter with
  | nil => rfl
  | cons w rest ih =>
    obtain ⟨op, entry⟩ := w
    cases op with
    | upsert => exact ih _
    | delete => exact ih _

theorem onInMemory_eq_foldl (env : Platform K) (adapter : InMemoryStoreAdapter) (call : StoreCall) :
    call.onInMemory env adapter = call.writes.foldl (writeEntry env) adapter := by
  cases call with
  | put => rfl
  | delete => rfl
  | batchWrite entries => exact batchWrite_eq_foldl env adapter entries

/-! ### The counters -/

def entryBytes (e : KeyValueEntry) : Nat := entryFootprintBytes e.nameSpace e.key e.value

def footprint (live : List KeyValueEntry) : Nat := (live.map entryBytes).sum

/-- The rows of a store as a list. -/
structure Lists (store : Store) (live : List KeyValueEntry) : Prop where
  nodup : live.Nodup
  mem : ∀ e, e ∈ live ↔ (store.table e.nameSpace)[e.key]? = some ⟨e.value, e.ts⟩

/-- The counters are those of the entries. -/
structure Counts (adapter : InMemoryStoreAdapter) (live : List KeyValueEntry) : Prop where
  items : adapter.approxItemCount = UInt64.ofNat live.length
  bytes : adapter.approxMemUsedBytes = UInt64.ofNat (footprint live)

/-- What a write takes off the two counters. -/
def takenOff (env : Platform K) (adapter : InMemoryStoreAdapter) (w : WriteEntry) : Nat × Nat :=
  match adapter.row (shardIndex env w.entry.nameSpace w.entry.key) w.entry.nameSpace w.entry.key with
  | none => (0, 0)
  | some existing =>
    let oldBytes := entryFootprintBytes w.entry.nameSpace w.entry.key existing.value
    match w.op with
    | .delete => (1, oldBytes)
    | .upsert => (0, oldBytes - entryBytes w.entry)

section Counting
variable {env : Platform K} {adapter : InMemoryStoreAdapter} {store : Store}
  {live : List KeyValueEntry}

theorem Lists.of_row (h : Lists store live) {nameSpace key : Bytes} {v : StoredValue}
    (hrow : (store.table nameSpace)[key]? = some v) :
    ⟨nameSpace, key, v.value, v.ts⟩ ∈ live :=
  (h.mem ⟨nameSpace, key, v.value, v.ts⟩).mpr hrow

theorem footprint_cons (e : KeyValueEntry) (live : List KeyValueEntry) :
    footprint (e :: live) = entryBytes e + footprint live := by
  simp [footprint]

/-- An entry and those of the rest. -/
theorem footprint_erase {e : KeyValueEntry} (h : e ∈ live) :
    footprint live = entryBytes e + footprint (live.erase e) := by
  rw [← footprint_cons]
  exact ((List.perm_cons_erase h).map entryBytes).sum_eq

theorem length_erase_add_one {e : KeyValueEntry} (h : e ∈ live) :
    live.length = (live.erase e).length + 1 :=
  (List.perm_cons_erase h).length_eq

/-- The entries without the one of a key. -/
theorem Lists.erase (h : Lists store live) {w : WriteEntry} {v : StoredValue}
    (hrow : (store.table w.entry.nameSpace)[w.entry.key]? = some v) (e : KeyValueEntry) :
    e ∈ live.erase ⟨w.entry.nameSpace, w.entry.key, v.value, v.ts⟩ ↔
      ¬ (w.entry.nameSpace = e.nameSpace ∧ w.entry.key = e.key) ∧ e ∈ live := by
  rw [h.nodup.mem_erase_iff]
  constructor
  · rintro ⟨hne, hmem⟩
    refine ⟨?_, hmem⟩
    rintro ⟨hns, hkey⟩
    have hheld := (h.mem e).mp hmem
    rw [← hns, ← hkey, hrow] at hheld
    obtain rfl := Option.some.inj hheld
    exact hne (by rw [hns, hkey])
  · rintro ⟨hname, hmem⟩
    refine ⟨?_, hmem⟩
    rintro rfl
    exact hname ⟨rfl, rfl⟩

/-- The entries after a write. -/
def listAfter (store : Store) (live : List KeyValueEntry) (w : WriteEntry) : List KeyValueEntry :=
  let rest := match (store.table w.entry.nameSpace)[w.entry.key]? with
    | none => live
    | some v => live.erase ⟨w.entry.nameSpace, w.entry.key, v.value, v.ts⟩
  match w.op with
  | .delete => rest
  | .upsert => w.entry :: rest

theorem Lists.applyEntry (h : Lists store live) (w : WriteEntry) :
    Lists (store.applyEntry w) (listAfter store live w) := by
  let rest := match (store.table w.entry.nameSpace)[w.entry.key]? with
    | none => live
    | some v => live.erase ⟨w.entry.nameSpace, w.entry.key, v.value, v.ts⟩
  have hrest : rest.Nodup ∧ ∀ e, e ∈ rest ↔
      ¬ (w.entry.nameSpace = e.nameSpace ∧ w.entry.key = e.key) ∧ e ∈ live := by
    dsimp only [rest]
    split
    · rename_i hnone
      refine ⟨h.nodup, fun e => ⟨fun hmem => ⟨?_, hmem⟩, fun hmem => hmem.2⟩⟩
      rintro ⟨hns, hkey⟩
      have hheld := (h.mem e).mp hmem
      rw [← hns, ← hkey, hnone] at hheld
      cases hheld
    · rename_i v hrow
      exact ⟨h.nodup.erase _, h.erase hrow⟩
  have hafter : listAfter store live w = match w.op with
    | .delete => rest
    | .upsert => w.entry :: rest := rfl
  rw [hafter]
  cases hop : w.op with
  | delete =>
    refine ⟨hrest.1, fun e => ?_⟩
    rw [hrest.2, h.mem, Store.lookup_applyEntry, WriteEntry.outcome, hop]
    by_cases hname : w.entry.nameSpace = e.nameSpace ∧ w.entry.key = e.key
    · simp [hname]
    · rw [if_neg hname]
      exact and_iff_right hname
  | upsert =>
    constructor
    · refine List.nodup_cons.mpr ⟨fun hmem => ?_, hrest.1⟩
      exact ((hrest.2 w.entry).mp hmem).1 ⟨rfl, rfl⟩
    · intro e
      rw [List.mem_cons, hrest.2, h.mem, Store.lookup_applyEntry, WriteEntry.outcome, hop]
      by_cases hname : w.entry.nameSpace = e.nameSpace ∧ w.entry.key = e.key
      · rw [if_pos hname]
        obtain ⟨op, ns, key, value, ts⟩ := w
        obtain ⟨ns', key', value', ts'⟩ := e
        obtain ⟨rfl, rfl⟩ := hname
        simp only [KeyValueEntry.mk.injEq, true_and, and_self, not_true_eq_false, false_and,
          or_false, Option.some.injEq, StoredValue.mk.injEq]
        exact ⟨fun heq => ⟨heq.1.symm, heq.2.symm⟩, fun heq => ⟨heq.1.symm, heq.2.symm⟩⟩
      · rw [if_neg hname]
        constructor
        · rintro (rfl | hmem)
          · exact absurd ⟨rfl, rfl⟩ hname
          · exact hmem.2
        · exact fun hmem => Or.inr ⟨hname, hmem⟩

/-- A write finds the row of its key in the shard of the key. -/
theorem Refines.row_eq_lookup (h : Refines env adapter store) (nameSpace key : Bytes) :
    adapter.row (shardIndex env nameSpace key) nameSpace key = (store.table nameSpace)[key]? := by
  rw [h, if_pos rfl]

theorem Counts.put (hrefines : Refines env adapter store) (hlists : Lists store live)
    (h : Counts adapter live) (nameSpace key value : Bytes) (ts : UInt64) :
    Counts (adapter.put env nameSpace key value ts).1
      (listAfter store live (upsertEntry nameSpace key value ts)) := by
  have hrow := hrefines.row_eq_lookup nameSpace key
  let new := entryFootprintBytes nameSpace key value
  have hnew : entryBytes ⟨nameSpace, key, value, ts⟩ = new := rfl
  cases hold : (store.table nameSpace)[key]? with
  | none =>
    have hafter : listAfter store live (upsertEntry nameSpace key value ts) =
        ⟨nameSpace, key, value, ts⟩ :: live := by
      simp [listAfter, upsertEntry, hold]
    have hput : ((adapter.put env nameSpace key value ts).1.approxItemCount =
          adapter.approxItemCount + 1) ∧
        (adapter.put env nameSpace key value ts).1.approxMemUsedBytes =
          adapter.approxMemUsedBytes + UInt64.ofNat new := by
      rw [hold, row] at hrow
      simp only [InMemoryStoreAdapter.put, upsertLocked, hrow]
      exact ⟨trivial, rfl⟩
    rw [hafter]
    constructor
    · rw [hput.1, h.items, List.length_cons, UInt64.ofNat_add]
      rfl
    · rw [hput.2, h.bytes, footprint_cons, hnew, Nat.add_comm new, UInt64.ofNat_add]
  | some existing =>
    let held : KeyValueEntry := ⟨nameSpace, key, existing.value, existing.ts⟩
    have hheld : held ∈ live := hlists.of_row hold
    have hafter : listAfter store live (upsertEntry nameSpace key value ts) =
        ⟨nameSpace, key, value, ts⟩ :: live.erase held := by
      simp [listAfter, upsertEntry, hold, held]
    have hput : ((adapter.put env nameSpace key value ts).1.approxItemCount =
          adapter.approxItemCount) ∧
        (adapter.put env nameSpace key value ts).1.approxMemUsedBytes =
          if entryBytes held ≤ new then
            adapter.approxMemUsedBytes + UInt64.ofNat (new - entryBytes held)
          else adapter.approxMemUsedBytes - UInt64.ofNat (entryBytes held - new) := by
      rw [hold, row] at hrow
      simp only [InMemoryStoreAdapter.put, upsertLocked, hrow]
      exact ⟨trivial, rfl⟩
    have hbytes := footprint_erase hheld
    rw [hafter]
    constructor
    · rw [hput.1, h.items, length_erase_add_one hheld, List.length_cons]
    · rw [hput.2, h.bytes, footprint_cons, hnew]
      split
      · rw [← UInt64.ofNat_add]
        congr 1
        omega
      · rw [← UInt64.ofNat_sub (by omega)]
        congr 1
        omega

theorem Counts.delete (hrefines : Refines env adapter store) (hlists : Lists store live)
    (h : Counts adapter live) (nameSpace key : Bytes) (ts : UInt64) :
    Counts (adapter.delete env nameSpace key ts).1
      (listAfter store live (deleteEntry nameSpace key ts)) := by
  have hrow := hrefines.row_eq_lookup nameSpace key
  rw [row_eq] at hrow
  cases hold : (store.table nameSpace)[key]? with
  | none =>
    have hafter : listAfter store live (deleteEntry nameSpace key ts) = live := by
      simp [listAfter, deleteEntry, hold]
    have hsame : (adapter.delete env nameSpace key ts).1 = adapter := by
      rw [hold] at hrow
      simp only [InMemoryStoreAdapter.delete, deleteLocked]
      split
      · rfl
      · rename_i nsMap hdb
        rw [hdb, Option.bind_some] at hrow
        rw [hrow]
    rw [hafter, hsame]
    exact h
  | some existing =>
    let held : KeyValueEntry := ⟨nameSpace, key, existing.value, existing.ts⟩
    have hheld : held ∈ live := hlists.of_row hold
    have hafter : listAfter store live (deleteEntry nameSpace key ts) = live.erase held := by
      simp [listAfter, deleteEntry, hold, held]
    have hdelete : ((adapter.delete env nameSpace key ts).1.approxItemCount =
          adapter.approxItemCount - 1) ∧
        (adapter.delete env nameSpace key ts).1.approxMemUsedBytes =
          adapter.approxMemUsedBytes - UInt64.ofNat (entryBytes held) := by
      rw [hold] at hrow
      obtain ⟨nsMap, hdb, hkey⟩ := Option.bind_eq_some_iff.mp hrow
      simp only [InMemoryStoreAdapter.delete, deleteLocked, hdb, hkey]
      exact ⟨trivial, rfl⟩
    have hbytes := footprint_erase hheld
    have hlength := length_erase_add_one hheld
    rw [hafter]
    constructor
    · rw [hdelete.1, h.items, hlength, UInt64.ofNat_add]
      exact UInt64.add_sub_cancel _ _
    · rw [hdelete.2, h.bytes, hbytes, ← UInt64.ofNat_sub (by omega)]
      congr 1
      omega

/-- No write takes off more than there is. -/
theorem takenOff_le (hrefines : Refines env adapter store) (hlists : Lists store live)
    (w : WriteEntry) : (adapter.takenOff env w).1 ≤ live.length ∧
      (adapter.takenOff env w).2 ≤ footprint live := by
  rw [takenOff, hrefines.row_eq_lookup]
  cases hold : (store.table w.entry.nameSpace)[w.entry.key]? with
  | none => exact ⟨Nat.zero_le _, Nat.zero_le _⟩
  | some existing =>
    have hheld := hlists.of_row hold
    have hbytes := footprint_erase hheld
    have hlength := length_erase_add_one hheld
    have hsame : entryBytes ⟨w.entry.nameSpace, w.entry.key, existing.value, existing.ts⟩ =
        entryFootprintBytes w.entry.nameSpace w.entry.key existing.value := rfl
    dsimp only
    cases w.op with
    | delete => constructor <;> dsimp only <;> omega
    | upsert => constructor <;> dsimp only <;> omega

theorem Refines.writeEntry (h : Refines env adapter store) (w : WriteEntry) :
    Refines env (adapter.writeEntry env w) (store.applyEntry w) := by
  obtain ⟨op, nameSpace, key, value, ts⟩ := w
  cases op with
  | upsert => exact h.put nameSpace key value ts
  | delete => exact h.delete nameSpace key ts

theorem Counts.writeEntry (hrefines : Refines env adapter store) (hlists : Lists store live)
    (h : Counts adapter live) (w : WriteEntry) :
    Counts (adapter.writeEntry env w) (listAfter store live w) := by
  obtain ⟨op, nameSpace, key, value, ts⟩ := w
  cases op with
  | upsert => exact h.put hrefines hlists nameSpace key value ts
  | delete => exact h.delete hrefines hlists nameSpace key ts

/-- After any writes the adapter holds the rows of one ordered map, and counts them. -/
theorem counts_writes (env : Platform K) (writes : List WriteEntry) : ∃ live,
    Refines env (writes.foldl (writeEntry env) empty) (Store.empty.apply writes) ∧
      Lists (Store.empty.apply writes) live ∧ Counts (writes.foldl (writeEntry env) empty) live := by
  induction writes using List.reverseRecOn with
  | nil =>
    refine ⟨[], refines_empty env, ⟨List.nodup_nil, fun e => ?_⟩, ⟨rfl, rfl⟩⟩
    simp [Store.empty]
  | append_singleton writes w ih =>
    obtain ⟨live, hrefines, hlists, hcounts⟩ := ih
    refine ⟨listAfter (Store.empty.apply writes) live w, ?_⟩
    rw [Store.apply, List.foldl_append, List.foldl_append]
    exact ⟨hrefines.writeEntry w, hlists.applyEntry w, hcounts.writeEntry hrefines hlists w⟩

end Counting

end InMemoryStoreAdapter

/-! ### Calls -/

open InMemoryStoreAdapter

theorem exec_onInMemory_eq (env : Platform K) (calls : List StoreCall) :
    Runs.exec (StoreCall.onInMemory env) InMemoryStoreAdapter.empty calls =
      (calls.flatMap StoreCall.writes).foldl (writeEntry env) InMemoryStoreAdapter.empty := by
  rw [List.foldl_flatMap]
  exact List.foldl_ext _ _ _ fun adapter call _ => onInMemory_eq_foldl env adapter call

end PoorguyMem
