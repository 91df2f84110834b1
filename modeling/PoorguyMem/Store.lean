import PoorguyMem.Types

/-!
# The store

The engine sees the store through `IStoreAdapter`. `StoreReader` is the reading
half of that interface. `Store` is the store the engine's contract assumes:
`Get` and `Scan` report exactly the rows applied so far, namespace by namespace,
and a batch is applied entry by entry. A batch that fails may leave any part of
its entries applied; the outcome says which.
-/

namespace PoorguyMem

open ByteString

structure ScanResult where
  entries : List KeyValueEntry
  error : Bytes
  deriving DecidableEq

structure StoreReader where
  get : Bytes → Bytes → GetResult
  scan : Bytes → Bytes → Bytes → Nat → ScanResult

structure StoredValue where
  value : Bytes
  ts : UInt64
  deriving DecidableEq

/-- The rows of one namespace. -/
abbrev Table := StringMap StoredValue

def Table.applyEntry (table : Table) (w : WriteEntry) : Table :=
  match w.op with
  | .delete => table.erase w.entry.key
  | .upsert => table.insert w.entry.key ⟨w.entry.value, w.entry.ts⟩

def Table.apply (table : Table) (writes : List WriteEntry) : Table :=
  writes.foldl Table.applyEntry table

/-- A row of the table after a batch was there before, or the batch put it. -/
theorem Table.lookup_apply {table : Table} {writes : List WriteEntry} {k : Bytes}
    {v : StoredValue} (h : (table.apply writes)[k]? = some v) :
    table[k]? = some v ∨
      ∃ w ∈ writes, w.op = .upsert ∧ w.entry.key = k ∧ v = ⟨w.entry.value, w.entry.ts⟩ := by
  induction writes generalizing table with
  | nil => exact Or.inl h
  | cons w writes ih =>
    rcases ih h with hold | ⟨w', hmem, hput⟩
    · rcases hop : w.op with _ | _ <;> simp only [applyEntry, hop] at hold
      · rw [lookup_insert] at hold
        split at hold
        · rename_i hkey
          exact Or.inr ⟨w, List.mem_cons_self, hop, hkey, (Option.some.inj hold).symm⟩
        · exact Or.inl hold
      · rw [lookup_erase] at hold
        split at hold
        · cases hold
        · exact Or.inl hold
    · exact Or.inr ⟨w', List.mem_cons_of_mem _ hmem, hput⟩

/-- A row the batch has no entry for stays. -/
theorem Table.lookup_apply_of_notMem {table : Table} {writes : List WriteEntry} {k : Bytes}
    (h : ∀ w ∈ writes, w.entry.key ≠ k) : (table.apply writes)[k]? = table[k]? := by
  induction writes generalizing table with
  | nil => rfl
  | cons w writes ih =>
    have hw := h w List.mem_cons_self
    refine (ih fun x hx => h x (List.mem_cons_of_mem _ hx)).trans ?_
    rcases hop : w.op with _ | _ <;> simp only [applyEntry, hop]
    · exact lookup_insert_ne _ hw
    · exact lookup_erase_ne hw

structure Store where
  table : Bytes → Table

/-- What a `BatchWrite` came to. A failed one kept the entries `kept` selects. -/
inductive BatchOutcome where
  | applied
  | failed (error : Bytes) (kept : WriteEntry → Bool)

/-- The batch is applied whole or fails with no effect. -/
def BatchOutcome.Whole : BatchOutcome → Prop
  | .applied => True
  | .failed _ kept => ∀ w, kept w = false

/-- The entries of a batch that take effect. -/
def BatchOutcome.effective (outcome : BatchOutcome) (writes : List WriteEntry) :
    List WriteEntry :=
  match outcome with
  | .applied => writes
  | .failed _ kept => writes.filter kept

theorem BatchOutcome.mem_effective {outcome : BatchOutcome} {writes : List WriteEntry}
    {w : WriteEntry} (h : w ∈ outcome.effective writes) : w ∈ writes := by
  cases outcome with
  | applied => exact h
  | failed error kept => exact List.mem_of_mem_filter h

def BatchOutcome.ok : BatchOutcome → Bool
  | .applied => true
  | .failed _ _ => false

def BatchOutcome.error : BatchOutcome → Bytes
  | .applied => []
  | .failed error _ => error

namespace Store

def empty : Store := ⟨fun _ => ∅⟩

def applyEntry (store : Store) (w : WriteEntry) : Store :=
  ⟨Function.update store.table w.entry.nameSpace
    ((store.table w.entry.nameSpace).applyEntry w)⟩

def apply (store : Store) (writes : List WriteEntry) : Store :=
  writes.foldl applyEntry store

def get (store : Store) (nameSpace key : Bytes) : GetResult :=
  match (store.table nameSpace)[key]? with
  | none => ⟨false, [], []⟩
  | some v => ⟨true, v.value, []⟩

def scan (store : Store) (nameSpace begin endKey : Bytes) (limit : Nat) : ScanResult :=
  let inRange := (store.table nameSpace).toList.filter fun kv =>
    le begin kv.1 && (endKey = [] || lt kv.1 endKey)
  let entries := inRange.map fun kv => ⟨nameSpace, kv.1, kv.2.value, kv.2.ts⟩
  ⟨if 0 < limit then entries.take limit else entries, []⟩

def reader (store : Store) : StoreReader := ⟨store.get, store.scan⟩

def batchWrite (store : Store) (outcome : BatchOutcome) (writes : List WriteEntry) : Store :=
  store.apply (outcome.effective writes)

@[simp] theorem apply_nil (store : Store) : store.apply [] = store := rfl

/-- The entries of one namespace, in the order of the batch. -/
def restrict (nameSpace : Bytes) (writes : List WriteEntry) : List WriteEntry :=
  writes.filter fun w => w.entry.nameSpace = nameSpace

@[simp] theorem restrict_append (ns : Bytes) (a b : List WriteEntry) :
    restrict ns (a ++ b) = restrict ns a ++ restrict ns b :=
  List.filter_append ..

/-- A batch changes a namespace by its entries for that namespace alone. -/
theorem table_apply (store : Store) (writes : List WriteEntry) (ns : Bytes) :
    (store.apply writes).table ns = (store.table ns).apply (restrict ns writes) := by
  induction writes generalizing store with
  | nil => rfl
  | cons w writes ih =>
    rw [apply, List.foldl_cons, ← apply, ih]
    by_cases h : w.entry.nameSpace = ns
    · have hr : restrict ns (w :: writes) = w :: restrict ns writes :=
        List.filter_cons_of_pos (by simpa using h)
      rw [hr, Table.apply, Table.apply, List.foldl_cons]
      subst h
      simp [applyEntry]
    · have hr : restrict ns (w :: writes) = restrict ns writes :=
        List.filter_cons_of_neg (by simpa using h)
      rw [hr]
      simp [applyEntry, Function.update_of_ne (Ne.symm h)]

theorem table_batchWrite (store : Store) (outcome : BatchOutcome) (writes : List WriteEntry)
    (ns : Bytes) : (store.batchWrite outcome writes).table ns =
      (store.table ns).apply (outcome.effective (restrict ns writes)) := by
  rw [batchWrite, table_apply]
  cases outcome with
  | applied => rfl
  | failed error kept =>
    simp only [BatchOutcome.effective, restrict, List.filter_filter, Bool.and_comm]

theorem batchWrite_of_whole_failed (store : Store) {outcome : BatchOutcome}
    (hwhole : outcome.Whole) (hfail : outcome.ok = false) (writes : List WriteEntry) :
    store.batchWrite outcome writes = store := by
  cases outcome with
  | applied => cases hfail
  | failed error kept =>
    have hnone : writes.filter kept = [] := by
      simp only [List.filter_eq_nil_iff]
      intro w _
      simp [hwhole w]
    simp [batchWrite, BatchOutcome.effective, hnone]

theorem batchWrite_of_ok (store : Store) {outcome : BatchOutcome} (hok : outcome.ok = true)
    (writes : List WriteEntry) : store.batchWrite outcome writes = store.apply writes := by
  cases outcome with
  | applied => rfl
  | failed _ _ => cases hok

end Store

end PoorguyMem
