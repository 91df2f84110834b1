import PoorguyMem.Recovery

/-!
# The partitioned store

`EloqStoreAdapter` spreads the rows of every namespace over the partitions of an
EloqStore table, by a hash of the routing key. Of the library itself this keeps
what the adapter relies on: a partition that was never written answers
`NotFound`, any other one its matching rows, and a batch for one partition is
applied whole or fails.
-/

namespace PoorguyMem

open ByteString

variable {K : Type}

/-! ### The library -/

inductive KvError where
  | notFound
  | failed (message : Bytes)
  deriving DecidableEq

/-- `eloqstore::ErrorString` -/
def KvError.errorString : KvError → Bytes
  | .notFound => ascii "Resource not found"
  | .failed message => message

structure WriteDataEntry where
  key : Bytes
  value : Bytes
  ts : UInt64
  op : WriteOp
  deriving DecidableEq

/-- The partitions of a table, `none` where one was never written, and how a scan
is cut to a page of so many entries and bytes. -/
structure EloqStore where
  partition : Nat → Option Table
  paginate : Nat → Nat → List (Bytes × StoredValue) → List (Bytes × StoredValue)

namespace EloqStore

def read (store : EloqStore) (pid : Nat) (key : Bytes) : Option StoredValue :=
  (store.partition pid).bind (·[key]?)

/-- A scan from `begin` up to `endKey`, in pages where a limit is set. -/
def scan (store : EloqStore) (pid : Nat) (begin endKey : Bytes) (limit : Nat) :
    Except KvError (List (Bytes × StoredValue)) :=
  match store.partition pid with
  | none => .error .notFound
  | some rows =>
    let inRange := rows.toList.filter fun kv => le begin kv.1 && lt kv.1 endKey
    .ok (if 0 < limit then store.paginate limit (2 ^ 20) inRange else inRange)

/-- The rows of a partition after a batch, whose keys are unique. -/
def applyBatch (rows : Option Table) (batch : StringMap WriteDataEntry) : Table :=
  batch.toList.foldl (fun rows item =>
    match item.2.op with
    | .delete => rows.erase item.2.key
    | .upsert => rows.insert item.2.key ⟨item.2.value, item.2.ts⟩) (rows.getD ∅)

def batchWrite (store : EloqStore) (pid : Nat) (batch : StringMap WriteDataEntry) : EloqStore :=
  { store with
    partition := Function.update store.partition pid (some (applyBatch (store.partition pid) batch)) }

end EloqStore

/-! ### Routing -/

def composeKey (nameSpace key : Bytes) : Bytes := nameSpace ++ ascii ":" ++ key

/-- The part of a key after the last `sep`, or all of it. -/
def afterLast (sep : UInt8) (key : Bytes) : Bytes := (key.reverse.takeWhile (· ≠ sep)).reverse

def workspacePrefix (key : Bytes) : Bytes :=
  if (ascii "ws/").isPrefixOf key then (key.drop 3).takeWhile (· ≠ 47)
  else if key.takeWhile (· ≠ 58) = [] then key
  else key.takeWhile (· ≠ 58)

def suffixAfterLastColon (key : Bytes) : Bytes :=
  if key.contains 47 ∧ afterLast 47 key ≠ [] then afterLast 47 key
  else if key.contains 58 then afterLast 58 key
  else []

def routingShardKey (nameSpace key : Bytes) : Bytes :=
  if nameSpace = routeMetaNs ∨ nameSpace = projectionCkptNs then workspacePrefix key
  else if nameSpace ∈ [docNs, termDictNs, postingBlkNs, vecCodeNs, vecFpNs, eventsNs] then
    if workspacePrefix key ≠ [] ∧ suffixAfterLastColon key ≠ [] then
      workspacePrefix key ++ ascii ":" ++ suffixAfterLastColon key
    else key
  else key

def partitionRoutingSeed (nameSpace key : Bytes) : Bytes :=
  nameSpace ++ ascii "|" ++ routingShardKey nameSpace key

/-! ### The adapter -/

/-- There is always a partition: a configured count of zero counts as one. -/
theorem max_one_pos (configured : Nat) : 0 < max 1 configured := by omega

structure EloqStoreAdapter where
  started : Bool
  numPartitions : Nat
  numPartitions_pos : 0 < numPartitions
  store : EloqStore

namespace EloqStoreAdapter

def resolvePartitionId (env : Platform K) (adapter : EloqStoreAdapter) (nameSpace key : Bytes) :
    Nat :=
  (env.hash (partitionRoutingSeed nameSpace key)).toNat % adapter.numPartitions

theorem resolvePartitionId_lt (env : Platform K) (adapter : EloqStoreAdapter)
    (nameSpace key : Bytes) : adapter.resolvePartitionId env nameSpace key < adapter.numPartitions :=
  Nat.mod_lt _ adapter.numPartitions_pos

def notStarted : Bytes := ascii "eloqstore is not started"

def get (env : Platform K) (adapter : EloqStoreAdapter) (nameSpace key : Bytes) : GetResult :=
  if !adapter.started then ⟨false, [], notStarted⟩
  else
    match adapter.store.read (adapter.resolvePartitionId env nameSpace key)
        (composeKey nameSpace key) with
    | none => ⟨false, [], []⟩
    | some v => ⟨true, v.value, []⟩

theorem get_of_started {env : Platform K} {adapter : EloqStoreAdapter}
    (h : adapter.started = true) (nameSpace key : Bytes) : adapter.get env nameSpace key =
      (adapter.store.read (adapter.resolvePartitionId env nameSpace key)
        (composeKey nameSpace key)).elim ⟨false, [], []⟩ fun v => ⟨true, v.value, []⟩ := by
  rw [get, h]
  cases adapter.store.read (adapter.resolvePartitionId env nameSpace key)
    (composeKey nameSpace key) <;> rfl

/-- The entry of a row, if it belongs to the namespace. -/
def rowEntry (nameSpace : Bytes) (row : Bytes × StoredValue) : Option KeyValueEntry :=
  let namePrefix := nameSpace ++ ascii ":"
  if namePrefix.isPrefixOf row.1 then
    some ⟨nameSpace, row.1.drop namePrefix.length, row.2.value, row.2.ts⟩
  else none

def scanError (pid : Nat) (error : KvError) : Bytes :=
  ascii "scan partition " ++ decimal pid ++ ascii " failed: " ++ error.errorString

/-- The loop of `Scan` over the partitions, which ends at the first error. -/
def scanLoop (store : EloqStore) (nameSpace beginKey endKey : Bytes) (limit : Nat) :
    List Nat → List KeyValueEntry → List KeyValueEntry × Option Bytes
  | [], out => (out, none)
  | pid :: pids, out =>
    match store.scan pid beginKey endKey limit with
    | .error error => (out, some (scanError pid error))
    | .ok rows =>
      scanLoop store nameSpace beginKey endKey limit pids
        (out ++ rows.filterMap (rowEntry nameSpace))

/-- By key, and the latest first where keys are equal. -/
def entryBefore (l r : KeyValueEntry) : Bool :=
  if l.key = r.key then r.ts < l.ts else lt l.key r.key

def scan (adapter : EloqStoreAdapter) (nameSpace begin endKey : Bytes) (limit : Nat) :
    ScanResult :=
  if !adapter.started then ⟨[], notStarted⟩
  else
    let beginKey := composeKey nameSpace begin
    let lastKey := if endKey = [] then nameSpace ++ ascii ";" else composeKey nameSpace endKey
    match scanLoop adapter.store nameSpace beginKey lastKey limit
        (List.range adapter.numPartitions) [] with
    | (out, some error) => ⟨out, error⟩
    | (out, none) =>
      let sorted := out.insertionSort fun l r => entryBefore r l = false
      let deduped := sorted.destutter fun kept entry => kept.key ≠ entry.key
      ⟨if 0 < limit then deduped.take limit else deduped, []⟩

def reader (env : Platform K) (adapter : EloqStoreAdapter) : StoreReader :=
  ⟨adapter.get env, adapter.scan⟩

/-- The batch of every partition: the last write of a key is kept. -/
def groupByPartition (env : Platform K) (adapter : EloqStoreAdapter) (entries : List WriteEntry) :
    Std.ExtTreeMap Nat (StringMap WriteDataEntry) compare :=
  entries.foldl (fun batches w =>
    let fullKey := composeKey w.entry.nameSpace w.entry.key
    let pid := adapter.resolvePartitionId env w.entry.nameSpace w.entry.key
    let value := if w.op = .delete then [] else w.entry.value
    batches.insert pid ((batches.getD pid ∅).insert fullKey ⟨fullKey, value, w.entry.ts, w.op⟩)) ∅

def batchError (pid : Nat) (error : KvError) : Bytes :=
  ascii "batch write partition " ++ decimal pid ++ ascii " failed: " ++ error.errorString

/-- The loop of `BatchWrite` over the partitions, given which requests fail. -/
def writeLoop (fails : Nat → Option KvError) :
    List (Nat × StringMap WriteDataEntry) → EloqStore → EloqStore × StoreResult
  | [], store => (store, ⟨true, []⟩)
  | (pid, batch) :: rest, store =>
    match fails pid with
    | some error => (store, ⟨false, batchError pid error⟩)
    | none => writeLoop fails rest (store.batchWrite pid batch)

def batchWrite (env : Platform K) (adapter : EloqStoreAdapter) (fails : Nat → Option KvError)
    (entries : List WriteEntry) : EloqStoreAdapter × StoreResult :=
  if !adapter.started then (adapter, ⟨false, notStarted⟩)
  else
    let (store, result) :=
      writeLoop fails (adapter.groupByPartition env entries).toList adapter.store
    ({ adapter with store := store }, result)

/-- The batch of one entry that `Put` and `Delete` send. -/
def writeOne (env : Platform K) (adapter : EloqStoreAdapter) (failure : Option KvError)
    (op : WriteOp) (nameSpace key value : Bytes) (ts : UInt64) : EloqStoreAdapter × StoreResult :=
  if !adapter.started then (adapter, ⟨false, notStarted⟩)
  else
    let fullKey := composeKey nameSpace key
    match failure with
    | some error => (adapter, ⟨false, error.errorString⟩)
    | none =>
      let store := adapter.store.batchWrite (adapter.resolvePartitionId env nameSpace key)
        ((∅ : StringMap WriteDataEntry).insert fullKey ⟨fullKey, value, ts, op⟩)
      ({ adapter with store := store }, ⟨true, []⟩)

def put (env : Platform K) (adapter : EloqStoreAdapter) (failure : Option KvError)
    (nameSpace key value : Bytes) (ts : UInt64) : EloqStoreAdapter × StoreResult :=
  adapter.writeOne env failure .upsert nameSpace key value ts

def delete (env : Platform K) (adapter : EloqStoreAdapter) (failure : Option KvError)
    (nameSpace key : Bytes) (ts : UInt64) : EloqStoreAdapter × StoreResult :=
  adapter.writeOne env failure .delete nameSpace key [] ts

/-! ### What a scan collects -/

/-- The entries of a namespace in one partition. -/
def foundIn (store : EloqStore) (nameSpace : Bytes) (pid : Nat) : List KeyValueEntry :=
  ((store.partition pid).getD ∅).toList.filterMap (rowEntry nameSpace)

theorem rowEntry_eq_some {nameSpace : Bytes} {row : Bytes × StoredValue} {e : KeyValueEntry} :
    rowEntry nameSpace row = some e ↔
      e.nameSpace = nameSpace ∧ row = (composeKey nameSpace e.key, ⟨e.value, e.ts⟩) := by
  obtain ⟨k, v, ts⟩ := row
  obtain ⟨ns, key, value, ts'⟩ := e
  unfold rowEntry
  dsimp only
  split
  · rename_i hprefix
    obtain ⟨rest, rfl⟩ := List.isPrefixOf_iff_prefix.mp hprefix
    simp only [List.drop_left, Option.some.injEq, KeyValueEntry.mk.injEq, composeKey,
      Prod.mk.injEq, List.append_cancel_left_eq, StoredValue.mk.injEq]
    tauto
  · rename_i hprefix
    simp only [reduceCtorEq, Prod.mk.injEq, false_iff, not_and]
    rintro rfl rfl
    exact absurd (List.isPrefixOf_iff_prefix.mpr (List.prefix_append _ _)) hprefix

theorem mem_foundIn {store : EloqStore} {nameSpace : Bytes} {pid : Nat} {e : KeyValueEntry} :
    e ∈ foundIn store nameSpace pid ↔ e.nameSpace = nameSpace ∧
      store.read pid (composeKey nameSpace e.key) = some ⟨e.value, e.ts⟩ := by
  rw [foundIn, List.mem_filterMap]
  simp only [rowEntry_eq_some]
  constructor
  · rintro ⟨row, hrow, hns, rfl⟩
    refine ⟨hns, ?_⟩
    rw [EloqStore.read]
    cases hp : store.partition pid with
    | none =>
      rw [hp] at hrow
      simp at hrow
    | some rows =>
      rw [hp] at hrow
      exact Std.ExtTreeMap.mem_toList_iff_getElem?_eq_some.mp hrow
  · rintro ⟨hns, hread⟩
    obtain ⟨rows, hp, hrow⟩ := Option.bind_eq_some_iff.mp hread
    refine ⟨_, ?_, hns, rfl⟩
    rw [hp]
    exact Std.ExtTreeMap.mem_toList_iff_getElem?_eq_some.mpr hrow

/-- The keys of a namespace lie between its first key and the sentinel after it. -/
theorem inRange_composeKey (nameSpace key : Bytes) :
    le (composeKey nameSpace []) (composeKey nameSpace key) = true ∧
      lt (composeKey nameSpace key) (nameSpace ++ ascii ";") = true := by
  constructor
  · rw [le, composeKey, composeKey, compare_append_left]
    cases key <;> rfl
  · rw [lt, composeKey, List.append_assoc, compare_append_left]
    rfl

/-- A whole scan of a written partition finds its entries of the namespace. -/
theorem scan_written {store : EloqStore} (nameSpace : Bytes) {pid : Nat}
    (h : (store.partition pid).isSome) :
    ∃ rows, store.scan pid (composeKey nameSpace []) (nameSpace ++ ascii ";") 0 = .ok rows ∧
      rows.filterMap (rowEntry nameSpace) = foundIn store nameSpace pid := by
  obtain ⟨rows, hp⟩ := Option.isSome_iff_exists.mp h
  refine ⟨_, by rw [EloqStore.scan, hp], ?_⟩
  rw [foundIn, hp, Option.getD_some, if_neg (Nat.lt_irrefl 0), List.filterMap_filter]
  refine List.filterMap_congr fun row _ => ?_
  split
  · rfl
  · rename_i hout
    rw [eq_comm, Option.eq_none_iff_forall_ne_some]
    intro e he
    obtain ⟨-, rfl⟩ := rowEntry_eq_some.mp he
    have hin := inRange_composeKey nameSpace e.key
    exact hout (by simp [hin.1, hin.2])

/-- The loop goes through partitions that were written. -/
theorem scanLoop_written {store : EloqStore} (nameSpace : Bytes) {pids : List Nat}
    (rest : List Nat) (out : List KeyValueEntry) (h : ∀ pid ∈ pids, (store.partition pid).isSome) :
    scanLoop store nameSpace (composeKey nameSpace []) (nameSpace ++ ascii ";") 0 (pids ++ rest)
      out =
    scanLoop store nameSpace (composeKey nameSpace []) (nameSpace ++ ascii ";") 0 rest
      (out ++ pids.flatMap (foundIn store nameSpace)) := by
  induction pids generalizing out with
  | nil => simp
  | cons pid pids ih =>
    obtain ⟨rows, hscan, hrows⟩ := scan_written nameSpace (h pid List.mem_cons_self)
    rw [List.cons_append, scanLoop, hscan]
    dsimp only
    rw [hrows, ih _ fun q hq => h q (List.mem_cons_of_mem _ hq), List.flatMap_cons,
      List.append_assoc]

/-- It ends at the first that was not. -/
theorem scanLoop_unwritten {store : EloqStore} {nameSpace : Bytes} {pid : Nat} {rest : List Nat}
    {out : List KeyValueEntry} (h : store.partition pid = none) :
    scanLoop store nameSpace (composeKey nameSpace []) (nameSpace ++ ascii ";") 0 (pid :: rest)
      out = (out, some (scanError pid .notFound)) := by
  rw [scanLoop, EloqStore.scan, h]

theorem range_split {n pid : Nat} (h : pid < n) :
    ∃ rest, List.range n = List.range pid ++ pid :: rest ∧ ∀ q ∈ rest, pid < q := by
  obtain ⟨m, rfl⟩ := Nat.exists_eq_add_of_lt h
  refine ⟨(List.range m).map (pid + 1 + ·), ?_, ?_⟩
  · rw [Nat.add_assoc, List.range_add, List.range_succ_eq_map]
    simp [Function.comp_def, Nat.add_assoc, Nat.add_comm 1]
  · intro q hq
    obtain ⟨i, -, rfl⟩ := List.mem_map.mp hq
    omega

end EloqStoreAdapter

end PoorguyMem
