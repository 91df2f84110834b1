import PoorguyMem.Backends

/-!
# Changing the number of partitions

What `EloqStoreAdapter::Start` does to the disk before it serves: it compares the
layout metadata and the partition directories with the configured count, and
where they differ it moves every entry that a partition does not own to the one
that does. The metadata is written last. Requests fail where `StartupFaults` says
so; a process that stops at a request leaves the disk as a failure there does.
-/

namespace PoorguyMem

open ByteString

variable {K : Type}

/-- `kNamespaces` of `RehashStoredEntries` -/
def rehashNamespaces : List Bytes :=
  [docNs, termDictNs, postingBlkNs, vecCodeNs, vecFpNs, routeMetaNs, eventsNs, projectionCkptNs]

theorem colonFree_rehashNamespaces : ∀ ns ∈ rehashNamespaces, ColonFree ns := by decide

def routingSchema : Bytes := ascii "balanced_workspace_record"

/-- The layout metadata, as `LoadLayoutMeta` reads it. -/
structure LayoutMeta where
  partitionCount : Nat
  routingSchema : Bytes
  deriving DecidableEq

/-- The partition of a key under a count of partitions. -/
def partitionFor (env : Platform K) (count : Nat) (nameSpace key : Bytes) : Nat :=
  (env.hash (partitionRoutingSeed nameSpace key)).toNat % count

/-! ### The disk -/

/-- The partitions with their directories `pgmem.N`, in the order of the file
system. A partition that was written has a directory. -/
structure Disk where
  store : EloqStore
  directories : List Nat
  layoutMeta : Option LayoutMeta
  hosted : ∀ pid, (store.partition pid).isSome → pid ∈ directories

namespace Disk

def batchWrite (disk : Disk) (pid : Nat) (batch : StringMap WriteDataEntry) : Disk where
  store := disk.store.batchWrite pid batch
  directories := if pid ∈ disk.directories then disk.directories else disk.directories ++ [pid]
  layoutMeta := disk.layoutMeta
  hosted p hp := by
    by_cases h : p = pid
    · subst h
      split
      · assumption
      · simp
    · rw [EloqStore.batchWrite] at hp
      dsimp only at hp
      rw [Function.update_of_ne h] at hp
      have hold := disk.hosted p hp
      split
      · exact hold
      · exact List.mem_append_left _ hold

/-- `remove_all` of the directory of a partition. -/
def removeDirectory (disk : Disk) (pid : Nat) : Disk where
  store := { disk.store with partition := Function.update disk.store.partition pid none }
  directories := disk.directories.filter (· ≠ pid)
  layoutMeta := disk.layoutMeta
  hosted p hp := by
    dsimp only at hp
    by_cases h : p = pid
    · subst h
      rw [Function.update_self] at hp
      cases hp
    · rw [Function.update_of_ne h] at hp
      exact List.mem_filter.mpr ⟨disk.hosted p hp, by simpa using h⟩

def detectExistingPartitions (disk : Disk) : List Nat :=
  (disk.directories.insertionSort (· ≤ ·)).destutter (· ≠ ·)

/-- The adapter over a disk; a configured count of zero counts as one. -/
def adapter (disk : Disk) (configured : Nat) : EloqStoreAdapter where
  started := true
  numPartitions := max 1 configured
  numPartitions_pos := max_one_pos configured
  store := disk.store

end Disk

/-! ### Moving entries -/

/-- The error of every request, by its number, and whether the metadata can be written. -/
structure StartupFaults where
  requests : Nat → Option Bytes
  persists : Bool

/-- Every request is served, and the metadata is written. -/
def StartupFaults.none : StartupFaults := ⟨fun _ => .none, true⟩

/-- The disk, and how many requests there have been. -/
structure Rehash where
  disk : Disk
  requests : Nat

def layoutRefreshError (action : Bytes) (pid : Nat) (nameSpace error : Bytes) : Bytes :=
  ascii "layout refresh " ++ action ++ ascii " failed on partition " ++ decimal pid ++
    ascii " namespace " ++ nameSpace ++ ascii ": " ++ error

/-- The batches that take the rows of a partition to those that own them, by
target, and the batch that then deletes them. -/
structure Moves where
  upserts : Std.ExtTreeMap Nat (StringMap WriteDataEntry) compare
  deletes : StringMap WriteDataEntry

def Moves.collect (env : Platform K) (count source : Nat) (nameSpace : Bytes) (moves : Moves)
    (row : Bytes × StoredValue) : Moves :=
  match EloqStoreAdapter.rowEntry nameSpace row with
  | none => moves
  | some e =>
    let target := partitionFor env count nameSpace e.key
    if target = source then moves
    else
      { upserts := moves.upserts.insert target ((moves.upserts.getD target ∅).insert row.1
          ⟨row.1, row.2.value, row.2.ts, .upsert⟩)
        deletes := moves.deletes.insert row.1 ⟨row.1, [], row.2.ts, .delete⟩ }

def writeTargets (fails : Nat → Option Bytes) (nameSpace : Bytes) :
    List (Nat × StringMap WriteDataEntry) → Rehash → Rehash × Option Bytes
  | [], st => (st, none)
  | (target, batch) :: rest, st =>
    match fails st.requests with
    | some error =>
      ({ st with requests := st.requests + 1 },
        some (layoutRefreshError (ascii "write") target nameSpace error))
    | none =>
      writeTargets fails nameSpace rest ⟨st.disk.batchWrite target batch, st.requests + 1⟩

def deleteMoved (fails : Nat → Option Bytes) (source : Nat) (nameSpace : Bytes)
    (deletes : StringMap WriteDataEntry) (st : Rehash) : Rehash × Option Bytes :=
  if deletes.isEmpty then (st, none)
  else
    match fails st.requests with
    | some error =>
      ({ st with requests := st.requests + 1 },
        some (layoutRefreshError (ascii "delete") source nameSpace error))
    | none => (⟨st.disk.batchWrite source deletes, st.requests + 1⟩, none)

/-- One namespace of one source. A partition that was never written has none. -/
def rehashNamespace (env : Platform K) (count : Nat) (fails : Nat → Option Bytes) (source : Nat)
    (nameSpace : Bytes) (st : Rehash) : Rehash × Option Bytes :=
  match fails st.requests with
  | some error =>
    ({ st with requests := st.requests + 1 },
      some (layoutRefreshError (ascii "scan") source nameSpace error))
  | none =>
    let st := { st with requests := st.requests + 1 }
    match st.disk.store.scan source (composeKey nameSpace []) (nameSpace ++ ascii ";") 0 with
    | .error .notFound => (st, none)
    | .error error =>
      (st, some (layoutRefreshError (ascii "scan") source nameSpace error.errorString))
    | .ok rows =>
      let moves := rows.foldl (Moves.collect env count source nameSpace) ⟨∅, ∅⟩
      match writeTargets fails nameSpace moves.upserts.toList st with
      | (st, some error) => (st, some error)
      | (st, none) => deleteMoved fails source nameSpace moves.deletes st

def rehashLoop (env : Platform K) (count : Nat) (fails : Nat → Option Bytes) :
    List (Nat × Bytes) → Rehash → Rehash × Option Bytes
  | [], st => (st, none)
  | (source, nameSpace) :: rest, st =>
    match rehashNamespace env count fails source nameSpace st with
    | (st, some error) => (st, some error)
    | (st, none) => rehashLoop env count fails rest st

/-- The sources with their namespaces, in the order of the two loops. -/
def rehashPairs (existing : List Nat) : List (Nat × Bytes) :=
  existing.flatMap fun source => rehashNamespaces.map fun nameSpace => (source, nameSpace)

def cleanupOutdatedPartitionDirs (count : Nat) (partitions : List Nat) (disk : Disk) : Disk :=
  partitions.foldl (fun disk pid =>
    if pid < count ∨ pid ∉ disk.directories then disk else disk.removeDirectory pid) disk

/-- A directory is empty where its partition was never written. -/
def cleanupEmptyPartitionDirs (partitions : List Nat) (disk : Disk) : Disk :=
  partitions.foldl (fun disk pid =>
    if pid ∈ disk.directories ∧ disk.store.partition pid = none then disk.removeDirectory pid
    else disk) disk

def rehashStoredEntries (env : Platform K) (count : Nat) (fails : Nat → Option Bytes)
    (existing : List Nat) (disk : Disk) : Disk × Option Bytes :=
  if existing = [] then (disk, none)
  else
    match rehashLoop env count fails (rehashPairs existing) ⟨disk, 0⟩ with
    | (st, some error) => (st.disk, some error)
    | (st, none) =>
      (cleanupEmptyPartitionDirs existing (cleanupOutdatedPartitionDirs count existing st.disk),
        none)

/-! ### Startup -/

/-- Whether the layout on disk is not that of the count. -/
def needsRehash (disk : Disk) (count : Nat) : Bool :=
  let existing := disk.detectExistingPartitions
  (match disk.layoutMeta with
    | some found => found.partitionCount ≠ count || found.routingSchema ≠ routingSchema
    | none => existing ≠ []) ||
  existing.getLast?.any fun last => count ≤ last

/-- No error where `RefreshLayoutOnStartup` returns true. -/
def refreshLayoutOnStartup (env : Platform K) (count : Nat) (faults : StartupFaults)
    (disk : Disk) : Disk × Option Bytes :=
  let (disk, failure) :=
    if needsRehash disk count then
      rehashStoredEntries env count faults.requests disk.detectExistingPartitions disk
    else (disk, none)
  match failure with
  | some error => (disk, some error)
  | none =>
    if faults.persists then ({ disk with layoutMeta := some ⟨count, routingSchema⟩ }, none)
    else (disk, some (ascii "failed to persist store layout metadata"))

/-- A startup with a configured number of partitions. -/
def startLayout (env : Platform K) (configured : Nat) (faults : StartupFaults) (disk : Disk) :
    Disk × Option Bytes :=
  refreshLayoutOnStartup env (max 1 configured) faults disk

end PoorguyMem
