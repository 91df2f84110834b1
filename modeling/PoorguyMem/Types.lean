import PoorguyMem.Lib.PropertyTree
import PoorguyMem.Lib.MapTotal

/-!
# Records, requests and results

The data of `pgmem/types.h` and of the engine's options. Floating point numbers
are elements of a type `K` of exact numbers, 64-bit integers are `UInt64`;
byte counts and the lengths of lists are natural numbers, since they add up
sizes of objects the process holds.
-/

namespace PoorguyMem

open ByteString PropertyTree

/-! ### Numerals of scores -/

instance atLeastTwo2 : Nat.AtLeastTwo 2 := ⟨by decide⟩

instance atLeastTwo3 : Nat.AtLeastTwo 3 := ⟨by decide⟩

instance atLeastTwo4 : Nat.AtLeastTwo 4 := ⟨by decide⟩

instance atLeastTwo5 : Nat.AtLeastTwo 5 := ⟨by decide⟩

instance atLeastTwo10 : Nat.AtLeastTwo 10 := ⟨by decide⟩

instance atLeastTwo11 : Nat.AtLeastTwo 11 := ⟨by decide⟩

instance atLeastTwo20 : Nat.AtLeastTwo 20 := ⟨by decide⟩

/-! ### Maps -/

/-- A map with string keys. Iterating an ordered map follows `toList`; the order
of an unordered map is chosen by `Platform.iterOrder`. -/
abbrev StringMap (V : Type) := Std.ExtTreeMap Bytes V compare

section Lookup
variable {V : Type} (m : StringMap V) (k a : Bytes) (v : V)

theorem lookup_insert : (m.insert k v)[a]? = if k = a then some v else m[a]? := by
  simp [Std.ExtTreeMap.getElem?_insert]

theorem lookup_erase : (m.erase k)[a]? = if k = a then none else m[a]? := by
  simp [Std.ExtTreeMap.getElem?_erase]

variable {m k a}

theorem lookup_insert_ne (h : k ≠ a) : (m.insert k v)[a]? = m[a]? := by simp [lookup_insert, h]

theorem lookup_erase_ne (h : k ≠ a) : (m.erase k)[a]? = m[a]? := by simp [lookup_erase, h]

theorem erase_of_lookup_none (h : m[k]? = none) : m.erase k = m := by
  refine Std.ExtTreeMap.ext_getElem? fun a => ?_
  rw [lookup_erase]
  by_cases hka : k = a
  · rw [if_pos hka, ← hka, h]
  · rw [if_neg hka]

/-- A nested map whose inner map at `k` is replaced, and dropped where it is empty. -/
theorem bind_lookup_replace {S : Type} (m : StringMap S) (k a x : Bytes) (next : S)
    (inner : S → StringMap V) :
    ((if (inner next).isEmpty then m.erase k else m.insert k next)[a]?.bind fun s =>
        (inner s)[x]?) =
      if k = a then (inner next)[x]? else m[a]?.bind fun s => (inner s)[x]? := by
  by_cases hempty : (inner next).isEmpty = true
  · have hnone : (inner next)[x]? = none := by
      rw [Std.ExtTreeMap.isEmpty_iff.mp hempty]
      simp
    rw [if_pos hempty, lookup_erase]
    split
    · rw [hnone, Option.bind_none]
    · rfl
  · rw [if_neg hempty, lookup_insert]
    split <;> rfl

end Lookup

inductive OpType where
  | upsert | pin | delete
  deriving DecidableEq

structure MemoryRecord (K : Type) where
  id : Bytes
  workspaceId : Bytes
  sessionId : Bytes
  source : Bytes
  content : Bytes
  tags : List Bytes
  metadata : StringMap Bytes
  dedupKey : Bytes
  pinned : Bool
  tombstone : Bool
  createdAtMs : UInt64
  updatedAtMs : UInt64
  version : UInt64
  sizeBytes : Nat
  lastAccessMs : UInt64
  hitCount : UInt64
  importanceScore : K
  tier : Bytes
  nodeId : Bytes
  ttlS : UInt64
  shardId : Bytes
  replicaRole : Bytes
  routingEpoch : UInt64
  shardHint : Bytes
  deriving DecidableEq

/-- The string lengths `ComputeRecordSizeBytes` and `EstimateRecordBytes` both add up. -/
def recordTextBytes {K : Type} (r : MemoryRecord K) : Nat :=
  r.id.length + r.workspaceId.length + r.sessionId.length + r.source.length +
    r.content.length + r.nodeId.length + r.tier.length + r.dedupKey.length +
    r.shardId.length + r.replicaRole.length + r.shardHint.length +
    (r.tags.map List.length).sum +
    (r.metadata.toList.map fun kv => kv.1.length + kv.2.length).sum

structure WriteRecordInput (K : Type) where
  recordId : Bytes
  source : Bytes
  content : Bytes
  tags : List Bytes
  importance : K
  ttlS : UInt64
  pin : Bool
  dedupKey : Bytes
  metadata : StringMap Bytes

structure WriteInput (K : Type) where
  workspaceId : Bytes
  sessionId : Bytes
  records : List (WriteRecordInput K)
  writeMode : Bytes

structure WriteOutput where
  ok : Bool
  storedIds : List Bytes
  dedupedIds : List Bytes
  indexGeneration : Nat
  warnings : List Bytes
  deriving DecidableEq

structure QueryFilter where
  sessionId : Bytes
  sources : List Bytes
  tagsAny : List Bytes
  updatedAfterMs : UInt64
  updatedBeforeMs : UInt64
  pinnedOnly : Bool

structure RecallOptions where
  sparseK : Nat
  denseK : Nat
  oversample : Nat

structure RerankWeights (K : Type) where
  wSparse : K
  wDense : K
  wFreshness : K
  wPin : K

structure QueryInput (K : Type) where
  workspaceId : Bytes
  query : Bytes
  topK : Nat
  tokenBudget : Int
  filters : QueryFilter
  recallOptions : RecallOptions
  rerank : RerankWeights K

structure ScoreBreakdown (K : Type) where
  sparse : K
  dense : K
  freshness : K
  pin : K
  final : K

structure QueryHit (K : Type) where
  memoryId : Bytes
  source : Bytes
  content : Bytes
  tags : List Bytes
  metadata : StringMap Bytes
  scores : ScoreBreakdown K
  updatedAtMs : UInt64
  pinned : Bool

structure QueryDebugStats where
  sparseCandidates : Nat
  denseCandidates : Nat
  mergedCandidates : Nat

structure QueryOutput (K : Type) where
  hits : List (QueryHit K)
  debugStats : QueryDebugStats

structure StoreResult where
  ok : Bool
  error : Bytes
  deriving DecidableEq

structure GetResult where
  found : Bool
  value : Bytes
  error : Bytes
  deriving DecidableEq

structure KeyValueEntry where
  nameSpace : Bytes
  key : Bytes
  value : Bytes
  ts : UInt64
  deriving DecidableEq

inductive WriteOp where
  | upsert | delete
  deriving DecidableEq

structure WriteEntry where
  op : WriteOp
  entry : KeyValueEntry
  deriving DecidableEq

structure StoreUsage where
  memUsedBytes : Nat
  diskUsedBytes : Nat
  itemCount : Nat

structure CompactOutput where
  triggered : Bool
  capacityBlocked : Bool
  memBeforeBytes : Nat
  diskBeforeBytes : Nat
  memAfterBytes : Nat
  diskAfterBytes : Nat
  tombstonedCount : Nat
  deletedCount : Nat
  segmentsBefore : Nat
  segmentsAfter : Nat
  postingsReclaimed : Nat
  vectorsReclaimed : Nat

structure MemoryEngineOptions (K : Type) where
  memBudgetMb : UInt64
  diskBudgetGb : UInt64
  gcHighWatermark : K
  gcBatchSize : Nat
  maxRecordBytes : Nat
  enableTombstoneGc : Bool
  tombstoneRetentionMs : UInt64
  maxPinnedRatio : K
  pinTtlOverrideS : UInt64
  pinQuotaPerWorkspace : Nat

/-- What the program takes from its platform: the string hash, the functions of
`<cmath>`, the printing of `float`, the JSON library, the readings of the system
clock in the order they are taken, and the order in which an unordered
container with the given keys is iterated. -/
structure Platform (K : Type) where
  hash : Bytes → UInt64
  log : K → K
  log1p : K → K
  sqrt : K → K
  showFloat : K → Bytes
  json : JsonLibrary
  translators : Translators K
  clock : Nat → UInt64
  iterOrder : Nat → List Bytes → List Bytes
  iterOrder_perm : ∀ t keys, (iterOrder t keys).Perm keys

variable {K : Type}

/-- The entries of an unordered map, as iteration meets them. -/
def Platform.iterate (env : Platform K) (t : Nat) {V : Type} (m : StringMap V) :
    List (Bytes × V) :=
  (env.iterOrder t m.keys).filterMap fun k => m[k]?.map fun v => (k, v)

/-- The distinct strings of a list, as iteration of an unordered set meets them. -/
def Platform.iterateSet (env : Platform K) (t : Nat) (xs : List Bytes) : List Bytes :=
  env.iterOrder t xs.dedup

theorem Platform.mem_iterate (env : Platform K) (t : Nat) {V : Type} {m : StringMap V}
    {k : Bytes} {v : V} : (k, v) ∈ env.iterate t m ↔ m[k]? = some v := by
  simp only [iterate, List.mem_filterMap, (env.iterOrder_perm t m.keys).mem_iff]
  constructor
  · rintro ⟨k', _, h⟩
    obtain ⟨v', hv', heq⟩ := Option.map_eq_some_iff.mp h
    obtain ⟨rfl, rfl⟩ := Prod.mk.inj heq
    exact hv'
  · intro h
    refine ⟨k, ?_, by simp [h]⟩
    rw [Std.ExtTreeMap.mem_keys]
    rw [Std.ExtTreeMap.mem_iff_isSome_getElem?, h]
    rfl

theorem Platform.nodup_iterate_keys (env : Platform K) (t : Nat) {V : Type}
    (m : StringMap V) : ((env.iterate t m).map Prod.fst).Nodup := by
  have hperm := (env.iterOrder_perm t m.keys).nodup_iff.mpr (MapTotal.nodup_keys m)
  rw [iterate, List.map_filterMap]
  have hfst : (env.iterOrder t m.keys).filterMap
      (fun k => Option.map Prod.fst (m[k]?.map fun v => (k, v))) =
      (env.iterOrder t m.keys).filter fun k => m[k]?.isSome := by
    rw [← List.filterMap_eq_filter]
    congr 1
    funext k
    cases hk : m[k]? <;> simp [Option.guard, hk]
  rw [hfst]
  exact hperm.filter _

/-- Iteration meets every entry once. -/
theorem Platform.perm_iterate (env : Platform K) (t : Nat) {V : Type} (m : StringMap V) :
    (env.iterate t m).Perm m.toList := by
  rw [List.perm_ext_iff_of_nodup (env.nodup_iterate_keys t m).of_map (MapTotal.nodup_toList m)]
  rintro ⟨k, v⟩
  rw [env.mem_iterate, Std.ExtTreeMap.mem_toList_iff_getElem?_eq_some]

theorem Platform.mem_iterateSet (env : Platform K) (t : Nat) (xs : List Bytes) (x : Bytes) :
    x ∈ env.iterateSet t xs ↔ x ∈ xs := by
  rw [iterateSet, (env.iterOrder_perm t _).mem_iff, List.mem_dedup]

end PoorguyMem
