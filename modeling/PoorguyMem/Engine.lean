import PoorguyMem.Retriever
import PoorguyMem.Codec

/-!
# The engine in memory

What `MemoryEngine` holds in memory and how it changes: the updates of the
records, the dedup index, the charges and the retriever, and the eviction that
keeps the resident bytes under their limit. Reading the system clock advances a
tick, and the tick also names the order in which an unordered container is
iterated.
-/

namespace PoorguyMem

open ByteString

variable {K : Type}

/-- The fields of the engine that mirror the records. -/
structure Resident (K : Type) where
  records : StringMap (MemoryRecord K)
  dedupIndex : StringMap Bytes
  residentChargeBytes : StringMap Nat
  residentUsedBytes : Nat
  residentEvictedCount : Nat
  retriever : HybridRetriever K

def Resident.empty : Resident K := ⟨∅, ∅, ∅, 0, 0, HybridRetriever.empty⟩

structure MemoryEngine (K : Type) extends Resident K where
  options : MemoryEngineOptions K
  nodeId : Bytes
  localSeq : Nat
  indexGeneration : Nat
  gcLastRunMs : UInt64
  gcEvictedCount : Nat
  capacityBlocked : Bool
  queryCacheTotal : Nat
  denseProbeQueryCount : Nat
  denseProbeCountTotal : Nat

/-- The engine its constructor makes. -/
def MemoryEngine.new (nodeId : Bytes) (options : MemoryEngineOptions K) : MemoryEngine K where
  toResident := Resident.empty
  options := options
  nodeId := nodeId
  localSeq := 0
  indexGeneration := 0
  gcLastRunMs := 0
  gcEvictedCount := 0
  capacityBlocked := false
  queryCacheTotal := 0
  denseProbeQueryCount := 0
  denseProbeCountTotal := 0

def MemoryEngine.residentLimitBytes (engine : MemoryEngine K) : Nat :=
  (engine.options.memBudgetMb * 1024 * 1024).toNat

/-! ### Judging records -/

/-- A lifetime that overflows the milliseconds wraps, as `ttl_s * 1000ull` does. -/
def isExpired (record : MemoryRecord K) (nowMs : UInt64) : Bool :=
  if record.ttlS = 0 ∨ record.updatedAtMs = 0 then false
  else
    let ttlMs := record.ttlS * 1000
    record.updatedAtMs < nowMs && ttlMs ≤ nowMs - record.updatedAtMs

def isIncomingNewer (current incoming : MemoryRecord K) : Bool :=
  if incoming.updatedAtMs ≠ current.updatedAtMs then current.updatedAtMs < incoming.updatedAtMs
  else if incoming.version ≠ current.version then current.version < incoming.version
  else lt current.nodeId incoming.nodeId

section Ranks
variable [Field K] [LinearOrder K]

omit [LinearOrder K] in
def evictionRank (env : Platform K) (record : MemoryRecord K) (nowMs : UInt64) : K :=
  let sourceWeight := if record.source = ascii "turn" then 2 else 4 / 5
  let pinBias := if record.pinned then 1500 else 0
  let tombstoneBias := if record.tombstone then -1500 else 0
  record.importanceScore * 10 + env.log1p record.hitCount.toNat * 4 + sourceWeight + pinBias +
    tombstoneBias -
      HybridRetriever.ageHours (max record.updatedAtMs record.lastAccessMs) nowMs * (3 / 2)

/-- The order in which a compaction goes through the records. -/
def rankBefore (env : Platform K) (nowMs : UInt64) (l r : MemoryRecord K) : Bool :=
  if evictionRank env l nowMs = evictionRank env r nowMs then l.updatedAtMs < r.updatedAtMs
  else evictionRank env l nowMs < evictionRank env r nowMs

omit [LinearOrder K] in
def pinnedRatio (pinned active : Nat) : K := if active = 0 then 0 else (pinned : K) / active

def isPinBlockedByRatio (pinned active : Nat) (maxRatio : K) : Bool :=
  if active = 0 then false
  else if maxRatio ≤ 0 then true
  else if 1 ≤ maxRatio then false
  else maxRatio < pinnedRatio pinned active

end Ranks

structure WorkspacePinStats where
  active : Nat
  pinned : Nat
  hasEvictable : Bool

/-- The records a compaction of a workspace is about: all of them for the empty name. -/
def inScope (workspaceId : Bytes) (record : MemoryRecord K) : Bool :=
  workspaceId = [] || record.workspaceId = workspaceId

def liveRecords (records : StringMap (MemoryRecord K)) (wanted : MemoryRecord K → Bool) :
    List (MemoryRecord K) :=
  records.values.filter fun r => wanted r && !r.tombstone

def pinStats (live : List (MemoryRecord K)) : WorkspacePinStats where
  active := live.length
  pinned := live.countP (·.pinned)
  hasEvictable := live.any fun r => !r.pinned

def computeWorkspacePinStats (records : StringMap (MemoryRecord K)) (workspaceId : Bytes) :
    WorkspacePinStats :=
  pinStats (liveRecords records fun r => r.workspaceId = workspaceId)

/-! ### Updates -/

def estimateResidentCharge (record : MemoryRecord K) : Nat :=
  (if 0 < record.sizeBytes then record.sizeBytes else computeRecordSizeBytes record) +
    HybridRetriever.estimateDocBytes record

namespace Resident

def upsertRecordInMemory [Field K] [LinearOrder K] (env : Platform K) (resident : Resident K)
    (record : MemoryRecord K) : Resident K :=
  let mapKey := recordMapKey record.workspaceId record.id
  let newCharge := estimateResidentCharge record
  let oldCharge := resident.residentChargeBytes.getD mapKey 0
  { resident with
    records := resident.records.insert mapKey record
    dedupIndex :=
      if record.dedupKey = [] then resident.dedupIndex
      else resident.dedupIndex.insert (dedupMapKey record.workspaceId record.dedupKey) record.id
    residentChargeBytes :=
      if newCharge = 0 then resident.residentChargeBytes.erase mapKey
      else resident.residentChargeBytes.insert mapKey newCharge
    retriever :=
      if record.tombstone then resident.retriever.remove record.workspaceId record.id
      else resident.retriever.index env record
    residentUsedBytes :=
      if oldCharge ≤ newCharge then resident.residentUsedBytes + (newCharge - oldCharge)
      else resident.residentUsedBytes - (oldCharge - newCharge) }

/-- The dedup key that is cleared is the one the resident copy holds. -/
def removeRecordInMemory (resident : Resident K) (record : MemoryRecord K) :
    Resident K :=
  let mapKey := recordMapKey record.workspaceId record.id
  let removedCharge := resident.residentChargeBytes.getD mapKey 0
  match resident.records[mapKey]? with
  | none => { resident with residentChargeBytes := resident.residentChargeBytes.erase mapKey }
  | some held =>
    { resident with
      records := resident.records.erase mapKey
      dedupIndex :=
        if held.dedupKey = [] then resident.dedupIndex
        else resident.dedupIndex.erase (dedupMapKey record.workspaceId held.dedupKey)
      residentChargeBytes := resident.residentChargeBytes.erase mapKey
      residentUsedBytes := resident.residentUsedBytes - removedCharge
      retriever := resident.retriever.remove record.workspaceId record.id }

section Fields
variable (env : Platform K) (resident : Resident K) (record : MemoryRecord K)

section
variable [Field K] [LinearOrder K]

@[simp] theorem records_upsert : (resident.upsertRecordInMemory env record).records =
    resident.records.insert (recordMapKey record.workspaceId record.id) record := rfl

theorem dedupIndex_upsert : (resident.upsertRecordInMemory env record).dedupIndex =
    if record.dedupKey = [] then resident.dedupIndex
    else resident.dedupIndex.insert (dedupMapKey record.workspaceId record.dedupKey)
      record.id := rfl

theorem retriever_upsert : (resident.upsertRecordInMemory env record).retriever =
    resident.retriever.index env record := by
  rw [upsertRecordInMemory]
  by_cases h : record.tombstone
  · simp [h, HybridRetriever.index]
  · simp [h]

end

@[simp] theorem records_remove : (resident.removeRecordInMemory record).records =
    resident.records.erase (recordMapKey record.workspaceId record.id) := by
  rw [removeRecordInMemory]
  cases h : resident.records[recordMapKey record.workspaceId record.id]? with
  | some _ => rfl
  | none => exact (erase_of_lookup_none h).symm

theorem dedupIndex_remove_of_some {held : MemoryRecord K}
    (h : resident.records[recordMapKey record.workspaceId record.id]? = some held) :
    (resident.removeRecordInMemory record).dedupIndex =
      if held.dedupKey = [] then resident.dedupIndex
      else resident.dedupIndex.erase (dedupMapKey record.workspaceId held.dedupKey) := by
  rw [removeRecordInMemory, h]

theorem dedupIndex_remove_of_none
    (h : resident.records[recordMapKey record.workspaceId record.id]? = none) :
    (resident.removeRecordInMemory record).dedupIndex = resident.dedupIndex := by
  rw [removeRecordInMemory, h]

end Fields

/-! ### The resident limit -/

/-- An eviction leaves the dedup index as it is. -/
def evict (resident : Resident K) (victim : MemoryRecord K) : Resident K :=
  let mapKey := recordMapKey victim.workspaceId victim.id
  { resident with
    records := resident.records.erase mapKey
    residentChargeBytes := resident.residentChargeBytes.erase mapKey
    residentUsedBytes := resident.residentUsedBytes - resident.residentChargeBytes.getD mapKey 0
    retriever := resident.retriever.remove victim.workspaceId victim.id
    residentEvictedCount := resident.residentEvictedCount + 1 }

section Eviction
variable [Field K] [LinearOrder K]

/-- The better of the candidate so far and a record, which a pin or a spared key rules out. -/
def betterCandidate (env : Platform K) (spared : List Bytes) (nowMs : UInt64)
    (best : Option (MemoryRecord K)) (record : MemoryRecord K) : Option (MemoryRecord K) :=
  if record.pinned || spared.contains (recordMapKey record.workspaceId record.id) then best
  else
    match best with
    | none => some record
    | some candidate => if rankBefore env nowMs record candidate then some record else best

def pickCandidate (env : Platform K) (t : Nat) (records : StringMap (MemoryRecord K))
    (spared : List Bytes) (nowMs : UInt64) : Option (MemoryRecord K) :=
  (env.iterate t records).foldl (fun best kv => betterCandidate env spared nowMs best kv.2) none

/-- Protected records are candidates only when there are no others. -/
def selectEvictionCandidate (env : Platform K) (t : Nat) (records : StringMap (MemoryRecord K))
    (protectedKeys : List Bytes) (nowMs : UInt64) : Option (MemoryRecord K) :=
  match pickCandidate env t records protectedKeys nowMs with
  | some victim => some victim
  | none => if protectedKeys = [] then none else pickCandidate env t records [] nowMs

/-- The loop of `EnforceResidentHardLimit`, with the clock reading of each pass. -/
def enforceLoop (env : Platform K) (protectedKeys : List Bytes) (limit : Nat) :
    Nat → Resident K → Nat → Resident K × Nat
  | 0, resident, tick => (resident, tick)
  | fuel + 1, resident, tick =>
    if resident.residentUsedBytes ≤ limit ∨ resident.records.isEmpty then (resident, tick)
    else
      match selectEvictionCandidate env tick resident.records protectedKeys (env.clock tick) with
      | none => (resident, tick + 1)
      | some victim =>
        if recordMapKey victim.workspaceId victim.id ∈ resident.records then
          enforceLoop env protectedKeys limit fuel (resident.evict victim) (tick + 1)
        else enforceLoop env protectedKeys limit fuel resident (tick + 1)

/-- Every pass that does not end the loop evicts a record, so there are no more
passes than records. The callers protect nothing. -/
def enforceResidentHardLimit (env : Platform K) (limit : Nat) (resident : Resident K)
    (tick : Nat) : Resident K × Nat :=
  if limit = 0 then (resident, tick)
  else enforceLoop env [] limit (resident.records.size + 1) resident tick

theorem betterCandidate_cases (env : Platform K) (spared : List Bytes) (nowMs : UInt64)
    (best : Option (MemoryRecord K)) (record : MemoryRecord K) :
    betterCandidate env spared nowMs best record = best ∨
      betterCandidate env spared nowMs best record = some record ∧ record.pinned = false := by
  unfold betterCandidate
  cases hpin : record.pinned with
  | true => exact Or.inl (by simp)
  | false =>
    split
    · exact Or.inl rfl
    · split
      · exact Or.inr ⟨rfl, rfl⟩
      · split
        · exact Or.inr ⟨rfl, rfl⟩
        · exact Or.inl rfl

theorem pickCandidate_mem {env : Platform K} {t : Nat} {records : StringMap (MemoryRecord K)}
    {spared : List Bytes} {nowMs : UInt64} {victim : MemoryRecord K}
    (h : pickCandidate env t records spared nowMs = some victim) :
    ∃ k : Bytes, records[k]? = some victim ∧ victim.pinned = false := by
  have loop : ∀ (kvs : List (Bytes × MemoryRecord K)) (best : Option (MemoryRecord K)),
      (∀ v, best = some v → ∃ k : Bytes, records[k]? = some v ∧ v.pinned = false) →
      (∀ kv ∈ kvs, records[kv.1]? = some kv.2) →
      ∀ v, kvs.foldl (fun best kv => betterCandidate env spared nowMs best kv.2) best = some v →
        ∃ k : Bytes, records[k]? = some v ∧ v.pinned = false := by
    intro kvs
    induction kvs with
    | nil => exact fun best hbest _ => hbest
    | cons kv rest ih =>
      intro best hbest hmem
      refine ih _ ?_ fun x hx => hmem x (List.mem_cons_of_mem _ hx)
      intro v hv
      rcases betterCandidate_cases env spared nowMs best kv.2 with heq | ⟨heq, hpin⟩
      · exact hbest v (heq ▸ hv)
      · cases heq.symm.trans hv
        exact ⟨kv.1, hmem kv List.mem_cons_self, hpin⟩
  exact loop _ none (fun v hv => by cases hv) (fun kv hkv => (env.mem_iterate t).mp hkv) victim h

theorem selectEvictionCandidate_mem {env : Platform K} {t : Nat}
    {records : StringMap (MemoryRecord K)} {protectedKeys : List Bytes} {nowMs : UInt64}
    {victim : MemoryRecord K}
    (h : selectEvictionCandidate env t records protectedKeys nowMs = some victim) :
    ∃ k : Bytes, records[k]? = some victim ∧ victim.pinned = false := by
  rw [selectEvictionCandidate] at h
  split at h
  · cases h
    exact pickCandidate_mem ‹_›
  · split at h
    · cases h
    · exact pickCandidate_mem h

/-- The rule for evictions: what evicting an unpinned resident record preserves,
enforcing the limit preserves. -/
theorem enforceResidentHardLimit_induction {env : Platform K} {P : Resident K → Prop}
    (step : ∀ (resident : Resident K) (k : Bytes) victim, P resident → resident.records[k]? = some victim →
      victim.pinned = false → P (resident.evict victim)) (limit : Nat) {resident : Resident K}
    (tick : Nat) (h : P resident) :
    P (enforceResidentHardLimit env limit resident tick).1 := by
  have loop : ∀ fuel (resident : Resident K) tick, P resident →
      P (enforceLoop env [] limit fuel resident tick).1 := by
    intro fuel
    induction fuel with
    | zero => exact fun _ _ hP => hP
    | succ fuel ih =>
      intro resident tick hP
      rw [enforceLoop]
      split
      · exact hP
      · split
        · exact hP
        · rename_i victim hsel
          obtain ⟨k, hk, hpin⟩ := selectEvictionCandidate_mem hsel
          split
          · exact ih _ _ (step resident k victim hP hk hpin)
          · exact ih _ _ hP
  rw [enforceResidentHardLimit]
  split
  · exact h
  · exact loop _ _ _ h

theorem tick_le_enforceResidentHardLimit (env : Platform K) (limit : Nat)
    (resident : Resident K) (tick : Nat) :
    tick ≤ (enforceResidentHardLimit env limit resident tick).2 := by
  have loop : ∀ fuel (resident : Resident K) tick,
      tick ≤ (enforceLoop env [] limit fuel resident tick).2 := by
    intro fuel
    induction fuel with
    | zero => exact fun _ tick => Nat.le_refl tick
    | succ fuel ih =>
      intro resident tick
      rw [enforceLoop]
      split
      · exact Nat.le_refl tick
      · split
        · exact Nat.le_succ tick
        · split <;> exact Nat.le_of_succ_le (ih _ _)
  rw [enforceResidentHardLimit]
  split
  · exact Nat.le_refl tick
  · exact loop _ _ _

end Eviction

end Resident

end PoorguyMem
