import PoorguyMem.Persistence

/-!
# The operations

`Write`, `Query`, `Pin` and `CompactInternal`. Each one that changes the store
works in the same three steps: it builds a batch from what is resident, has the
store write the batch, and then updates what is resident. How the store fares is
an input, the `Fate` of the call.
-/

namespace PoorguyMem

open ByteString Throwing

variable {K : Type}

/-- A batch with the records it puts and those it removes, in the order in which
they are applied in memory. -/
structure Plan (K : Type) where
  writes : List WriteEntry
  upserts : List (MemoryRecord K)
  removals : List (MemoryRecord K)

def Plan.empty : Plan K := ⟨[], [], []⟩

def Plan.applyInMemory [Field K] [LinearOrder K] (plan : Plan K) (env : Platform K)
    (resident : Resident K) : Resident K :=
  plan.removals.foldl Resident.removeRecordInMemory
    (plan.upserts.foldl (Resident.upsertRecordInMemory env) resident)

/-- The engine, its store and the clock readings taken so far. -/
structure World (K : Type) where
  engine : MemoryEngine K
  store : Store
  tick : Nat

def World.cursor (w : World K) : Cursor := ⟨w.tick, w.engine.localSeq⟩

def World.atCursor (w : World K) (c : Cursor) : World K :=
  { w with tick := c.tick, engine := { w.engine with localSeq := c.localSeq } }

def World.commit (w : World K) (outcome : BatchOutcome) (plan : Plan K) : World K :=
  { w with store := w.store.batchWrite outcome plan.writes }

/-- What a call meets: the outcome of its batch and of the route row that follows
a `Write`, and the usage the store reports before and after a compaction. -/
structure Fate where
  main : BatchOutcome
  route : BatchOutcome
  usageBefore : StoreUsage
  usageAfter : StoreUsage

section Operations
variable [Field K] [LinearOrder K]

/-! ### Write -/

structure WriteDraft (K : Type) where
  nowMs : UInt64
  plan : Plan K
  storedIds : List Bytes
  dedupedIds : List Bytes
  warnings : List Bytes
  projectedActive : Nat
  projectedPinned : Nat

def WriteDraft.warn (draft : WriteDraft K) (warning : Bytes) : WriteDraft K :=
  { draft with warnings := draft.warnings ++ [warning] }

/-- The id that `dedup_index_` holds for the key of an input record, where
`Write` looks for it. -/
def suppressedBy (engine : MemoryEngine K) (input : WriteInput K)
    (recIn : WriteRecordInput K) : Option Bytes :=
  if recIn.dedupKey ≠ [] ∧ input.writeMode ≠ ascii "append" then
    engine.dedupIndex[dedupMapKey input.workspaceId recIn.dedupKey]?
  else none

/-- Whether a record may be pinned, and the warning where it may not. -/
def governPin (options : MemoryEngineOptions K) (draft : WriteDraft K) (pin : Bool)
    (id : Bytes) : Bool × WriteDraft K :=
  if !pin then (false, draft)
  else if options.pinQuotaPerWorkspace < draft.projectedPinned + 1 then
    (false, draft.warn (ascii "pin governance: quota exceeded for record " ++ id))
  else if isPinBlockedByRatio (draft.projectedPinned + 1) (draft.projectedActive + 1)
      options.maxPinnedRatio then
    (false, draft.warn (ascii "pin governance: pinned ratio exceeded for record " ++ id))
  else (true, draft)

def newRecord (engine : MemoryEngine K) (input : WriteInput K) (recIn : WriteRecordInput K)
    (nowMs : UInt64) (id : Bytes) (pinned : Bool) : MemoryRecord K :=
  let record : MemoryRecord K :=
    { id := id
      workspaceId := input.workspaceId
      sessionId := if input.sessionId = [] then ascii "default" else input.sessionId
      source := if recIn.source = [] then ascii "turn" else recIn.source
      content := recIn.content
      tags := recIn.tags
      metadata := recIn.metadata
      dedupKey := recIn.dedupKey
      pinned := pinned
      tombstone := false
      createdAtMs := nowMs
      updatedAtMs := nowMs
      version := 1
      sizeBytes := 0
      lastAccessMs := nowMs
      hitCount := 0
      importanceScore := max 0 recIn.importance
      tier := ascii "hot"
      nodeId := engine.nodeId
      ttlS := if pinned ∧ 0 < engine.options.pinTtlOverrideS then engine.options.pinTtlOverrideS
        else recIn.ttlS
      shardId := recIn.metadata.getD (ascii "shard_id") []
      replicaRole := recIn.metadata.getD (ascii "replica_role") []
      routingEpoch := 0
      shardHint := recIn.metadata.getD (ascii "shard_hint") [] }
  { record with sizeBytes := computeRecordSizeBytes record }

def inputRecordId (env : Platform K) (recIn : WriteRecordInput K) : Program Cursor Bytes :=
  if recIn.recordId = [] then nextMemoryId env else pure recIn.recordId

/-- One pass of the loop over the input records. -/
def writeRecord (env : Platform K) (engine : MemoryEngine K) (input : WriteInput K)
    (draft : WriteDraft K) (recIn : WriteRecordInput K) : Program Cursor (WriteDraft K) :=
  if recIn.content = [] then return draft.warn (ascii "skip empty content record")
  else
    match suppressedBy engine input recIn with
    | some id => return { draft with dedupedIds := draft.dedupedIds ++ [id] }
    | none => do
      let id ← inputRecordId env recIn
      let (pinned, draft) := governPin engine.options draft recIn.pin id
      let record := newRecord engine input recIn draft.nowMs id pinned
      if engine.options.maxRecordBytes < record.sizeBytes then
        return draft.warn (ascii "skip oversized record: " ++ id)
      else
        let rows ← persistRecord env engine.records record
        let (event, eventKey) ←
          appendProjectionEvent env engine.nodeId record .upsert (ascii "write")
        let ckpt := appendProjectionCheckpoint env record.workspaceId eventKey draft.nowMs
        return { draft with
          plan := { draft.plan with
            writes := draft.plan.writes ++ rows ++ event :: ckpt
            upserts := draft.plan.upserts ++ [record] }
          storedIds := draft.storedIds ++ [id]
          projectedActive := draft.projectedActive + 1
          projectedPinned := draft.projectedPinned + (if pinned then 1 else 0) }

def writeDraft (env : Platform K) (engine : MemoryEngine K) (input : WriteInput K) :
    Program Cursor (WriteDraft K) := do
  let nowMs ← env.nowMs
  let stats := computeWorkspacePinStats engine.records input.workspaceId
  input.records.foldlM (writeRecord env engine input)
    ⟨nowMs, Plan.empty, [], [], [], stats.active, stats.pinned⟩

def routeEntry (env : Platform K) (workspaceId : Bytes) (nowMs : UInt64) : WriteEntry :=
  upsertEntry routeMetaNs (buildRouteMetaKey workspaceId)
    (env.json.print (PropertyTree.flatTree
      [(ascii "bucket_count", decimal 1), (ascii "hot_level", ascii "normal"),
        (ascii "shard_hint", ascii "workspace")])) nowMs

/-- What `Write` does once its batch is committed. -/
def settleWrite (env : Platform K) (route : BatchOutcome) (input : WriteInput K)
    (draft : WriteDraft K) (w : World K) : World K :=
  let (resident, tick) := (draft.plan.applyInMemory env w.engine.toResident).enforceResidentHardLimit
    env w.engine.residentLimitBytes w.tick
  { engine := { w.engine with
      toResident := resident, indexGeneration := w.engine.indexGeneration + 1 }
    store := w.store.batchWrite route [routeEntry env input.workspaceId draft.nowMs]
    tick := tick }

def WriteDraft.output (draft : WriteDraft K) (ok : Bool) (generation : Nat)
    (warnings : List Bytes) : WriteOutput where
  ok := ok
  storedIds := draft.storedIds
  dedupedIds := draft.dedupedIds
  indexGeneration := generation
  warnings := draft.warnings ++ warnings

/-- No output where an exception leaves the call. -/
def write (env : Platform K) (fate : Fate) (w : World K) (input : WriteInput K) :
    World K × Option WriteOutput :=
  if input.workspaceId = [] then
    (w, some ⟨false, [], [], 0, [ascii "workspace_id is required"]⟩)
  else if input.records = [] then (w, some ⟨true, [], [], 0, [ascii "records is empty"]⟩)
  else
    match writeDraft env w.engine input w.cursor with
    | (none, c) => (w.atCursor c, none)
    | (some draft, c) =>
      let w := w.atCursor c
      if draft.plan.writes = [] then
        (w, some (draft.output
          (draft.storedIds ≠ [] || draft.dedupedIds ≠ [] || draft.warnings ≠ []) 0 []))
      else
        let w := w.commit fate.main draft.plan
        if fate.main.ok then
          let w := settleWrite env fate.route input draft w
          (w, some (draft.output true w.engine.indexGeneration []))
        else (w, some (draft.output false 0 [fate.main.error]))

/-! ### Query -/

/-- The hits that are not expired, up to the first that exceeds the token budget. -/
def admitHits (engine : MemoryEngine K) (input : QueryInput K) (nowMs : UInt64) :
    Nat → List (QueryHit K) → List (QueryHit K)
  | _, [] => []
  | usedTokens, hit :: rest =>
    let hitTokens := estimateTokenCount hit.content
    if 0 < input.tokenBudget ∧ input.tokenBudget < (usedTokens + hitTokens : Nat) then []
    else
      let expired :=
        match engine.records[recordMapKey input.workspaceId hit.memoryId]? with
        | some record => isExpired record nowMs
        | none => false
      if expired then admitHits engine input nowMs usedTokens rest
      else hit :: admitHits engine input nowMs (usedTokens + hitTokens) rest

/-- The access of a hit is noted on the resident record. -/
def noteAccess (workspaceId : Bytes) (nowMs : UInt64) (records : StringMap (MemoryRecord K))
    (hit : QueryHit K) : StringMap (MemoryRecord K) :=
  let mapKey := recordMapKey workspaceId hit.memoryId
  match records[mapKey]? with
  | none => records
  | some record =>
    if record.tombstone then records
    else
      records.insert mapKey
        { record with lastAccessMs := nowMs, hitCount := record.hitCount + 1 }

def query (env : Platform K) (w : World K) (input : QueryInput K) : World K × QueryOutput K :=
  if input.workspaceId = [] then (w, ⟨[], ⟨0, 0, 0⟩⟩)
  else
    let (retrieved, tick) := w.engine.retriever.query env input w.tick
    let nowMs := env.clock tick
    let hits := admitHits w.engine input nowMs 0 retrieved.hits
    let engine := { w.engine with
      records := hits.foldl (noteAccess input.workspaceId nowMs) w.engine.records
      queryCacheTotal := w.engine.queryCacheTotal + 1
      denseProbeQueryCount := w.engine.denseProbeQueryCount + 1
      denseProbeCountTotal :=
        w.engine.denseProbeCountTotal + retrieved.debugStats.denseCandidates }
    ({ w with engine := engine, tick := tick + 1 }, ⟨hits, retrieved.debugStats⟩)

/-! ### Pin -/

/-- The record with the error text where it is missing or does not decode. -/
def loadRecord (env : Platform K) (engine : MemoryEngine K) (store : StoreReader)
    (workspaceId memoryId : Bytes) : Except Bytes (MemoryRecord K) :=
  match engine.records[recordMapKey workspaceId memoryId]? with
  | some record => .ok record
  | none =>
    let res := store.get docNs (buildDocKey workspaceId memoryId)
    if !res.found then
      .error (if res.error = [] then ascii "record not found" else res.error)
    else
      match deserializeRecord env res.value with
      | some record => .ok record
      | none => .error (env.json.parseError res.value)

/-- Why a record may not be pinned. -/
def pinRefusal (engine : MemoryEngine K) (workspaceId : Bytes) (record : MemoryRecord K)
    (pin : Bool) : Option Bytes :=
  if pin && !record.pinned then
    let stats := computeWorkspacePinStats engine.records workspaceId
    if engine.options.pinQuotaPerWorkspace < stats.pinned + 1 then
      some (ascii "pin quota exceeded")
    else if isPinBlockedByRatio (stats.pinned + 1) (stats.active + 1)
        engine.options.maxPinnedRatio then
      some (ascii "pin ratio exceeded")
    else none
  else none

def pinnedRecord (engine : MemoryEngine K) (record : MemoryRecord K) (pin : Bool)
    (nowMs : UInt64) : MemoryRecord K :=
  let record := { record with
    pinned := pin
    updatedAtMs := nowMs
    version := record.version + 1
    importanceScore := if pin then 100 else min record.importanceScore 5
    ttlS := if pin ∧ 0 < engine.options.pinTtlOverrideS then engine.options.pinTtlOverrideS
      else record.ttlS }
  { record with sizeBytes := computeRecordSizeBytes record, nodeId := engine.nodeId }

def pinDraft (env : Platform K) (engine : MemoryEngine K) (store : StoreReader)
    (workspaceId memoryId : Bytes) (pin : Bool) : Program Cursor (Except Bytes (Plan K)) :=
  match loadRecord env engine store workspaceId memoryId with
  | .error error => return .error error
  | .ok loaded =>
    match pinRefusal engine workspaceId loaded pin with
    | some error => return .error error
    | none => do
      let record := pinnedRecord engine loaded pin (← env.nowMs)
      let rows ← persistRecord env engine.records record
      let (event, eventKey) ← appendProjectionEvent env engine.nodeId record .pin (ascii "pin")
      let ckptMs ← env.nowMs
      let ckpt := appendProjectionCheckpoint env record.workspaceId eventKey
        (max record.updatedAtMs ckptMs)
      return .ok ⟨rows ++ event :: ckpt, [record], []⟩

def settlePin (env : Platform K) (plan : Plan K) (w : World K) : World K :=
  let (resident, tick) := (plan.applyInMemory env w.engine.toResident).enforceResidentHardLimit
    env w.engine.residentLimitBytes w.tick
  { w with engine := { w.engine with toResident := resident }, tick := tick }

/-- The error text where `Pin` returns false; no result where an exception leaves it. -/
def pin (env : Platform K) (fate : Fate) (w : World K) (workspaceId memoryId : Bytes)
    (pin : Bool) : World K × Option (Except Bytes Unit) :=
  match pinDraft env w.engine w.store.reader workspaceId memoryId pin w.cursor with
  | (none, c) => (w.atCursor c, none)
  | (some (.error error), c) => (w.atCursor c, some (.error error))
  | (some (.ok plan), c) =>
    let w := (w.atCursor c).commit fate.main plan
    if fate.main.ok then (settlePin env plan w, some (.ok ()))
    else (w, some (.error fate.main.error))

/-! ### Compaction -/

def isOverHighWatermark (options : MemoryEngineOptions K) (usage : StoreUsage) : Bool :=
  let maxDisk := options.diskBudgetGb * 1024 * 1024 * 1024
  if maxDisk = 0 then false
  else options.gcHighWatermark ≤ (usage.diskUsedBytes : K) / maxDisk.toNat

def tombstoneOf (engine : MemoryEngine K) (candidate : MemoryRecord K) (nowMs : UInt64) :
    MemoryRecord K :=
  let tomb := { candidate with
    tombstone := true
    tier := ascii "cold"
    updatedAtMs := nowMs
    lastAccessMs := nowMs
    version := max candidate.version 1 + 1
    nodeId := engine.nodeId }
  { tomb with sizeBytes := computeRecordSizeBytes tomb }

def Plan.actions (plan : Plan K) : Nat := plan.upserts.length + plan.removals.length

/-- One pass of the loop over the live records. -/
def tombstoneRecord (env : Platform K) (engine : MemoryEngine K) (nowMs : UInt64)
    (maxBatch : Nat) (plan : Plan K) (candidate : MemoryRecord K) : Program Cursor (Plan K) :=
  if maxBatch ≤ plan.actions ∨ candidate.pinned ∨ candidate.tombstone then return plan
  else do
    let tomb := tombstoneOf engine candidate nowMs
    let rows ← persistRecord env engine.records tomb
    let (event, eventKey) ←
      appendProjectionEvent env engine.nodeId tomb .delete (ascii "compact_tombstone")
    let ckpt := appendProjectionCheckpoint env tomb.workspaceId eventKey nowMs
    return { plan with
      writes := plan.writes ++ rows ++ event :: ckpt
      upserts := plan.upserts ++ [tomb] }

/-- One pass of the loop over the tombstones. -/
def deleteTombstone (env : Platform K) (engine : MemoryEngine K) (nowMs : UInt64)
    (maxBatch : Nat) (plan : Plan K) (candidate : MemoryRecord K) : Program Cursor (Plan K) :=
  if maxBatch ≤ plan.actions ∨ HybridRetriever.ageMs candidate.updatedAtMs nowMs <
      engine.options.tombstoneRetentionMs then return plan
  else do
    let rows ← deleteRecordStorage env candidate
    let (event, eventKey) ←
      appendProjectionEvent env engine.nodeId candidate .delete (ascii "compact_delete")
    let ckpt := appendProjectionCheckpoint env candidate.workspaceId eventKey nowMs
    return { plan with
      writes := plan.writes ++ rows ++ event :: ckpt
      removals := plan.removals ++ [candidate] }

structure CompactDraft (K : Type) where
  nowMs : UInt64
  plan : Plan K

def compactDraft (env : Platform K) (engine : MemoryEngine K) (workspaceId : Bytes) :
    Program Cursor (CompactDraft K) := do
  let nowMs ← env.nowMs
  let t ← currentTick
  let maxBatch := if engine.options.gcBatchSize = 0 then 256 else engine.options.gcBatchSize
  let snapshot := ((env.iterate t engine.records).map Prod.snd).filter (inScope workspaceId)
  let active := (snapshot.filter fun r => !r.tombstone).insertionSort fun l r =>
    rankBefore env nowMs r l = false
  let tombstones := snapshot.filter (·.tombstone)
  let plan ← active.foldlM (tombstoneRecord env engine nowMs maxBatch) Plan.empty
  if engine.options.enableTombstoneGc then
    let plan ← tombstones.foldlM (deleteTombstone env engine nowMs maxBatch) plan
    return ⟨nowMs, plan⟩
  else return ⟨nowMs, plan⟩

/-- The in-memory half of a compaction whose batch is committed. -/
def settleCompact (env : Platform K) (plan : Plan K) (w : World K) : World K :=
  { w with
    engine := { w.engine with
      toResident := plan.applyInMemory env w.engine.toResident
      gcEvictedCount := w.engine.gcEvictedCount + plan.removals.length } }

/-- What a compaction records about itself at its end, committed or not. -/
def closeCompact (workspaceId : Bytes) (nowMs : UInt64) (usage : StoreUsage) (w : World K) :
    World K :=
  let stats := pinStats (liveRecords w.engine.records (inScope workspaceId))
  let exhausted := 0 < stats.active && !stats.hasEvictable
  let pinBlocked := exhausted &&
    w.engine.options.maxPinnedRatio ≤ pinnedRatio stats.pinned stats.active
  { w with
    engine := { w.engine with
      gcLastRunMs := nowMs
      capacityBlocked := isOverHighWatermark w.engine.options usage && exhausted || pinBlocked } }

def compactInternal (env : Platform K) (fate : Fate) (w : World K) (workspaceId : Bytes)
    (force : Bool) : World K × Option CompactOutput :=
  let before := fate.usageBefore
  if !force && !isOverHighWatermark w.engine.options before then
    (w, some ⟨false, false, before.memUsedBytes, before.diskUsedBytes, before.memUsedBytes,
      before.diskUsedBytes, 0, 0, 1, 1, 0, 0⟩)
  else
    match compactDraft env w.engine workspaceId w.cursor with
    | (none, c) => (w.atCursor c, none)
    | (some ⟨nowMs, plan⟩, c) =>
      let w := w.atCursor c
      let settled := plan.writes ≠ [] && fate.main.ok
      let w := if plan.writes = [] then w else w.commit fate.main plan
      let w := if settled then settleCompact env plan w else w
      let w := closeCompact workspaceId nowMs fate.usageAfter w
      let reclaimed := if settled then plan.removals.length else 0
      (w, some ⟨true, w.engine.capacityBlocked, before.memUsedBytes, before.diskUsedBytes,
        fate.usageAfter.memUsedBytes, fate.usageAfter.diskUsedBytes, plan.upserts.length,
        plan.removals.length, 1, 1, reclaimed, reclaimed⟩)

end Operations

end PoorguyMem
