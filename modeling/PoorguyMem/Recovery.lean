import PoorguyMem.Operations

/-!
# Warmup

What a new engine reads back: every document row that decodes, then the events
beyond the checkpoint of their workspace. A scan that fails because the
namespace is missing counts as an empty one; any other failure ends the warmup.
-/

namespace PoorguyMem

open ByteString PropertyTree

variable {K : Type}

/-- The entries of a scan, or the error that ends the warmup. -/
def scanOrMissing (res : ScanResult) : Except Bytes (List KeyValueEntry) :=
  if res.error = [] then .ok res.entries
  else if isMissingScanNamespaceError res.error then .ok []
  else .error res.error

/-- The defaults a record gets that comes from the store. -/
def fillDefaults (record : MemoryRecord K) : MemoryRecord K :=
  let record := fillSizeBytes record
  { record with
    lastAccessMs := if record.lastAccessMs = 0 then record.updatedAtMs else record.lastAccessMs
    tier := if record.tier = [] then (if record.tombstone then ascii "cold" else ascii "hot")
      else record.tier }

section Records
variable [One K]

/-- The record of a document row, its names taken from the key where it has none. -/
def rowRecord (env : Platform K) (entry : KeyValueEntry) : Option (MemoryRecord K) :=
  (deserializeRecord env entry.value).bind fun record =>
    let workspaceId :=
      if record.workspaceId = [] then workspaceFromDocKey entry.key else record.workspaceId
    let id := if record.id = [] then memoryIdFromDocKey entry.key else record.id
    if id = [] ∨ workspaceId = [] then none
    else some (fillDefaults { record with id := id, workspaceId := workspaceId })

/-- The workspace and the event key of a checkpoint row. -/
def rowCheckpoint (env : Platform K) (entry : KeyValueEntry) : Option (Bytes × Bytes) :=
  (env.json.parse entry.value).bind fun json =>
    let named := json.getString (ascii "workspace_id") []
    let workspace :=
      if named = [] then (if (ascii "ws/").isPrefixOf entry.key then entry.key.drop 3 else [])
      else named
    let eventKey := json.getString (ascii "event_key") []
    if workspace = [] ∨ eventKey = [] then none else some (workspace, eventKey)

def readCheckpoints (env : Platform K) (entries : List KeyValueEntry) : StringMap Bytes :=
  entries.foldl (fun checkpoints entry =>
    match rowCheckpoint env entry with
    | some (workspace, eventKey) => checkpoints.insert workspace eventKey
    | none => checkpoints) ∅

/-- The event is not beyond the checkpoint of its workspace. -/
def isCovered (checkpoints : StringMap Bytes) (workspace eventKey : Bytes) : Bool :=
  match checkpoints[workspace]? with
  | some ckptKey => le eventKey ckptKey
  | none => false

/-- The record of an event beyond the checkpoint of its workspace. -/
def eventRecord (env : Platform K) (checkpoints : StringMap Bytes) (event : KeyValueEntry) :
    Option (MemoryRecord K) :=
  (env.json.parse event.value).bind fun json =>
    let named := json.getString (ascii "workspace_id") []
    let workspace := if named = [] then workspaceFromEventKey event.key else named
    if workspace = [] ∨ isCovered checkpoints workspace event.key then none
    else
      (deserializeRecord env (json.getString (ascii "record_payload") [])).bind fun incoming =>
        let workspaceId :=
          if incoming.workspaceId = [] then workspace else incoming.workspaceId
        let id :=
          if incoming.id = [] then json.getString (ascii "memory_id") [] else incoming.id
        if id = [] then none else some { incoming with id := id, workspaceId := workspaceId }

end Records

section Warmup
variable [Field K] [LinearOrder K]

def loadRow (env : Platform K) (resident : Resident K) (entry : KeyValueEntry) :
    Resident K :=
  match rowRecord env entry with
  | some record => resident.upsertRecordInMemory env record
  | none => resident

def replayEvent (env : Platform K) (checkpoints : StringMap Bytes) (resident : Resident K)
    (event : KeyValueEntry) : Resident K :=
  match eventRecord env checkpoints event with
  | none => resident
  | some incoming =>
    let shouldApply :=
      match resident.records[recordMapKey incoming.workspaceId incoming.id]? with
      | some current => isIncomingNewer current incoming
      | none => true
    if shouldApply then resident.upsertRecordInMemory env (fillDefaults incoming) else resident

/-- What is resident with the events replayed, and the error where it fails. -/
def replayProjectionEvents (env : Platform K) (store : StoreReader) (resident : Resident K) :
    Resident K × Option Bytes :=
  match scanOrMissing (store.scan projectionCkptNs [] [] 0) with
  | .error error => (resident, some error)
  | .ok ckptEntries =>
    let checkpoints := readCheckpoints env ckptEntries
    match scanOrMissing (store.scan eventsNs [] [] 0) with
    | .error error => (resident, some error)
    | .ok events => (events.foldl (replayEvent env checkpoints) resident, none)

structure WarmupResult (K : Type) where
  engine : MemoryEngine K
  tick : Nat
  error : Option Bytes

/-- `Warmup` returns true where there is no error. -/
def warmup (env : Platform K) (store : StoreReader) (engine : MemoryEngine K) (tick : Nat) :
    WarmupResult K :=
  match scanOrMissing (store.scan docNs [] [] 0) with
  | .error error => ⟨engine, tick, some error⟩
  | .ok entries =>
    let loaded := entries.foldl (loadRow env) engine.toResident
    match replayProjectionEvents env store loaded with
    | (resident, some error) => ⟨{ engine with toResident := resident }, tick, some error⟩
    | (resident, none) =>
      let (resident, tick) :=
        resident.enforceResidentHardLimit env engine.residentLimitBytes tick
      ⟨{ engine with toResident := resident }, tick, none⟩

end Warmup

end PoorguyMem
