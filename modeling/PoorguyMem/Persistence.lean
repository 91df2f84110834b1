import PoorguyMem.Engine
import PoorguyMem.Store
import PoorguyMem.Lib.Throwing

/-!
# Batches

What the engine writes to the store: the document, posting and vector rows of a
record, its event and the checkpoint of its workspace. Building a batch reads
the clock and draws sequence numbers, and `write_json` can throw only on a
record, since every other tree that is written is flat.
-/

namespace PoorguyMem

open ByteString PropertyTree Throwing

variable {K : Type}

/-- The clock readings taken and the sequence numbers drawn so far. -/
structure Cursor where
  tick : Nat
  localSeq : Nat

def Platform.nowMs (env : Platform K) : Program Cursor UInt64 :=
  advance (fun c => env.clock c.tick) fun c => { c with tick := c.tick + 1 }

/-- `local_seq_.fetch_add(1)`, with the value before. -/
def nextSeq : Program Cursor Nat :=
  advance (fun c => c.localSeq) fun c => { c with localSeq := c.localSeq + 1 }

def currentTick : Program Cursor Nat := advance (fun c => c.tick) fun c => c

def nextMemoryId (env : Platform K) : Program Cursor Bytes := do
  let nowMs ← env.nowMs
  let seq ← nextSeq
  return ascii "m-" ++ zeroPadUint64 nowMs ++ ascii "-" ++ zeroPadUint64 (UInt64.ofNat seq)

def upsertEntry (nameSpace key value : Bytes) (ts : UInt64) : WriteEntry :=
  ⟨.upsert, ⟨nameSpace, key, value, ts⟩⟩

def deleteEntry (nameSpace key : Bytes) (ts : UInt64) : WriteEntry :=
  ⟨.delete, ⟨nameSpace, key, [], ts⟩⟩

/-! ### The rows of a record -/

def bucketForPosting (env : Platform K) (workspaceId term : Bytes) : UInt64 :=
  env.hash (workspaceId ++ ascii ":" ++ term) % 16

def encodeVectorCsv (env : Platform K) (vec : List K) : Bytes :=
  List.intercalate (ascii ",") (vec.map env.showFloat)

/-- The vector row that goes with a record in the buckets of the postings. -/
def deleteVectorEntries (env : Platform K) (record : MemoryRecord K) (ts : UInt64) :
    List WriteEntry :=
  [deleteEntry vecCodeNs (buildVecCodeKey record.workspaceId
      (bucketForPosting env record.workspaceId record.id) record.id) ts,
    deleteEntry vecFpNs (buildVecFpKey record.workspaceId record.id) ts]

def deletePostingEntry (env : Platform K) (record : MemoryRecord K) (ts : UInt64)
    (term : Bytes) : WriteEntry :=
  deleteEntry postingBlkNs (buildPostingKey record.workspaceId term
    (bucketForPosting env record.workspaceId term) record.id) ts

def deleteTermsFor (env : Platform K) (t : Nat) (record : MemoryRecord K) (ts : UInt64) :
    List WriteEntry :=
  (env.iterateSet t (tokenize record.content)).map (deletePostingEntry env record ts)

section Rows
variable [Field K] [LinearOrder K]

def vecCodeEntry (env : Platform K) (record : MemoryRecord K) : WriteEntry :=
  let vecBucket := bucketForVector (embed env record.content embeddingDim) % 256
  upsertEntry vecCodeNs (buildVecCodeKey record.workspaceId vecBucket record.id)
    (env.json.print (flatTree
      [(ascii "model_id", ascii "hash-embed-v1"), (ascii "bucket", showUint64 vecBucket),
        (ascii "dim", decimal 64), (ascii "updated_at_ms", showUint64 record.updatedAtMs)]))
    record.updatedAtMs

def vecFpEntry (env : Platform K) (record : MemoryRecord K) : WriteEntry :=
  upsertEntry vecFpNs (buildVecFpKey record.workspaceId record.id)
    (env.json.print (flatTree
      [(ascii "model_id", ascii "hash-embed-v1"), (ascii "dim", decimal 64),
        (ascii "updated_at_ms", showUint64 record.updatedAtMs),
        (ascii "vector_csv", encodeVectorCsv env (embed env record.content embeddingDim))]))
    record.updatedAtMs

end Rows

def termDictEntry (env : Platform K) (record : MemoryRecord K) (term : Bytes) (tf : Nat) :
    WriteEntry :=
  upsertEntry termDictNs (buildTermDictKey record.workspaceId term)
    (env.json.print ((flatTree
      [(ascii "df", decimal 1), (ascii "cf", decimal tf), (ascii "max_tf", decimal tf),
        (ascii "updated_at", showUint64 record.updatedAtMs)]).addChild (ascii "block_refs")
      (makeArray [buildPostingKey record.workspaceId term
        (bucketForPosting env record.workspaceId term) record.id])))
    record.updatedAtMs

def postingEntry (env : Platform K) (record : MemoryRecord K) (docLen : Nat) (term : Bytes)
    (tf : Nat) : WriteEntry :=
  upsertEntry postingBlkNs (buildPostingKey record.workspaceId term
      (bucketForPosting env record.workspaceId term) record.id)
    (env.json.print (flatTree
      [(ascii "doc_id", record.id), (ascii "tf", decimal tf), (ascii "doc_len", decimal docLen),
        (ascii "flags", if record.pinned then ascii "pinned" else ascii "normal"),
        (ascii "updated_at", showUint64 record.updatedAtMs)]))
    record.updatedAtMs

def dropIndexEntries (env : Platform K) (t : Nat) (record : MemoryRecord K) (ts : UInt64) :
    List WriteEntry :=
  deleteTermsFor env t record ts ++ deleteVectorEntries env record ts

/-- The rows beside the document: those of the resident copy are deleted, then
those of the record are deleted or written. -/
def indexEntries [Field K] [LinearOrder K] (env : Platform K) (t : Nat)
    (old : Option (MemoryRecord K)) (record : MemoryRecord K) : List WriteEntry :=
  let tokens := tokenize record.content
  (old.elim [] fun rec => dropIndexEntries env t rec record.updatedAtMs) ++
    if record.tombstone then dropIndexEntries env t record record.updatedAtMs
    else
      vecCodeEntry env record :: vecFpEntry env record ::
        (env.iterate t (countTerms tokens)).flatMap fun kv =>
          [termDictEntry env record kv.1 kv.2, postingEntry env record tokens.length kv.1 kv.2]

def docEntry (record : MemoryRecord K) (text : Bytes) : WriteEntry :=
  upsertEntry docNs (buildDocKey record.workspaceId record.id) text record.updatedAtMs

def persistRecord [Field K] [LinearOrder K] (env : Platform K)
    (records : StringMap (MemoryRecord K)) (record : MemoryRecord K) :
    Program Cursor (List WriteEntry) := do
  let text ← ofOption (serializeRecord env record)
  let t ← currentTick
  return docEntry record text ::
    indexEntries env t records[recordMapKey record.workspaceId record.id]? record

/-- Every deletion reads the clock for its own time. -/
def deleteRecordStorage (env : Platform K) (record : MemoryRecord K) :
    Program Cursor (List WriteEntry) := do
  let t ← currentTick
  let docTs ← env.nowMs
  let vecCodeTs ← env.nowMs
  let vecFpTs ← env.nowMs
  (env.iterateSet t (tokenize record.content)).foldlM
    (fun writes term => do
      let ts ← env.nowMs
      return writes ++ [deletePostingEntry env record ts term])
    [deleteEntry docNs (buildDocKey record.workspaceId record.id) docTs,
      deleteEntry vecCodeNs (buildVecCodeKey record.workspaceId
        (bucketForPosting env record.workspaceId record.id) record.id) vecCodeTs,
      deleteEntry vecFpNs (buildVecFpKey record.workspaceId record.id) vecFpTs]

/-! ### Events and checkpoints -/

def opTypeName : OpType → Bytes
  | .pin => ascii "pin"
  | .delete => ascii "delete"
  | .upsert => ascii "upsert"

def eventFields (eventKey workspace : Bytes) (record : MemoryRecord K) (opType : OpType)
    (reason : Bytes) (nowMs : UInt64) (nodeId payload : Bytes) : List (Bytes × Bytes) :=
  [(ascii "event_key", eventKey), (ascii "workspace_id", workspace),
    (ascii "memory_id", record.id), (ascii "reason", reason),
    (ascii "op_type", opTypeName opType), (ascii "updated_at_ms", showUint64 nowMs),
    (ascii "version", showUint64 record.version), (ascii "node_id", nodeId),
    (ascii "record_payload", payload)]

/-- The event of a record, and its key. -/
def appendProjectionEvent (env : Platform K) (nodeId : Bytes) (record : MemoryRecord K)
    (opType : OpType) (reason : Bytes) : Program Cursor (WriteEntry × Bytes) := do
  let nowMs := max record.updatedAtMs (← env.nowMs)
  let seq := (← nextSeq) + 1
  let workspace := if record.workspaceId = [] then ascii "default" else record.workspaceId
  let eventKey := buildEventKey workspace nowMs (UInt64.ofNat seq)
  let payload ← ofOption (serializeRecord env record)
  let event := flatTree (eventFields eventKey workspace record opType reason nowMs nodeId payload)
  return (upsertEntry eventsNs eventKey (env.json.print event) nowMs, eventKey)

def ckptFields (workspaceId eventKey : Bytes) (ts : UInt64) : List (Bytes × Bytes) :=
  [(ascii "workspace_id", workspaceId), (ascii "event_key", eventKey),
    (ascii "updated_at_ms", showUint64 ts)]

def appendProjectionCheckpoint (env : Platform K) (workspaceId eventKey : Bytes)
    (ts : UInt64) : List WriteEntry :=
  if workspaceId = [] ∨ eventKey = [] then []
  else
    [upsertEntry projectionCkptNs (buildCkptKey workspaceId)
      (env.json.print (flatTree (ckptFields workspaceId eventKey ts))) ts]

end PoorguyMem
