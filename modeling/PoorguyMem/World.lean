import PoorguyMem.Recovery
import PoorguyMem.Lib.Runs

/-!
# Runs of the engine

A run is a list of steps: calls, one after the other, and restarts. A restart
makes a new engine over the same store and warms it up; it may come while a call
is under way, after that call's batch and before the update in memory.
-/

namespace PoorguyMem

open ByteString Throwing

variable {K : Type}

inductive Call (K : Type) where
  | write (input : WriteInput K)
  | query (input : QueryInput K)
  | pin (workspaceId memoryId : Bytes) (pin : Bool)
  | compact (workspaceId : Bytes)
  | gc

inductive Reply (K : Type) where
  | write (output : WriteOutput)
  | query (output : QueryOutput K)
  | pin (result : Except Bytes Unit)
  | compact (output : CompactOutput)
  | threw

inductive Step (K : Type) where
  | call (call : Call K) (fate : Fate)
  | restart (interrupted : Option (Call K × Fate)) (nodeId : Bytes)
      (options : MemoryEngineOptions K)

section Steps
variable [Field K] [LinearOrder K]

def perform (env : Platform K) (fate : Fate) (w : World K) : Call K → World K × Reply K
  | .write input =>
    let (w, output) := write env fate w input
    (w, output.elim .threw .write)
  | .query input =>
    let (w, output) := query env w input
    (w, .query output)
  | .pin workspaceId memoryId flag =>
    let (w, result) := pin env fate w workspaceId memoryId flag
    (w, result.elim .threw .pin)
  | .compact workspaceId =>
    let (w, output) := compactInternal env fate w workspaceId true
    (w, output.elim .threw .compact)
  | .gc =>
    let (w, output) := compactInternal env fate w [] false
    (w, output.elim .threw .compact)

/-- A call that has built a batch, with what it still needs to end. -/
inductive Request (K : Type) where
  | write (input : WriteInput K) (draft : WriteDraft K)
  | pin (plan : Plan K)
  | compact (workspaceId : Bytes) (draft : CompactDraft K)

def Request.plan : Request K → Plan K
  | .write _ draft => draft.plan
  | .pin plan => plan
  | .compact _ draft => draft.plan

def preparePin (env : Platform K) (w : World K) (workspaceId memoryId : Bytes) (flag : Bool) :
    Option (Request K) × Cursor :=
  match pinDraft env w.engine w.store.reader workspaceId memoryId flag w.cursor with
  | (some (.ok plan), c) => (some (.pin plan), c)
  | (_, c) => (none, c)

def prepareCompact (env : Platform K) (fate : Fate) (w : World K) (workspaceId : Bytes)
    (force : Bool) : Option (Request K) × Cursor :=
  if !force && !isOverHighWatermark w.engine.options fate.usageBefore then (none, w.cursor)
  else
    match compactDraft env w.engine workspaceId w.cursor with
    | (some draft, c) =>
      (if draft.plan.writes = [] then none else some (.compact workspaceId draft), c)
    | (none, c) => (none, c)

def prepareWrite (env : Platform K) (w : World K) (input : WriteInput K) :
    Option (Request K) × Cursor :=
  if input.workspaceId = [] ∨ input.records = [] then (none, w.cursor)
  else
    match writeDraft env w.engine input w.cursor with
    | (some draft, c) => (if draft.plan.writes = [] then none else some (.write input draft), c)
    | (none, c) => (none, c)

/-- The first step of a call: what it reads and the batch it builds, if any. -/
def prepare (env : Platform K) (fate : Fate) (w : World K) :
    Call K → Option (Request K) × Cursor
  | .write input => prepareWrite env w input
  | .query _ => (none, w.cursor)
  | .pin workspaceId memoryId flag => preparePin env w workspaceId memoryId flag
  | .compact workspaceId => prepareCompact env fate w workspaceId true
  | .gc => prepareCompact env fate w [] false

/-- The last step of a call whose batch is committed. -/
def settle (env : Platform K) (fate : Fate) (request : Request K) (w : World K) : World K :=
  match request with
  | .write input draft => settleWrite env fate.route input draft w
  | .pin plan => settlePin env plan w
  | .compact workspaceId ⟨nowMs, plan⟩ =>
    closeCompact workspaceId nowMs fate.usageAfter (settleCompact env plan w)

/-- The last step of a call whose batch failed. -/
def abandon (fate : Fate) (request : Request K) (w : World K) : World K :=
  match request with
  | .write _ _ => w
  | .pin _ => w
  | .compact workspaceId ⟨nowMs, _⟩ => closeCompact workspaceId nowMs fate.usageAfter w

/-- What a call leaves when the process ends right after its batch. -/
def interrupt (env : Platform K) (w : World K) (call : Call K) (fate : Fate) : World K :=
  match prepare env fate w call with
  | (none, c) => w.atCursor c
  | (some request, c) => (w.atCursor c).commit fate.main request.plan

def restart (env : Platform K) (w : World K) (nodeId : Bytes)
    (options : MemoryEngineOptions K) : World K :=
  let res := warmup env w.store.reader (MemoryEngine.new nodeId options) w.tick
  { w with engine := res.engine, tick := res.tick }

def next (env : Platform K) (w : World K) : Step K → World K
  | .call call fate => (perform env fate w call).1
  | .restart none nodeId options => restart env w nodeId options
  | .restart (some (call, fate)) nodeId options =>
    restart env (interrupt env w call fate) nodeId options

/-- A new engine over an empty store. -/
def World.initial (nodeId : Bytes) (options : MemoryEngineOptions K) : World K where
  engine := MemoryEngine.new nodeId options
  store := Store.empty
  tick := 0

end Steps

end PoorguyMem
