import PoorguyMem.World
import PoorguyMem.Contract

/-!
# The dispatcher

`McpDispatcher`: each handler reads its input from a property tree of parameters,
calls the engine and puts the output into a tree of strings. What is measured,
the latencies and the metrics of a snapshot, is given with the occasion of a
call, as the fate of its batch is.
-/

namespace PoorguyMem

open ByteString PropertyTree JsonValue

variable {K : Type}

/-- The engine's platform with the other functions and libraries the server uses:
`get<int>`, `strtod` on a whole text, a document printed and parsed as a property
tree, and the name of the store backend. -/
structure Server (K : Type) where
  env : Platform K
  readInt : Bytes → Option Int
  strtod : Bytes → Option K
  reparse : Value K → Option Ptree
  effectiveBackend : Bytes

structure Latencies (K : Type) where
  sparseMs : K
  denseMs : K
  rerankMs : K
  totalMs : K

structure MetricsSnapshot (K : Type) where
  p95ReadMs : K
  p95WriteMs : K
  tokenReductionRatio : K
  fallbackRate : K

structure StoreCompactTriggerResult where
  triggered : Bool
  noop : Bool
  busy : Bool
  async : Bool
  partitionCount : Nat
  message : Bytes

/-- What a request meets. -/
structure Occasion (K : Type) where
  fate : Fate
  latencies : Latencies K
  metrics : MetricsSnapshot K
  storeCompact : StoreCompactTriggerResult

inductive Method where
  | write | query | pin | stats | compact | storeCompact | describe
  deriving DecidableEq

def Method.name : Method → Bytes
  | .write => ascii "memory.write"
  | .query => ascii "memory.query"
  | .pin => ascii "memory.pin"
  | .stats => ascii "memory.stats"
  | .compact => ascii "memory.compact"
  | .storeCompact => ascii "store.compact"
  | .describe => ascii "memory.describe"

def Method.all : List Method := [.write, .query, .pin, .stats, .compact, .storeCompact, .describe]

def Method.find (name : Bytes) : Option Method := Method.all.find? fun m => m.name = name

theorem Method.find_name (m : Method) : Method.find m.name = some m := by
  cases m <;> decide

theorem Method.name_of_find {name : Bytes} {m : Method} (h : Method.find name = some m) :
    m.name = name := by
  simpa using List.find?_some h

/-! ### Inputs -/

section Inputs
variable [Field K] (srv : Server K)

def readWriteRecord (recJson : Ptree) : WriteRecordInput K where
  recordId := recJson.getString (ascii "record_id") []
  source := recJson.getString (ascii "source") (ascii "turn")
  content := recJson.getString (ascii "content") []
  tags := readStringArray recJson (ascii "tags")
  importance := getOr srv.env.translators.readDouble recJson (ascii "importance") 1
  ttlS := getOr srv.env.translators.readUint64 recJson (ascii "ttl_s") 0
  pin := getOr srv.env.translators.readBool recJson (ascii "pin") false
  dedupKey := recJson.getString (ascii "dedup_key") []
  metadata := readMetadata recJson

def readWriteInput (params : Ptree) : WriteInput K where
  workspaceId := params.getString (ascii "workspace_id") []
  sessionId := params.getString (ascii "session_id") (ascii "default")
  records :=
    match params.getChild (ascii "records") with
    | some records => records.children.map fun node => readWriteRecord srv node.2
    | none => []
  writeMode := params.getString (ascii "write_mode") (ascii "upsert")

/-- `static_cast<size_t>` of an `int` -/
def sizeOfInt (n : Int) : Nat := (n % 2 ^ 64).toNat

def readFilters (filters : Ptree) : QueryFilter where
  sessionId := filters.getString (ascii "session_id") []
  sources := readStringArray filters (ascii "sources")
  tagsAny := readStringArray filters (ascii "tags_any")
  updatedAfterMs := getOr srv.env.translators.readUint64 filters (ascii "updated_after_ms") 0
  updatedBeforeMs := getOr srv.env.translators.readUint64 filters (ascii "updated_before_ms") 0
  pinnedOnly := getOr srv.env.translators.readBool filters (ascii "pinned_only") false

def readRecall (options : Ptree) : RecallOptions where
  sparseK := sizeOfInt (getOr srv.readInt options (ascii "sparse_k") 200)
  denseK := sizeOfInt (getOr srv.readInt options (ascii "dense_k") 200)
  oversample := sizeOfInt (getOr srv.readInt options (ascii "oversample") 4)

def readRerank (rerank : Ptree) : RerankWeights K where
  wSparse := getOr srv.env.translators.readDouble rerank (ascii "w_sparse") (11 / 20)
  wDense := getOr srv.env.translators.readDouble rerank (ascii "w_dense") (3 / 10)
  wFreshness := getOr srv.env.translators.readDouble rerank (ascii "w_freshness") (1 / 10)
  wPin := getOr srv.env.translators.readDouble rerank (ascii "w_pin") (1 / 20)

/-- A part that is left out is read from the empty tree: every default is that of
the field. The flag `debug` is read too, but the engine does not look at it. -/
def readQueryInput (params : Ptree) : QueryInput K where
  workspaceId := params.getString (ascii "workspace_id") []
  query := params.getString (ascii "query") []
  topK := sizeOfInt (getOr srv.readInt params (ascii "top_k") 8)
  tokenBudget := getOr srv.readInt params (ascii "token_budget") 2048
  filters := readFilters srv ((params.getChild (ascii "filters")).getD Ptree.empty)
  recallOptions := readRecall srv ((params.getChild (ascii "recall")).getD Ptree.empty)
  rerank := readRerank srv ((params.getChild (ascii "rerank")).getD Ptree.empty)

end Inputs

/-! ### Stats -/

structure IndexStats (K : Type) where
  segmentCount : Nat
  postingTerms : Nat
  vectorCount : Nat
  queryCacheHitRate : K
  denseProbeCountP95 : K
  coldRehydrateCount : Nat

structure StatsSnapshot (K : Type) extends MetricsSnapshot K where
  memUsedBytes : Nat
  diskUsedBytes : Nat
  residentUsedBytes : Nat
  residentLimitBytes : Nat
  residentEvictedCount : Nat
  diskFallbackSearchCount : Nat
  itemCount : Nat
  tombstoneCount : Nat
  gcLastRunMs : Nat
  gcEvictedCount : Nat
  capacityBlocked : Bool
  writeAckMode : Bytes
  effectiveBackend : Bytes
  indexStats : IndexStats K

/-- `MemoryEngine::Stats`. The counters of cache hits, of rehydrations and of
searches on disk are never raised. -/
def stats [Field K] [LinearOrder K] (srv : Server K) (occ : Occasion K) (w : World K)
    (workspaceId : Bytes) : StatsSnapshot K :=
  let engine := w.engine
  let records := engine.records.values.filter (inScope workspaceId)
  let live := records.filter fun r => !r.tombstone
  let pins := pinStats live
  { occ.metrics with
    memUsedBytes := occ.fate.usageBefore.memUsedBytes
    diskUsedBytes := occ.fate.usageBefore.diskUsedBytes
    residentUsedBytes := engine.residentUsedBytes
    residentLimitBytes := engine.residentLimitBytes
    residentEvictedCount := engine.residentEvictedCount
    diskFallbackSearchCount := 0
    itemCount := records.length
    tombstoneCount := records.countP (·.tombstone)
    gcLastRunMs := engine.gcLastRunMs.toNat
    gcEvictedCount := engine.gcEvictedCount
    capacityBlocked := engine.capacityBlocked ||
      (0 < pins.active && !pins.hasEvictable &&
        engine.options.maxPinnedRatio ≤ pinnedRatio pins.pinned pins.active)
    writeAckMode := ascii "durable"
    effectiveBackend := srv.effectiveBackend
    indexStats :=
      { segmentCount := (records.map (·.workspaceId)).dedup.length
        postingTerms := (live.flatMap fun r => tokenize r.content).dedup.length
        vectorCount := live.length
        queryCacheHitRate :=
          if 0 < engine.queryCacheTotal then 0 / (engine.queryCacheTotal : K) else 0
        denseProbeCountP95 :=
          if 0 < engine.denseProbeQueryCount then
            (engine.denseProbeCountTotal : K) / engine.denseProbeQueryCount
          else 0
        coldRehydrateCount := 0 } }

/-! ### Results -/

/-- A scalar that is put into a tree, by the overload of `put` that takes it. -/
inductive Scalar (K : Type) where
  | flag (b : Bool)
  | count (n : Nat)
  | real (x : K)
  | text (s : Bytes)

def Scalar.show (tr : Translators K) : Scalar K → Bytes
  | .flag b => showBool b
  | .count n => decimal n
  | .real x => tr.showDouble x
  | .text s => s

def scalarFields (tr : Translators K) (scalars : List (Bytes × Scalar K)) :
    List (Bytes × Field) :=
  scalars.map fun ks => (ks.1, .text (ks.2.show tr))

def arrayField (key : Bytes) (values : List Bytes) : Bytes × Field :=
  (key, .tree (makeArray values))

section Results
variable (tr : Translators K)

def writeFields (out : WriteOutput) : List (Bytes × Field) :=
  scalarFields tr [(ascii "ok", .flag out.ok)] ++
    [arrayField (ascii "stored_ids") out.storedIds,
      arrayField (ascii "deduped_ids") out.dedupedIds] ++
    scalarFields tr [(ascii "index_generation", .count out.indexGeneration)] ++
    [arrayField (ascii "warnings") out.warnings]

def scoreScalars (scores : ScoreBreakdown K) : List (Bytes × Scalar K) :=
  [(ascii "sparse", .real scores.sparse), (ascii "dense", .real scores.dense),
    (ascii "freshness", .real scores.freshness), (ascii "pin", .real scores.pin),
    (ascii "final", .real scores.final)]

def hitFields (hit : QueryHit K) : List (Bytes × Field) :=
  scalarFields tr [(ascii "memory_id", .text hit.memoryId), (ascii "source", .text hit.source),
      (ascii "content", .text hit.content)] ++
    [arrayField (ascii "tags") hit.tags, (ascii "metadata", .tree (metadataTree hit.metadata)),
      (ascii "scores", .tree (build (scalarFields tr (scoreScalars hit.scores))))] ++
    scalarFields tr [(ascii "updated_at_ms", .count hit.updatedAtMs.toNat),
      (ascii "pinned", .flag hit.pinned)]

def latencyScalars (latencies : Latencies K) : List (Bytes × Scalar K) :=
  [(ascii "sparse", .real latencies.sparseMs), (ascii "dense", .real latencies.denseMs),
    (ascii "rerank", .real latencies.rerankMs), (ascii "total", .real latencies.totalMs)]

def debugScalars (debugStats : QueryDebugStats) : List (Bytes × Scalar K) :=
  [(ascii "sparse_candidates", .count debugStats.sparseCandidates),
    (ascii "dense_candidates", .count debugStats.denseCandidates),
    (ascii "merged_candidates", .count debugStats.mergedCandidates)]

def debugFields (latencies : Latencies K) (debugStats : QueryDebugStats) :
    List (Bytes × Field) :=
  scalarFields tr (debugScalars debugStats) ++
    [(ascii "latency_ms", .tree (build (scalarFields tr (latencyScalars latencies))))]

def queryFields (latencies : Latencies K) (out : QueryOutput K) : List (Bytes × Field) :=
  [(ascii "hits", .tree (listTree (out.hits.map fun hit => build (hitFields tr hit)))),
    (ascii "debug_stats", .tree (build (debugFields tr latencies out.debugStats)))]

def pinScalars : Except Bytes Unit → List (Bytes × Scalar K)
  | .ok () => [(ascii "ok", .flag true)]
  | .error error => [(ascii "ok", .flag false), (ascii "error", .text error)]

def statsScalars (out : StatsSnapshot K) : List (Bytes × Scalar K) :=
  [(ascii "p95_read_ms", .real out.p95ReadMs), (ascii "p95_write_ms", .real out.p95WriteMs),
    (ascii "token_reduction_ratio", .real out.tokenReductionRatio),
    (ascii "fallback_rate", .real out.fallbackRate),
    (ascii "mem_used_bytes", .count out.memUsedBytes),
    (ascii "disk_used_bytes", .count out.diskUsedBytes),
    (ascii "resident_used_bytes", .count out.residentUsedBytes),
    (ascii "resident_limit_bytes", .count out.residentLimitBytes),
    (ascii "resident_evicted_count", .count out.residentEvictedCount),
    (ascii "disk_fallback_search_count", .count out.diskFallbackSearchCount),
    (ascii "item_count", .count out.itemCount),
    (ascii "tombstone_count", .count out.tombstoneCount),
    (ascii "gc_last_run_ms", .count out.gcLastRunMs),
    (ascii "gc_evicted_count", .count out.gcEvictedCount),
    (ascii "capacity_blocked", .flag out.capacityBlocked),
    (ascii "write_ack_mode", .text out.writeAckMode),
    (ascii "effective_backend", .text out.effectiveBackend)]

def indexScalars (out : IndexStats K) : List (Bytes × Scalar K) :=
  [(ascii "segment_count", .count out.segmentCount),
    (ascii "posting_terms", .count out.postingTerms),
    (ascii "vector_count", .count out.vectorCount),
    (ascii "query_cache_hit_rate", .real out.queryCacheHitRate),
    (ascii "dense_probe_count_p95", .real out.denseProbeCountP95),
    (ascii "cold_rehydrate_count", .count out.coldRehydrateCount)]

def statsFields (out : StatsSnapshot K) : List (Bytes × Field) :=
  scalarFields tr (statsScalars out) ++
    [(ascii "index_stats", .tree (build (scalarFields tr (indexScalars out.indexStats))))]

/-- No compaction summarizes records. -/
def compactScalars (out : CompactOutput) : List (Bytes × Scalar K) :=
  [(ascii "triggered", .flag out.triggered), (ascii "capacity_blocked", .flag out.capacityBlocked),
    (ascii "mem_before_bytes", .count out.memBeforeBytes),
    (ascii "disk_before_bytes", .count out.diskBeforeBytes),
    (ascii "mem_after_bytes", .count out.memAfterBytes),
    (ascii "disk_after_bytes", .count out.diskAfterBytes),
    (ascii "summarized_count", .count 0), (ascii "tombstoned_count", .count out.tombstonedCount),
    (ascii "deleted_count", .count out.deletedCount),
    (ascii "segments_before", .count out.segmentsBefore),
    (ascii "segments_after", .count out.segmentsAfter),
    (ascii "postings_reclaimed", .count out.postingsReclaimed),
    (ascii "vectors_reclaimed", .count out.vectorsReclaimed)]

def storeCompactScalars (out : StoreCompactTriggerResult) : List (Bytes × Scalar K) :=
  [(ascii "triggered", .flag out.triggered), (ascii "noop", .flag out.noop),
    (ascii "busy", .flag out.busy), (ascii "async", .flag out.async),
    (ascii "partition_count", .count out.partitionCount), (ascii "message", .text out.message)]

end Results

/-! ### Handlers -/

/-- What an engine answers to a method. -/
inductive Answer (K : Type) where
  | write (out : WriteOutput)
  | query (out : QueryOutput K)
  | pin (out : Except Bytes Unit)
  | stats (out : StatsSnapshot K)
  | compact (out : CompactOutput)
  | storeCompact (out : StoreCompactTriggerResult)
  | describe (includeExamples : Bool) (nowMs : UInt64)

section Handlers
variable [Field K] [LinearOrder K] (srv : Server K) (occ : Occasion K)

/-- The parameters read and the engine called; no answer where an exception leaves it. -/
def answer (w : World K) (params : Ptree) : Method → World K × Option (Answer K)
  | .write =>
    let (w, out) := write srv.env occ.fate w (readWriteInput srv params)
    (w, out.map .write)
  | .query =>
    let (w, out) := query srv.env w (readQueryInput srv params)
    (w, some (.query out))
  | .pin =>
    let (w, out) := pin srv.env occ.fate w (params.getString (ascii "workspace_id") [])
      (params.getString (ascii "memory_id") [])
      (getOr srv.env.translators.readBool params (ascii "pin") true)
    (w, out.map .pin)
  | .stats => (w, some (.stats (stats srv occ w (params.getString (ascii "workspace_id") []))))
  | .compact =>
    let (w, out) :=
      compactInternal srv.env occ.fate w (params.getString (ascii "workspace_id") []) true
    (w, out.map .compact)
  | .storeCompact => (w, some (.storeCompact occ.storeCompact))
  | .describe =>
    let examples := getOr srv.env.translators.readBool params (ascii "include_examples") false
    ({ w with tick := w.tick + 1 }, some (.describe examples (srv.env.clock w.tick)))

/-- The tree a handler makes of the engine's output. -/
def resultTree : Answer K → Ptree
  | .write out => build (writeFields srv.env.translators out)
  | .query out => build (queryFields srv.env.translators occ.latencies out)
  | .pin out => build (scalarFields srv.env.translators (pinScalars out))
  | .stats out => build (statsFields srv.env.translators out)
  | .compact out => build (scalarFields srv.env.translators (compactScalars out))
  | .storeCompact out => build (scalarFields srv.env.translators (storeCompactScalars out))
  | .describe includeExamples nowMs => describe srv.env.translators includeExamples nowMs

def dispatchError (code : Int) (message : String) : Ptree :=
  build [(ascii "code", .text (showInt code)), (ascii "message", .text (ascii message))]

/-- The part of a response that follows its id. -/
def respond : Answer K → Bytes × Ptree
  | .storeCompact out =>
    if out.busy then (ascii "error", dispatchError (-32001) "store compact is busy")
    else (ascii "result", resultTree srv occ (.storeCompact out))
  | out => (ascii "result", resultTree srv occ out)

/-- `McpDispatcher::Handle`; no response where an exception leaves it. -/
def handle (w : World K) (request : Ptree) : World K × Option Ptree :=
  let id := (request.getChild (ascii "id")).getD Ptree.empty
  let params := (request.getChild (ascii "params")).getD Ptree.empty
  let response := fun (body : Bytes × Ptree) => build [(ascii "id", .tree id), (body.1, .tree body.2)]
  match Method.find (request.getString (ascii "method") []) with
  | none => (w, some (response (ascii "error", dispatchError (-32601) "method not found")))
  | some method =>
    let (w, out) := answer srv occ w params method
    (w, out.map fun out => response (respond srv occ out))

end Handlers

/-! ### The names in results -/

def keysOf (keys : List String) : List Bytes := keys.map ascii

theorem fieldNames_write (tr : Translators K) (out : WriteOutput) :
    FieldNames ((writeFields tr out).map Prod.fst) := by
  have hnames : FieldNames
      (keysOf ["ok", "stored_ids", "deduped_ids", "index_generation", "warnings"]) :=
    ⟨by decide, by decide⟩
  exact hnames

theorem fieldNames_scores (tr : Translators K) (scores : ScoreBreakdown K) :
    FieldNames ((scalarFields tr (scoreScalars scores)).map Prod.fst) := by
  have hnames : FieldNames (keysOf ["sparse", "dense", "freshness", "pin", "final"]) :=
    ⟨by decide, by decide⟩
  exact hnames

theorem fieldNames_hit (tr : Translators K) (hit : QueryHit K) :
    FieldNames ((hitFields tr hit).map Prod.fst) := by
  have hnames : FieldNames (keysOf ["memory_id", "source", "content", "tags", "metadata",
      "scores", "updated_at_ms", "pinned"]) := ⟨by decide, by decide⟩
  exact hnames

theorem fieldNames_latency (tr : Translators K) (latencies : Latencies K) :
    FieldNames ((scalarFields tr (latencyScalars latencies)).map Prod.fst) := by
  have hnames : FieldNames (keysOf ["sparse", "dense", "rerank", "total"]) :=
    ⟨by decide, by decide⟩
  exact hnames

theorem fieldNames_debug (tr : Translators K) (latencies : Latencies K)
    (debugStats : QueryDebugStats) :
    FieldNames ((debugFields tr latencies debugStats).map Prod.fst) := by
  have hnames : FieldNames (keysOf ["sparse_candidates", "dense_candidates",
      "merged_candidates", "latency_ms"]) := ⟨by decide, by decide⟩
  exact hnames

theorem fieldNames_query (tr : Translators K) (latencies : Latencies K) (out : QueryOutput K) :
    FieldNames ((queryFields tr latencies out).map Prod.fst) := by
  have hnames : FieldNames (keysOf ["hits", "debug_stats"]) :=
    ⟨by decide, by decide⟩
  exact hnames

theorem fieldNames_pin (tr : Translators K) (out : Except Bytes Unit) :
    FieldNames ((scalarFields tr (pinScalars out)).map Prod.fst) := by
  have hok : FieldNames (keysOf ["ok"]) := ⟨by decide, by decide⟩
  have herror : FieldNames (keysOf ["ok", "error"]) := ⟨by decide, by decide⟩
  cases out with
  | ok => exact hok
  | error => exact herror

theorem fieldNames_index (tr : Translators K) (out : IndexStats K) :
    FieldNames ((scalarFields tr (indexScalars out)).map Prod.fst) := by
  have hnames : FieldNames (keysOf ["segment_count", "posting_terms", "vector_count",
      "query_cache_hit_rate", "dense_probe_count_p95", "cold_rehydrate_count"]) :=
    ⟨by decide, by decide⟩
  exact hnames

theorem fieldNames_stats (tr : Translators K) (out : StatsSnapshot K) :
    FieldNames ((statsFields tr out).map Prod.fst) := by
  have hnames : FieldNames (keysOf ["p95_read_ms", "p95_write_ms", "token_reduction_ratio",
      "fallback_rate", "mem_used_bytes", "disk_used_bytes", "resident_used_bytes",
      "resident_limit_bytes", "resident_evicted_count", "disk_fallback_search_count",
      "item_count", "tombstone_count", "gc_last_run_ms", "gc_evicted_count", "capacity_blocked",
      "write_ack_mode", "effective_backend", "index_stats"]) :=
    ⟨by decide, by decide⟩
  exact hnames

theorem fieldNames_compact (tr : Translators K) (out : CompactOutput) :
    FieldNames ((scalarFields tr (compactScalars out)).map Prod.fst) := by
  have hnames : FieldNames (keysOf ["triggered", "capacity_blocked", "mem_before_bytes",
      "disk_before_bytes", "mem_after_bytes", "disk_after_bytes", "summarized_count",
      "tombstoned_count", "deleted_count", "segments_before", "segments_after",
      "postings_reclaimed", "vectors_reclaimed"]) := ⟨by decide, by decide⟩
  exact hnames

theorem fieldNames_storeCompact (tr : Translators K) (out : StoreCompactTriggerResult) :
    FieldNames ((scalarFields tr (storeCompactScalars out)).map Prod.fst) := by
  have hnames : FieldNames (keysOf ["triggered", "noop", "busy", "async", "partition_count",
      "message"]) := ⟨by decide, by decide⟩
  exact hnames

theorem fieldNames_describe [Field K] (tr : Translators K) (includeExamples : Bool) (nowMs : UInt64) :
    FieldNames ((describeFields tr includeExamples nowMs).map Prod.fst) := by
  have hkeys : (describeFields tr includeExamples nowMs).map Prod.fst =
      keysOf ["describe_version", "schema_revision", "generated_at_ms", "server", "method_names",
        "methods", "errors"] := by
    simp only [describeFields, textFields, keysOf, List.map_cons, List.map_nil, List.cons_append,
      List.nil_append]
  rw [hkeys]
  exact ⟨by decide, by decide⟩

end PoorguyMem
