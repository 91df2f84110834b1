import PoorguyMem.Codec
import PoorguyMem.Lib.JsonValue

/-!
# The published contract

What `McpDispatcher::Describe` returns: the schemas of every method's input and
output with their annotations, and around them the server's names, the semantics,
the errors and the examples. Schemas are kept as such and become trees where
`Describe` puts them into its result.
-/

namespace PoorguyMem

open ByteString PropertyTree JsonValue

variable {K : Type}

/-! ### Schemas -/

def jsonSchema (type : ScalarType) (description : String) : Schema :=
  .scalar type (ascii description) [] none

def arraySchema (description : String) (items : Schema) : Schema :=
  .arrayOf (ascii description) items

def stringArraySchema (description : String) : Schema :=
  arraySchema description (jsonSchema .string "")

/-- An object schema with `additionalProperties` false. -/
def objectSchema (description : String) (properties : List (String × Schema))
    (required : List String) : Schema :=
  .record (ascii description) (properties.map fun p => (ascii p.1, p.2)) (required.map ascii)

def setDefault (fallback : Bytes) : Schema → Schema
  | .scalar type description choices _ => .scalar type description choices (some fallback)
  | schema => schema

def setEnum (choices : List String) : Schema → Schema
  | .scalar type description _ fallback => .scalar type description (choices.map ascii) fallback
  | schema => schema

def typeName : ScalarType → Bytes
  | .string => ascii "string"
  | .integer => ascii "integer"
  | .number => ascii "number"
  | .boolean => ascii "boolean"

/-- `JsonSchema`: a description is left out where it is empty. -/
def schemaHead (type description : Bytes) : List (Bytes × Field) :=
  (ascii "type", .text type) ::
    if description = [] then [] else [(ascii "description", .text description)]

/-- `SetRequired` and `SetEnum`: an empty list is left out. -/
def listField (key : Bytes) (values : List Bytes) : List (Bytes × Field) :=
  if values = [] then [] else [(key, .tree (makeArray values))]

mutual
def schemaTree : Schema → Ptree
  | .scalar type description choices fallback =>
    build (schemaHead (typeName type) description ++ listField (ascii "enum") choices ++
      (fallback.map fun v => (ascii "default", Field.text v)).toList)
  | .anyArray description => build (schemaHead (ascii "array") description)
  | .arrayOf description items =>
    build (schemaHead (ascii "array") description ++ [(ascii "items", .tree (schemaTree items))])
  | .anyObject description => build (schemaHead (ascii "object") description)
  | .record description properties required =>
    build (schemaHead (ascii "object") description ++
      [(ascii "additionalProperties", .text (showBool false)),
        (ascii "properties", .tree (.node [] (propertyTrees properties)))] ++
      listField (ascii "required") required)

def propertyTrees : List (Bytes × Schema) → List (Bytes × Ptree)
  | [] => []
  | (k, schema) :: rest => (k, schemaTree schema) :: propertyTrees rest
end

/-! ### What the methods return -/

def writeOutputSchema : Schema :=
  objectSchema "memory.write output."
    [("ok", jsonSchema .boolean "Durable write success."),
      ("stored_ids", stringArraySchema "Stored memory ids."),
      ("deduped_ids", stringArraySchema "Deduplicated memory ids."),
      ("index_generation", jsonSchema .integer "Index generation after write."),
      ("warnings", stringArraySchema "Write warnings.")]
    ["ok", "stored_ids", "deduped_ids", "index_generation", "warnings"]

def scoreSchema : Schema :=
  objectSchema "Score breakdown."
    [("sparse", jsonSchema .number ""), ("dense", jsonSchema .number ""),
      ("freshness", jsonSchema .number ""), ("pin", jsonSchema .number ""),
      ("final", jsonSchema .number "")]
    ["sparse", "dense", "freshness", "pin", "final"]

def hitSchema : Schema :=
  objectSchema "Query hit."
    [("memory_id", jsonSchema .string ""), ("source", jsonSchema .string ""),
      ("content", jsonSchema .string ""), ("tags", stringArraySchema ""),
      ("metadata", .anyObject []), ("scores", scoreSchema),
      ("updated_at_ms", jsonSchema .integer ""), ("pinned", jsonSchema .boolean "")]
    ["memory_id", "source", "content", "tags", "metadata", "scores", "updated_at_ms", "pinned"]

def debugLatencySchema : Schema :=
  objectSchema ""
    [("sparse", jsonSchema .number ""), ("dense", jsonSchema .number ""),
      ("rerank", jsonSchema .number ""), ("total", jsonSchema .number "")]
    ["sparse", "dense", "rerank", "total"]

def debugSchema : Schema :=
  objectSchema "Debug stats."
    [("sparse_candidates", jsonSchema .integer ""), ("dense_candidates", jsonSchema .integer ""),
      ("merged_candidates", jsonSchema .integer ""), ("latency_ms", debugLatencySchema)]
    ["sparse_candidates", "dense_candidates", "merged_candidates", "latency_ms"]

def queryOutputSchema : Schema :=
  objectSchema "memory.query output."
    [("hits", arraySchema "Ranked hits." hitSchema), ("debug_stats", debugSchema)]
    ["hits", "debug_stats"]

def pinOutputSchema : Schema :=
  objectSchema "memory.pin output."
    [("ok", jsonSchema .boolean "Operation status."),
      ("error", jsonSchema .string "Present when ok=false.")]
    ["ok"]

def indexSchema : Schema :=
  objectSchema "Index statistics."
    [("segment_count", jsonSchema .integer ""), ("posting_terms", jsonSchema .integer ""),
      ("vector_count", jsonSchema .integer ""), ("query_cache_hit_rate", jsonSchema .number ""),
      ("dense_probe_count_p95", jsonSchema .number ""),
      ("cold_rehydrate_count", jsonSchema .integer "")]
    ["segment_count", "posting_terms", "vector_count", "query_cache_hit_rate",
      "dense_probe_count_p95", "cold_rehydrate_count"]

def statsOutputSchema : Schema :=
  objectSchema "memory.stats output."
    [("p95_read_ms", jsonSchema .number ""), ("p95_write_ms", jsonSchema .number ""),
      ("token_reduction_ratio", jsonSchema .number ""), ("fallback_rate", jsonSchema .number ""),
      ("mem_used_bytes", jsonSchema .integer ""), ("disk_used_bytes", jsonSchema .integer ""),
      ("resident_used_bytes", jsonSchema .integer ""),
      ("resident_limit_bytes", jsonSchema .integer ""),
      ("resident_evicted_count", jsonSchema .integer ""),
      ("disk_fallback_search_count", jsonSchema .integer ""),
      ("item_count", jsonSchema .integer ""), ("tombstone_count", jsonSchema .integer ""),
      ("gc_last_run_ms", jsonSchema .integer ""), ("gc_evicted_count", jsonSchema .integer ""),
      ("capacity_blocked", jsonSchema .boolean ""), ("write_ack_mode", jsonSchema .string ""),
      ("effective_backend", jsonSchema .string ""), ("index_stats", indexSchema)]
    ["p95_read_ms", "p95_write_ms", "token_reduction_ratio", "fallback_rate", "mem_used_bytes",
      "disk_used_bytes", "resident_used_bytes", "resident_limit_bytes", "resident_evicted_count",
      "disk_fallback_search_count", "item_count", "tombstone_count", "gc_last_run_ms",
      "gc_evicted_count", "capacity_blocked", "write_ack_mode", "effective_backend", "index_stats"]

def compactOutputSchema : Schema :=
  objectSchema "memory.compact output."
    [("triggered", jsonSchema .boolean ""), ("capacity_blocked", jsonSchema .boolean ""),
      ("mem_before_bytes", jsonSchema .integer ""), ("disk_before_bytes", jsonSchema .integer ""),
      ("mem_after_bytes", jsonSchema .integer ""), ("disk_after_bytes", jsonSchema .integer ""),
      ("summarized_count", jsonSchema .integer ""), ("tombstoned_count", jsonSchema .integer ""),
      ("deleted_count", jsonSchema .integer ""), ("segments_before", jsonSchema .integer ""),
      ("segments_after", jsonSchema .integer ""), ("postings_reclaimed", jsonSchema .integer ""),
      ("vectors_reclaimed", jsonSchema .integer "")]
    ["triggered", "capacity_blocked", "mem_before_bytes", "disk_before_bytes", "mem_after_bytes",
      "disk_after_bytes", "summarized_count", "tombstoned_count", "deleted_count",
      "segments_before", "segments_after", "postings_reclaimed", "vectors_reclaimed"]

def describeOutputSchema : Schema :=
  objectSchema "Describe response payload."
    [("describe_version", jsonSchema .string "Describe contract major version."),
      ("schema_revision", jsonSchema .string "Schema revision identifier."),
      ("generated_at_ms", jsonSchema .integer "Server generation timestamp in ms."),
      ("server", .anyObject (ascii "Server metadata.")),
      ("method_names", .anyArray (ascii "Exposed method names.")),
      ("methods", .anyObject (ascii "Per-method contract map.")),
      ("errors", .anyObject (ascii "Error contract by protocol layer."))]
    ["describe_version", "schema_revision", "generated_at_ms", "server", "method_names",
      "methods", "errors"]

/-! ### What the methods take -/

def describeInputSchema : Schema :=
  objectSchema "Describe request."
    [("include_examples",
      setDefault (showBool false) (jsonSchema .boolean "Include request/response examples."))]
    []

section Inputs
variable [Field K] (tr : Translators K)

def writeInputSchema : Schema :=
  objectSchema "memory.write input."
    [("workspace_id", jsonSchema .string "Workspace id."),
      ("session_id", setDefault (ascii "default") (jsonSchema .string "Session id.")),
      ("records", arraySchema "Records to write."
        (objectSchema "Write record item."
          [("record_id", jsonSchema .string "Optional caller-provided record id."),
            ("source", setDefault (ascii "turn") (jsonSchema .string "Record source label.")),
            ("content", jsonSchema .string "Record content."),
            ("tags", stringArraySchema "Tag list."),
            ("importance", setDefault (tr.showDouble 1) (jsonSchema .number "Importance score.")),
            ("ttl_s",
              setDefault (decimal 0) (jsonSchema .integer "TTL in seconds. 0 means no expiry.")),
            ("pin", setDefault (showBool false) (jsonSchema .boolean "Pin flag.")),
            ("dedup_key", jsonSchema .string "Deduplication key."),
            ("metadata", .anyObject (ascii "String key/value metadata."))]
          ["content"])),
      ("write_mode", setDefault (ascii "upsert")
        (setEnum ["upsert", "append"] (jsonSchema .string "Write mode.")))]
    ["workspace_id", "records"]

def filterSchema : Schema :=
  objectSchema "Query filters."
    [("session_id", jsonSchema .string "Filter by session."),
      ("sources", stringArraySchema "Allowed source values."),
      ("tags_any", stringArraySchema "Match any tag."),
      ("updated_after_ms", jsonSchema .integer "Lower update-time bound."),
      ("updated_before_ms", jsonSchema .integer "Upper update-time bound."),
      ("pinned_only", jsonSchema .boolean "Return pinned records only.")]
    []

def recallSchema : Schema :=
  objectSchema "Recall options."
    [("sparse_k", setDefault (decimal 200) (jsonSchema .integer "Sparse candidate count.")),
      ("dense_k", setDefault (decimal 200) (jsonSchema .integer "Dense candidate count.")),
      ("oversample",
        setDefault (decimal 4) (jsonSchema .integer "Candidate oversampling factor."))]
    []

def rerankSchema : Schema :=
  objectSchema "Rerank options."
    [("w_sparse",
        setDefault (tr.showDouble (11 / 20)) (jsonSchema .number "Sparse score weight.")),
      ("w_dense", setDefault (tr.showDouble (3 / 10)) (jsonSchema .number "Dense score weight.")),
      ("w_freshness",
        setDefault (tr.showDouble (1 / 10)) (jsonSchema .number "Freshness score weight.")),
      ("w_pin", setDefault (tr.showDouble (1 / 20)) (jsonSchema .number "Pin score weight."))]
    []

def queryInputSchema : Schema :=
  objectSchema "memory.query input."
    [("workspace_id", jsonSchema .string "Workspace id."),
      ("query", jsonSchema .string "Query text."),
      ("top_k", setDefault (decimal 8) (jsonSchema .integer "Returned hit count.")),
      ("token_budget",
        setDefault (decimal 2048) (jsonSchema .integer "Token budget; 0 means unlimited.")),
      ("filters", filterSchema), ("recall", recallSchema), ("rerank", rerankSchema tr),
      ("debug", setDefault (showBool false) (jsonSchema .boolean "Include debug stats."))]
    ["workspace_id", "query"]

end Inputs

def pinInputSchema : Schema :=
  objectSchema "memory.pin input."
    [("workspace_id", jsonSchema .string "Workspace id."),
      ("memory_id", jsonSchema .string "Target memory id."),
      ("pin", setDefault (showBool true) (jsonSchema .boolean "Pin=true, unpin=false."))]
    ["workspace_id", "memory_id"]

def statsInputSchema : Schema :=
  objectSchema "memory.stats input."
    [("workspace_id", jsonSchema .string "Optional workspace scope."),
      ("window", setDefault (ascii "5m") (jsonSchema .string "Window hint."))]
    []

def compactInputSchema : Schema :=
  objectSchema "memory.compact input."
    [("workspace_id", jsonSchema .string "Optional workspace scope.")]
    []

/-! ### Examples -/

def textFields (fields : List (String × String)) : List (Bytes × Field) :=
  fields.map fun kv => (ascii kv.1, .text (ascii kv.2))

/-- Subtrees without names, as `push_back` lists them. -/
def listTree (items : List Ptree) : Ptree := .node [] (items.map fun t => ([], t))

/-- `MakeExample` over the parameters of a request and the result of its response. -/
def makeExample (name method : String) (params result : List (Bytes × Field)) : Ptree :=
  build [(ascii "name", .text (ascii name)),
    (ascii "request", .tree (build [(ascii "method", .text (ascii method)),
      (ascii "params", .tree (build params))])),
    (ascii "response", .tree (build [(ascii "result", .tree (build result))]))]

def describeExamples : List Ptree :=
  [makeExample "describe_with_examples" "memory.describe"
    [(ascii "include_examples", .text (showBool true))]
    (textFields [("describe_version", "2.0.0"), ("schema_revision", "2026-02-19.1")])]

def writeExamples : List Ptree :=
  [makeExample "write_success" "memory.write"
      (textFields [("workspace_id", "demo"), ("session_id", "s1")] ++
        [(ascii "records", .tree (listTree [build (textFields [("source", "turn"),
          ("content", "remember retry with exponential backoff")])]))])
      [(ascii "ok", .text (showBool true)),
        (ascii "stored_ids", .tree (makeArray [ascii "m-demo-1"])),
        (ascii "deduped_ids", .tree Ptree.empty), (ascii "index_generation", .text (decimal 1)),
        (ascii "warnings", .tree Ptree.empty)],
    makeExample "write_validation_error" "memory.write"
      [(ascii "records", .tree (listTree [build (textFields
        [("content", "invalid without workspace")])]))]
      [(ascii "ok", .text (showBool false)), (ascii "stored_ids", .tree Ptree.empty),
        (ascii "deduped_ids", .tree Ptree.empty), (ascii "index_generation", .text (decimal 0)),
        (ascii "warnings", .tree (makeArray [ascii "workspace_id is required"]))]]

def queryExamples : List Ptree :=
  [makeExample "query_success" "memory.query"
      (textFields [("workspace_id", "demo"), ("query", "retry backoff")] ++
        [(ascii "top_k", .text (decimal 3)), (ascii "token_budget", .text (decimal 1200))])
      [(ascii "hits", .tree (listTree [build (textFields [("memory_id", "m-demo-1"),
          ("content", "remember retry with exponential backoff")])])),
        (ascii "debug_stats", .tree (build [(ascii "merged_candidates", .text (decimal 1))]))],
    makeExample "query_empty_result" "memory.query"
      (textFields [("workspace_id", "demo"), ("query", "retry backoff")])
      [(ascii "hits", .tree Ptree.empty), (ascii "debug_stats", .tree Ptree.empty)]]

def pinExamples : List Ptree :=
  [makeExample "pin_success" "memory.pin"
      (textFields [("workspace_id", "demo"), ("memory_id", "m-demo-1")] ++
        [(ascii "pin", .text (showBool true))])
      [(ascii "ok", .text (showBool true))],
    makeExample "pin_not_found" "memory.pin"
      (textFields [("workspace_id", "demo"), ("memory_id", "m-not-exist")] ++
        [(ascii "pin", .text (showBool true))])
      [(ascii "ok", .text (showBool false)), (ascii "error", .text (ascii "record not found"))]]

def statsExamples : List Ptree :=
  [makeExample "stats_snapshot" "memory.stats"
    (textFields [("workspace_id", "demo"), ("window", "5m")])
    (textFields [("write_ack_mode", "durable"), ("effective_backend", "eloqstore")] ++
      [(ascii "index_stats", .tree (build [(ascii "segment_count", .text (decimal 1))]))])]

def compactExamples : List Ptree :=
  [makeExample "compact_success" "memory.compact" (textFields [("workspace_id", "demo")])
    [(ascii "triggered", .text (showBool true)),
      (ascii "capacity_blocked", .text (showBool false)),
      (ascii "deleted_count", .text (decimal 0))]]

/-! ### The description -/

structure MethodSpec where
  summary : String
  inputSchema : Schema
  outputSchema : Schema
  semantics : List (String × String)
  errors : List String
  examples : List Ptree

/-- Examples are left out where they are not asked for. -/
def MethodSpec.tree (spec : MethodSpec) (includeExamples : Bool) : Ptree :=
  build ([(ascii "summary", .text (ascii spec.summary)),
    (ascii "input_schema", .tree (schemaTree spec.inputSchema)),
    (ascii "output_schema", .tree (schemaTree spec.outputSchema)),
    (ascii "semantics", .tree (build (textFields spec.semantics))),
    (ascii "errors", .tree (makeArray (spec.errors.map ascii)))] ++
      if includeExamples then [(ascii "examples", .tree (listTree spec.examples))] else [])

def describeMethod : MethodSpec where
  summary := "Return machine-readable server contract and method schemas."
  inputSchema := describeInputSchema
  outputSchema := describeOutputSchema
  semantics :=
    [("payload_size", "Examples are omitted unless include_examples=true."),
      ("stability",
        "describe_version and schema_revision gate client parser compatibility.")]
  errors := ["jsonrpc.method_not_found", "jsonrpc.invalid_params"]
  examples := describeExamples

def writeMethod [Field K] (tr : Translators K) : MethodSpec where
  summary := "Write memory records into durable storage and index."
  inputSchema := writeInputSchema tr
  outputSchema := writeOutputSchema
  semantics :=
    [("idempotency", "With write_mode=upsert, dedup_key may suppress duplicate writes."),
      ("ordering", "stored_ids preserves accepted record order in this request."),
      ("pin_governance",
        "pin=true may be downgraded with warning when quota/ratio limits are hit.")]
  errors := ["jsonrpc.invalid_params"]
  examples := writeExamples

def queryMethod [Field K] (tr : Translators K) : MethodSpec where
  summary := "Query memory via sparse+dense hybrid retrieval."
  inputSchema := queryInputSchema tr
  outputSchema := queryOutputSchema
  semantics :=
    [("ranking", "Hits are ordered by final score descending."),
      ("token_budget",
        "Results are truncated when cumulative token estimate exceeds token_budget."),
      ("expiry", "Expired records are filtered before final output.")]
  errors := ["jsonrpc.invalid_params"]
  examples := queryExamples

def pinMethod : MethodSpec where
  summary := "Pin or unpin an existing memory record."
  inputSchema := pinInputSchema
  outputSchema := pinOutputSchema
  semantics := [("governance", "Pin operation may be rejected by quota or ratio limits.")]
  errors := ["jsonrpc.invalid_params"]
  examples := pinExamples

def statsMethod : MethodSpec where
  summary := "Return runtime usage and index counters."
  inputSchema := statsInputSchema
  outputSchema := statsOutputSchema
  semantics :=
    [("scope", "workspace_id omitted means global snapshot."),
      ("mode", "write_ack_mode is fixed to durable.")]
  errors := ["jsonrpc.invalid_params"]
  examples := statsExamples

def compactMethod : MethodSpec where
  summary := "Run compaction and return reclamation counters."
  inputSchema := compactInputSchema
  outputSchema := compactOutputSchema
  semantics :=
    [("effect", "Compaction may create tombstones and reclaim storage asynchronously.")]
  errors := ["jsonrpc.invalid_params"]
  examples := compactExamples

/-- The methods with their names, in the order in which they are listed. -/
def methodSpecs [Field K] (tr : Translators K) : List (Bytes × MethodSpec) :=
  [(ascii "memory.describe", describeMethod), (ascii "memory.write", writeMethod tr),
    (ascii "memory.query", queryMethod tr), (ascii "memory.pin", pinMethod),
    (ascii "memory.stats", statsMethod), (ascii "memory.compact", compactMethod)]

/-- `HttpError` and `JsonRpcErrorEntry`, which differ in the name of the number. -/
def errorEntry (number name : String) (code : Int) (message : String) (when : String) : Ptree :=
  build [(ascii "name", .text (ascii name)), (ascii number, .text (showInt code)),
    (ascii "message", .text (ascii message)), (ascii "when", .text (ascii when))]

def errorTree : Ptree :=
  build [(ascii "http", .tree (listTree
      [errorEntry "status" "invalid_json_http" 400 "invalid JSON" "malformed request body",
        errorEntry "status" "route_not_found_http" 404 "route not found"
          "unsupported path such as /sync/push or /sync/pull"])),
    (ascii "jsonrpc", .tree (listTree
      [errorEntry "code" "invalid_request" (-32600) "invalid request" "invalid jsonrpc envelope",
        errorEntry "code" "method_not_found" (-32601) "method not found"
          "unknown method on POST /mcp",
        errorEntry "code" "invalid_params" (-32602) "invalid params"
          "params or arguments shape mismatch",
        errorEntry "code" "store_compact_busy" (-32001) "store compact is busy"
          "store.compact async task already running"]))]

/-- The fields whose paths start with `server`. -/
def serverTree : Ptree :=
  build (textFields [("name", "poorguy-mem"), ("kind", "memory-server"),
      ("protocol", "jsonrpc-2.0"), ("transport", "http"), ("endpoint", "/mcp"),
      ("describe_endpoint", "/mcp/describe")] ++
    [(ascii "sync_routes_available", .text (showBool false)),
      (ascii "write_ack_mode", .text (ascii "durable")),
      (ascii "supported_backends", .tree (makeArray [ascii "eloqstore", ascii "inmemory"]))])

section Describe
variable [Field K] (tr : Translators K) (includeExamples : Bool) (nowMs : UInt64)

def describeFields : List (Bytes × Field) :=
  textFields [("describe_version", "2.0.0"), ("schema_revision", "2026-02-19.1")] ++
    [(ascii "generated_at_ms", .text (showUint64 nowMs)), (ascii "server", .tree serverTree),
      (ascii "method_names", .tree (makeArray ((methodSpecs tr).map Prod.fst))),
      (ascii "methods", .tree (.node [] ((methodSpecs tr).map fun m =>
        (m.1, m.2.tree includeExamples)))),
      (ascii "errors", .tree errorTree)]

/-- `McpDispatcher::Describe` at a reading of the clock. -/
def describe : Ptree := build (describeFields tr includeExamples nowMs)

end Describe

end PoorguyMem
