import PoorguyMem.Dispatcher

/-!
# The gateway

The part of `pgmemd` between a parsed request and its response: the dispatcher
answers with a tree of strings, and the normaliser gives the members it knows
their types back. Documents stand for the texts that are parsed and printed.
-/

namespace PoorguyMem

open ByteString PropertyTree JsonValue

variable {K : Type}

/-! ### Literals -/

/-- `GetString` as a C string ends at the first zero byte. -/
def cString (s : Bytes) : Bytes := s.takeWhile (· ≠ 0)

def parseBoolLiteral (text : Bytes) : Option Bool :=
  let lowered := lower text
  if lowered = ascii "true" ∨ lowered = ascii "1" then some true
  else if lowered = ascii "false" ∨ lowered = ascii "0" then some false
  else none

def isSpace (c : UInt8) : Bool := c = 32 || (9 ≤ c && c ≤ 13)

def isDigit (c : UInt8) : Bool := 48 ≤ c.toNat && c.toNat ≤ 57

/-- The sign `strtoll` reads and the text after it. -/
def readSign : Bytes → Bool × Bytes
  | 45 :: rest => (true, rest)
  | 43 :: rest => (false, rest)
  | text => (false, text)

/-- `strtoll` to base ten, on a text it reads to its end without a range error. -/
def parseInt64Literal (text : Bytes) : Option Int :=
  let (negative, digits) := readSign (text.dropWhile isSpace)
  let value : Int := if negative then -digitsValue digits else digitsValue digits
  if digits = [] ∨ !digits.all isDigit then none
  else if -2 ^ 63 ≤ value ∧ value < 2 ^ 63 then some value
  else none

/-! ### Conversions -/

section Conversions
variable (srv : Server K)

def convertValueToBoolIfString : Value K → Value K
  | .string s => ((parseBoolLiteral (cString s)).map .bool).getD (.string s)
  | v => v

def convertValueToIntIfString : Value K → Value K
  | .string s => ((parseInt64Literal (cString s)).map .int).getD (.string s)
  | v => v

def convertValueToDoubleIfString : Value K → Value K
  | .string s => ((srv.strtod (cString s)).map .double).getD (.string s)
  | v => v

/-- `EnsureArrayMember` on the member -/
def ensureArray : Value K → Value K
  | .string [] => .array []
  | .string s => .array [.string (cString s)]
  | v => v

/-- `EnsureObjectMember` on the member -/
def ensureObject : Value K → Value K
  | .string [] => .object []
  | v => v

def Value.mapItems (f : Value K → Value K) : Value K → Value K
  | .array items => .array (items.map f)
  | v => v

/-! ### Normalisation -/

def normalizeScores (scores : Value K) : Value K :=
  scores.edit [(ascii "sparse", convertValueToDoubleIfString srv),
    (ascii "dense", convertValueToDoubleIfString srv),
    (ascii "freshness", convertValueToDoubleIfString srv),
    (ascii "pin", convertValueToDoubleIfString srv),
    (ascii "final", convertValueToDoubleIfString srv)]

def normalizeHit (hit : Value K) : Value K :=
  hit.edit [(ascii "tags", ensureArray), (ascii "metadata", ensureObject),
    (ascii "updated_at_ms", convertValueToIntIfString),
    (ascii "pinned", convertValueToBoolIfString), (ascii "scores", normalizeScores srv)]

def normalizeLatency (latency : Value K) : Value K :=
  latency.edit [(ascii "sparse", convertValueToDoubleIfString srv),
    (ascii "dense", convertValueToDoubleIfString srv),
    (ascii "rerank", convertValueToDoubleIfString srv),
    (ascii "total", convertValueToDoubleIfString srv)]

def normalizeDebug (debug : Value K) : Value K :=
  debug.edit [(ascii "sparse_candidates", convertValueToIntIfString),
    (ascii "dense_candidates", convertValueToIntIfString),
    (ascii "merged_candidates", convertValueToIntIfString),
    (ascii "latency_ms", normalizeLatency srv)]

def normalizeQueryResult (result : Value K) : Value K :=
  result.edit [(ascii "hits", fun hits => Value.mapItems (normalizeHit srv) (ensureArray hits)),
    (ascii "debug_stats", normalizeDebug srv)]

def normalizeIndexStats (indexStats : Value K) : Value K :=
  indexStats.edit [(ascii "segment_count", convertValueToIntIfString),
    (ascii "posting_terms", convertValueToIntIfString),
    (ascii "vector_count", convertValueToIntIfString),
    (ascii "query_cache_hit_rate", convertValueToDoubleIfString srv),
    (ascii "dense_probe_count_p95", convertValueToDoubleIfString srv),
    (ascii "cold_rehydrate_count", convertValueToIntIfString)]

def normalizeStatsResult (result : Value K) : Value K :=
  result.edit [(ascii "p95_read_ms", convertValueToDoubleIfString srv),
    (ascii "p95_write_ms", convertValueToDoubleIfString srv),
    (ascii "token_reduction_ratio", convertValueToDoubleIfString srv),
    (ascii "fallback_rate", convertValueToDoubleIfString srv),
    (ascii "mem_used_bytes", convertValueToIntIfString),
    (ascii "disk_used_bytes", convertValueToIntIfString),
    (ascii "resident_used_bytes", convertValueToIntIfString),
    (ascii "resident_limit_bytes", convertValueToIntIfString),
    (ascii "resident_evicted_count", convertValueToIntIfString),
    (ascii "disk_fallback_search_count", convertValueToIntIfString),
    (ascii "item_count", convertValueToIntIfString),
    (ascii "tombstone_count", convertValueToIntIfString),
    (ascii "gc_last_run_ms", convertValueToIntIfString),
    (ascii "gc_evicted_count", convertValueToIntIfString),
    (ascii "capacity_blocked", convertValueToBoolIfString),
    (ascii "index_stats", normalizeIndexStats srv)]

def normalizeWriteResult (result : Value K) : Value K :=
  result.edit [(ascii "ok", convertValueToBoolIfString),
    (ascii "index_generation", convertValueToIntIfString), (ascii "stored_ids", ensureArray),
    (ascii "deduped_ids", ensureArray), (ascii "warnings", ensureArray)]

def normalizeCompactResult (result : Value K) : Value K :=
  result.edit [(ascii "triggered", convertValueToBoolIfString),
    (ascii "capacity_blocked", convertValueToBoolIfString),
    (ascii "mem_before_bytes", convertValueToIntIfString),
    (ascii "disk_before_bytes", convertValueToIntIfString),
    (ascii "mem_after_bytes", convertValueToIntIfString),
    (ascii "disk_after_bytes", convertValueToIntIfString),
    (ascii "summarized_count", convertValueToIntIfString),
    (ascii "tombstoned_count", convertValueToIntIfString),
    (ascii "deleted_count", convertValueToIntIfString),
    (ascii "segments_before", convertValueToIntIfString),
    (ascii "segments_after", convertValueToIntIfString),
    (ascii "postings_reclaimed", convertValueToIntIfString),
    (ascii "vectors_reclaimed", convertValueToIntIfString)]

def normalizeStoreCompactResult (result : Value K) : Value K :=
  result.edit [(ascii "triggered", convertValueToBoolIfString),
    (ascii "noop", convertValueToBoolIfString), (ascii "busy", convertValueToBoolIfString),
    (ascii "async", convertValueToBoolIfString),
    (ascii "partition_count", convertValueToIntIfString)]

/-- `NormalizeSchemaDefaultByType` -/
def normalizeSchemaDefault (node : Value K) : Value K :=
  match node.member (ascii "type") with
  | some (.string type) =>
    let type := cString type
    if type = ascii "boolean" then node.onMember (ascii "default") convertValueToBoolIfString
    else if type = ascii "integer" then node.onMember (ascii "default") convertValueToIntIfString
    else if type = ascii "number" then
      node.onMember (ascii "default") (convertValueToDoubleIfString srv)
    else node
  | _ => node

def normalizeDescribeMember (name : Bytes) (v : Value K) : Value K :=
  let key := cString name
  if key = ascii "generated_at_ms" ∨ key = ascii "code" ∨ key = ascii "status" then
    convertValueToIntIfString v
  else if key = ascii "sync_routes_available" then convertValueToBoolIfString v
  else v

mutual
/-- The members are visited first here and last in the source; that comes to the same,
since conversions change strings and visits change objects and arrays. -/
def normalizeDescribeNode : Value K → Value K
  | .object ms => normalizeSchemaDefault srv
      ((Value.object (describeMembers ms)).onMember (ascii "additionalProperties")
        convertValueToBoolIfString)
  | .array items => .array (describeItems items)
  | v => v

def describeMembers : List (Bytes × Value K) → List (Bytes × Value K)
  | [] => []
  | (k, v) :: rest =>
    (k, normalizeDescribeMember k (normalizeDescribeNode v)) :: describeMembers rest

def describeItems : List (Value K) → List (Value K)
  | [] => []
  | v :: rest => normalizeDescribeNode v :: describeItems rest
end

def normalizeByMethod : Method → Value K → Value K
  | .write => normalizeWriteResult
  | .query => normalizeQueryResult srv
  | .pin => fun result => result.edit [(ascii "ok", convertValueToBoolIfString)]
  | .stats => normalizeStatsResult srv
  | .compact => normalizeCompactResult
  | .storeCompact => normalizeStoreCompactResult
  | .describe => normalizeDescribeNode srv

/-- A result that is no object is left as it is, and so is that of an unknown method. -/
def normalizeResultByMethod (method : Bytes) : Value K → Value K
  | .object ms =>
    match Method.find method with
    | some m => normalizeByMethod srv m (.object ms)
    | none =>
      if method = ascii "tools.list" then normalizeDescribeNode srv (.object ms) else .object ms
  | v => v

/-- `NormalizeMcpResponseJson` on the document of a response -/
def normalizeMcpResponse (method : Bytes) (doc : Value K) : Value K :=
  doc.edit [(ascii "id", convertValueToIntIfString),
    (ascii "result", normalizeResultByMethod srv method),
    (ascii "error", Value.onMember (ascii "code") convertValueToIntIfString)]

end Conversions

/-! ### Requests -/

/-- `ToJsonString`, as the document it prints; none where it throws. -/
def toJson (t : Ptree) : Option (Value K) := if t.writable then some (ofRoot t) else none

def ptreeChildToJson (t : Ptree) (path : Bytes) : Option (Value K) :=
  match t.getChild path with
  | some child => toJson child
  | none => some (.object [])

/-- What a JSON-RPC response carries besides its id. The text of a tool's result
stands for the document it encodes. -/
inductive RpcReply (K : Type) where
  | error (code : Int) (message : Bytes)
  | result (value : Value K)
  | toolResult (text : Value K) (isError : Bool)

section Requests
variable (srv : Server K)

/-- The parameters as a tree, where there are any. -/
def readParams (noun : String) : Option (Value K) → Except Bytes (Option Ptree)
  | none => .ok none
  | some (.object ms) =>
    match srv.reparse (.object ms) with
    | some t => .ok (some t)
    | none => .error (ascii "invalid params: failed to parse " ++ ascii noun)
  | some _ => .error (ascii "invalid params: " ++ ascii noun ++ ascii " must be object")

def memoryRequest (id : String) (method : Bytes) (params : Option Ptree) : Ptree :=
  build ([(ascii "id", .text (ascii id)), (ascii "method", .text method)] ++
    (params.map fun t => (ascii "params", Field.tree t)).toList)

variable [Field K] [LinearOrder K] (occ : Occasion K)

/-- A method of the dispatcher called by its own name. -/
def callMethod (w : World K) (methodName : Bytes) (params : Option (Value K)) :
    World K × Option (RpcReply K) :=
  let method := cString methodName
  match readParams srv "params" params with
  | .error message => (w, some (.error (-32602) message))
  | .ok params =>
    match handle srv occ w (memoryRequest "jsonrpc-call" method params) with
    | (w, none) => (w, none)
    | (w, some out) =>
      if (out.getChild (ascii "error")).isSome then
        (w, some (.error (getOr srv.readInt out (ascii "error.code") (-32603))
          (out.getString (ascii "error.message") (ascii "internal error"))))
      else
        (w, (ptreeChildToJson out (ascii "result")).map fun result =>
          .result (normalizeResultByMethod srv method result))

/-- `tools/call` -/
def callTool (w : World K) (params : Option (Value K)) : World K × Option (RpcReply K) :=
  match params with
  | some (.object ms) =>
    match (Value.object ms).member (ascii "name") with
    | some (.string name) =>
      let toolName := cString name
      if (ascii "memory.").isPrefixOf toolName then
        match readParams srv "arguments" ((Value.object ms).member (ascii "arguments")) with
        | .error message => (w, some (.error (-32602) message))
        | .ok arguments =>
          match handle srv occ w (memoryRequest "tool-call" toolName arguments) with
          | (w, none) => (w, none)
          | (w, some out) =>
            let hasError := (out.getChild (ascii "error")).isSome
            let path := if hasError then ascii "error" else ascii "result"
            (w, (ptreeChildToJson out path).map fun text => .toolResult text hasError)
      else (w, some (.error (-32601) (ascii "tool not found")))
    | _ => (w, some (.error (-32602) (ascii "invalid params: tool name is required")))
  | _ => (w, some (.error (-32602) (ascii "invalid params: params object is required")))

/-- A request without the member `jsonrpc`, answered by the document of its response. -/
def callDirect (w : World K) (request : Ptree) : World K × Option (Value K) :=
  match handle srv occ w request with
  | (w, none) => (w, none)
  | (w, some out) =>
    (w, (toJson out).map
      (normalizeMcpResponse srv (request.getString (ascii "method") [])))

/-! ### What the dispatcher answers -/

variable {srv} {occ} {w w' : World K}

/-- A response without its id, as a request of the gateway's own gets it. -/
theorem handle_memoryRequest (id : String) (method : Bytes) (t : Ptree) :
    handle srv occ w (memoryRequest id method (some t)) =
      match Method.find method with
      | none => (w, some (build [(ascii "id", .tree (.leaf (ascii id))),
          (ascii "error", .tree (dispatchError (-32601) "method not found"))]))
      | some m => ((answer srv occ w t m).1, (answer srv occ w t m).2.map fun out =>
          build [(ascii "id", .tree (.leaf (ascii id))),
            ((respond srv occ out).1, .tree (respond srv occ out).2)]) := by
  have hmethod : (memoryRequest id method (some t)).getString (ascii "method") [] = method := rfl
  have hparams : (memoryRequest id method (some t)).getChild (ascii "params") = some t := rfl
  have hid : (memoryRequest id method (some t)).getChild (ascii "id") =
      some (.leaf (ascii id)) := rfl
  rw [handle, hmethod, hparams, hid]
  cases Method.find method <;> rfl

omit [LinearOrder K] in
/-- A response has either a result or an error. -/
theorem respond_cases (out : Answer K) :
    (∃ storeCompact, out = .storeCompact storeCompact ∧ storeCompact.busy = true ∧
      respond srv occ out = (ascii "error", dispatchError (-32001) "store compact is busy")) ∨
    respond srv occ out = (ascii "result", resultTree srv occ out) := by
  cases out with
  | storeCompact out =>
    by_cases hbusy : out.busy = true
    · exact Or.inl ⟨out, rfl, hbusy, if_pos hbusy⟩
    · exact Or.inr (if_neg hbusy)
  | _ => exact Or.inr rfl

/-- The result of a method called by its name is the normalised result of its handler. -/
theorem callMethod_result {name : Bytes} {ms : List (Bytes × Value K)} {t : Ptree} {v : Value K}
    (hparse : srv.reparse (.object ms) = some t)
    (h : callMethod srv occ w name (some (.object ms)) = (w', some (.result v))) :
    ∃ m out, Method.find (cString name) = some m ∧ answer srv occ w t m = (w', some out) ∧
      (resultTree srv occ out).writable = true ∧
      v = normalizeResultByMethod srv (cString name) (ofRoot (resultTree srv occ out)) := by
  have hread : readParams srv "params" (some (.object ms)) = .ok (some t) := by
    rw [readParams, hparse]
  simp only [callMethod, hread, handle_memoryRequest] at h
  split at h
  · -- the handler has thrown
    cases h
  · rename_i w₁ out hhandle
    split at h
    · cases h
    · rename_i herror
      cases hfind : Method.find (cString name) with
      | none =>
        rw [hfind] at hhandle
        cases hhandle
        exact absurd rfl herror
      | some m =>
        rw [hfind] at hhandle
        obtain ⟨rfl, hout⟩ := Prod.mk.inj hhandle
        obtain ⟨a, ha, rfl⟩ := Option.map_eq_some_iff.mp hout
        obtain ⟨hw, hresult⟩ := Prod.mk.inj h
        rcases respond_cases a with ⟨_, -, -, hrespond⟩ | hrespond
        · rw [hrespond] at herror
          exact absurd rfl herror
        · rw [hrespond] at hresult
          obtain ⟨value, hvalue, heq⟩ := Option.map_eq_some_iff.mp hresult
          have hjson : toJson (resultTree srv occ a) = some value := hvalue
          unfold toJson at hjson
          split at hjson
          · rename_i hwritable
            obtain rfl := Option.some.inj hjson
            refine ⟨m, a, rfl, ?_, hwritable, ?_⟩
            · rw [← hw, ← ha]
            · exact (RpcReply.result.inj heq).symm
          · cases hjson

end Requests

end PoorguyMem
