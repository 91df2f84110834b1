import PoorguyMem.Responses

/-!
# Tool calls

`tools/call` and the call of a method by its name get the same tree from the
dispatcher. The first prints it as it is, a tree of strings; only the second
normalises it, and a normalised result is never the one it was made from.
-/

namespace PoorguyMem

open ByteString PropertyTree JsonValue

variable {K : Type} {srv : Server K}

/-! ### Results change when they are normalised -/

theorem convertValueToBoolIfString_showBool (b : Bool) :
    (convertValueToBoolIfString (.string (showBool b)) : Value K) = .bool b := by
  cases b <;> rfl

/-- A flag is a string before its conversion and a boolean after it. -/
theorem edit_ne {ms : List (Bytes × Value K)} (hnodup : (ms.map Prod.fst).Nodup)
    {fs : List (Bytes × (Value K → Value K))} {key : Bytes} {b : Bool}
    (hmember : lookup key ms = some (.string (showBool b)))
    (hedit : ∀ v, editsAt fs key v = convertValueToBoolIfString v) :
    (Value.object ms).edit fs ≠ .object ms := by
  intro heq
  have hafter := member_edit hnodup fs key
  rw [heq, Value.member, hmember, Option.map_some, hedit,
    convertValueToBoolIfString_showBool] at hafter
  cases hafter

theorem nodup_fields {fields : List (Bytes × Field)} (h : FieldNames (fields.map Prod.fst)) :
    ((fields.map fun kf => (kf.1, (ofTree kf.2.child : Value K))).map Prod.fst).Nodup := by
  rw [List.map_map]
  exact h.nodup

theorem normalizeHit_ne (hit : QueryHit K) :
    normalizeHit srv (ofRoot (build (hitFields srv.env.translators hit))) ≠
      ofRoot (build (hitFields srv.env.translators hit)) := by
  have hnames := fieldNames_hit srv.env.translators hit
  have hpinned : lookup (ascii "pinned") ((hitFields srv.env.translators hit).map fun kf =>
      (kf.1, (ofTree kf.2.child : Value K))) = some (.string (showBool hit.pinned)) := rfl
  rw [ofRoot_build hnames, normalizeHit]
  exact edit_ne (nodup_fields hnames) hpinned fun _ => rfl

/-! ### Descriptions -/

theorem lookup_alterFirst_ne {key k : Bytes} (h : key ≠ k) (f : Value K → Value K)
    (ms : List (Bytes × Value K)) : lookup key (alterFirst k f ms) = lookup key ms := by
  induction ms with
  | nil => rfl
  | cons m rest ih =>
    obtain ⟨name, v⟩ := m
    rw [alterFirst]
    split
    · rename_i hname
      have hne : name ≠ key := by
        rw [hname]
        exact h.symm
      rw [lookup, lookup, if_neg hne, if_neg hne]
    · rw [lookup, lookup, ih]

theorem member_onMember_ne {key k : Bytes} (h : key ≠ k) (f : Value K → Value K) (v : Value K) :
    (v.onMember k f).member key = v.member key := by
  cases v with
  | object ms => exact lookup_alterFirst_ne h f ms
  | _ => rfl

theorem member_normalizeSchemaDefault {key : Bytes} (h : key ≠ ascii "default") (v : Value K) :
    (normalizeSchemaDefault srv v).member key = v.member key := by
  unfold normalizeSchemaDefault
  split
  · dsimp only
    split
    · exact member_onMember_ne h _ v
    · split
      · exact member_onMember_ne h _ v
      · split
        · exact member_onMember_ne h _ v
        · rfl
  · rfl

theorem lookup_describeMembers (key : Bytes) (ms : List (Bytes × Value K)) :
    lookup key (describeMembers srv ms) = (lookup key ms).map fun v =>
      normalizeDescribeMember key (normalizeDescribeNode srv v) := by
  induction ms with
  | nil => rfl
  | cons m rest ih =>
    obtain ⟨name, v⟩ := m
    rw [describeMembers, lookup, lookup, ih]
    split
    · rename_i hname
      rw [hname, Option.map_some]
    · rfl

/-- A member outside the two that belong to schemas is visited and converted by its name. -/
theorem member_describeNode {key : Bytes} (hdefault : key ≠ ascii "default")
    (hadditional : key ≠ ascii "additionalProperties") (ms : List (Bytes × Value K)) :
    (normalizeDescribeNode srv (.object ms)).member key = (lookup key ms).map fun v =>
      normalizeDescribeMember key (normalizeDescribeNode srv v) := by
  rw [normalizeDescribeNode, member_normalizeSchemaDefault hdefault,
    member_onMember_ne hadditional, Value.member, lookup_describeMembers]

theorem serverTree_eq : (ofTree serverTree : Value K) = ofRoot serverTree := by
  have hkeys : FieldNames (keysOf ["name", "kind", "protocol", "transport", "endpoint",
      "describe_endpoint", "sync_routes_available", "write_ack_mode", "supported_backends"]) :=
    ⟨by decide, by decide⟩
  exact ofTree_build hkeys (by simp [textFields])

theorem describe_ne [Field K] (tr : Translators K) (includeExamples : Bool) (nowMs : UInt64) :
    normalizeDescribeNode srv (ofRoot (describe tr includeExamples nowMs)) ≠
      ofRoot (describe tr includeExamples nowMs) := by
  intro heq
  -- the flag of the server's routes is nested one level down
  have hserver : (ofRoot (describe tr includeExamples nowMs) : Value K).member (ascii "server") =
      some (ofRoot serverTree) := by
    rw [describe, ofRoot_build (fieldNames_describe tr includeExamples nowMs), ← serverTree_eq]
    rfl
  have hflag : (ofRoot serverTree : Value K).member (ascii "sync_routes_available") =
      some (.string (showBool false)) := rfl
  have hvisited : normalizeDescribeNode srv (ofRoot serverTree) = ofRoot serverTree := by
    have hafter := congrArg (fun v : Value K => v.member (ascii "server")) heq
    rw [ofRoot, member_describeNode (by decide) (by decide)] at hafter
    have hlookup : lookup (ascii "server") (members (describe tr includeExamples nowMs).children) =
        some (ofRoot serverTree : Value K) := hserver
    rw [← ofRoot, hserver, hlookup, Option.map_some] at hafter
    exact Option.some.inj hafter
  have hafter := congrArg (fun v : Value K => v.member (ascii "sync_routes_available")) hvisited
  rw [hflag, ofRoot, member_describeNode (by decide) (by decide)] at hafter
  have hlookup : lookup (ascii "sync_routes_available") (members serverTree.children) =
      some (.string (showBool false) : Value K) := hflag
  rw [hlookup, Option.map_some] at hafter
  cases hafter

/-! ### The results of the methods -/

theorem write_ne (tr : Translators K) (out : WriteOutput) :
    normalizeWriteResult (ofRoot (build (writeFields tr out)) : Value K) ≠
      ofRoot (build (writeFields tr out)) := by
  have hnames := fieldNames_write tr out
  have hok : lookup (ascii "ok") ((writeFields tr out).map fun kf =>
      (kf.1, (ofTree kf.2.child : Value K))) = some (.string (showBool out.ok)) := rfl
  rw [ofRoot_build hnames, normalizeWriteResult]
  exact edit_ne (nodup_fields hnames) hok fun _ => rfl

theorem pin_ne (tr : Translators K) (out : Except Bytes Unit) :
    (ofRoot (build (scalarFields tr (pinScalars out))) : Value K).edit
        [(ascii "ok", convertValueToBoolIfString)] ≠
      ofRoot (build (scalarFields tr (pinScalars out))) := by
  have hnames := fieldNames_pin tr out
  have hok : ∃ b, lookup (ascii "ok") ((scalarFields tr (pinScalars out)).map fun kf =>
      (kf.1, (ofTree kf.2.child : Value K))) = some (.string (showBool b)) := by
    cases out with
    | ok => exact ⟨true, rfl⟩
    | error => exact ⟨false, rfl⟩
  obtain ⟨b, hb⟩ := hok
  rw [ofRoot_build hnames]
  exact edit_ne (nodup_fields hnames) hb fun _ => rfl

theorem stats_ne (tr : Translators K) (out : StatsSnapshot K) :
    normalizeStatsResult srv (ofRoot (build (statsFields tr out))) ≠
      ofRoot (build (statsFields tr out)) := by
  have hnames := fieldNames_stats tr out
  have hblocked : lookup (ascii "capacity_blocked") ((statsFields tr out).map fun kf =>
      (kf.1, (ofTree kf.2.child : Value K))) = some (.string (showBool out.capacityBlocked)) := rfl
  rw [ofRoot_build hnames, normalizeStatsResult]
  exact edit_ne (nodup_fields hnames) hblocked fun _ => rfl

theorem compact_ne (tr : Translators K) (out : CompactOutput) :
    normalizeCompactResult (ofRoot (build (scalarFields tr (compactScalars out))) : Value K) ≠
      ofRoot (build (scalarFields tr (compactScalars out))) := by
  have hnames := fieldNames_compact tr out
  have htriggered : lookup (ascii "triggered") ((scalarFields tr (compactScalars out)).map
      fun kf => (kf.1, (ofTree kf.2.child : Value K))) =
      some (.string (showBool out.triggered)) := rfl
  rw [ofRoot_build hnames, normalizeCompactResult]
  exact edit_ne (nodup_fields hnames) htriggered fun _ => rfl

/-- Hits become an array, and a hit among them has its flag converted. -/
theorem query_ne (latencies : Latencies K) (out : QueryOutput K) :
    normalizeQueryResult srv (ofRoot (build (queryFields srv.env.translators latencies out))) ≠
      ofRoot (build (queryFields srv.env.translators latencies out)) := by
  have hnames := fieldNames_query srv.env.translators latencies out
  let hits : Ptree := listTree (out.hits.map fun hit => build (hitFields srv.env.translators hit))
  have hlookup : lookup (ascii "hits") ((queryFields srv.env.translators latencies out).map
      fun kf => (kf.1, (ofTree kf.2.child : Value K))) = some (ofTree hits) := rfl
  intro heq
  rw [ofRoot_build hnames] at heq
  have hafter := member_edit (nodup_fields hnames) [(ascii "hits", fun hits =>
    Value.mapItems (normalizeHit srv) (ensureArray hits)), (ascii "debug_stats",
      normalizeDebug srv)] (ascii "hits")
  rw [← normalizeQueryResult, heq, Value.member, hlookup, Option.map_some] at hafter
  have hitems : ofTree hits = Value.mapItems (normalizeHit srv) (ensureArray (ofTree hits)) :=
    Option.some.inj hafter
  cases hlist : out.hits with
  | nil =>
    have hempty : (ofTree hits : Value K) = .string [] := by
      simp only [hits, hlist, List.map_nil]
      rfl
    rw [hempty] at hitems
    cases hitems
  | cons hit rest =>
    have hroot : (ofTree (build (hitFields srv.env.translators hit)) : Value K) =
        ofRoot (build (hitFields srv.env.translators hit)) :=
      ofTree_build (fieldNames_hit _ hit) (by simp [hitFields, scalarFields])
    have harray : (ofTree hits : Value K) = .array
        (ofRoot (build (hitFields srv.env.translators hit)) ::
          elements (rest.map fun hit => ([], build (hitFields srv.env.translators hit)))) := by
      rw [← hroot]
      simp [hits, hlist, listTree, ofTree, elements, Function.comp_def]
    rw [harray] at hitems
    exact normalizeHit_ne hit (List.cons.inj (Value.array.inj hitems)).1.symm

section Methods
variable [Field K] [LinearOrder K] {occ : Occasion K} {w : World K}

/-- The normalised result of a memory method is never the result itself. -/
theorem normalized_ne {m : Method} (hm : m ≠ .storeCompact) {t : Ptree} {out : Answer K}
    (hanswer : (answer srv occ w t m).2 = some out) :
    normalizeResultByMethod srv m.name (ofRoot (resultTree srv occ out)) ≠
      ofRoot (resultTree srv occ out) := by
  rw [ofRoot, normalizeResultByMethod, Method.find_name]
  cases m with
  | write =>
    obtain ⟨out, -, rfl⟩ := Option.map_eq_some_iff.mp hanswer
    exact write_ne _ out
  | query =>
    obtain rfl := Option.some.inj hanswer
    exact query_ne occ.latencies _
  | pin =>
    obtain ⟨out, -, rfl⟩ := Option.map_eq_some_iff.mp hanswer
    exact pin_ne _ out
  | stats =>
    obtain rfl := Option.some.inj hanswer
    exact stats_ne _ _
  | compact =>
    obtain ⟨out, -, rfl⟩ := Option.map_eq_some_iff.mp hanswer
    exact compact_ne _ out
  | storeCompact => exact absurd rfl hm
  | describe =>
    obtain rfl := Option.some.inj hanswer
    exact describe_ne _ _ _

end Methods

/-! ### Calls -/

section Calls
variable [Field K] [LinearOrder K] {occ : Occasion K} {w w' : World K}

/-- The text of a tool's result encodes the result of the handler as it is. -/
theorem callTool_text {ps ms : List (Bytes × Value K)} {tool : Bytes} {text : Value K}
    (hname : lookup (ascii "name") ps = some (.string tool))
    (harguments : lookup (ascii "arguments") ps = some (.object ms))
    (h : callTool srv occ w (some (.object ps)) = (w', some (.toolResult text false))) :
    ∃ t m out, srv.reparse (.object ms) = some t ∧ Method.find (cString tool) = some m ∧
      m ≠ .storeCompact ∧ answer srv occ w t m = (w', some out) ∧
      (resultTree srv occ out).writable = true ∧ text = ofRoot (resultTree srv occ out) := by
  cases hparse : srv.reparse (.object ms) with
  | none =>
    have hread : ∃ message, readParams srv "arguments" (some (.object ms)) = .error message := by
      simp only [readParams, hparse]
      exact ⟨_, rfl⟩
    obtain ⟨message, hread⟩ := hread
    simp only [callTool, Value.member, hname, harguments, hread] at h
    split at h <;> cases h
  | some t =>
    have hread : readParams srv "arguments" (some (.object ms)) = .ok (some t) := by
      simp only [readParams, hparse]
    simp only [callTool, Value.member, hname, harguments, hread, handle_memoryRequest] at h
    split at h
    case isFalse => cases h
    rename_i hprefix
    split at h
    · cases h
    · rename_i w₁ out hhandle
      cases hfind : Method.find (cString tool) with
      | none =>
        rw [hfind] at hhandle
        cases hhandle
        obtain ⟨value, -, heq⟩ := Option.map_eq_some_iff.mp (Prod.mk.inj h).2
        cases heq
      | some m =>
        have hm : m ≠ .storeCompact := by
          rintro rfl
          rw [← Method.name_of_find hfind] at hprefix
          exact absurd hprefix (by decide)
        rw [hfind] at hhandle
        obtain ⟨rfl, hout⟩ := Prod.mk.inj hhandle
        obtain ⟨a, ha, rfl⟩ := Option.map_eq_some_iff.mp hout
        obtain ⟨hw, hresult⟩ := Prod.mk.inj h
        obtain ⟨value, hvalue, heq⟩ := Option.map_eq_some_iff.mp hresult
        obtain ⟨rfl, hnoError⟩ := RpcReply.toolResult.inj heq
        rcases respond_cases a with ⟨_, -, -, hrespond⟩ | hrespond
        · rw [hrespond] at hnoError
          cases hnoError
        · rw [hrespond] at hvalue
          have hjson : toJson (resultTree srv occ a) = some value := hvalue
          unfold toJson at hjson
          split at hjson
          · rename_i hwritable
            refine ⟨t, m, a, rfl, rfl, hm, ?_, hwritable, (Option.some.inj hjson).symm⟩
            rw [← hw, ← ha]
          · cases hjson

/-- Whenever a tool call succeeds, the call of the same method with the same
object succeeds too, and its result is another value than the tool's text encodes. -/
theorem toolResult_differs (srv : Server K) (occ : Occasion K) (w w' : World K) (tool : Bytes)
    (ps ms : List (Bytes × Value K)) (text : Value K)
    (hname : lookup (ascii "name") ps = some (.string tool))
    (harguments : lookup (ascii "arguments") ps = some (.object ms))
    (h : callTool srv occ w (some (.object ps)) = (w', some (.toolResult text false))) :
    ∃ result, callMethod srv occ w tool (some (.object ms)) = (w', some (.result result)) ∧
      text ≠ result := by
  obtain ⟨t, m, out, hparse, hfind, hm, hanswer, hwritable, rfl⟩ :=
    callTool_text hname harguments h
  have hmethod : cString tool = m.name := (Method.name_of_find hfind).symm
  refine ⟨normalizeResultByMethod srv m.name (ofRoot (resultTree srv occ out)), ?_,
    (normalized_ne hm (congrArg Prod.snd hanswer)).symm⟩
  have hread : readParams srv "params" (some (.object ms)) = .ok (some t) := by
    rw [readParams, hparse]
  have hrespond : respond srv occ out = (ascii "result", resultTree srv occ out) := by
    rcases respond_cases out with ⟨sc, rfl, -, -⟩ | hrespond
    · cases m <;> simp [answer] at hanswer
      exact absurd rfl hm
    · exact hrespond
  simp only [callMethod, hread, handle_memoryRequest, hmethod, Method.find_name, hanswer,
    Option.map_some, hrespond]
  have herror : (build [(ascii "id", .tree (.leaf (ascii "jsonrpc-call"))),
      (ascii "result", .tree (resultTree srv occ out))]).getChild (ascii "error") = none := rfl
  have hresult : (ptreeChildToJson (build [(ascii "id", .tree (.leaf (ascii "jsonrpc-call"))),
      (ascii "result", .tree (resultTree srv occ out))]) (ascii "result") : Option (Value K)) =
      toJson (resultTree srv occ out) := rfl
  simp only [herror, hresult, Option.isSome_none, Bool.false_eq_true, if_false, toJson,
    if_pos hwritable, Option.map_some]

end Calls

namespace Reference

/-- A tool call of `memory.pin` without arguments. -/
def pinCall : Value ℚ :=
  .object [(ascii "name", .string (ascii "memory.pin")), (ascii "arguments", .object [])]

def notFound (ok : Value ℚ) : Value ℚ :=
  .object [(ascii "ok", ok), (ascii "error", .string (ascii "record not found"))]

end Reference

theorem toolResult_differs_pin : ∃ result,
    callMethod Reference.server Reference.occasion Reference.initial (ascii "memory.pin")
      (some (.object [])) = (Reference.initial, some (.result result)) ∧
    Reference.notFound (.string (ascii "false")) ≠ result :=
  toolResult_differs Reference.server Reference.occasion Reference.initial Reference.initial
    (ascii "memory.pin") [(ascii "name", .string (ascii "memory.pin")),
      (ascii "arguments", .object [])] [] (Reference.notFound (.string (ascii "false"))) rfl rfl rfl

/-- The tool's text says "false", the method's result says false. -/
theorem toolCall_disagrees :
    callTool Reference.server Reference.occasion Reference.initial (some Reference.pinCall) =
        (Reference.initial,
          some (.toolResult (Reference.notFound (.string (ascii "false"))) false)) ∧
      callMethod Reference.server Reference.occasion Reference.initial (ascii "memory.pin")
          (some (.object [])) =
        (Reference.initial, some (.result (Reference.notFound (.bool false)))) ∧
      Reference.notFound (.string (ascii "false")) ≠ Reference.notFound (.bool false) :=
  ⟨rfl, rfl, by simp [Reference.notFound]⟩

end PoorguyMem
