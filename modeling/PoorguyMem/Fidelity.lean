import PoorguyMem.Answers
import PoorguyMem.Copies
import PoorguyMem.ReadYourWrites
import PoorguyMem.Responses

/-!
# Hits and the records they return

A request to write is read by going through the members of its objects, and a
hit is put together by paths. The record that is written comes back in every hit
for it, but for an empty source, which is replaced, and metadata whose keys are
no names.
-/

namespace PoorguyMem

open ByteString PropertyTree Ptree JsonValue HybridRetriever

variable {K : Type}

/-! ### Trees -/

/-- An object of strings. -/
def objectTree (members : List (Bytes × Bytes)) : Ptree :=
  .node [] (members.map fun kv => (kv.1, .leaf kv.2))

section Objects
variable {members : List (Bytes × Bytes)}

theorem lookup_foldl_insert_iff (hdistinct : (members.map Prod.fst).Nodup) {k v : Bytes} :
    (members.foldl (fun m kv => m.insert kv.1 kv.2) (∅ : StringMap Bytes))[k]? = some v ↔
      (k, v) ∈ members := by
  have loop : ∀ m : StringMap Bytes, (∀ kv ∈ members, m[kv.1]? = none) →
      ((members.foldl (fun m kv => m.insert kv.1 kv.2) m)[k]? = some v ↔
        m[k]? = some v ∨ (k, v) ∈ members) := by
    induction members with
    | nil => simp
    | cons kv rest ih =>
      intro m hnone
      rw [List.map_cons, List.nodup_cons] at hdistinct
      rw [List.foldl_cons, ih hdistinct.2, lookup_insert, List.mem_cons]
      · split
        · rename_i hkey
          subst hkey
          have habsent := hnone kv List.mem_cons_self
          have hrest : (kv.1, v) ∉ rest := fun hmem =>
            hdistinct.1 (List.mem_map.mpr ⟨_, hmem, rfl⟩)
          simp [habsent, hrest, Prod.ext_iff, eq_comm]
        · rename_i hkey
          have hne : (k, v) ≠ kv := fun heq => hkey (heq ▸ rfl)
          simp [hne]
      · intro kv' hkv'
        have hne : kv.1 ≠ kv'.1 := by
          intro heq
          rw [heq] at hdistinct
          exact hdistinct.1 (List.mem_map_of_mem hkv')
        rw [lookup_insert_ne _ hne]
        exact hnone kv' (List.mem_cons_of_mem _ hkv')
  rw [loop ∅ fun _ _ => by simp]
  simp

/-- The members of an object, read into a map. -/
theorem perm_toList_foldl_insert (hdistinct : (members.map Prod.fst).Nodup) :
    (members.foldl (fun m kv => m.insert kv.1 kv.2) (∅ : StringMap Bytes)).toList.Perm
      members := by
  refine (List.perm_ext_iff_of_nodup ?_ hdistinct.of_map).mpr fun kv => ?_
  · refine List.Nodup.of_map Prod.fst ?_
    rw [Std.ExtTreeMap.map_fst_toList_eq_keys]
    exact MapTotal.nodup_keys _
  · rw [Std.ExtTreeMap.mem_toList_iff_getElem?_eq_some]
    exact lookup_foldl_insert_iff hdistinct

end Objects

/-! ### Requests and responses -/

/-- The fields of a record that come back in a hit for it. -/
structure WrittenRecord where
  source : Bytes
  content : Bytes
  tags : List Bytes
  metadata : List (Bytes × Bytes)

/-- The object of a request gives these fields, or leaves out those with a default. -/
structure WrittenRecord.GivenBy (rec : WrittenRecord) (recJson : Ptree) : Prop where
  source : recJson.getChild (ascii "source") = some (.leaf rec.source) ∨
    recJson.getChild (ascii "source") = none ∧ rec.source = ascii "turn"
  content : recJson.getChild (ascii "content") = some (.leaf rec.content)
  tags : recJson.getChild (ascii "tags") = some (makeArray rec.tags) ∨
    recJson.getChild (ascii "tags") = none ∧ rec.tags = []
  metadata : recJson.getChild (ascii "metadata") = some (objectTree rec.metadata) ∨
    recJson.getChild (ascii "metadata") = none ∧ rec.metadata = []
  distinct : (rec.metadata.map Prod.fst).Nodup

/-- A hit has exactly these fields, its metadata in any order. -/
structure WrittenRecord.CarriedBy (rec : WrittenRecord) (hit : Ptree) : Prop where
  source : hit.getChild (ascii "source") = some (.leaf rec.source)
  content : hit.getChild (ascii "content") = some (.leaf rec.content)
  tags : hit.getChild (ascii "tags") = some (makeArray rec.tags)
  metadata : ∃ members, members.Perm rec.metadata ∧
    hit.getChild (ascii "metadata") = some (objectTree members)

def paramsOf (request : Ptree) : Ptree := (request.getChild (ascii "params")).getD Ptree.empty

def methodOf (request : Ptree) : Option Method :=
  Method.find (request.getString (ascii "method") [])

def storedIdsOf (response : Ptree) : List Bytes :=
  readStringArray response (ascii "result.stored_ids")

def hitsOf (response : Ptree) : List Ptree :=
  ((response.getChild (ascii "result.hits")).elim [] Ptree.children).map Prod.snd

section Requests
variable [Field K] [LinearOrder K] (srv : Server K)

/-- The objects of the records that a request to write stores, in their order. -/
def storedNodes (w : World K) (params : Ptree) : List Ptree :=
  (((params.getChild (ascii "records")).elim [] Ptree.children).map Prod.snd).filter fun node =>
    isStored w.engine (readWriteInput srv params) (readWriteRecord srv node)

omit [LinearOrder K] in
theorem records_readWriteInput (params : Ptree) : (readWriteInput srv params).records =
    (((params.getChild (ascii "records")).elim [] Ptree.children).map Prod.snd).map
      (readWriteRecord srv) := by
  rw [readWriteInput]
  dsimp only
  cases params.getChild (ascii "records") with
  | none => rfl
  | some records =>
    rw [Option.elim_some, List.map_map]
    rfl

theorem storedInputs_readWriteInput (w : World K) (params : Ptree) :
    storedInputs w.engine (readWriteInput srv params) =
      (storedNodes srv w params).map (readWriteRecord srv) := by
  rw [storedInputs, records_readWriteInput, List.filter_map]
  rfl

/-- The call of the engine that a method makes. -/
def Method.call (params : Ptree) : Method → Option (Call K)
  | .write => some (.write (readWriteInput srv params))
  | .query => some (.query (readQueryInput srv params))
  | .pin => some (.pin (params.getString (ascii "workspace_id") [])
      (params.getString (ascii "memory_id") [])
      (getOr srv.env.translators.readBool params (ascii "pin") true))
  | .compact => some (.compact (params.getString (ascii "workspace_id") []))
  | _ => none

def requestedCall (request : Ptree) : Option (Call K) :=
  (methodOf request).bind (Method.call srv (paramsOf request))

variable {srv} {occ : Occasion K} {w w' : World K} {request response : Ptree}

/-- A request changes the world as its call does, or does no more than read the clock. -/
theorem handle_world (srv : Server K) (occ : Occasion K) (w : World K) (request : Ptree) :
    (∃ call, requestedCall srv request = some call ∧
      (handle srv occ w request).1 = (perform srv.env occ.fate w call).1) ∨
    requestedCall srv request = none ∧
      ∃ tick, (handle srv occ w request).1 = { w with tick := tick } := by
  rw [handle, requestedCall, methodOf]
  cases Method.find (request.getString (ascii "method") []) with
  | none => exact Or.inr ⟨rfl, w.tick, rfl⟩
  | some m =>
    cases m with
    | write => exact Or.inl ⟨_, rfl, rfl⟩
    | query => exact Or.inl ⟨_, rfl, rfl⟩
    | pin => exact Or.inl ⟨_, rfl, rfl⟩
    | compact => exact Or.inl ⟨_, rfl, rfl⟩
    | stats => exact Or.inr ⟨rfl, w.tick, rfl⟩
    | storeCompact => exact Or.inr ⟨rfl, w.tick, rfl⟩
    | describe => exact Or.inr ⟨rfl, w.tick + 1, rfl⟩

/-- The part of a response at a path below its result. -/
theorem getChild_result {m : Method} (hmethod : methodOf request = some m)
    (hm : m ≠ .storeCompact) (h : handle srv occ w request = (w', some response)) :
    ∃ out, answer srv occ w (paramsOf request) m = (w', some out) ∧
      ∀ path key, fragments path = [ascii "result", key] →
        response.getChild path = childAt [key] (resultTree srv occ out) := by
  rw [methodOf] at hmethod
  rw [handle, hmethod] at h
  dsimp only at h
  rcases hanswer : answer srv occ w (paramsOf request) m with ⟨w₁, _ | out⟩ <;>
    rw [paramsOf] at hanswer <;> rw [hanswer] at h
  · cases h
  · obtain ⟨rfl, hresponse⟩ := Prod.mk.inj h
    refine ⟨out, rfl, fun path key hpath => ?_⟩
    have hresult : respond srv occ out = (ascii "result", resultTree srv occ out) := by
      rcases respond_cases out with ⟨sc, rfl, -, -⟩ | hresult
      · cases m <;> simp [answer] at hanswer
        exact absurd rfl hm
      · exact hresult
    rw [Option.map_some, hresult] at hresponse
    obtain rfl := Option.some.inj hresponse
    have hkeys : FieldNames [ascii "id", ascii "result"] := ⟨by decide, by decide⟩
    have hnames : FieldNames ([(ascii "id",
        Field.tree ((request.getChild (ascii "id")).getD Ptree.empty)),
        (ascii "result", Field.tree (resultTree srv occ out))].map Prod.fst) := hkeys
    have hchild := getChild_build hnames (List.mem_cons_of_mem _ (List.mem_singleton_self _))
    have hname : fragments (ascii "result") = [ascii "result"] := by decide
    rw [getChild, hname] at hchild
    rw [getChild, hpath, childAt_cons]
    exact congrArg (·.bind (childAt [key])) hchild

end Requests

/-! ### What a write stores and a query finds -/

section Calls
variable [Field K] [LinearOrder K] {srv : Server K} {occ : Occasion K} {w w' : World K}
  {request response : Ptree}

/-- An accepted write puts the records made of its stored inputs, under the ids it reports. -/
theorem write_accepted {env : Platform K} {fate : Fate} {input : WriteInput K}
    {output : WriteOutput} (h : (write env fate w input).2 = some output)
    (hok : output.ok = true) : output.storedIds = [] ∨
      ∃ request rs, (prepare env fate w (.write input)).1 = some request ∧
        fate.main.ok = true ∧ request.plan.changes = rs.map .put ∧
        output.storedIds = rs.map (·.id) ∧
        List.Forall₂ (MadeOf w.engine input (env.clock w.tick)) (storedInputs w.engine input) rs := by
  rcases prepareWrite_cases env w input with ⟨draft, c, hprep, hbefore, hfresh⟩ | ⟨-, hnone⟩
  · have hmain := ok_of_prepared hprep h hok
    obtain ⟨output', -, henforcing⟩ := enforcing_of_prepared hprep hbefore hfresh hmain
    obtain rfl := Option.some.inj (henforcing.returned.symm.trans h)
    have hsome : (prepare env fate w (.write input)).1 = some (.write input draft) := by
      rw [prepare, hprep]
    obtain ⟨rs, hchanges, hmade⟩ := prepare_write_stores hsome
    have hupserts : draft.plan.upserts = rs := by
      rw [Request.plan, Plan.changes, hfresh.removals, List.map_nil, List.append_nil] at hchanges
      exact List.map_injective_iff.mpr (fun _ _ heq => Change.put.inj heq) hchanges
    refine Or.inr ⟨_, rs, hsome, hmain, hchanges, ?_, hmade⟩
    rw [henforcing.stored, hfresh.stored, hupserts]
  · exact Or.inl (hnone fate output h hok)

/-- The hits of a response are those of the query, put into trees. -/
theorem hits_response (hmethod : methodOf request = some .query)
    (h : handle srv occ w request = (w', some response)) :
    hitsOf response = (query srv.env w (readQueryInput srv (paramsOf request))).2.hits.map
      fun hit => build (hitFields srv.env.translators hit) := by
  obtain ⟨out, hanswer, hpath⟩ := getChild_result hmethod (by decide) h
  have hout : out = .query (query srv.env w (readQueryInput srv (paramsOf request))).2 :=
    (Option.some.inj (congrArg Prod.snd hanswer)).symm
  subst hout
  have hnames := fieldNames_query srv.env.translators occ.latencies
    (query srv.env w (readQueryInput srv (paramsOf request))).2
  have hhits := getChild_build hnames (List.mem_cons_self ..)
  have hname : fragments (ascii "hits") = [ascii "hits"] := by decide
  rw [getChild, hname] at hhits
  rw [hitsOf, hpath (ascii "result.hits") (ascii "hits") (by decide), resultTree, hhits]
  simp [Field.child, listTree, Function.comp_def]

/-- The ids and the flag of a response are those of the write. -/
theorem write_response (hmethod : methodOf request = some .write)
    (h : handle srv occ w request = (w', some response)) :
    ∃ output, (write srv.env occ.fate w (readWriteInput srv (paramsOf request))).2 = some output ∧
      w' = (write srv.env occ.fate w (readWriteInput srv (paramsOf request))).1 ∧
      storedIdsOf response = output.storedIds ∧
      (response.getString (ascii "result.ok") [] = ascii "true" ↔ output.ok = true) := by
  obtain ⟨out, hanswer, hpath⟩ := getChild_result hmethod (by decide) h
  obtain ⟨hworld, hout⟩ := Prod.mk.inj hanswer
  obtain ⟨output, houtput, rfl⟩ := Option.map_eq_some_iff.mp hout
  have hnames := fieldNames_write srv.env.translators output
  have hids : (ascii "stored_ids", Field.tree (makeArray output.storedIds)) ∈
      writeFields srv.env.translators output := by
    simp [writeFields, scalarFields, arrayField]
  have hok : (ascii "ok", Field.text (showBool output.ok)) ∈
      writeFields srv.env.translators output := by
    simp [writeFields, scalarFields, Scalar.show]
  have hidsName : fragments (ascii "stored_ids") = [ascii "stored_ids"] := by decide
  have hokName : fragments (ascii "ok") = [ascii "ok"] := by decide
  have hidsChild := getChild_build hnames hids
  have hokChild := getChild_build hnames hok
  rw [getChild, hidsName] at hidsChild
  rw [getChild, hokName] at hokChild
  refine ⟨output, houtput, hworld.symm, ?_, ?_⟩
  · refine readStringArray_eq ?_
    rw [hpath _ (ascii "stored_ids") (by decide), resultTree, hidsChild]
    rfl
  · rw [getString, hpath _ (ascii "ok") (by decide), resultTree, hokChild]
    cases output.ok <;> decide

end Calls

/-! ### The server -/

/-- What a server does: it answers a request, or takes a step of its own. -/
inductive ServerStep (K : Type) where
  | dispatch (request : Ptree) (occ : Occasion K)
  | own (step : Step K)

section Server
variable [Field K] [LinearOrder K] (srv : Server K)

def serve (w : World K) : ServerStep K → World K
  | .dispatch request occ => (handle srv occ w request).1
  | .own step => next srv.env w step

/-- A step does nothing to a record. -/
def ServerStep.Spares (workspaceId id : Bytes) (w : World K) : ServerStep K → Prop
  | .dispatch request occ => ∀ call, requestedCall srv request = some call →
      call.Spares srv.env occ.fate w workspaceId id
  | .own step => step.Spares srv.env workspaceId id w

/-- The request is an accepted `memory.write`. The record `rec` is given by an object of
it that is stored under `id`, and by no later one. -/
structure WritesRecord (w : World K) (request : Ptree) (occ : Occasion K) (w' : World K)
    (workspaceId id : Bytes) (rec : WrittenRecord) : Prop where
  method : request.getString (ascii "method") [] = ascii "memory.write"
  workspace : (paramsOf request).getString (ascii "workspace_id") [] = workspaceId
  accepted : ∃ response, handle srv occ w request = (w', some response) ∧
    response.getString (ascii "result.ok") [] = ascii "true" ∧
    ∃ (i : Nat) (node : Ptree), (storedNodes srv w (paramsOf request))[i]? = some node ∧
      (storedIdsOf response)[i]? = some id ∧
      (∀ j, i < j → (storedIdsOf response)[j]? ≠ some id) ∧ rec.GivenBy node

/-- A later `memory.query` finds the record, and nothing was done to it in between. -/
def LaterHit (w : World K) (workspaceId id : Bytes) (hit : Ptree) : Prop :=
  ∃ (steps : List (ServerStep K)) (occ : Occasion K) (request response : Ptree),
    Runs.Along (serve srv) (fun w step => step.Spares srv workspaceId id w) w steps ∧
    request.getString (ascii "method") [] = ascii "memory.query" ∧
    (paramsOf request).getString (ascii "workspace_id") [] = workspaceId ∧
    (handle srv occ (Runs.exec (serve srv) w steps) request).2 = some response ∧
    hit ∈ hitsOf response ∧ hit.getString (ascii "memory_id") [] = id

/-- What holds of the world of a server. -/
structure Served (env : Platform K) (w : World K) : Prop where
  sourced : Sourced env (fun workspaceId id => workspaceId ≠ [] ∧ id ≠ []) w
  keyed : KeyedById w.engine.toResident

variable {srv} {w : World K}

omit [Field K] [LinearOrder K] in
theorem served_initial (env : Platform K) (nodeId : Bytes) (options : MemoryEngineOptions K) :
    Served env (World.initial nodeId options) :=
  ⟨sourced_initial nodeId options, keyedById_empty⟩

theorem Served.serve (hlaw : srv.env.Lawful) (h : Served srv.env w) (step : ServerStep K) :
    Served srv.env (serve srv w step) := by
  cases step with
  | dispatch request occ =>
    rcases handle_world srv occ w request with ⟨call, -, heq⟩ | ⟨-, tick, heq⟩ <;>
      rw [PoorguyMem.serve, heq]
    · obtain ⟨hS, hup⟩ := h.sourced.call hlaw names_nonempty
        (Step.admits_nonempty (.call call occ.fate)) (perform_outcome srv.env occ.fate w call)
      exact ⟨hS, (preserved_keyedById srv.env _).updates hup h.keyed⟩
    · exact ⟨⟨h.sourced.held, h.sourced.docs, h.sourced.events⟩, h.keyed⟩
  | own step =>
    obtain ⟨hS, hup⟩ := h.sourced.step hlaw names_nonempty step.admits_nonempty
    refine ⟨hS, ?_⟩
    rcases hup with hup | hup
    · exact (preserved_keyedById srv.env _).updates hup h.keyed
    · exact (preserved_keyedById srv.env _).updates hup keyedById_empty

/-- A step that does nothing to a record leaves its copies. -/
theorem Copied.serve (hlaw : srv.env.Lawful) {workspaceId id : Bytes} {r : MemoryRecord K}
    (hserved : Served srv.env w) (h : Copied srv.env workspaceId id r w) {step : ServerStep K}
    (hspares : step.Spares srv workspaceId id w) :
    Copied srv.env workspaceId id r (PoorguyMem.serve srv w step) := by
  cases step with
  | dispatch request occ =>
    rcases handle_world srv occ w request with ⟨call, hcall, heq⟩ | ⟨-, tick, heq⟩ <;>
      rw [PoorguyMem.serve, heq]
    · exact h.call hlaw names_nonempty hserved.sourced (hspares call hcall)
    · exact ⟨h.indexed, h.stored⟩
  | own step =>
    exact h.step hlaw names_nonempty hserved.sourced step.admits_nonempty hspares

end Server

/-- The hits of a response are trees of the documents of the record. -/
theorem Copied.hits [Field K] [LinearOrder K] {srv : Server K} {occ : Occasion K}
    {w w' : World K} {request response : Ptree} {workspaceId id : Bytes} {r : MemoryRecord K}
    (h : Copied srv.env workspaceId id r w) (hserved : Served srv.env w)
    (hmethod : request.getString (ascii "method") [] = ascii "memory.query")
    (hworkspace : (paramsOf request).getString (ascii "workspace_id") [] = workspaceId)
    (hhandle : handle srv occ w request = (w', some response)) {hit : Ptree}
    (hhit : hit ∈ hitsOf response) (hid : hit.getString (ascii "memory_id") [] = id) :
    ∃ x scores, Alike srv.env r x ∧
      hit = build (hitFields srv.env.translators (queryHit x scores)) := by
  have hfind : methodOf request = some .query := by rw [methodOf, hmethod, ← Method.find_name]; rfl
  rw [hits_response hfind hhandle] at hhit
  obtain ⟨found, hfound, rfl⟩ := List.mem_map.mp hhit
  have hranked : Ranked w.engine.retriever (readQueryInput srv (paramsOf request))
      (w.engine.retriever.query srv.env (readQueryInput srv (paramsOf request)) w.tick).1.hits :=
    ranked_query fun id doc => hserved.keyed _ id doc
  obtain ⟨doc, scores, hdoc, -, rfl⟩ := hranked.found found
    ((query_hits_sublist srv.env w _).subset hfound)
  refine ⟨doc.record, scores, h.indexed doc ?_, rfl⟩
  have hmemory : (ascii "memory_id", Field.text (queryHit doc.record scores).memoryId) ∈
      hitFields srv.env.translators (queryHit doc.record scores) := by
    simp [hitFields, scalarFields, Scalar.show]
  rw [getString, getChild_build (fieldNames_hit _ _) hmemory] at hid
  rw [← hworkspace, ← hid]
  exact hdoc

/-! ### Metadata -/

section Metadata
variable {env : Platform K} {r x : MemoryRecord K} {members : List (Bytes × Bytes)}

/-- The metadata of a copy has the members of the record's exactly where their keys are names. -/
theorem metadataTree_iff (halike : Alike env r x)
    (hmetadata : r.metadata = members.foldl (fun m kv => m.insert kv.1 kv.2) ∅)
    (hdistinct : (members.map Prod.fst).Nodup) :
    (∃ members', members'.Perm members ∧ metadataTree x.metadata = objectTree members') ↔
      ∀ kv ∈ members, kv.1 ≠ [] ∧ 46 ∉ kv.1 := by
  have hperm : r.metadata.toList.Perm members := hmetadata ▸ perm_toList_foldl_insert hdistinct
  have hkeys : ∀ k, k ∈ r.metadata.keys ↔ k ∈ members.map Prod.fst := by
    intro k
    rw [← Std.ExtTreeMap.map_fst_toList_eq_keys]
    exact (hperm.map Prod.fst).mem_iff
  constructor
  · rintro ⟨members', hmembers, htree⟩
    have hhead : ∀ kv ∈ members, ∃ k ∈ x.metadata.keys, (fragments k).head? = some kv.1 := by
      intro kv hkv
      have hname : kv.1 ∈ (metadataTree x.metadata).children.map Prod.fst := by
        rw [htree, objectTree, children_node, List.map_map]
        exact List.mem_map.mpr ⟨kv, hmembers.mem_iff.mpr hkv, rfl⟩
      obtain ⟨kv', hkv', hhead⟩ := mem_names_flatTree hname
      refine ⟨kv'.1, ?_, hhead⟩
      rw [← Std.ExtTreeMap.map_fst_toList_eq_keys]
      exact List.mem_map_of_mem hkv'
    have hdots : ∀ kv ∈ members, 46 ∉ kv.1 := by
      intro kv hkv
      obtain ⟨k, -, hk⟩ := hhead kv hkv
      exact notMem_of_head_fragments hk
    -- the keys of a copy are keys of the record, or start one of them
    have hcopied : ∀ k ∈ x.metadata.keys, 46 ∉ k := by
      intro k hk
      rcases halike.metadata with hsame | hread
      · rw [hsame, hkeys] at hk
        obtain ⟨kv, hkv, rfl⟩ := List.mem_map.mp hk
        exact hdots kv hkv
      · rw [hread] at hk
        obtain ⟨k', -, hhead'⟩ := mem_keys_readMetadata hk
        exact notMem_of_head_fragments hhead'
    intro kv hkv
    refine ⟨fun hempty => ?_, hdots kv hkv⟩
    obtain ⟨k, hk, hkhead⟩ := hhead kv hkv
    rw [hempty, fragments] at hkhead
    split at hkhead
    · cases hkhead
    · rename_i hne
      rw [fragmentsFrom_of_notMem (hcopied k hk), List.nil_append] at hkhead
      exact hne (Option.some.inj hkhead)
  · intro hnames
    have hisName : ∀ k ∈ r.metadata.keys, IsName k := by
      intro k hk
      obtain ⟨kv, hkv, rfl⟩ := List.mem_map.mp ((hkeys k).mp hk)
      exact isName_iff.mpr (hnames kv hkv)
    have hsame : x.metadata = r.metadata := by
      rcases halike.metadata with hsame | hread
      · exact hsame
      · rw [hread, readMetadata_of_isName env hisName]
    refine ⟨r.metadata.toList, hperm, ?_⟩
    rw [hsame, metadataTree, flatTree_eq (fieldNames_metadata hisName), objectTree]

end Metadata

/-! ### What comes back -/

section Fidelity
variable [Field K] [LinearOrder K] {srv : Server K} {rec : WrittenRecord} {r x : MemoryRecord K}

/-- The record a write makes of the fields it is given; no source is empty. -/
structure WrittenRecord.Makes (rec : WrittenRecord) (r : MemoryRecord K) : Prop where
  source : r.source = if rec.source = [] then ascii "turn" else rec.source
  content : r.content = rec.content
  tags : r.tags = rec.tags
  metadata : r.metadata = rec.metadata.foldl (fun m kv => m.insert kv.1 kv.2) ∅

theorem WrittenRecord.GivenBy.makes {recJson : Ptree} (h : rec.GivenBy recJson)
    (engine : MemoryEngine K) (input : WriteInput K) (nowMs : UInt64) (id : Bytes)
    (pinned : Bool) :
    rec.Makes (newRecord engine input (readWriteRecord srv recJson) nowMs id pinned) := by
  have hsource : recJson.getString (ascii "source") (ascii "turn") = rec.source := by
    rcases h.source with hchild | ⟨hnone, hdefault⟩
    · rw [getString, hchild]
      rfl
    · rw [getString, hnone, hdefault]
  constructor
  · rw [← hsource]
    rfl
  · change recJson.getString (ascii "content") [] = rec.content
    rw [getString, h.content]
    rfl
  · change readStringArray recJson (ascii "tags") = rec.tags
    rcases h.tags with hchild | ⟨hnone, hdefault⟩
    · exact readStringArray_eq hchild
    · rw [readStringArray, hnone, hdefault]
  · change readMetadata recJson = _
    rcases h.metadata with hchild | ⟨hnone, hdefault⟩
    · rw [readMetadata, hchild]
      dsimp only
      rw [objectTree, children_node, List.foldl_map]
      rfl
    · rw [readMetadata, hnone, hdefault]
      rfl

omit [Field K] [LinearOrder K] in
/-- A hit made of a copy carries the record exactly where its fields are kept. -/
theorem carriedBy_hit_iff (tr : Translators K) {env : Platform K} (halike : Alike env r x)
    (hmakes : rec.Makes r) (hdistinct : (rec.metadata.map Prod.fst).Nodup)
    (scores : ScoreBreakdown K) :
    rec.CarriedBy (build (hitFields tr (queryHit x scores))) ↔
      rec.source ≠ [] ∧ ∀ kv ∈ rec.metadata, kv.1 ≠ [] ∧ 46 ∉ kv.1 := by
  have hchild : ∀ key field, (key, field) ∈ hitFields tr (queryHit x scores) →
      (build (hitFields tr (queryHit x scores))).getChild key = some field.child :=
    fun _ _ hmem => getChild_build (fieldNames_hit tr _) hmem
  have hsource : (build (hitFields tr (queryHit x scores))).getChild (ascii "source") =
      some (.leaf x.source) := by
    apply hchild _ (.text x.source)
    simp [hitFields, scalarFields, Scalar.show, queryHit]
  have hcontent : (build (hitFields tr (queryHit x scores))).getChild (ascii "content") =
      some (.leaf x.content) := by
    apply hchild _ (.text x.content)
    simp [hitFields, scalarFields, Scalar.show, queryHit]
  have htags : (build (hitFields tr (queryHit x scores))).getChild (ascii "tags") =
      some (makeArray x.tags) := by
    apply hchild _ (.tree (makeArray x.tags))
    simp [hitFields, arrayField, queryHit]
  have hmetadata : (build (hitFields tr (queryHit x scores))).getChild (ascii "metadata") =
      some (metadataTree x.metadata) := by
    apply hchild _ (.tree (metadataTree x.metadata))
    simp [hitFields, queryHit]
  have hiff := metadataTree_iff halike hmakes.metadata hdistinct
  constructor
  · intro h
    constructor
    · intro hempty
      have hsame : Ptree.leaf x.source = .leaf rec.source :=
        Option.some.inj (hsource.symm.trans h.source)
      have hkept : x.source = rec.source := congrArg data hsame
      rw [halike.source, hmakes.source, if_pos hempty, hempty] at hkept
      exact absurd hkept (by decide)
    · apply hiff.mp
      obtain ⟨members, hperm, hmembers⟩ := h.metadata
      exact ⟨members, hperm, Option.some.inj (hmetadata.symm.trans hmembers)⟩
  · rintro ⟨hne, hkeys⟩
    obtain ⟨members, hperm, hmembers⟩ := hiff.mpr hkeys
    constructor
    · rw [hsource, halike.source, hmakes.source, if_neg hne]
    · rw [hcontent, halike.content, hmakes.content]
    · rw [htags, halike.tags, hmakes.tags]
    · exact ⟨members, hperm, by rw [hmetadata, hmembers]⟩

/-- An accepted write leaves copies of the record it makes of the object. -/
theorem WritesRecord.copied (hlaw : srv.env.Lawful) {w w' : World K} (hserved : Served srv.env w)
    {request : Ptree} {occ : Occasion K} {workspaceId id : Bytes}
    (h : WritesRecord srv w request occ w' workspaceId id rec) :
    ∃ r, rec.Makes r ∧ (rec.metadata.map Prod.fst).Nodup ∧
      Copied srv.env workspaceId id r w' := by
  obtain ⟨response, hhandle, hok, i, node, hnode, hid, hlast, hgiven⟩ := h.accepted
  have hfind : methodOf request = some .write := by
    rw [methodOf, h.method]
    exact Method.find_name .write
  obtain ⟨output, hout, rfl, hids, hflag⟩ := write_response hfind hhandle
  rcases write_accepted hout (hflag.mp hok) with hnil | ⟨planned, rs, hsome, hmain, hchanges,
    hstored, hmade⟩
  · rw [hids, hnil] at hid
    cases hid
  · rw [storedInputs_readWriteInput] at hmade
    rw [hids, hstored] at hid hlast
    rw [List.getElem?_map, Option.map_eq_some_iff] at hid
    obtain ⟨r, hr, rfl⟩ := hid
    obtain ⟨hi, hri⟩ := List.getElem?_eq_some_iff.mp hr
    have hnodes : i < ((storedNodes srv w (paramsOf request)).map (readWriteRecord srv)).length :=
      hmade.length_eq ▸ hi
    obtain ⟨id, pinned, -, -, hmadeOf⟩ := hmade.get hnodes hi
    have hnodeAt : ((storedNodes srv w (paramsOf request)).map (readWriteRecord srv)).get
        ⟨i, hnodes⟩ = readWriteRecord srv node := by
      rw [List.length_map] at hnodes
      rw [List.get_eq_getElem, List.getElem_map]
      exact congrArg (readWriteRecord srv)
        (Option.some.inj ((List.getElem?_eq_getElem hnodes).symm.trans hnode))
    rw [List.get_eq_getElem, hri, hnodeAt] at hmadeOf
    refine ⟨r, hmadeOf ▸ hgiven.makes _ _ _ _ _, hgiven.distinct, ?_⟩
    have hworkspace : r.workspaceId = workspaceId := by
      rw [hmadeOf, ← h.workspace]
      rfl
    have hsplit : planned.plan.changes =
        (rs.take i).map .put ++ .put r :: (rs.drop (i + 1)).map .put := by
      rw [hchanges, ← List.map_cons, ← List.map_append, ← hri, List.getElem_cons_drop,
        List.take_append_drop]
    rw [← hworkspace]
    refine copied_of_put hlaw names_nonempty hserved.sourced hsome hmain hsplit ?_
    · intro change hchange
      obtain ⟨x, hx, rfl⟩ := List.mem_map.mp hchange
      rintro ⟨-, hsame⟩
      obtain ⟨j, hj⟩ := List.mem_iff_getElem?.mp hx
      rw [List.getElem?_drop] at hj
      refine hlast (i + 1 + j) (by omega) ?_
      rw [List.getElem?_map, hj]
      exact congrArg some hsame

/-- In every run of the server, every later hit for a record that is written carries its
source, content, tags and metadata exactly where the source is not empty and the keys of
the metadata are neither empty nor have dots. -/
theorem hit_carries_record_iff (hlaw : srv.env.Lawful) (nodeId : Bytes)
    (options : MemoryEngineOptions K) (steps : List (ServerStep K)) {request : Ptree}
    {occ : Occasion K} {w' : World K} {workspaceId id : Bytes} {hit : Ptree}
    (hwrite : WritesRecord srv (Runs.exec (serve srv) (World.initial nodeId options) steps)
      request occ w' workspaceId id rec)
    (hhit : LaterHit srv w' workspaceId id hit) :
    rec.CarriedBy hit ↔ rec.source ≠ [] ∧ ∀ kv ∈ rec.metadata, kv.1 ≠ [] ∧ 46 ∉ kv.1 := by
  have hserved : Served srv.env (Runs.exec (serve srv) (World.initial nodeId options) steps) :=
    Runs.invariant_of_forall (R := fun _ => True) (fun w step _ h => h.serve hlaw step)
      (fun _ _ => trivial) (served_initial srv.env nodeId options)
  obtain ⟨r, hmakes, hdistinct, hcopied⟩ := hwrite.copied hlaw hserved
  have hserved' : Served srv.env w' := by
    obtain ⟨response, hhandle, -⟩ := hwrite.accepted
    have hnext := hserved.serve hlaw (.dispatch request occ)
    rwa [serve, hhandle] at hnext
  obtain ⟨later, occ', request', response, hspares, hmethod, hworkspace, hresponse, hmem, hid⟩ :=
    hhit
  obtain ⟨hlater, hcopies⟩ := Runs.invariant
    (I := fun w => Served srv.env w ∧ Copied srv.env workspaceId id r w)
    (fun w step hstep h => ⟨h.1.serve hlaw step, h.2.serve hlaw h.1 hstep⟩) hspares
    ⟨hserved', hcopied⟩
  obtain ⟨x, scores, halike, rfl⟩ :=
    hcopies.hits hlater hmethod hworkspace (Prod.ext rfl hresponse) hmem hid
  exact carriedBy_hit_iff srv.env.translators halike hmakes hdistinct scores

end Fidelity

section Examples
open Reference

namespace Reference

/-- The object of the record that is written. -/
def recordObject (key value : Bytes) : Ptree :=
  treeOf (.object [(ascii "record_id", .string (ascii "a")),
    (ascii "content", .string (ascii "hello")), (ascii "metadata", .object [(key, .string value)])])

def writeRequest (key value : Bytes) : Ptree :=
  .node [] [(ascii "method", .leaf (ascii "memory.write")),
    (ascii "params", treeOf (writeParams key value))]

def queryRequest : Ptree :=
  .node [] [(ascii "method", .leaf (ascii "memory.query")), (ascii "params", treeOf queryParams)]

/-- The fields of the record. -/
def givenRecord (key value : Bytes) : WrittenRecord :=
  ⟨ascii "turn", ascii "hello", [], [(key, value)]⟩

def writeResponse (key value : Bytes) : Ptree :=
  (handle server occasion initial (writeRequest key value)).2.getD Ptree.empty

def afterWrite (key value : Bytes) : World ℚ :=
  (handle server occasion initial (writeRequest key value)).1

def queryResponse (key value : Bytes) : Ptree :=
  (handle server occasion (afterWrite key value) queryRequest).2.getD Ptree.empty

def firstHit (key value : Bytes) : Ptree := (hitsOf (queryResponse key value)).headD Ptree.empty

end Reference

theorem eq_some_getD {α : Type} {o : Option α} (h : o.isSome = true) (a : α) :
    o = some (o.getD a) := by
  obtain ⟨x, rfl⟩ := Option.isSome_iff_exists.mp h
  rfl

theorem writesRecord_written {key value : Bytes}
    (hstored : isStored initial.engine (readWriteInput server (paramsOf (writeRequest key value)))
      (readWriteRecord server (recordObject key value)) = true)
    (hanswered : (handle server occasion initial (writeRequest key value)).2.isSome = true)
    (haccepted : (writeResponse key value).getString (ascii "result.ok") [] = ascii "true")
    (hids : storedIdsOf (writeResponse key value) = [ascii "a"]) :
    WritesRecord server (Runs.exec (serve server) (World.initial (ascii "node") options) [])
      (writeRequest key value) occasion (afterWrite key value) (ascii "w") (ascii "a")
      (givenRecord key value) where
  method := rfl
  workspace := rfl
  accepted := by
    have hnodes : storedNodes server initial (paramsOf (writeRequest key value)) =
        [recordObject key value] := List.filter_cons_of_pos hstored
    have hresponse : handle server occasion initial (writeRequest key value) =
        (afterWrite key value, some (writeResponse key value)) := by
      rw [writeResponse, ← eq_some_getD hanswered, afterWrite]
    refine ⟨writeResponse key value, hresponse, haccepted, 0, recordObject key value, ?_, ?_, ?_,
      ?_⟩
    · exact congrArg (·[0]?) hnodes
    · rw [hids]
      rfl
    · intro j hj
      have hlength : [ascii "a"].length ≤ j := hj
      rw [hids, List.getElem?_eq_none hlength]
      simp
    · exact ⟨Or.inr ⟨rfl, rfl⟩, rfl, Or.inr ⟨rfl, rfl⟩, Or.inl rfl, List.nodup_singleton key⟩

theorem laterHit_firstHit {key value : Bytes}
    (hanswered : (handle server occasion (afterWrite key value) queryRequest).2.isSome = true)
    (hhits : (hitsOf (queryResponse key value)).length = 1)
    (hid : (firstHit key value).getString (ascii "memory_id") [] = ascii "a") :
    LaterHit server (afterWrite key value) (ascii "w") (ascii "a") (firstHit key value) := by
  refine ⟨[], occasion, queryRequest, queryResponse key value, trivial, rfl, rfl,
    eq_some_getD hanswered _, ?_, hid⟩
  obtain ⟨hit, hhit⟩ := List.length_eq_one_iff.mp hhits
  rw [firstHit, hhit]
  exact List.mem_singleton_self hit

theorem hit_carries_record : (givenRecord (ascii "k") (ascii "v")).CarriedBy
    (firstHit (ascii "k") (ascii "v")) := by
  refine (hit_carries_record_iff (lawful_platform _) (ascii "node") options []
    (writesRecord_written ?_ ?_ ?_ ?_) (laterHit_firstHit ?_ ?_ ?_)).mpr ⟨?_, ?_⟩
  · decide +kernel
  · decide +kernel
  · decide +kernel
  · decide +kernel
  · decide +kernel
  · decide +kernel
  · decide +kernel
  · decide
  · decide

/-- A key with a dot comes back as an object in an object. -/
theorem not_carries_dotted : ∃ w' hit,
    WritesRecord server (Runs.exec (serve server) (World.initial (ascii "node") options) [])
      (writeRequest (ascii "a.b") (ascii "v")) occasion w' (ascii "w") (ascii "a")
      (givenRecord (ascii "a.b") (ascii "v")) ∧
    LaterHit server w' (ascii "w") (ascii "a") hit ∧
    ¬ (givenRecord (ascii "a.b") (ascii "v")).CarriedBy hit := by
  refine ⟨_, _, writesRecord_written ?_ ?_ ?_ ?_, laterHit_firstHit ?_ ?_ ?_, fun h => ?_⟩
  · decide +kernel
  · decide +kernel
  · decide +kernel
  · decide +kernel
  · decide +kernel
  · decide +kernel
  · decide +kernel
  · obtain ⟨members, hperm, hmembers⟩ := h.metadata
    have hmembersEq : members = [(ascii "a.b", ascii "v")] := List.perm_singleton.mp hperm
    have hkeys : ((firstHit (ascii "a.b") (ascii "v")).getChild (ascii "metadata")).map
        (fun t => t.children.map Prod.fst) = some [ascii "a"] := by decide +kernel
    rw [hmembers, hmembersEq] at hkeys
    exact absurd hkeys (by decide)

end Examples

end PoorguyMem
