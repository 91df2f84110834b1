import PoorguyMem.Accounting
import PoorguyMem.Lossless
import PoorguyMem.Mirror

/-!
# Copies of a record

A record that is written is copied into the index and into its document row, and
a restart reads the row back. As long as nothing is done to the record itself,
every copy shows its fields, and its metadata as it was or as the codec gives it
back.
-/

namespace PoorguyMem

open ByteString PropertyTree HybridRetriever

variable {K : Type}

/-- What is kept of a record in a copy. -/
structure Alike (env : Platform K) (r x : MemoryRecord K) : Prop where
  source : x.source = r.source
  content : x.content = r.content
  tags : x.tags = r.tags
  metadata : x.metadata = r.metadata ∨ x.metadata = readMetadata (recordTree env r)

/-- The name of another record. -/
def Other (workspaceId id : Bytes) (workspaceId' id' : Bytes) : Prop :=
  ¬ (workspaceId' = workspaceId ∧ id' = id)

section Alike
variable {env : Platform K} {r x : MemoryRecord K}

theorem Alike.refl (env : Platform K) (r : MemoryRecord K) : Alike env r r :=
  ⟨rfl, rfl, rfl, Or.inl rfl⟩

theorem Alike.fillSizeBytes (h : Alike env r x) : Alike env r (fillSizeBytes x) := by
  rw [PoorguyMem.fillSizeBytes]
  split
  · exact ⟨h.source, h.content, h.tags, h.metadata⟩
  · exact h

theorem Alike.fillDefaults (h : Alike env r x) : Alike env r (fillDefaults x) :=
  have hfilled := h.fillSizeBytes
  ⟨hfilled.source, hfilled.content, hfilled.tags, hfilled.metadata⟩

theorem metadata_fillSizeBytes (x : MemoryRecord K) :
    (PoorguyMem.fillSizeBytes x).metadata = x.metadata := by
  rw [PoorguyMem.fillSizeBytes]
  split <;> rfl

/-- What decodes the text of a record is a copy of it. -/
theorem alike_of_recordText [One K] (hlaw : env.Lawful) (hw : (recordTree env r).writable = true)
    (hd : deserializeRecord env (recordText env r) = some x) : Alike env r x := by
  have hread : x = { r with
      metadata := x.metadata
      sizeBytes := x.sizeBytes
      importanceScore := x.importanceScore } := (deserialize_serialize hlaw hw hd).1
  have hmetadata : x.metadata = readMetadata (recordTree env r) := by
    obtain ⟨t, hparse, rfl⟩ := Option.map_eq_some_iff.mp hd
    obtain ⟨rfl, -⟩ := hlaw.json.parse_only _ _ hw hparse
    rw [metadata_fillSizeBytes, readRecord]
  refine ⟨?_, ?_, ?_, Or.inr hmetadata⟩
  · rw [hread]
  · rw [hread]
  · rw [hread]

end Alike

/-! ### The index and the rows -/

/-- What the index has under a name is a copy of the record. -/
def CopiesIndexed (env : Platform K) (workspaceId id : Bytes) (r : MemoryRecord K)
    (s : Resident K) : Prop :=
  ∀ doc, s.retriever.docAt workspaceId id = some doc → Alike env r doc.record

/-- What decodes from the row of a name, and has that name, is a copy of the record. -/
def CopiesStored [One K] (env : Platform K) (workspaceId id : Bytes) (r : MemoryRecord K)
    (rows : Table) : Prop :=
  ∀ v d, rows[buildDocKey workspaceId id]? = some v → deserializeRecord env v.value = some d →
    d.workspaceId = workspaceId → d.id = id → Alike env r d

/-- The copies of a record that a world has. -/
structure Copied [One K] (env : Platform K) (workspaceId id : Bytes) (r : MemoryRecord K)
    (w : World K) : Prop where
  indexed : CopiesIndexed env workspaceId id r w.engine.toResident
  stored : CopiesStored env workspaceId id r (w.store.table docNs)

/-- Every document of the index has the id it is listed under. -/
def KeyedById (s : Resident K) : Prop :=
  ∀ workspaceId id doc, s.retriever.docAt workspaceId id = some doc → doc.record.id = id

section Updates
variable [Field K] [LinearOrder K] {env : Platform K} {workspaceId id : Bytes}
  {r : MemoryRecord K}

omit [Field K] [LinearOrder K] in
theorem docAt_removeRecordInMemory {s : Resident K} {r : MemoryRecord K} {v x : Bytes}
    {doc : IndexedDoc K} (h : (s.removeRecordInMemory r).retriever.docAt v x = some doc) :
    s.retriever.docAt v x = some doc := by
  rw [Resident.removeRecordInMemory] at h
  split at h
  · exact h
  · rw [docAt_remove] at h
    split at h
    · cases h
    · exact h

omit [Field K] [LinearOrder K] in
theorem docAt_evict {s : Resident K} {victim : MemoryRecord K} {v x : Bytes}
    {doc : IndexedDoc K} (h : (s.evict victim).retriever.docAt v x = some doc) :
    s.retriever.docAt v x = some doc := by
  change (s.retriever.remove victim.workspaceId victim.id).docAt v x = some doc at h
  rw [docAt_remove] at h
  split at h
  · cases h
  · exact h

/-- Updates of other records leave the copies of a record. -/
theorem preserved_copiesIndexed (env : Platform K) (workspaceId id : Bytes)
    (r : MemoryRecord K) :
    Preserved env (Other workspaceId id) (CopiesIndexed env workspaceId id r) where
  upsert s x h named doc hdoc := by
    rw [Resident.retriever_upsert, docAt_index, if_neg named] at hdoc
    exact h doc hdoc
  remove s x h _ doc hdoc := h doc (docAt_removeRecordInMemory hdoc)
  evict s k victim h _ _ doc hdoc := h doc (docAt_evict hdoc)
  access s records h _ := h

theorem preserved_keyedById (env : Platform K) (P : Bytes → Bytes → Prop) :
    Preserved env P KeyedById where
  upsert s r h _ v x doc hdoc := by
    rw [Resident.retriever_upsert, docAt_index] at hdoc
    split at hdoc
    · rename_i hname
      split at hdoc
      · cases hdoc
      · obtain rfl := Option.some.inj hdoc
        exact hname.2
    · exact h v x doc hdoc
  remove s r h _ v x doc hdoc := h v x doc (docAt_removeRecordInMemory hdoc)
  evict s k victim h _ _ v x doc hdoc := h v x doc (docAt_evict hdoc)
  access s records h _ := h

omit [Field K] [LinearOrder K] in
theorem keyedById_empty : KeyedById (Resident.empty : Resident K) := by
  intro v x doc hdoc
  simp [Resident.empty, HybridRetriever.empty, docAt] at hdoc

/-- A record that is put is copied as it is. -/
theorem copiesIndexed_upsert (env : Platform K) (s : Resident K) (r : MemoryRecord K) :
    CopiesIndexed env r.workspaceId r.id r (s.upsertRecordInMemory env r) := by
  intro doc hdoc
  rw [Resident.retriever_upsert, docAt_index, if_pos ⟨rfl, rfl⟩] at hdoc
  split at hdoc
  · cases hdoc
  · obtain rfl := Option.some.inj hdoc
    exact .refl env r

omit [LinearOrder K] in
/-- The rows of other records leave the copy of a record. -/
theorem CopiesStored.apply (hlaw : env.Lawful) {rows : Table} {items : List (LogItem K)}
    (h : CopiesStored env workspaceId id r rows)
    (hother : ∀ item ∈ items, Other workspaceId id item.record.workspaceId item.record.id)
    (hw : ∀ item ∈ items, (recordTree env item.record).writable = true)
    {entries : List WriteEntry} (hentries : ∀ e ∈ entries, e ∈ items.map (·.docEntry env)) :
    CopiesStored env workspaceId id r (rows.apply entries) := by
  intro v d hv hd hws hid
  rcases Table.lookup_apply hv with hold | ⟨e, he, hop, -, rfl⟩
  · exact h v d hold hd hws hid
  · obtain ⟨item, hitem, rfl⟩ := List.mem_map.mp (hentries e he)
    have hnamed := hother item hitem
    have hwritable := hw item hitem
    unfold LogItem.record at hnamed hwritable
    unfold LogItem.docEntry at hop hd
    split at hop
    · rename_i x hchange
      rw [hchange] at hnamed hwritable hd
      obtain ⟨hdws, hdid⟩ := (deserialize_serialize hlaw hwritable hd).1.names
      exact absurd ⟨hdws.symm.trans hws, hdid.symm.trans hid⟩ hnamed
    · cases hop

omit [LinearOrder K] in
/-- The row of a record that is put is a copy of it. -/
theorem copiesStored_put (hlaw : env.Lawful) (hw : (recordTree env r).writable = true)
    (rows : Table) : CopiesStored env r.workspaceId r.id r
      (rows.applyEntry (PoorguyMem.docEntry r (recordText env r))) := by
  intro v d hv hd _ _
  have hrow : (rows.applyEntry (PoorguyMem.docEntry r (recordText env r)))[
      buildDocKey r.workspaceId r.id]? = some ⟨recordText env r, r.updatedAtMs⟩ :=
    (lookup_insert rows _ _ _).trans (if_pos rfl)
  rw [hrow] at hv
  obtain rfl := Option.some.inj hv
  exact alike_of_recordText hlaw hw hd

end Updates

/-! ### Steps -/

/-- No change that a call plans is one of the record. -/
def Call.Spares [Field K] [LinearOrder K] (env : Platform K) (fate : Fate) (w : World K)
    (workspaceId id : Bytes) (call : Call K) : Prop :=
  ∀ request, (prepare env fate w call).1 = some request → ∀ change ∈ request.plan.changes,
    Other workspaceId id change.record.workspaceId change.record.id

/-- No event that is replayed over a store is one of the record. -/
def Store.Spares [One K] (env : Platform K) (workspaceId id : Bytes) (store : Store) : Prop :=
  ∀ e ∈ (store.scan eventsNs [] [] 0).entries, ∀ x,
    eventRecord env (storedCheckpoints env store) e = some x →
    Other workspaceId id x.workspaceId x.id

/-- A step does nothing to the record. -/
def Step.Spares [Field K] [LinearOrder K] (env : Platform K) (workspaceId id : Bytes)
    (w : World K) : Step K → Prop
  | .call c fate => c.Spares env fate w workspaceId id
  | .restart none _ _ => w.store.Spares env workspaceId id
  | .restart (some (c, fate)) _ _ =>
    c.Spares env fate w workspaceId id ∧ (interrupt env w c fate).store.Spares env workspaceId id

section Steps
variable [Field K] [LinearOrder K] {env : Platform K} {P : Bytes → Bytes → Prop}
  {workspaceId id : Bytes} {r : MemoryRecord K} {w : World K}

theorem Call.Spares.items {fate : Fate} {call : Call K} {c : Cursor} {request : Request K}
    {items : List (LogItem K)} (h : call.Spares env fate w workspaceId id)
    (hsome : (prepare env fate w call).1 = some request)
    (hd : Drafted env w call c request.plan items) :
    ∀ item ∈ items, Other workspaceId id item.record.workspaceId item.record.id := by
  intro item hitem
  apply h request hsome item.change
  rw [hd.changes]
  exact List.mem_map_of_mem hitem

theorem CopiesStored.commit (hlaw : env.Lawful) {call : Call K} {c : Cursor} {plan : Plan K}
    {items : List (LogItem K)} (h : CopiesStored env workspaceId id r (w.store.table docNs))
    (hd : Drafted env w call c plan items)
    (hother : ∀ item ∈ items, Other workspaceId id item.record.workspaceId item.record.id)
    (outcome : BatchOutcome) : CopiesStored env workspaceId id r
      (((w.atCursor c).commit outcome plan).store.table docNs) := by
  change CopiesStored env workspaceId id r ((w.store.batchWrite outcome plan.writes).table docNs)
  rw [Store.table_batchWrite, hd.logs.docs]
  exact h.apply hlaw hother hd.logs.writable fun e he => BatchOutcome.mem_effective he

/-- A call that spares a record leaves its copies. -/
theorem Copied.call (hlaw : env.Lawful) (hP : Names P) (hS : Sourced env P w)
    (h : Copied env workspaceId id r w) {call : Call K} {fate : Fate}
    (hspares : call.Spares env fate w workspaceId id) :
    Copied env workspaceId id r (perform env fate w call).1 := by
  have hprep := prepare_spec fate (hS.named hlaw hP) call
  have hout := perform_outcome env fate w call
  generalize (perform env fate w call).1 = w' at hout
  cases hout with
  | idle _ agrees =>
    constructor
    · rw [agrees.resident]
      exact h.indexed
    · rw [agrees.store]
      exact h.stored
  | @queried input isQuery =>
    obtain ⟨records, -, hres⟩ := (query_spec env w input).resident
    constructor
    · rw [hres]
      exact h.indexed
    · rw [(query_spec env w input).store]
      exact h.stored
  | failed hsome _ agrees =>
    obtain ⟨items, hd⟩ := hprep.2 _ hsome
    constructor
    · rw [agrees.resident]
      exact h.indexed
    · rw [agrees.store]
      exact h.stored.commit hlaw hd (hspares.items hsome hd) fate.main
  | committed hsome _ settled =>
    obtain ⟨items, hd⟩ := hprep.2 _ hsome
    have hother := hspares.items hsome hd
    constructor
    · refine (preserved_copiesIndexed env workspaceId id r).updates ?_ h.indexed
      exact (Updates.applyPlan (s := w.engine.toResident) hd hother).evicts settled.resident
    · rw [settled.table _ docNs_ne_routeMetaNs]
      exact h.stored.commit hlaw hd hother fate.main

/-- What a restart loads for the name of the record is a copy of it. -/
theorem CopiesStored.loadedRows (hlaw : env.Lawful) (hP : Names P) (hS : Sourced env P w)
    (h : CopiesStored env workspaceId id r (w.store.table docNs)) :
    CopiesIndexed env workspaceId id r (loadedRows env w.store) := by
  have hempty : CopiesIndexed env workspaceId id r Resident.empty := by
    intro doc hdoc
    simp [Resident.empty, HybridRetriever.empty, docAt] at hdoc
  refine List.foldlRecOn _ _ hempty fun s hs entry hentry => ?_
  obtain ⟨-, hrow⟩ := Store.mem_scan_all.mp hentry
  obtain ⟨r₀, hkey, hvalue, hw, hname⟩ := hS.docs _ _ hrow
  unfold loadRow
  split
  · rename_i x hx
    obtain ⟨d, hd, rfl⟩ :=
      (rowRecord_eq_some hlaw hvalue hw (hP.workspace_ne hname) (hP.id_ne hname)).mp hx
    obtain ⟨hdws, hdid⟩ := (deserialize_serialize hlaw hw hd).1.names
    obtain ⟨hfws, hfid⟩ := names_fillDefaults d
    intro doc hdoc
    rw [Resident.retriever_upsert, docAt_index] at hdoc
    split at hdoc
    · rename_i hsame
      obtain ⟨hws, hid⟩ : d.workspaceId = workspaceId ∧ d.id = id := by
        rwa [hfws, hfid] at hsame
      split at hdoc
      · cases hdoc
      · obtain rfl := Option.some.inj hdoc
        rw [hkey, ← hdws, ← hdid, hws, hid] at hrow
        exact (h _ d hrow (hvalue ▸ hd) hws hid).fillDefaults
    · exact hs doc hdoc
  · exact hs

/-- A replay that spares the record updates others. -/
theorem updates_replay (hspares : w.store.Spares env workspaceId id) :
    Updates env (Other workspaceId id) (loadedRows env w.store) (recovered env w.store) := by
  refine Updates.foldl (fun event hevent b hb => ?_) (.refl _)
  unfold replayEvent
  split
  · exact hb
  · rename_i incoming hincoming
    have hother : Other workspaceId id (fillDefaults incoming).workspaceId
        (fillDefaults incoming).id := by
      rw [(names_fillDefaults incoming).1, (names_fillDefaults incoming).2]
      exact hspares event hevent incoming hincoming
    dsimp only
    split
    · split
      · exact hb.upsert hother
      · exact hb
    · split
      · exact hb.upsert hother
      · exact hb

theorem CopiesStored.restart (hlaw : env.Lawful) (hP : Names P) (hS : Sourced env P w)
    (h : CopiesStored env workspaceId id r (w.store.table docNs))
    (hspares : w.store.Spares env workspaceId id) (nodeId : Bytes)
    (options : MemoryEngineOptions K) :
    Copied env workspaceId id r (restart env w nodeId options) := by
  have hr := restart_spec env w nodeId options
  constructor
  · have hup := (updates_replay hspares).evicts hr.resident
    exact (preserved_copiesIndexed env workspaceId id r).updates hup (h.loadedRows hlaw hP hS)
  · rw [hr.store]
    exact h

/-- A step that does nothing to a record leaves its copies. -/
theorem Copied.step (hlaw : env.Lawful) (hP : Names P) (hS : Sourced env P w)
    (h : Copied env workspaceId id r w) {step : Step K} (hadmits : step.Admits P)
    (hspares : step.Spares env workspaceId id w) :
    Copied env workspaceId id r (next env w step) := by
  match step with
  | .call c fate => exact h.call hlaw hP hS hspares
  | .restart none nodeId options => exact h.stored.restart hlaw hP hS hspares nodeId options
  | .restart (some (c, fate)) nodeId options =>
    have hstored : CopiesStored env workspaceId id r
        ((interrupt env w c fate).store.table docNs) := by
      rcases interrupt_cases env w c fate with ⟨-, heq⟩ | ⟨request, hsome, heq⟩ <;> rw [heq]
      · exact h.stored
      · obtain ⟨items, hd⟩ := (prepare_spec fate (hS.named hlaw hP) c).2 request hsome
        exact h.stored.commit hlaw hd (hspares.1.items hsome hd) fate.main
    exact hstored.restart hlaw hP (hS.interrupt hlaw hP hadmits fate) hspares.2 nodeId options

/-- A committed batch makes copies of a record that it puts and does not change again. -/
theorem copied_of_put (hlaw : env.Lawful) (hP : Names P) (hS : Sourced env P w) {call : Call K}
    {fate : Fate} {request : Request K} (hsome : (prepare env fate w call).1 = some request)
    (hok : fate.main.ok = true) {before after : List (Change K)}
    (hchanges : request.plan.changes = before ++ .put r :: after)
    (hafter : ∀ change ∈ after,
      Other r.workspaceId r.id change.record.workspaceId change.record.id) :
    Copied env r.workspaceId r.id r (perform env fate w call).1 := by
  obtain ⟨items, hd⟩ := (prepare_spec fate (hS.named hlaw hP) call).2 request hsome
  have hout := perform_outcome env fate w call
  generalize (perform env fate w call).1 = w' at hout
  cases hout with
  | idle none _ => cases none.symm.trans hsome
  | queried isQuery =>
    subst isQuery
    cases hsome
  | failed _ failed _ => cases failed.symm.trans hok
  | @committed planned _ some _ settled =>
    have heq : planned = request := Option.some.inj (some.symm.trans hsome)
    rw [heq] at settled
    constructor
    · have hresident := settled.resident
      rw [Plan.applyInMemory_eq, hchanges, List.foldl_append, List.foldl_cons] at hresident
      have hput := copiesIndexed_upsert env
        (before.foldl (Resident.applyChange env) w.engine.toResident) r
      refine (preserved_copiesIndexed env _ _ r).updates (Updates.evicts ?_ hresident) hput
      exact Updates.foldl (fun change hchange b hb => hb.change (hafter change hchange)) (.refl _)
    · obtain ⟨earlier, rest, rfl, -, hrest⟩ :=
        List.map_eq_append_iff.mp (hd.changes.symm.trans hchanges)
      obtain ⟨item, later, rfl, hitem, hlater⟩ := List.map_eq_cons_iff.mp hrest
      have hw := hd.logs.writable
      have hentry : item.docEntry env = PoorguyMem.docEntry r (recordText env r) := by
        rw [LogItem.docEntry, hitem]
      have hwr : (recordTree env r).writable = true := by
        have := hw item (by simp)
        rwa [LogItem.record, hitem] at this
      rw [settled.table _ docNs_ne_routeMetaNs]
      change CopiesStored env r.workspaceId r.id r
        ((w.store.batchWrite fate.main request.plan.writes).table docNs)
      rw [Store.batchWrite_of_ok _ hok, Store.table_apply, hd.logs.docs, List.map_append,
        List.map_cons, hentry, Table.apply, List.foldl_append, List.foldl_cons]
      refine (copiesStored_put hlaw hwr _).apply hlaw ?_ (fun i hi => hw i (by simp [hi]))
        fun e he => he
      intro i hi
      exact hafter i.change (hlater ▸ List.mem_map_of_mem hi)

end Steps

end PoorguyMem
