import PoorguyMem.Answers
import PoorguyMem.Copies
import PoorguyMem.InFlight

/-!
# Whose words a hit shows

Requests run side by side, a failed batch may be kept in part, the process may end
at any point, and keys of different names may be one key. All the same, what a
query shows was given by a `Write` for its workspace whose batch reached the store,
and so was every document that decodes.
-/

namespace PoorguyMem

open ByteString PropertyTree Ptree HybridRetriever

variable {K : Type}

/-- What is remembered under a name. -/
structure Memory where
  workspaceId : Bytes
  memoryId : Bytes
  source : Bytes
  content : Bytes
  tags : List Bytes
  metadata : StringMap Bytes

def MemoryRecord.memory (r : MemoryRecord K) : Memory where
  workspaceId := r.workspaceId
  memoryId := r.id
  source := r.source
  content := r.content
  tags := r.tags
  metadata := r.metadata

/-- What a query of a workspace shows. -/
def QueryHit.memory (workspaceId : Bytes) (hit : QueryHit K) : Memory where
  workspaceId := workspaceId
  memoryId := hit.memoryId
  source := hit.source
  content := hit.content
  tags := hit.tags
  metadata := hit.metadata

/-- An input record of a `Write` gives what is remembered. Metadata comes back where its
keys are names. -/
structure Gives (input : WriteInput K) (recIn : WriteRecordInput K) (m : Memory) : Prop where
  mem : recIn ∈ input.records
  content_ne : recIn.content ≠ []
  workspaceId : m.workspaceId = input.workspaceId
  memoryId : recIn.recordId ≠ [] → m.memoryId = recIn.recordId
  source : m.source = if recIn.source = [] then ascii "turn" else recIn.source
  content : m.content = recIn.content
  tags : m.tags = recIn.tags
  metadata : (∀ k ∈ recIn.metadata.keys, k ≠ [] ∧ 46 ∉ k) → m.metadata = recIn.metadata

def Given (calls : List (Call K)) (m : Memory) : Prop :=
  ∃ input recIn, .write input ∈ calls ∧ Gives input recIn m

/-- A copy of a record under the name of the record. -/
structure Copy (env : Platform K) (r x : MemoryRecord K) : Prop where
  workspaceId : x.workspaceId = r.workspaceId
  id : x.id = r.id
  alike : Alike env r x

section Copies
variable {env : Platform K} {r x : MemoryRecord K} {calls calls' : List (Call K)}

theorem copy_of_withoutAccess (env : Platform K) (h : x.withoutAccess = r.withoutAccess) :
    Copy env r x where
  workspaceId := (MemoryRecord.names_of_withoutAccess h).1
  id := (MemoryRecord.names_of_withoutAccess h).2
  alike :=
    { source := congrArg (·.source) h
      content := congrArg (·.content) h
      tags := congrArg (·.tags) h
      metadata := Or.inl (congrArg (·.metadata) h) }

theorem Copy.fillDefaults (h : Copy env r x) : Copy env r (fillDefaults x) where
  workspaceId := (names_fillDefaults x).1.trans h.workspaceId
  id := (names_fillDefaults x).2.trans h.id
  alike := h.alike.fillDefaults

/-- What decodes the text of a record is a copy of it. -/
theorem copy_of_recordText [One K] (hlaw : env.Lawful) (hw : (recordTree env r).writable = true)
    (hd : deserializeRecord env (recordText env r) = some x) : Copy env r x where
  workspaceId := (deserialize_serialize hlaw hw hd).1.names.1
  id := (deserialize_serialize hlaw hw hd).1.names.2
  alike := alike_of_recordText hlaw hw hd

theorem Gives.copy {input : WriteInput K} {recIn : WriteRecordInput K}
    (h : Gives input recIn r.memory) (hcopy : Copy env r x) : Gives input recIn x.memory where
  mem := h.mem
  content_ne := h.content_ne
  workspaceId := hcopy.workspaceId.trans h.workspaceId
  memoryId hid := hcopy.id.trans (h.memoryId hid)
  source := hcopy.alike.source.trans h.source
  content := hcopy.alike.content.trans h.content
  tags := hcopy.alike.tags.trans h.tags
  metadata hkeys := by
    have hgiven : r.metadata = recIn.metadata := h.metadata hkeys
    have hnames : ∀ k ∈ r.metadata.keys, IsName k := by
      rw [hgiven]
      exact fun k hk => isName_iff.mpr (hkeys k hk)
    rcases hcopy.alike.metadata with hsame | hread
    · exact hsame.trans hgiven
    · exact (hread.trans (readMetadata_of_isName env hnames)).trans hgiven

/-- A record with a name whose words were given by one of the calls. -/
structure Attributed (calls : List (Call K)) (r : MemoryRecord K) : Prop where
  workspace_ne : r.workspaceId ≠ []
  id_ne : r.id ≠ []
  given : Given calls r.memory

theorem Attributed.copy (h : Attributed calls r) (hcopy : Copy env r x) : Attributed calls x where
  workspace_ne := hcopy.workspaceId ▸ h.workspace_ne
  id_ne := hcopy.id ▸ h.id_ne
  given := by
    obtain ⟨input, recIn, hmem, hgives⟩ := h.given
    exact ⟨input, recIn, hmem, hgives.copy hcopy⟩

theorem Attributed.mono (h : Attributed calls r) (hsub : calls ⊆ calls') : Attributed calls' r where
  workspace_ne := h.workspace_ne
  id_ne := h.id_ne
  given := by
    obtain ⟨input, recIn, hmem, hgives⟩ := h.given
    exact ⟨input, recIn, hsub hmem, hgives⟩

end Copies

/-! ### What is resident -/

/-- The resident records and the documents of the index are attributed, and the index lists
every document under its own name. -/
structure Grounded (calls : List (Call K)) (s : Resident K) : Prop where
  held : ∀ (k : Bytes) r, s.records[k]? = some r → Attributed calls r
  indexed : ∀ workspaceId id doc, s.retriever.docAt workspaceId id = some doc →
    Attributed calls doc.record ∧ doc.record.workspaceId = workspaceId ∧ doc.record.id = id

section Resident
variable [Field K] [LinearOrder K] {env : Platform K} {calls calls' : List (Call K)}
  {s s' : Resident K} {r : MemoryRecord K}

omit [Field K] [LinearOrder K] in
theorem grounded_empty (calls : List (Call K)) : Grounded calls Resident.empty where
  held k r hr := absurd hr (by simp [Resident.empty])
  indexed _ _ _ hdoc := by
    simp [Resident.empty, HybridRetriever.empty, docAt] at hdoc

omit [Field K] [LinearOrder K] in
theorem Grounded.mono (h : Grounded calls s) (hsub : calls ⊆ calls') : Grounded calls' s where
  held k r hr := (h.held k r hr).mono hsub
  indexed _ _ _ hdoc := ⟨(h.indexed _ _ _ hdoc).1.mono hsub, (h.indexed _ _ _ hdoc).2⟩

theorem Grounded.upsert (h : Grounded calls s) (hr : Attributed calls r) :
    Grounded calls (s.upsertRecordInMemory env r) where
  held k r' hr' := by
    rw [Resident.records_upsert, lookup_insert] at hr'
    split at hr'
    · obtain rfl := Option.some.inj hr'
      exact hr
    · exact h.held k r' hr'
  indexed workspaceId id doc hdoc := by
    rw [Resident.retriever_upsert, docAt_index] at hdoc
    split at hdoc
    · rename_i hname
      split at hdoc
      · cases hdoc
      · obtain rfl := Option.some.inj hdoc
        exact ⟨hr, hname⟩
    · exact h.indexed workspaceId id doc hdoc

omit [Field K] [LinearOrder K] in
theorem Grounded.remove (h : Grounded calls s) (r : MemoryRecord K) :
    Grounded calls (s.removeRecordInMemory r) where
  held k r' hr' := by
    rw [Resident.records_remove, lookup_erase] at hr'
    split at hr'
    · cases hr'
    · exact h.held k r' hr'
  indexed _ _ _ hdoc := h.indexed _ _ _ (docAt_removeRecordInMemory hdoc)

omit [Field K] [LinearOrder K] in
theorem Grounded.evicts (h : Grounded calls s) (he : Evicts s s') : Grounded calls s' where
  held k r hr := h.held k r (he.subset hr)
  indexed := by
    induction he with
    | refl => exact h.indexed
    | evict _ _ _ ih => exact fun workspaceId id doc hdoc => ih _ _ _ (docAt_evict hdoc)

theorem Grounded.change (h : Grounded calls s) {change : Change K}
    (hchange : Attributed calls change.record) : Grounded calls (s.applyChange env change) := by
  cases change with
  | put r => exact h.upsert hchange
  | drop r => exact h.remove r

omit [Field K] [LinearOrder K] in
theorem Grounded.foldl {α : Type} {f : Resident K → α → Resident K} {xs : List α}
    (hf : ∀ x ∈ xs, ∀ s, Grounded calls s → Grounded calls (f s x)) (h : Grounded calls s) :
    Grounded calls (xs.foldl f s) :=
  List.foldlRecOn xs f h fun s hs x hx => hf x hx s hs

theorem Grounded.applyPlan {seen : World K} {call : Call K} {c : Cursor} {plan : Plan K}
    {items : List (LogItem K)} (h : Grounded calls s) (hd : Drafted env seen call c plan items)
    (hitems : ∀ item ∈ items, Attributed calls item.record) :
    Grounded calls (plan.applyInMemory env s) := by
  rw [Plan.applyInMemory_eq, hd.changes, List.foldl_map]
  exact Grounded.foldl (fun item hitem b hb => hb.change (hitems item hitem)) h

end Resident

/-! ### What is stored -/

/-- The resident state is grounded, and every document and every event carries the text of an
attributed record. -/
structure Rooted (env : Platform K) (calls : List (Call K)) (w : World K) : Prop where
  resident : Grounded calls w.engine.toResident
  docs : ∀ (k : Bytes) v, (w.store.table docNs)[k]? = some v → ∃ r,
    v.value = recordText env r ∧ (recordTree env r).writable = true ∧ Attributed calls r
  events : ∀ (k : Bytes) v, (w.store.table eventsNs)[k]? = some v → ∃ item : LogItem K,
    v.value = env.json.print (item.eventTree env) ∧
      (recordTree env item.record).writable = true ∧ Attributed calls item.record

section World
variable [Field K] [LinearOrder K] {env : Platform K} {calls calls' : List (Call K)}
  {w w' : World K}

omit [Field K] [LinearOrder K] in
theorem rooted_initial (env : Platform K) (calls : List (Call K)) (nodeId : Bytes)
    (options : MemoryEngineOptions K) : Rooted env calls (World.initial nodeId options) where
  resident := grounded_empty calls
  docs k v hv := absurd hv (by simp [World.initial, Store.empty])
  events k v hv := absurd hv (by simp [World.initial, Store.empty])

omit [Field K] [LinearOrder K] in
theorem Rooted.mono (h : Rooted env calls w) (hsub : calls ⊆ calls') : Rooted env calls' w where
  resident := h.resident.mono hsub
  docs k v hv := by
    obtain ⟨r, hvalue, hw, hr⟩ := h.docs k v hv
    exact ⟨r, hvalue, hw, hr.mono hsub⟩
  events k v hv := by
    obtain ⟨item, hvalue, hw, hitem⟩ := h.events k v hv
    exact ⟨item, hvalue, hw, hitem.mono hsub⟩

omit [Field K] [LinearOrder K] in
theorem Rooted.of_tables (h : Rooted env calls w) (hresident : Grounded calls w'.engine.toResident)
    (hdocs : w'.store.table docNs = w.store.table docNs)
    (hevents : w'.store.table eventsNs = w.store.table eventsNs) : Rooted env calls w' where
  resident := hresident
  docs k v hv := h.docs k v (hdocs ▸ hv)
  events k v hv := h.events k v (hevents ▸ hv)

omit [LinearOrder K] in
/-- A document that decodes gives an attributed record. -/
theorem Rooted.decoded (hlaw : env.Lawful) (h : Rooted env calls w) {k : Bytes} {v : StoredValue}
    {r : MemoryRecord K} (hv : (w.store.table docNs)[k]? = some v)
    (hd : deserializeRecord env v.value = some r) : Attributed calls r := by
  obtain ⟨r₀, hvalue, hw, hr₀⟩ := h.docs k v hv
  rw [hvalue] at hd
  exact hr₀.copy (copy_of_recordText hlaw hw hd)

omit [LinearOrder K] in
theorem Rooted.loaded (hlaw : env.Lawful) (h : Rooted env calls w) {workspaceId memoryId : Bytes}
    {r : MemoryRecord K}
    (hload : loadRecord env w.engine w.store.reader workspaceId memoryId = .ok r) :
    Attributed calls r := by
  rcases loadRecord_cases hload with hheld | ⟨-, v, hv, hd⟩
  · exact h.resident.held _ r hheld
  · exact h.decoded hlaw hv hd

omit [LinearOrder K] in
theorem Rooted.named (hlaw : env.Lawful) (h : Rooted env calls w) : Named env w where
  held k r hr := (h.resident.held k r hr).workspace_ne
  loaded _ _ _ hload := (h.loaded hlaw hload).workspace_ne

theorem copy_pinnedRecord (env : Platform K) (engine : MemoryEngine K) (r : MemoryRecord K)
    (pin : Bool) (nowMs : UInt64) : Copy env r (pinnedRecord engine r pin nowMs) :=
  ⟨rfl, rfl, rfl, rfl, rfl, Or.inl rfl⟩

omit [Field K] [LinearOrder K] in
theorem copy_tombstoneOf (env : Platform K) (engine : MemoryEngine K) (r : MemoryRecord K)
    (nowMs : UInt64) : Copy env r (tombstoneOf engine r nowMs) :=
  ⟨rfl, rfl, rfl, rfl, rfl, Or.inl rfl⟩

/-- What a call puts or drops was given by it or by a call before. -/
theorem Rooted.produced (hlaw : env.Lawful) (h : Rooted env calls w) {call : Call K}
    {nowMs : UInt64} {change : Change K} (hprod : Produces env w nowMs call change) :
    Attributed (calls ++ [call]) change.record := by
  have hsub : calls ⊆ calls ++ [call] := List.subset_append_left ..
  cases hprod with
  | @new input recIn id pinned workspace mem accepted =>
    exact
      { workspace_ne := workspace
        id_ne := accepted.id_ne
        given := ⟨input, recIn, List.mem_append_right _ List.mem_cons_self,
          { mem := mem
            content_ne := accepted.content
            workspaceId := rfl
            memoryId := accepted.named
            source := rfl
            content := rfl
            tags := rfl
            metadata := fun _ => rfl }⟩ }
  | pinned load => exact ((h.loaded hlaw load).copy (copy_pinnedRecord env ..)).mono hsub
  | tombstoned _ held => exact ((h.resident.held _ _ held).copy (copy_tombstoneOf env ..)).mono hsub
  | dropped _ held => exact (h.resident.held _ _ held).mono hsub

theorem Rooted.drafted (hlaw : env.Lawful) (h : Rooted env calls w) {call : Call K} {c : Cursor}
    {plan : Plan K} {items : List (LogItem K)} (hd : Drafted env w call c plan items) :
    ∀ item ∈ items, Attributed (calls ++ [call]) item.record := by
  intro item hitem
  obtain ⟨i, -, -, hprod⟩ := hd.produced item hitem
  exact h.produced hlaw hprod

omit [Field K] [LinearOrder K] in
theorem mem_restrict_effective {outcome : BatchOutcome} {ns : Bytes} {writes : List WriteEntry}
    {e : WriteEntry} (he : e ∈ Store.restrict ns (outcome.effective writes)) :
    e ∈ Store.restrict ns writes ∧ outcome.effective writes ≠ [] := by
  obtain ⟨hmem, hns⟩ := List.mem_filter.mp he
  exact ⟨List.mem_filter.mpr ⟨BatchOutcome.mem_effective hmem, hns⟩, List.ne_nil_of_mem hmem⟩

/-- A batch leaves the rows rooted where its records are attributed, or nothing of it is kept. -/
theorem Rooted.commit (h : Rooted env calls w) {seen : World K} {call : Call K} {c : Cursor}
    {plan : Plan K} {items : List (LogItem K)} (hd : Drafted env seen call c plan items)
    {outcome : BatchOutcome} (hitems : outcome.effective plan.writes ≠ [] →
      ∀ item ∈ items, Attributed calls item.record) :
    Rooted env calls (w.commit outcome plan) where
  resident := h.resident
  docs k v hv := by
    change ((w.store.batchWrite outcome plan.writes).table docNs)[k]? = some v at hv
    rw [Store.batchWrite, Store.table_apply] at hv
    rcases Table.lookup_apply hv with hold | ⟨e, he, hop, -, rfl⟩
    · exact h.docs k v hold
    · obtain ⟨hmem, hkept⟩ := mem_restrict_effective he
      rw [hd.logs.docs] at hmem
      obtain ⟨item, hitem, rfl⟩ := List.mem_map.mp hmem
      have hw := hd.logs.writable item hitem
      have hr := hitems hkept item hitem
      unfold LogItem.record at hw hr
      unfold LogItem.docEntry at hop ⊢
      split at hop
      · rename_i r hchange
        rw [hchange] at hw hr
        exact ⟨r, rfl, hw, hr⟩
      · cases hop
  events k v hv := by
    change ((w.store.batchWrite outcome plan.writes).table eventsNs)[k]? = some v at hv
    rw [Store.batchWrite, Store.table_apply] at hv
    rcases Table.lookup_apply hv with hold | ⟨e, he, -, -, rfl⟩
    · exact h.events k v hold
    · obtain ⟨hmem, hkept⟩ := mem_restrict_effective he
      rw [hd.logs.events] at hmem
      obtain ⟨item, hitem, rfl⟩ := List.mem_map.mp hmem
      exact ⟨item, rfl, hd.logs.writable item hitem, hitems hkept item hitem⟩

/-- A replay puts what the events carry. -/
theorem Rooted.replayed (hlaw : env.Lawful) (h : Rooted env calls w) {event : KeyValueEntry}
    (hevent : event ∈ (w.store.scan eventsNs [] [] 0).entries) {checkpoints : StringMap Bytes}
    {s : Resident K} (hs : Grounded calls s) :
    Grounded calls (replayEvent env checkpoints s event) := by
  obtain ⟨-, hrow⟩ := Store.mem_scan_all.mp hevent
  obtain ⟨item, hvalue, hw, hitem⟩ := h.events _ _ hrow
  unfold replayEvent
  split
  · exact hs
  · rename_i incoming hincoming
    have hd := eventRecord_some hlaw hvalue hw hitem.workspace_ne hitem.id_ne hincoming
    have hput : Attributed calls (fillDefaults incoming) :=
      hitem.copy (copy_of_recordText hlaw hw hd).fillDefaults
    dsimp only
    split
    · split
      · exact hs.upsert hput
      · exact hs
    · split
      · exact hs.upsert hput
      · exact hs

/-- Loading a document puts what it carries. -/
theorem Rooted.rowLoaded (hlaw : env.Lawful) (h : Rooted env calls w) {entry : KeyValueEntry}
    (hentry : entry ∈ (w.store.scan docNs [] [] 0).entries) {s : Resident K}
    (hs : Grounded calls s) : Grounded calls (loadRow env s entry) := by
  obtain ⟨-, hrow⟩ := Store.mem_scan_all.mp hentry
  obtain ⟨r, hvalue, hw, hr⟩ := h.docs _ _ hrow
  unfold loadRow
  split
  · rename_i r' hr'
    obtain ⟨d, hd, rfl⟩ :=
      (rowRecord_eq_some hlaw hvalue hw hr.workspace_ne hr.id_ne).mp hr'
    exact hs.upsert (hr.copy (copy_of_recordText hlaw hw hd).fillDefaults)
  · exact hs

/-- What a rooted store loads is grounded. -/
theorem Rooted.recovered (hlaw : env.Lawful) (h : Rooted env calls w) :
    Grounded calls (recovered env w.store) := by
  have hloaded : Grounded calls (loadedRows env w.store) :=
    Grounded.foldl (fun entry hentry s hs => h.rowLoaded hlaw hentry hs) (grounded_empty calls)
  exact Grounded.foldl (fun event hevent s hs => h.replayed hlaw hevent hs) hloaded

theorem Rooted.restart (hlaw : env.Lawful) (h : Rooted env calls w) (nodeId : Bytes)
    (options : MemoryEngineOptions K) : Rooted env calls (restart env w nodeId options) := by
  have hr := restart_spec env w nodeId options
  exact h.of_tables ((h.recovered hlaw).evicts hr.resident) (by rw [hr.store]) (by rw [hr.store])

/-- A call that draws up no batch notes accesses at most. -/
theorem Rooted.idle (h : Rooted env calls w) {call : Call K} {fate : Fate}
    (hnone : (prepare env fate w call).1 = none) :
    Rooted env calls (perform env fate w call).1 := by
  have hout := perform_outcome env fate w call
  generalize (perform env fate w call).1 = w' at hout
  cases hout with
  | idle _ agrees =>
    refine h.of_tables ?_ (by rw [agrees.store]; rfl) (by rw [agrees.store]; rfl)
    rw [agrees.resident]
    exact h.resident
  | @queried input isQuery =>
    obtain ⟨records, hacc, hres⟩ := (query_spec env w input).resident
    have hstore := (query_spec env w input).store
    refine h.of_tables ?_ (by rw [hstore]) (by rw [hstore])
    rw [hres]
    refine ⟨fun k r hr => ?_, h.resident.indexed⟩
    obtain ⟨r₀, hr₀, heq⟩ := hacc.lookup hr
    exact (h.resident.held k r₀ hr₀).copy (copy_of_withoutAccess env heq)
  | failed hsome _ _ => cases hnone.symm.trans hsome
  | committed hsome _ _ => cases hnone.symm.trans hsome

end World

/-! ### Runs -/

/-- What happens to a server: a step of some request, or the end of its process, which loses
what is in flight, and the start of a new one. -/
inductive Event (K : Type) where
  | act (act : Act K)
  | restart (nodeId : Bytes) (options : MemoryEngineOptions K)

/-- Something of the batch is kept. -/
def InFlight.Reaches (f : InFlight K) : Prop :=
  f.fate.main.ok ∨ f.fate.main.effective f.request.plan.writes ≠ []

instance (f : InFlight K) : Decidable f.Reaches :=
  inferInstanceAs (Decidable (_ ∨ _))

/-- The call of a request whose batch is not written yet. -/
def InFlight.pending (f : InFlight K) : List (Call K) :=
  if f.storedAt = none then [f.call] else []

section Runs
variable [Field K] [LinearOrder K]

namespace Interleaved

def crash (env : Platform K) (p : Interleaved K) (nodeId : Bytes)
    (options : MemoryEngineOptions K) : Interleaved K :=
  { p with
    world := PoorguyMem.restart env p.world nodeId options
    flying := fun _ => none
    time := p.time + 1 }

def happen (env : Platform K) (p : Interleaved K) : Event K → Interleaved K
  | .act act => p.next env act
  | .restart nodeId options => p.crash env nodeId options

/-- The calls whose batch reaches the store with an event. -/
def reached (p : Interleaved K) : Event K → List (Call K)
  | .act (.store i) => (p.flying i).elim [] fun f =>
    if f.storedAt = none ∧ f.Reaches then [f.call] else []
  | .act (.start _ _ _) => []
  | .act (.apply _) => []
  | .restart _ _ => []

/-- The calls whose batch reaches the store in a run. -/
def sent (env : Platform K) (p : Interleaved K) : List (Event K) → List (Call K)
  | [] => []
  | event :: rest => p.reached event ++ sent env (p.happen env event) rest

/-- The state is rooted in the calls whose batches have reached the store, and every batch in
flight in these and its own call. -/
structure Faithful (env : Platform K) (calls : List (Call K)) (p : Interleaved K) : Prop where
  rooted : Rooted env calls p.world
  flying : ∀ i f, p.flying i = some f → ∃ c items, Drafted env f.seen f.call c f.request.plan items ∧
    ∀ item ∈ items, Attributed (calls ++ f.pending) item.record

variable {env : Platform K} {calls : List (Call K)} {p : Interleaved K} {i : Nat}

theorem Faithful.mono (h : p.Faithful env calls) {calls' : List (Call K)} (hsub : calls ⊆ calls') :
    p.Faithful env calls' where
  rooted := h.rooted.mono hsub
  flying i f hf := by
    obtain ⟨c, items, hd, hitems⟩ := h.flying i f hf
    exact ⟨c, items, hd, fun item hitem => (hitems item hitem).mono (List.append_subset.mpr
      ⟨List.subset_append_of_subset_left _ hsub, List.subset_append_right ..⟩)⟩

theorem Faithful.start (hlaw : env.Lawful) (h : p.Faithful env calls) (call : Call K) (fate : Fate) :
    (p.start env i call fate).Faithful env calls := by
  rw [Interleaved.start]
  rcases hprep : prepare env fate p.world call with ⟨_ | request, c⟩ <;> dsimp only
  · exact ⟨h.rooted.idle (by rw [hprep]), h.flying⟩
  · refine ⟨h.rooted.of_tables h.rooted.resident rfl rfl, fun j g hj => ?_⟩
    rcases flying_update hj with ⟨hg, -⟩ | ⟨hold, -⟩
    · obtain rfl := Option.some.inj hg
      obtain ⟨items, hd⟩ := (prepare_spec fate (h.rooted.named hlaw) call).2 request
        (by rw [hprep])
      exact ⟨_, items, hd, h.rooted.drafted hlaw hd⟩
    · exact h.flying j g hold

/-- A batch that reaches the store adds its call to those that have. -/
theorem Faithful.store (h : p.Faithful env calls) {f : InFlight K} (hf : p.flying i = some f)
    (hread : f.storedAt = none) :
    (p.store i f).Faithful env (calls ++ if f.Reaches then [f.call] else []) := by
  obtain ⟨c, items, hd, hitems⟩ := h.flying i f hf
  rw [InFlight.pending, if_pos hread] at hitems
  set calls' := calls ++ if f.Reaches then [f.call] else [] with hcalls
  have hsub : calls ⊆ calls' := List.subset_append_left ..
  have hreaches : f.Reaches → ∀ item ∈ items, Attributed calls' item.record := by
    intro hr item hitem
    rw [hcalls, if_pos hr]
    exact hitems item hitem
  have hmono : p.Faithful env calls' := h.mono hsub
  have hrooted : Rooted env calls' (p.world.commit f.fate.main f.request.plan) :=
    hmono.rooted.commit hd fun hkept => hreaches (Or.inr hkept)
  rw [Interleaved.store]
  split
  · rename_i hok
    refine ⟨hrooted, fun j g hj => ?_⟩
    rcases flying_update hj with ⟨hg, -⟩ | ⟨hold, -⟩
    · obtain rfl := Option.some.inj hg
      refine ⟨c, items, hd, fun item hitem => ?_⟩
      exact (hreaches (Or.inl hok) item hitem).mono (List.subset_append_left ..)
    · exact hmono.flying j g hold
  · have hagrees := agrees_abandon f.fate f.request (p.world.commit f.fate.main f.request.plan)
    refine ⟨hrooted.of_tables ?_ (by rw [hagrees.store]) (by rw [hagrees.store]), fun j g hj => ?_⟩
    · rw [hagrees.resident]
      exact hrooted.resident
    · rcases flying_update hj with ⟨hg, -⟩ | ⟨hold, -⟩
      · cases hg
      · exact hmono.flying j g hold

theorem Faithful.apply (h : p.Faithful env calls) {f : InFlight K} (hf : p.flying i = some f)
    {t : Nat} (hstored : f.storedAt = some t) : (p.apply env i f t).Faithful env calls := by
  obtain ⟨c, items, hd, hitems⟩ := h.flying i f hf
  rw [InFlight.pending, if_neg (by simp [hstored]), List.append_nil] at hitems
  have hsettled := settle_spec env f.fate f.request p.world
  constructor
  · exact h.rooted.of_tables ((h.rooted.resident.applyPlan hd hitems).evicts hsettled.resident)
      (hsettled.table _ docNs_ne_routeMetaNs) (hsettled.table _ eventsNs_ne_routeMetaNs)
  · intro j g hj
    rcases flying_update hj with ⟨hg, -⟩ | ⟨hold, -⟩
    · cases hg
    · exact h.flying j g hold

/-- An event keeps what there is rooted in the calls whose batches have reached the store. -/
theorem Faithful.happen (hlaw : env.Lawful) (h : p.Faithful env calls) (event : Event K) :
    (p.happen env event).Faithful env (calls ++ p.reached event) := by
  cases event with
  | restart nodeId options =>
    rw [reached, List.append_nil]
    exact ⟨h.rooted.restart hlaw nodeId options, fun j g hj => by cases hj⟩
  | act act =>
    refine Interleaved.next_induction env p act (h.mono (List.subset_append_left ..)) ?_ ?_ ?_
    · rintro i call fate rfl -
      rw [reached, List.append_nil]
      exact h.start hlaw call fate
    · rintro i f rfl hf hread
      have hreached : p.reached (.act (.store i)) = if f.Reaches then [f.call] else [] := by
        rw [reached, hf, Option.elim_some]
        simp only [hread, true_and]
      rw [hreached]
      exact h.store hf hread
    · rintro i f t rfl hf hstored
      rw [reached, List.append_nil]
      exact h.apply hf hstored

theorem Faithful.run (hlaw : env.Lawful) (h : p.Faithful env calls) (events : List (Event K)) :
    (Runs.exec (Interleaved.happen env) p events).Faithful env (calls ++ p.sent env events) := by
  induction events generalizing p calls with
  | nil =>
    rw [sent, List.append_nil]
    exact h
  | cons event rest ih =>
    rw [sent, ← List.append_assoc]
    exact ih (h.happen hlaw event)

theorem faithful_initial (env : Platform K) (nodeId : Bytes) (options : MemoryEngineOptions K) :
    (Interleaved.initial nodeId options).Faithful env [] :=
  ⟨rooted_initial env [] nodeId options, fun i f h => by cases h⟩

end Interleaved

/-- A hit of a grounded state shows what one of the calls gave to its workspace. -/
theorem Grounded.hits {env : Platform K} {calls : List (Call K)} {w : World K}
    (h : Grounded calls w.engine.toResident) {input : QueryInput K} {hit : QueryHit K}
    (hhit : hit ∈ (query env w input).2.hits) : Given calls (hit.memory input.workspaceId) := by
  have hranked : Ranked w.engine.retriever input
      (w.engine.retriever.query env input w.tick).1.hits :=
    ranked_query fun id doc hdoc => (h.indexed _ id doc hdoc).2.2
  obtain ⟨doc, scores, hdoc, -, rfl⟩ :=
    hranked.found hit ((query_hits_sublist env w input).subset hhit)
  obtain ⟨hr, hws, -⟩ := h.indexed _ _ doc hdoc
  have hmemory : (queryHit doc.record scores).memory input.workspaceId = doc.record.memory := by
    rw [← hws]
    rfl
  rw [hmemory]
  exact hr.given

/-- In every interleaving of requests, whatever part of their batches is kept, and with the
process ended and started anew at any point, each hit of a query shows what a `Write` for the
workspace of the query gave whose batch reached the store, each resident record holds what
such a `Write` gave, and so does each document that decodes. -/
theorem hits_attributed {env : Platform K} (hlaw : env.Lawful) (nodeId : Bytes)
    (options : MemoryEngineOptions K) (events : List (Event K)) :
    let p := Runs.exec (Interleaved.happen env) (Interleaved.initial nodeId options) events
    let calls := (Interleaved.initial nodeId options).sent env events
    (∀ input, ∀ hit ∈ (query env p.world input).2.hits,
        Given calls (hit.memory input.workspaceId)) ∧
      (∀ (k : Bytes) r, p.world.engine.records[k]? = some r → Given calls r.memory) ∧
      ∀ (k : Bytes) v r, (p.world.store.table docNs)[k]? = some v →
        deserializeRecord env v.value = some r → Given calls r.memory := by
  intro p calls
  have h : p.Faithful env calls :=
    (Interleaved.faithful_initial env nodeId options).run hlaw events
  refine ⟨fun input hit hhit => h.rooted.resident.hits hhit, fun k r hr => ?_, ?_⟩
  · exact (h.rooted.resident.held k r hr).given
  · exact fun k v r hv hd => (h.rooted.decoded hlaw hv hd).given

end Runs

section Examples
open Reference

/-- The batch of a `Write` fails after its document has been written, and the process ends. -/
def tornWrite : List (Event ℚ) :=
  [.act (.start 0 (put (ascii "w") (ascii "a") (ascii "other"))
      { applied with main := .failed (ascii "io") fun e => e.entry.nameSpace = docNs }),
    .act (.store 0), .restart (ascii "node") options]

def anyPin : QueryInput ℚ := { question with filters := ⟨[], [], [], 0, 0, false⟩ }

theorem hits_attributed_tornWrite :
    ∃ hit ∈ (query (platform ticking) (Runs.exec (Interleaved.happen (platform ticking))
        (Interleaved.initial (ascii "node") options) tornWrite).world anyPin).2.hits,
      hit.content = ascii "other" ∧
        Given ((Interleaved.initial (ascii "node") options).sent (platform ticking) tornWrite)
          (hit.memory (ascii "w")) := by
  have hshown : ascii "other" ∈ (query (platform ticking) (Runs.exec
      (Interleaved.happen (platform ticking)) (Interleaved.initial (ascii "node") options)
      tornWrite).world anyPin).2.hits.map (·.content) := by decide +kernel
  obtain ⟨hit, hhit, hcontent⟩ := List.mem_map.mp hshown
  exact ⟨hit, hhit, hcontent,
    (hits_attributed (lawful_platform ticking) (ascii "node") options tornWrite).1 anyPin hit hhit⟩

end Examples

end PoorguyMem
