import PoorguyMem.Agreement

/-!
# The documents of a run

What the engine keeps, without rows and keys: a map from names to records, which
every committed change updates at one name. The document rows hold the texts of
this map, and what is resident is a cache of it. Neither needs anything of the
clock, nor that the codec gives back a record's metadata.
-/

namespace PoorguyMem

open ByteString

variable {K : Type}

/-- The record stored under a name. -/
abbrev Documents (K : Type) := Bytes → Bytes → Option (MemoryRecord K)

namespace Documents

def empty : Documents K := fun _ _ => none

def apply (documents : Documents K) (change : Change K) : Documents K := fun workspaceId id =>
  if change.record.workspaceId = workspaceId ∧ change.record.id = id then change.value
  else documents workspaceId id

def applyAll (documents : Documents K) (changes : List (Change K)) : Documents K :=
  changes.foldl apply documents

/-- A document after some changes was there before, or one of them put it. -/
theorem mem_of_applyAll {documents : Documents K} {changes : List (Change K)} {w id : Bytes}
    {d : MemoryRecord K} (h : documents.applyAll changes w id = some d) :
    documents w id = some d ∨ .put d ∈ changes := by
  induction changes generalizing documents with
  | nil => exact Or.inl h
  | cons change rest ih =>
    rcases ih h with hold | hput
    · rw [apply] at hold
      split at hold
      · cases change with
        | put r =>
          obtain rfl := Option.some.inj hold
          exact Or.inr List.mem_cons_self
        | drop r => cases hold
      · exact Or.inl hold
    · exact Or.inr (List.mem_cons_of_mem _ hput)

end Documents

/-! ### What a resident copy says -/

section Essence
variable [Zero K]

/-- A record without what a query updates and what decoding may fill in anew. -/
def MemoryRecord.essence (r : MemoryRecord K) : MemoryRecord K :=
  { r with
    metadata := ∅
    sizeBytes := 0
    lastAccessMs := 0
    hitCount := 0
    importanceScore := 0
    tier := [] }

theorem essence_of_withoutAccess {r d : MemoryRecord K} (h : r.withoutAccess = d.withoutAccess) :
    r.essence = d.essence := by
  have hmask : ∀ x : MemoryRecord K, x.withoutAccess.essence = x.essence := fun _ => rfl
  rw [← hmask r, h, hmask]

theorem essence_fillDefaults (r : MemoryRecord K) : (fillDefaults r).essence = r.essence := by
  rw [fillDefaults, fillSizeBytes]
  split <;> rfl

theorem Reread.essence {r r' : MemoryRecord K} (h : Reread r r') : r'.essence = r.essence := by
  rw [Reread] at h
  rw [h]
  rfl

theorem fields_of_essence {r d : MemoryRecord K} (h : r.essence = d.essence) :
    r.workspaceId = d.workspaceId ∧ r.id = d.id ∧ r.dedupKey = d.dedupKey ∧
      r.content = d.content ∧ r.tombstone = d.tombstone ∧ r.pinned = d.pinned := by
  have hfields : ∀ x : MemoryRecord K, (x.essence.workspaceId, x.essence.id, x.essence.dedupKey,
      x.essence.content, x.essence.tombstone, x.essence.pinned) =
      (x.workspaceId, x.id, x.dedupKey, x.content, x.tombstone, x.pinned) := fun _ => rfl
  have heq := hfields r
  rw [h, hfields d] at heq
  simp only [Prod.mk.injEq] at heq
  exact ⟨heq.1.symm, heq.2.1.symm, heq.2.2.1.symm, heq.2.2.2.1.symm, heq.2.2.2.2.1.symm,
    heq.2.2.2.2.2.symm⟩

/-- What is resident is a cache of the documents, from which only unpinned records
are missing. -/
structure Backs (documents : Documents K) (s : Resident K) : Prop where
  held : ∀ w id r, Plain w id → s.records[recordMapKey w id]? = some r →
    ∃ d, documents w id = some d ∧ r.essence = d.essence
  missing : ∀ w id d, Plain w id → s.records[recordMapKey w id]? = none →
    documents w id = some d → d.pinned = false

theorem backs_empty : Backs (Documents.empty : Documents K) Resident.empty where
  held w id r _ hr := absurd hr (by simp [Resident.empty])
  missing w id d _ _ hd := by cases hd

section Updates
variable {documents : Documents K} {s s' : Resident K}

theorem Backs.evicts (h : Backs documents s)
    (hkeys : ∀ (k : Bytes) r, s.records[k]? = some r → k = recordMapKey r.workspaceId r.id)
    (he : Evicts s s') : Backs documents s' := by
  constructor
  · intro w id r hname hr
    exact h.held w id r hname (he.subset hr)
  · intro w id d hname hnone hd
    rcases hr : s.records[recordMapKey w id]? with _ | r
    · exact h.missing w id d hname hr hd
    · rcases he.lookup hkeys hr with hkept | ⟨-, hunpinned⟩
      · cases hnone.symm.trans hkept
      · obtain ⟨d', hd', hsame⟩ := h.held w id r hname hr
        obtain rfl := Option.some.inj (hd.symm.trans hd')
        rw [← hunpinned]
        exact (congrArg MemoryRecord.pinned hsame).symm

theorem Backs.access (h : Backs documents s) (hacc : AccessOnly s.records s'.records) :
    Backs documents s' := by
  constructor
  · intro w id r hname hr
    obtain ⟨r₀, hr₀, hsame⟩ := hacc.lookup hr
    obtain ⟨d, hd, hess⟩ := h.held w id r₀ hname hr₀
    exact ⟨d, hd, (essence_of_withoutAccess hsame).trans hess⟩
  · intro w id d hname hnone hd
    refine h.missing w id d hname ?_ hd
    have hk := hacc (recordMapKey w id)
    rw [hnone, Option.map_none] at hk
    exact Option.map_eq_none_iff.mp hk.symm

end Updates

end Essence

section Changes
variable [Field K] [LinearOrder K] {env : Platform K} {documents : Documents K} {s : Resident K}

theorem Backs.applyChange (h : Backs documents s) {change : Change K}
    (hchange : Plain change.record.workspaceId change.record.id) :
    Backs (documents.apply change) (s.applyChange env change) := by
  constructor
  · intro w id r hname hr
    rw [lookup_applyChange s hchange hname] at hr
    rw [Documents.apply]
    split
    · rename_i hsame
      rw [if_pos hsame] at hr
      exact ⟨r, hr, rfl⟩
    · rename_i hother
      rw [if_neg hother] at hr
      exact h.held w id r hname hr
  · intro w id d hname hnone hd
    rw [lookup_applyChange s hchange hname] at hnone
    rw [Documents.apply] at hd
    split at hd
    · rename_i hsame
      rw [if_pos hsame, hd] at hnone
      cases hnone
    · rename_i hother
      rw [if_neg hother] at hnone
      exact h.missing w id d hname hnone hd

theorem Backs.applyAll {changes : List (Change K)} (h : Backs documents s)
    (hchanges : ∀ change ∈ changes, Plain change.record.workspaceId change.record.id) :
    Backs (documents.applyAll changes) (changes.foldl (Resident.applyChange env) s) := by
  induction changes generalizing documents s with
  | nil => exact h
  | cons change rest ih =>
    exact ih (h.applyChange (hchanges change List.mem_cons_self))
      fun c hc => hchanges c (List.mem_cons_of_mem _ hc)

end Changes

/-! ### The rows -/

/-- The document rows are the texts of the documents. -/
structure Represents (env : Platform K) (rows : Table) (documents : Documents K) : Prop where
  row : ∀ w id, Plain w id →
    rows[buildDocKey w id]?.map StoredValue.value = (documents w id).map (recordText env)
  named : ∀ w id r, documents w id = some r → r.workspaceId = w ∧ r.id = id ∧ Plain w id ∧
    (recordTree env r).writable = true

section Rows
variable {env : Platform K} {rows : Table} {documents : Documents K}

theorem represents_empty (env : Platform K) : Represents env ∅ (Documents.empty : Documents K) where
  row w id _ := by simp [Documents.empty]
  named w id r h := by cases h

theorem Represents.applyItem (h : Represents env rows documents) {item : LogItem K}
    (hitem : Plain item.record.workspaceId item.record.id)
    (hw : (recordTree env item.record).writable = true) :
    Represents env (rows.applyEntry (item.docEntry env)) (documents.apply item.change) := by
  constructor
  · intro w id hname
    have hkey : buildDocKey item.record.workspaceId item.record.id = buildDocKey w id ↔
        item.record.workspaceId = w ∧ item.record.id = id :=
      ⟨buildDocKey_inj hitem.2.2.2 hname.2.2.2, fun h => by rw [h.1, h.2]⟩
    have hold := h.row w id hname
    obtain ⟨r | r, docTs, reading, seq, opType, reason, nodeId, ckptTs⟩ := item
    · refine (congrArg (Option.map _)
        (lookup_insert rows (buildDocKey r.workspaceId r.id) _ _)).trans ?_
      rw [Documents.apply, apply_ite (Option.map _), apply_ite (Option.map (recordText env))]
      exact if_congr hkey rfl hold
    · refine (congrArg (Option.map _)
        (lookup_erase rows (buildDocKey r.workspaceId r.id) _)).trans ?_
      rw [Documents.apply, apply_ite (Option.map _), apply_ite (Option.map (recordText env))]
      exact if_congr hkey rfl hold
  · intro w id r hr
    rw [Documents.apply] at hr
    split at hr
    · rename_i hsame
      obtain ⟨r' | r', docTs, reading, seq, opType, reason, nodeId, ckptTs⟩ := item
      · obtain rfl := Option.some.inj hr
        obtain ⟨rfl, rfl⟩ := hsame
        exact ⟨rfl, rfl, hitem, hw⟩
      · cases hr
    · exact h.named w id r hr

theorem Represents.applyItems {items : List (LogItem K)} (h : Represents env rows documents)
    (hitems : ∀ item ∈ items, Plain item.record.workspaceId item.record.id)
    (hw : ∀ item ∈ items, (recordTree env item.record).writable = true) :
    Represents env (rows.apply (items.map (·.docEntry env)))
      (documents.applyAll (items.map (·.change))) := by
  induction items generalizing rows documents with
  | nil => exact h
  | cons item rest ih =>
    exact ih (h.applyItem (hitems item List.mem_cons_self) (hw item List.mem_cons_self))
      (fun i hi => hitems i (List.mem_cons_of_mem _ hi))
      fun i hi => hw i (List.mem_cons_of_mem _ hi)

/-- A row that decodes gives the record stored under its name, reread. -/
theorem Represents.decoded [One K] (hlaw : env.Lawful) (h : Represents env rows documents)
    {w id : Bytes} (hname : Plain w id) {v : StoredValue} (hv : rows[buildDocKey w id]? = some v)
    {d : MemoryRecord K} (hd : deserializeRecord env v.value = some d) :
    ∃ r, documents w id = some r ∧ v.value = recordText env r ∧ Reread r d := by
  have hrow := h.row w id hname
  rw [hv, Option.map_some] at hrow
  obtain ⟨r, hr, htext⟩ := Option.map_eq_some_iff.mp hrow.symm
  obtain ⟨-, -, -, hw⟩ := h.named w id r hr
  rw [← htext] at hd
  exact ⟨r, hr, htext.symm, (deserialize_serialize hlaw hw hd).1⟩

end Rows

/-! ### Runs -/

/-- The workspaces a call mentions. -/
def Call.Mentions (P : Bytes → Prop) : Call K → Prop
  | .write input => P input.workspaceId
  | .query input => P input.workspaceId
  | .pin workspaceId _ _ => P workspaceId
  | .compact workspaceId => P workspaceId
  | .gc => True

theorem Call.Mentions.workspaces {P : Bytes → Prop} {c : Call K} (h : c.Mentions P) :
    c.Workspaces P := by
  cases c with
  | write input => exact h
  | _ => trivial

/-- A workspace free of the separators of keys. -/
def Clean (workspaceId : Bytes) : Prop := 58 ∉ workspaceId ∧ 47 ∉ workspaceId

/-- A world with the documents its steps have stored. -/
structure Traced (K : Type) where
  world : World K
  documents : Documents K

section Trace
variable [Field K] [LinearOrder K]

/-- The changes a call commits. -/
def committed (env : Platform K) (w : World K) (call : Call K) (fate : Fate) : List (Change K) :=
  if fate.main.ok then (prepare env fate w call).1.elim [] fun request => request.plan.changes
  else []

def Step.committed (env : Platform K) (w : World K) : Step K → List (Change K)
  | .call c fate => PoorguyMem.committed env w c fate
  | .restart none _ _ => []
  | .restart (some (c, fate)) _ _ => PoorguyMem.committed env w c fate

namespace Traced

def next (env : Platform K) (t : Traced K) (step : Step K) : Traced K where
  world := PoorguyMem.next env t.world step
  documents := t.documents.applyAll (step.committed env t.world)

def initial (nodeId : Bytes) (options : MemoryEngineOptions K) : Traced K :=
  ⟨World.initial nodeId options, Documents.empty⟩

/-- The world of a traced run is the world of the run. -/
theorem exec_world (env : Platform K) (t : Traced K) (steps : List (Step K)) :
    (Runs.exec (Traced.next env) t steps).world = Runs.exec (PoorguyMem.next env) t.world steps := by
  induction steps generalizing t with
  | nil => rfl
  | cons step rest ih => exact ih (t.next env step)

end Traced

/-- The invariant of traced runs. -/
structure Tracked (env : Platform K) (t : Traced K) : Prop where
  sourced : Sourced env Plain t.world
  represents : Represents env (t.world.store.table docNs) t.documents
  backs : Backs t.documents t.world.engine.toResident

variable {env : Platform K} {t : Traced K}

omit [LinearOrder K] in
theorem tracked_initial (nodeId : Bytes) (options : MemoryEngineOptions K) :
    Tracked env (Traced.initial nodeId options) :=
  ⟨sourced_initial nodeId options, represents_empty env, backs_empty⟩

omit [Field K] [LinearOrder K] in
theorem Call.Workspaces.plain {c : Call K} (h : c.Workspaces Clean) : c.Admits Plain :=
  h.admits fun _ _ hw hws hid => ⟨hws, hid, hw⟩

theorem Tracked.drafted (hlaw : env.Lawful) (h : Tracked env t) (call : Call K) (fate : Fate)
    {request : Request K} (hsome : (prepare env fate t.world call).1 = some request) :
    ∃ items, Drafted env t.world call (prepare env fate t.world call).2 request.plan items :=
  (prepare_spec fate (h.sourced.named hlaw names_plain) call).2 request hsome

omit [LinearOrder K] in
/-- A resident record is a copy of the document of its name. -/
theorem Tracked.document_held (h : Tracked env t) {k : Bytes} {r : MemoryRecord K}
    (hr : t.world.engine.records[k]? = some r) :
    ∃ d, t.documents r.workspaceId r.id = some d ∧ r.essence = d.essence := by
  obtain ⟨rfl, hname⟩ := h.sourced.held k r hr
  exact h.backs.held _ _ r hname hr

omit [LinearOrder K] in
/-- So is a record that is loaded. -/
theorem Tracked.document_loaded (hlaw : env.Lawful) (h : Tracked env t)
    {workspaceId memoryId : Bytes} {r : MemoryRecord K}
    (hr : loadRecord env t.world.engine t.world.store.reader workspaceId memoryId = .ok r) :
    ∃ d, t.documents r.workspaceId r.id = some d ∧ r.essence = d.essence := by
  rcases loadRecord_cases hr with hheld | ⟨-, v, hv, hd⟩
  · exact h.document_held hheld
  · obtain ⟨r₀, hk, hvalue, hw, hname⟩ := h.sourced.docs _ _ hv
    obtain ⟨hws, hid⟩ := (deserialize_serialize hlaw hw (hvalue ▸ hd)).1.names
    rw [hk] at hv
    obtain ⟨r₁, hr₁, -, hreread⟩ := h.represents.decoded hlaw hname hv hd
    rw [hws, hid]
    exact ⟨r₁, hr₁, hreread.essence⟩

/-- The rows after the batch of a call. -/
theorem Tracked.represents_commit (hlaw : env.Lawful) (h : Tracked env t) {call : Call K}
    (hcall : call.Workspaces Clean) {fate : Fate} (hwhole : fate.main.Whole) {request : Request K}
    (hsome : (prepare env fate t.world call).1 = some request) :
    Represents env ((t.world.store.batchWrite fate.main request.plan.writes).table docNs)
      (t.documents.applyAll (committed env t.world call fate)) := by
  rw [committed]
  by_cases hok : fate.main.ok = true
  · obtain ⟨items, hd⟩ := h.drafted hlaw call fate hsome
    rw [if_pos hok, hsome, Option.elim_some, hd.changes, Store.batchWrite_of_ok _ hok,
      Store.table_apply, hd.logs.docs]
    exact h.represents.applyItems (hd.named hlaw h.sourced hcall.plain) hd.logs.writable
  · rw [if_neg hok, Store.batchWrite_of_whole_failed _ hwhole (by simpa using hok)]
    exact h.represents

/-- The changes a call commits are those it produces. -/
theorem Tracked.produced_committed (hlaw : env.Lawful) (h : Tracked env t) {call : Call K}
    {fate : Fate} : ∀ change ∈ committed env t.world call fate, ∃ i, t.world.tick ≤ i ∧
      Produces env t.world (env.clock i) call change := by
  intro change hchange
  rw [committed] at hchange
  split at hchange
  · rcases hprep : (prepare env fate t.world call).1 with _ | request
    · rw [hprep] at hchange
      cases hchange
    · rw [hprep, Option.elim_some] at hchange
      obtain ⟨items, hd⟩ := h.drafted hlaw call fate hprep
      rw [hd.changes] at hchange
      obtain ⟨item, hitem, rfl⟩ := List.mem_map.mp hchange
      obtain ⟨i, hi, -, hprod⟩ := hd.produced item hitem
      exact ⟨i, hi, hprod⟩
  · cases hchange

theorem committed_of_none {w : World K} {call : Call K} {fate : Fate}
    (h : (prepare env fate w call).1 = none) : committed env w call fate = [] := by
  rw [committed, h]
  split <;> rfl

/-- What a call commits has names of the run. -/
theorem Tracked.plain_committed (hlaw : env.Lawful) (h : Tracked env t) {call : Call K}
    (hcall : call.Workspaces Clean) (fate : Fate) :
    ∀ change ∈ committed env t.world call fate,
      Plain change.record.workspaceId change.record.id := by
  intro change hchange
  obtain ⟨i, -, hprod⟩ := h.produced_committed hlaw change hchange
  exact h.sourced.names_produced hlaw hcall.plain hprod

/-- A call keeps the rows and what is resident true to the documents. -/
theorem Tracked.call (hlaw : env.Lawful) (h : Tracked env t) {call : Call K}
    (hcall : call.Workspaces Clean) {fate : Fate} (hwhole : fate.main.Whole) :
    Tracked env (t.next env (.call call fate)) := by
  have hout := perform_outcome env fate t.world call
  obtain ⟨hsourced, -⟩ := h.sourced.call hlaw names_plain hcall.plain hout
  have hplain := h.plain_committed hlaw hcall fate
  change Tracked env ⟨(perform env fate t.world call).1,
    t.documents.applyAll (committed env t.world call fate)⟩
  generalize hw' : (perform env fate t.world call).1 = w' at hsourced hout
  cases hout with
  | idle none agrees =>
    rw [committed_of_none none]
    refine ⟨hsourced, ?_, ?_⟩
    · rw [agrees.store]
      exact h.represents
    · rw [agrees.resident]
      exact h.backs
  | queried isQuery =>
    obtain rfl := isQuery
    rename_i input
    rw [committed_of_none rfl]
    obtain ⟨records, hacc, hres⟩ := (query_spec env t.world input).resident
    refine ⟨hsourced, ?_, ?_⟩
    · rw [(query_spec env t.world input).store]
      exact h.represents
    · refine h.backs.access ?_
      rw [hres]
      exact hacc
  | failed some failed agrees =>
    have hrep := h.represents_commit hlaw hcall hwhole some
    refine ⟨hsourced, ?_, ?_⟩
    · rw [agrees.store]
      exact hrep
    · rw [agrees.resident, committed, if_neg (by simp [failed])]
      exact h.backs
  | @committed request _ some ok settled =>
    have hrep := h.represents_commit hlaw hcall hwhole some
    obtain ⟨items, hd⟩ := h.drafted hlaw call fate some
    refine ⟨hsourced, ?_, ?_⟩
    · rw [settled.table _ docNs_ne_routeMetaNs]
      exact hrep
    · have hchanges : committed env t.world call fate = request.plan.changes := by
        rw [committed, if_pos ok, some, Option.elim_some]
      rw [hchanges] at hplain ⊢
      have hkeys := (preserved_held env).updates (Updates.applyPlan (s := t.world.engine.toResident)
        hd (hd.named hlaw h.sourced hcall.plain)) h.sourced.held
      refine Backs.evicts ?_ (fun k r hr => (hkeys k r hr).1) settled.resident
      rw [Plan.applyInMemory_eq]
      exact h.backs.applyAll hplain

/-! ### Restarts -/

/-- A store whose documents decode and whose events are not beyond their checkpoints. -/
structure Reloads (env : Platform K) (store : Store) : Prop where
  decodes : ∀ (k : Bytes) v, (store.table docNs)[k]? = some v →
    (deserializeRecord env v.value).isSome
  skipped : ∀ e ∈ (store.scan eventsNs [] [] 0).entries,
    eventRecord env (storedCheckpoints env store) e = none

omit [LinearOrder K] in
/-- A record a row gives is the document of its name, reread. -/
theorem document_of_rowRecord (hlaw : env.Lawful) {w : World K} {documents : Documents K}
    (hS : Sourced env Plain w) (hR : Represents env (w.store.table docNs) documents)
    {e : KeyValueEntry} (he : e ∈ (w.store.scan docNs [] [] 0).entries) {r : MemoryRecord K}
    (hr : rowRecord env e = some r) :
    Plain r.workspaceId r.id ∧ ∃ d, documents r.workspaceId r.id = some d ∧
      r.essence = d.essence := by
  obtain ⟨-, hv⟩ := Store.mem_scan_all.mp he
  obtain ⟨r₀, hk, hvalue, hw, hname⟩ := hS.docs _ _ hv
  obtain ⟨d, hd, rfl⟩ := (rowRecord_eq_some hlaw hvalue hw hname.1 hname.2.1).mp hr
  obtain ⟨hws, hid⟩ := (deserialize_serialize hlaw hw hd).1.names
  rw [(names_fillDefaults d).1, (names_fillDefaults d).2, hws, hid]
  rw [hk] at hv
  obtain ⟨r₁, hr₁, -, hreread⟩ := hR.decoded hlaw hname hv (hvalue ▸ hd)
  exact ⟨hname, r₁, hr₁, (essence_fillDefaults d).trans hreread.essence⟩

omit [LinearOrder K] in
/-- Every document has a row that gives it. -/
theorem rowRecord_of_document (hlaw : env.Lawful) {w : World K} {documents : Documents K}
    (hR : Represents env (w.store.table docNs) documents) (hload : Reloads env w.store)
    {workspaceId id : Bytes} {d : MemoryRecord K} (hd : documents workspaceId id = some d) :
    ∃ e ∈ (w.store.scan docNs [] [] 0).entries, ∃ r, rowRecord env e = some r ∧
      r.essence = d.essence := by
  obtain ⟨hws, hid, hname, hw⟩ := hR.named workspaceId id d hd
  have hrow := hR.row workspaceId id hname
  rw [hd, Option.map_some] at hrow
  obtain ⟨v, hv, htext⟩ := Option.map_eq_some_iff.mp hrow
  obtain ⟨d', hd'⟩ := Option.isSome_iff_exists.mp (hload.decodes _ v hv)
  rw [htext] at hd'
  refine ⟨⟨docNs, buildDocKey workspaceId id, v.value, v.ts⟩, Store.mem_scan_all.mpr ⟨rfl, hv⟩,
    fillDefaults d', ?_, ?_⟩
  · exact (rowRecord_eq_some hlaw htext hw (hws ▸ hname.1) (hid ▸ hname.2.1)).mpr ⟨d', hd', rfl⟩
  · exact (essence_fillDefaults d').trans (deserialize_serialize hlaw hw hd').1.essence

/-- Every document is loaded. -/
theorem isSome_loadedRows (hlaw : env.Lawful) {w : World K} {documents : Documents K}
    (hR : Represents env (w.store.table docNs) documents) (hload : Reloads env w.store)
    {workspaceId id : Bytes} {d : MemoryRecord K} (hd : documents workspaceId id = some d) :
    ((loadedRows env w.store).records[recordMapKey workspaceId id]?).isSome = true := by
  obtain ⟨hws, hid, -, -⟩ := hR.named workspaceId id d hd
  obtain ⟨e, he, r, hrow, hess⟩ := rowRecord_of_document hlaw hR hload hd
  have hsome := isSome_of_mem_loadRow (s := Resident.empty) he hrow
  obtain ⟨hws', hid', -⟩ := fields_of_essence hess
  rw [hws', hid', hws, hid] at hsome
  exact hsome

/-- What a warmup loads is a cache of the documents. -/
theorem backs_loadedRows (hlaw : env.Lawful) {w : World K} {documents : Documents K}
    (hS : Sourced env Plain w) (hR : Represents env (w.store.table docNs) documents)
    (hload : Reloads env w.store) : Backs documents (loadedRows env w.store) := by
  constructor
  · intro workspaceId id r hname hr
    rcases lookup_foldl_loadRow hr with hnone | ⟨e, he, hrow, hkey⟩
    · exact absurd hnone (by simp [Resident.empty])
    · obtain ⟨hplain, hdoc⟩ := document_of_rowRecord hlaw hS hR he hrow
      obtain ⟨rfl, rfl⟩ := recordMapKey_inj hplain.2.2.1 hname.2.2.1 hkey
      exact hdoc
  · intro workspaceId id d hname hnone hd
    have hsome := isSome_loadedRows hlaw hR hload hd
    rw [hnone] at hsome
    cases hsome

/-- A restart over a store that reloads caches the documents anew. -/
theorem tracked_restart (hlaw : env.Lawful) {w : World K} {documents : Documents K}
    (hS : Sourced env Plain w) (hR : Represents env (w.store.table docNs) documents)
    (hload : Reloads env w.store) (nodeId : Bytes) (options : MemoryEngineOptions K) :
    Tracked env ⟨restart env w nodeId options, documents⟩ := by
  have hr := restart_spec env w nodeId options
  refine ⟨(hS.restart hlaw names_plain hr).1, ?_, ?_⟩
  · rw [hr.store]
    exact hR
  · have hkeys := (preserved_held env).updates (updates_recovered hlaw names_plain hS)
      fun k r h => absurd h (by simp [Resident.empty])
    refine Backs.evicts ?_ (fun k r h => (hkeys k r h).1) hr.resident
    rw [recovered_eq_of_skipped hload.skipped]
    exact backs_loadedRows hlaw hS hR hload

/-- Workspaces free of separators, batches that are applied whole or not at all, and
restarts over a store that reloads. -/
def Step.Regular (env : Platform K) (w : World K) : Step K → Prop
  | .call c fate => c.Mentions Clean ∧ fate.main.Whole
  | .restart none _ _ => Reloads env w.store
  | .restart (some (c, fate)) _ _ =>
    (c.Mentions Clean ∧ fate.main.Whole) ∧ Reloads env (interrupt env w c fate).store

/-- A step that is a call, with a condition on it. -/
def Step.IsCall (P : Call K → Fate → Prop) : Step K → Prop
  | .call c fate => P c fate
  | .restart _ _ _ => False

theorem Tracked.interrupt (hlaw : env.Lawful) (h : Tracked env t) {call : Call K}
    (hcall : call.Workspaces Clean) {fate : Fate} (hwhole : fate.main.Whole) :
    Sourced env Plain (interrupt env t.world call fate) ∧
      Represents env ((interrupt env t.world call fate).store.table docNs)
        (t.documents.applyAll (committed env t.world call fate)) := by
  refine ⟨h.sourced.interrupt hlaw names_plain hcall.plain fate, ?_⟩
  rcases interrupt_cases env t.world call fate with ⟨hnone, heq⟩ | ⟨request, hsome, heq⟩ <;> rw [heq]
  · rw [committed_of_none hnone]
    exact h.represents
  · exact h.represents_commit hlaw hcall hwhole hsome

/-- A step keeps the rows and what is resident true to the documents. -/
theorem Tracked.step (hlaw : env.Lawful) (h : Tracked env t) {step : Step K}
    (hstep : step.Regular env t.world) : Tracked env (t.next env step) := by
  match step with
  | .call c fate => exact h.call hlaw hstep.1.workspaces hstep.2
  | .restart none nodeId options =>
    exact tracked_restart hlaw h.sourced h.represents hstep nodeId options
  | .restart (some (c, fate)) nodeId options =>
    obtain ⟨hS, hR⟩ := h.interrupt hlaw hstep.1.1.workspaces hstep.1.2
    exact tracked_restart hlaw hS hR hstep.2 nodeId options

end Trace

end PoorguyMem
