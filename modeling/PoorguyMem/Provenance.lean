import PoorguyMem.Outcomes

/-!
# Where records come from

Every record an engine holds or its store keeps was written by some call of the
run, under the name the call gave it. `Sourced` says so for a condition on
names; a step then changes what is resident by a chain of five updates, and a
property of the resident state that each of them preserves holds in every run.
-/

namespace PoorguyMem

open ByteString PropertyTree

variable {K : Type}

/-- A condition on names that leaves neither part empty. -/
structure Names (P : Bytes → Bytes → Prop) : Prop where
  workspace_ne : ∀ {workspaceId id}, P workspaceId id → workspaceId ≠ []
  id_ne : ∀ {workspaceId id}, P workspaceId id → id ≠ []

/-- The records that are held and those that are stored, in documents and in
events, have keys that go with their names, and the names satisfy `P`. -/
structure Sourced (env : Platform K) (P : Bytes → Bytes → Prop) (w : World K) : Prop where
  held : ∀ (k : Bytes) r, w.engine.records[k]? = some r →
    k = recordMapKey r.workspaceId r.id ∧ P r.workspaceId r.id
  docs : ∀ (k : Bytes) v, (w.store.table docNs)[k]? = some v → ∃ r,
    k = buildDocKey r.workspaceId r.id ∧ v.value = recordText env r ∧
      (recordTree env r).writable = true ∧ P r.workspaceId r.id
  events : ∀ (k : Bytes) v, (w.store.table eventsNs)[k]? = some v → ∃ item : LogItem K,
    k = item.eventKey env ∧ v.value = env.json.print (item.eventTree env) ∧
      (recordTree env item.record).writable = true ∧ P item.record.workspaceId item.record.id

/-! ### Reading rows back -/

def eventKeys : List Bytes :=
  ["event_key", "workspace_id", "memory_id", "reason", "op_type", "updated_at_ms", "version",
    "node_id", "record_payload"].map ascii

theorem fieldNames_eventKeys : FieldNames eventKeys := ⟨by decide, by decide⟩

theorem LogItem.fieldNames_event (env : Platform K) (item : LogItem K) :
    FieldNames ((eventFields (item.eventKey env) item.record.workspaceId item.record item.opType
      item.reason (item.eventMs env) item.nodeId (recordText env item.record)).map Prod.fst) :=
  fieldNames_eventKeys

def ckptKeys : List Bytes := ["workspace_id", "event_key", "updated_at_ms"].map ascii

theorem fieldNames_ckptKeys : FieldNames ckptKeys := ⟨by decide, by decide⟩

/-- An event that parses gives back its workspace and its payload. -/
theorem parse_eventTree {env : Platform K} (hlaw : env.Lawful) (item : LogItem K) {json : Ptree}
    (h : env.json.parse (env.json.print (item.eventTree env)) = some json) :
    json.getString (ascii "workspace_id") [] = item.record.workspaceId ∧
      json.getString (ascii "record_payload") [] = recordText env item.record := by
  have hnames := item.fieldNames_event env
  obtain ⟨rfl, -⟩ := hlaw.json.parse_only _ _ (writable_flatTree hnames) h
  exact ⟨getString_flatTree hnames (by simp [eventFields]),
    getString_flatTree hnames (by simp [eventFields])⟩

theorem names_fillDefaults (r : MemoryRecord K) :
    (fillDefaults r).workspaceId = r.workspaceId ∧ (fillDefaults r).id = r.id := by
  unfold fillDefaults fillSizeBytes
  split <;> exact ⟨rfl, rfl⟩

section Reading
variable [One K] {env : Platform K} (hlaw : env.Lawful)
include hlaw

/-- A document row with names gives its record, decoded and filled up. -/
theorem rowRecord_eq_some {entry : KeyValueEntry} {r r' : MemoryRecord K}
    (hvalue : entry.value = recordText env r) (hw : (recordTree env r).writable = true)
    (hws : r.workspaceId ≠ []) (hid : r.id ≠ []) :
    rowRecord env entry = some r' ↔
      ∃ d, deserializeRecord env (recordText env r) = some d ∧ r' = fillDefaults d := by
  rw [rowRecord, hvalue, Option.bind_eq_some_iff]
  refine exists_congr fun d => and_congr_right fun hd => ?_
  obtain ⟨hdws, hdid⟩ := (deserialize_serialize hlaw hw hd).1.names
  rw [hdws, hdid, if_neg hws, if_neg hid]
  simp only [hws, hid, or_self, if_false, Option.some.injEq]
  have hsame : { d with id := r.id, workspaceId := r.workspaceId } = d := by
    rw [← hdws, ← hdid]
  rw [hsame]
  exact eq_comm

/-- The record of a replayed event is its payload, decoded. -/
theorem eventRecord_some {checkpoints : StringMap Bytes} {event : KeyValueEntry}
    {item : LogItem K} {r : MemoryRecord K}
    (hvalue : event.value = env.json.print (item.eventTree env))
    (hw : (recordTree env item.record).writable = true) (hws : item.record.workspaceId ≠ [])
    (hid : item.record.id ≠ []) (h : eventRecord env checkpoints event = some r) :
    deserializeRecord env (recordText env item.record) = some r := by
  rw [eventRecord, hvalue, Option.bind_eq_some_iff] at h
  obtain ⟨json, hjson, h⟩ := h
  obtain ⟨hjws, hjpayload⟩ := parse_eventTree hlaw item hjson
  simp only [hjws, hjpayload, if_neg hws] at h
  split at h
  · cases h
  · rw [Option.bind_eq_some_iff] at h
    obtain ⟨d, hd, h⟩ := h
    obtain ⟨hdws, hdid⟩ := (deserialize_serialize hlaw hw hd).1.names
    have hdws' : d.workspaceId ≠ [] := hdws ▸ hws
    have hdid' : d.id ≠ [] := hdid ▸ hid
    simp only [if_neg hdws', if_neg hdid'] at h
    obtain rfl := Option.some.inj h
    exact hd

end Reading

/-! ### Updates -/

section Updates
variable [Field K] [LinearOrder K] {env : Platform K} {P : Bytes → Bytes → Prop}

/-- The five ways in which what is resident changes. -/
inductive Updates (env : Platform K) (P : Bytes → Bytes → Prop) : Resident K → Resident K → Prop
  | refl (s : Resident K) : Updates env P s s
  | upsert {s s' : Resident K} {r : MemoryRecord K} (h : Updates env P s s')
      (named : P r.workspaceId r.id) : Updates env P s (s'.upsertRecordInMemory env r)
  | remove {s s' : Resident K} {r : MemoryRecord K} (h : Updates env P s s')
      (named : P r.workspaceId r.id) : Updates env P s (s'.removeRecordInMemory r)
  | evict {s s' : Resident K} {k : Bytes} {victim : MemoryRecord K} (h : Updates env P s s')
      (held : s'.records[k]? = some victim) (unpinned : victim.pinned = false) :
      Updates env P s (s'.evict victim)
  | access {s s' : Resident K} {records : StringMap (MemoryRecord K)} (h : Updates env P s s')
      (access : AccessOnly s'.records records) : Updates env P s { s' with records := records }

theorem Updates.evicts {a b c : Resident K} (h : Updates env P a b) (he : Evicts b c) :
    Updates env P a c := by
  induction he with
  | refl => exact h
  | evict _ held unpinned ih => exact ih.evict held unpinned

theorem Updates.change {a b : Resident K} (h : Updates env P a b) {change : Change K}
    (named : P change.record.workspaceId change.record.id) :
    Updates env P a (b.applyChange env change) := by
  cases change with
  | put r => exact h.upsert named
  | drop r => exact h.remove named

theorem Updates.foldl {a : Resident K} {α : Type} {f : Resident K → α → Resident K} {xs : List α}
    (hf : ∀ x ∈ xs, ∀ b, Updates env P a b → Updates env P a (f b x)) :
    ∀ {b}, Updates env P a b → Updates env P a (xs.foldl f b) := by
  induction xs with
  | nil => exact id
  | cons x xs ih =>
    intro b h
    exact ih (fun y hy => hf y (List.mem_cons_of_mem _ hy)) (hf x List.mem_cons_self b h)

/-- A property of what is resident that the five updates preserve. -/
structure Preserved (env : Platform K) (P : Bytes → Bytes → Prop) (I : Resident K → Prop) :
    Prop where
  upsert : ∀ s r, I s → P r.workspaceId r.id → I (s.upsertRecordInMemory env r)
  remove : ∀ s r, I s → P r.workspaceId r.id → I (s.removeRecordInMemory r)
  evict : ∀ (s : Resident K) (k : Bytes) victim, I s → s.records[k]? = some victim →
    victim.pinned = false → I (s.evict victim)
  access : ∀ (s : Resident K) records, I s → AccessOnly s.records records →
    I { s with records := records }

theorem Preserved.updates {I : Resident K → Prop} (hI : Preserved env P I) {a b : Resident K}
    (h : Updates env P a b) (ha : I a) : I b := by
  induction h with
  | refl => exact ha
  | upsert _ named ih => exact hI.upsert _ _ ih named
  | remove _ named ih => exact hI.remove _ _ ih named
  | evict _ held unpinned ih => exact hI.evict _ _ _ ih held unpinned
  | access _ access ih => exact hI.access _ _ ih access

/-- The resident records lie at the keys of their names. -/
theorem preserved_held (env : Platform K) : Preserved env P fun s => ∀ (k : Bytes) r, s.records[k]? = some r →
    k = recordMapKey r.workspaceId r.id ∧ P r.workspaceId r.id where
  upsert s r h named k r' hr' := by
    rw [Resident.records_upsert, lookup_insert] at hr'
    split at hr'
    · rename_i hkey
      obtain rfl := Option.some.inj hr'
      exact ⟨hkey.symm, named⟩
    · exact h k r' hr'
  remove s r h _ k r' hr' := by
    rw [Resident.records_remove, lookup_erase] at hr'
    split at hr'
    · cases hr'
    · exact h k r' hr'
  evict s key victim h _ _ k r' hr' := by
    change (s.records.erase _)[k]? = some r' at hr'
    rw [lookup_erase] at hr'
    split at hr'
    · cases hr'
    · exact h k r' hr'
  access s records h hacc k r' hr' := by
    obtain ⟨r₀, hr₀, heq⟩ := hacc.lookup hr'
    obtain ⟨hws, hid⟩ := MemoryRecord.names_of_withoutAccess heq
    rw [hws, hid]
    exact h k r₀ hr₀

/-! ### Steps -/

variable {w : World K}

omit [LinearOrder K] in
/-- A record that is loaded is held, or it is a document row decoded. -/
theorem loadRecord_cases {workspaceId memoryId : Bytes} {r : MemoryRecord K}
    (h : loadRecord env w.engine w.store.reader workspaceId memoryId = .ok r) :
    w.engine.records[recordMapKey workspaceId memoryId]? = some r ∨
      w.engine.records[recordMapKey workspaceId memoryId]? = none ∧
      ∃ v, (w.store.table docNs)[buildDocKey workspaceId memoryId]? = some v ∧
        deserializeRecord env v.value = some r := by
  unfold loadRecord at h
  split at h
  · rename_i record hheld
    cases h
    exact Or.inl hheld
  · rename_i hnone
    refine Or.inr ⟨hnone, ?_⟩
    have hget : w.store.reader.get docNs (buildDocKey workspaceId memoryId) =
        w.store.get docNs (buildDocKey workspaceId memoryId) := rfl
    rw [hget, Store.get] at h
    rcases hv : (w.store.table docNs)[buildDocKey workspaceId memoryId]? with _ | v
    · rw [hv] at h
      cases h
    · rw [hv] at h
      simp only [Bool.not_true, Bool.false_eq_true, if_false] at h
      split at h
      · rename_i record hd
        cases h
        exact ⟨v, rfl, hd⟩
      · cases h

omit [LinearOrder K] in
theorem Sourced.names_loaded (hlaw : env.Lawful) (hS : Sourced env P w)
    {workspaceId memoryId : Bytes} {r : MemoryRecord K}
    (h : loadRecord env w.engine w.store.reader workspaceId memoryId = .ok r) :
    P r.workspaceId r.id := by
  rcases loadRecord_cases h with hheld | ⟨-, v, hv, hd⟩
  · exact (hS.held _ _ hheld).2
  · obtain ⟨r₀, -, hvalue, hw, hP⟩ := hS.docs _ _ hv
    rw [hvalue] at hd
    obtain ⟨hws, hid⟩ := (deserialize_serialize hlaw hw hd).1.names
    rwa [hws, hid]

omit [LinearOrder K] in
theorem Sourced.named (hlaw : env.Lawful) (hP : Names P) (hS : Sourced env P w) : Named env w where
  held k r hr := hP.workspace_ne (hS.held k r hr).2
  loaded _ _ _ h := hP.workspace_ne (hS.names_loaded hlaw h)

/-- The names a call may give to new records. -/
def Call.Admits (P : Bytes → Bytes → Prop) : Call K → Prop
  | .write input => ∀ id, input.workspaceId ≠ [] → id ≠ [] → P input.workspaceId id
  | _ => True

def Step.Admits (P : Bytes → Bytes → Prop) : Step K → Prop
  | .call c _ => c.Admits P
  | .restart none _ _ => True
  | .restart (some (c, _)) _ _ => c.Admits P

/-- Every input of a step that names a workspace for new records satisfies `P`. -/
def Call.Workspaces (P : Bytes → Prop) : Call K → Prop
  | .write input => P input.workspaceId
  | _ => True

def Step.Workspaces (P : Bytes → Prop) : Step K → Prop
  | .call c _ => c.Workspaces P
  | .restart none _ _ => True
  | .restart (some (c, _)) _ _ => c.Workspaces P

omit [Field K] [LinearOrder K] in
theorem Call.Workspaces.admits {c : Call K} {P : Bytes → Prop} {Q : Bytes → Bytes → Prop}
    (h : c.Workspaces P) (hPQ : ∀ w id, P w → w ≠ [] → id ≠ [] → Q w id) : c.Admits Q := by
  cases c with
  | write input => exact fun id hws hid => hPQ _ id h hws hid
  | _ => trivial

omit [Field K] [LinearOrder K] in
theorem Step.Workspaces.admits {step : Step K} {P : Bytes → Prop} {Q : Bytes → Bytes → Prop}
    (h : step.Workspaces P) (hPQ : ∀ w id, P w → w ≠ [] → id ≠ [] → Q w id) : step.Admits Q := by
  match step with
  | .call c _ => exact Call.Workspaces.admits h hPQ
  | .restart none _ _ => trivial
  | .restart (some (c, _)) _ _ => exact Call.Workspaces.admits h hPQ

/-- What a call produces has a name of the run. -/
theorem Sourced.names_produced (hlaw : env.Lawful) (hS : Sourced env P w) {call : Call K}
    (hcall : call.Admits P) {nowMs : UInt64} {change : Change K}
    (h : Produces env w nowMs call change) :
    P change.record.workspaceId change.record.id := by
  cases h with
  | new workspace _ accepted => exact hcall _ workspace accepted.id_ne
  | pinned load =>
    have hloaded := hS.names_loaded hlaw load
    exact hloaded
  | tombstoned _ held => exact (hS.held _ _ held).2
  | dropped _ held => exact (hS.held _ _ held).2

theorem Drafted.named {call : Call K} {c : Cursor} {plan : Plan K} {items : List (LogItem K)}
    (h : Drafted env w call c plan items) (hlaw : env.Lawful) (hS : Sourced env P w)
    (hcall : call.Admits P) : ∀ item ∈ items, P item.record.workspaceId item.record.id := by
  intro item hitem
  obtain ⟨i, -, -, hprod⟩ := h.produced item hitem
  exact hS.names_produced hlaw hcall hprod

theorem Updates.applyPlan {call : Call K} {c : Cursor} {plan : Plan K} {items : List (LogItem K)}
    {s : Resident K} (h : Drafted env w call c plan items)
    (hnames : ∀ item ∈ items, P item.record.workspaceId item.record.id) :
    Updates env P s (plan.applyInMemory env s) := by
  rw [Plan.applyInMemory_eq, h.changes, List.foldl_map]
  exact Updates.foldl (fun item hitem b hb => hb.change (hnames item hitem)) (.refl s)

/-- A batch leaves the rows sourced, whatever part of it is kept and whenever it was drafted. -/
theorem Sourced.commit (c' : Cursor) {seen : World K} {call : Call K} {c : Cursor} {plan : Plan K}
    {items : List (LogItem K)} (hS : Sourced env P w) (h : Drafted env seen call c plan items)
    (hnames : ∀ item ∈ items, P item.record.workspaceId item.record.id)
    (outcome : BatchOutcome) : Sourced env P ((w.atCursor c').commit outcome plan) where
  held := hS.held
  docs k v hv := by
    change ((w.store.batchWrite outcome plan.writes).table docNs)[k]? = some v at hv
    rw [Store.table_batchWrite] at hv
    rcases Table.lookup_apply hv with hold | ⟨e, he, hop, rfl, rfl⟩
    · exact hS.docs k v hold
    · have hmem := BatchOutcome.mem_effective he
      rw [h.logs.docs] at hmem
      obtain ⟨item, hitem, rfl⟩ := List.mem_map.mp hmem
      have hw := h.logs.writable item hitem
      have hP := hnames item hitem
      unfold LogItem.record at hw hP
      unfold LogItem.docEntry at hop ⊢
      split at hop
      · rename_i r hchange
        rw [hchange] at hw hP
        exact ⟨r, rfl, rfl, hw, hP⟩
      · cases hop
  events k v hv := by
    change ((w.store.batchWrite outcome plan.writes).table eventsNs)[k]? = some v at hv
    rw [Store.table_batchWrite] at hv
    rcases Table.lookup_apply hv with hold | ⟨e, he, hop, rfl, rfl⟩
    · exact hS.events k v hold
    · have hmem := BatchOutcome.mem_effective he
      rw [h.logs.events] at hmem
      obtain ⟨item, hitem, rfl⟩ := List.mem_map.mp hmem
      exact ⟨item, rfl, rfl, h.logs.writable item hitem, hnames item hitem⟩

omit [Field K] [LinearOrder K] in
/-- `Sourced` depends on the resident records and two tables of the store. -/
theorem Sourced.of_tables {w' : World K} (hS : Sourced env P w)
    (hheld : ∀ (k : Bytes) r, w'.engine.records[k]? = some r →
      k = recordMapKey r.workspaceId r.id ∧ P r.workspaceId r.id)
    (hdocs : w'.store.table docNs = w.store.table docNs)
    (hevents : w'.store.table eventsNs = w.store.table eventsNs) : Sourced env P w' where
  held := hheld
  docs k v hv := hS.docs k v (hdocs ▸ hv)
  events k v hv := hS.events k v (hevents ▸ hv)

theorem docNs_ne_routeMetaNs : docNs ≠ routeMetaNs := by decide

theorem eventsNs_ne_routeMetaNs : eventsNs ≠ routeMetaNs := by decide

theorem projectionCkptNs_ne_routeMetaNs : projectionCkptNs ≠ routeMetaNs := by decide

/-- What a store with sourced rows loads. -/
theorem updates_recovered (hlaw : env.Lawful) (hP : Names P) (hS : Sourced env P w) :
    Updates env P Resident.empty (recovered env w.store) := by
  have hload : Updates env P Resident.empty (loadedRows env w.store) := by
    refine Updates.foldl (fun entry hentry b hb => ?_) (.refl _)
    obtain ⟨-, hrow⟩ := Store.mem_scan_all.mp hentry
    obtain ⟨r, -, hvalue, hw, hname⟩ := hS.docs _ _ hrow
    unfold loadRow
    split
    · rename_i r' hr'
      obtain ⟨d, hd, rfl⟩ :=
        (rowRecord_eq_some hlaw hvalue hw (hP.workspace_ne hname) (hP.id_ne hname)).mp hr'
      obtain ⟨hdws, hdid⟩ := (deserialize_serialize hlaw hw hd).1.names
      refine hb.upsert ?_
      rw [(names_fillDefaults d).1, (names_fillDefaults d).2, hdws, hdid]
      exact hname
    · exact hb
  refine Updates.foldl (fun event hevent b hb => ?_) hload
  obtain ⟨-, hrow⟩ := Store.mem_scan_all.mp hevent
  obtain ⟨item, -, hvalue, hw, hname⟩ := hS.events _ _ hrow
  unfold replayEvent
  split
  · exact hb
  · rename_i incoming hinc
    have hd := eventRecord_some hlaw hvalue hw (hP.workspace_ne hname) (hP.id_ne hname) hinc
    obtain ⟨hdws, hdid⟩ := (deserialize_serialize hlaw hw hd).1.names
    have hnamed : P (fillDefaults incoming).workspaceId (fillDefaults incoming).id := by
      rw [(names_fillDefaults incoming).1, (names_fillDefaults incoming).2, hdws, hdid]
      exact hname
    dsimp only
    split
    · split
      · exact hb.upsert hnamed
      · exact hb
    · split
      · exact hb.upsert hnamed
      · exact hb

theorem Sourced.restart (hlaw : env.Lawful) (hP : Names P) (hS : Sourced env P w) {w' : World K}
    (h : Restarted env w w') :
    Sourced env P w' ∧ Updates env P Resident.empty w'.engine.toResident := by
  have hup := (updates_recovered hlaw hP hS).evicts h.resident
  refine ⟨hS.of_tables ((preserved_held env).updates hup ?_) (by rw [h.store]) (by rw [h.store]), hup⟩
  intro k r hr
  exact absurd hr (by simp [Resident.empty])

/-- A call keeps the records sourced and updates what is resident. -/
theorem Sourced.call (hlaw : env.Lawful) (hP : Names P) (hS : Sourced env P w) {call : Call K}
    (hcall : call.Admits P) {fate : Fate} {w' : World K} (h : Outcome env fate w call w') :
    Sourced env P w' ∧ Updates env P w.engine.toResident w'.engine.toResident := by
  have hprep := prepare_spec fate (hS.named hlaw hP) call
  cases h with
  | idle _ agrees =>
    have hres : w'.engine.toResident = w.engine.toResident := agrees.resident
    rw [hres]
    refine ⟨hS.of_tables ?_ (by rw [agrees.store]; rfl) (by rw [agrees.store]; rfl), .refl _⟩
    rw [hres]
    exact hS.held
  | queried isQuery =>
    rename_i input
    obtain ⟨records, hacc, hres⟩ := (query_spec env w input).resident
    have hup : Updates env P w.engine.toResident (query env w input).1.engine.toResident := by
      rw [hres]
      exact (Updates.refl _).access hacc
    have hstore := (query_spec env w input).store
    exact ⟨hS.of_tables ((preserved_held env).updates hup hS.held) (by rw [hstore]) (by rw [hstore]), hup⟩
  | failed hsome _ agrees =>
    obtain ⟨items, hd⟩ := hprep.2 _ hsome
    have hS' := hS.commit (prepare env fate w call).2 hd (hd.named hlaw hS hcall) fate.main
    have hres : w'.engine.toResident = w.engine.toResident := agrees.resident
    rw [hres]
    refine ⟨hS'.of_tables ?_ (by rw [agrees.store]) (by rw [agrees.store]), .refl _⟩
    rw [hres]
    exact hS.held
  | committed hsome _ settled =>
    obtain ⟨items, hd⟩ := hprep.2 _ hsome
    have hnames := hd.named hlaw hS hcall
    have hS' := hS.commit (prepare env fate w call).2 hd hnames fate.main
    have hup := (Updates.applyPlan (s := w.engine.toResident) hd hnames).evicts settled.resident
    exact ⟨hS'.of_tables ((preserved_held env).updates hup hS.held)
      (settled.table _ docNs_ne_routeMetaNs) (settled.table _ eventsNs_ne_routeMetaNs), hup⟩

theorem Sourced.interrupt (hlaw : env.Lawful) (hP : Names P) (hS : Sourced env P w)
    {call : Call K} (hcall : call.Admits P) (fate : Fate) :
    Sourced env P (interrupt env w call fate) := by
  rcases interrupt_cases env w call fate with ⟨-, heq⟩ | ⟨request, hsome, heq⟩ <;> rw [heq]
  · exact hS.of_tables hS.held rfl rfl
  · obtain ⟨items, hd⟩ := (prepare_spec fate (hS.named hlaw hP) call).2 request hsome
    exact hS.commit _ hd (hd.named hlaw hS hcall) fate.main

/-- One step keeps the records sourced; it updates what is resident, or builds it
anew after a restart. -/
theorem Sourced.step (hlaw : env.Lawful) (hP : Names P) (hS : Sourced env P w) {step : Step K}
    (hstep : step.Admits P) :
    Sourced env P (next env w step) ∧
      (Updates env P w.engine.toResident (next env w step).engine.toResident ∨
        Updates env P Resident.empty (next env w step).engine.toResident) := by
  match step with
  | .call call fate =>
    obtain ⟨hS', hup⟩ := hS.call hlaw hP hstep (perform_outcome env fate w call)
    exact ⟨hS', Or.inl hup⟩
  | .restart none nodeId options =>
    obtain ⟨hS', hup⟩ := hS.restart hlaw hP (restart_spec env w nodeId options)
    exact ⟨hS', Or.inr hup⟩
  | .restart (some (call, fate)) nodeId options =>
    obtain ⟨hS', hup⟩ := (hS.interrupt hlaw hP hstep fate).restart hlaw hP
      (restart_spec env _ nodeId options)
    exact ⟨hS', Or.inr hup⟩

omit [Field K] [LinearOrder K] in
theorem sourced_initial (nodeId : Bytes) (options : MemoryEngineOptions K) :
    Sourced env P (World.initial nodeId options) where
  held k r hr := absurd hr (by simp [World.initial, MemoryEngine.new, Resident.empty])
  docs k v hv := absurd hv (by simp [World.initial, Store.empty])
  events k v hv := absurd hv (by simp [World.initial, Store.empty])

/-- The run rule: a property of what is resident that holds of nothing and that
the updates preserve holds at the end of every run. -/
theorem Preserved.run (hlaw : env.Lawful) (hP : Names P) {I : Resident K → Prop}
    (hI : Preserved env P I) (hempty : I Resident.empty) {steps : List (Step K)}
    (hsteps : ∀ step ∈ steps, step.Admits P) (hS : Sourced env P w) (hw : I w.engine.toResident) :
    Sourced env P (Runs.exec (next env) w steps) ∧
      I (Runs.exec (next env) w steps).engine.toResident := by
  induction steps generalizing w with
  | nil => exact ⟨hS, hw⟩
  | cons step steps ih =>
    obtain ⟨hS', hup⟩ := hS.step hlaw hP (hsteps step List.mem_cons_self)
    refine ih (fun s hs => hsteps s (List.mem_cons_of_mem _ hs)) hS' ?_
    rcases hup with hup | hup
    · exact hI.updates hup hw
    · exact hI.updates hup hempty

end Updates

end PoorguyMem
