import PoorguyMem.Durable

/-!
# Agreement of memory and store

What is resident is a cache of the document rows: a resident record is the one
its row decodes to, apart from accesses, and a row without a resident record is
an unpinned one that was evicted. Every step keeps this, and a restart, even one
that cuts a call off after its batch, builds it anew from the rows.
-/

namespace PoorguyMem

open ByteString

variable {K : Type}

/-- The record stored for a name and the record held for it. -/
inductive Backed : Option (MemoryRecord K) → Option (MemoryRecord K) → Prop
  | absent : Backed none none
  | held {d r : MemoryRecord K} (same : r.withoutAccess = d.withoutAccess) :
      Backed (some d) (some r)
  | evicted {d : MemoryRecord K} (unpinned : d.pinned = false) : Backed (some d) none

theorem Backed.refl : ∀ o : Option (MemoryRecord K), Backed o o
  | none => .absent
  | some _ => .held rfl

section Tables
variable [One K]

/-- The record the documents hold for a name. -/
def Table.recordAt (env : Platform K) (docs : Table) (workspaceId memoryId : Bytes) :
    Option (MemoryRecord K) :=
  docs[buildDocKey workspaceId memoryId]?.bind fun v => deserializeRecord env v.value

/-- What is resident agrees with the documents under every plain name. -/
def Coherent (env : Platform K) (docs : Table) (s : Resident K) : Prop :=
  ∀ w id, Plain w id → Backed (docs.recordAt env w id) s.records[recordMapKey w id]?

theorem Row.recordAt {env : Platform K} {t : Nat} {docs : Table} {k : Bytes} {v : StoredValue}
    {r : MemoryRecord K} (h : Row env t k v r) (hv : docs[k]? = some v) :
    docs.recordAt env r.workspaceId r.id = some r := by
  rw [Table.recordAt, ← h.key, hv, Option.bind_some, h.value]
  exact h.roundTrips

/-- A record the documents of a run hold for a name has that name. -/
theorem Durable.row_of_recordAt {env : Platform K} {w : World K} (h : Durable env w)
    {workspaceId memoryId : Bytes} (hname : Plain workspaceId memoryId) {d : MemoryRecord K}
    (hd : (w.store.table docNs).recordAt env workspaceId memoryId = some d) :
    d.workspaceId = workspaceId ∧ d.id = memoryId ∧
      ∃ v, Row env w.tick (buildDocKey workspaceId memoryId) v d := by
  obtain ⟨v, hv, hdecode⟩ := Option.bind_eq_some_iff.mp hd
  obtain ⟨r, hr⟩ := h.docs _ v hv
  rw [hr.value, hr.roundTrips] at hdecode
  obtain rfl := Option.some.inj hdecode
  obtain ⟨hws, hid⟩ := buildDocKey_inj hname.2.2.2 hr.formed.named.2.2.2 hr.key
  exact ⟨hws.symm, hid.symm, v, hr⟩

end Tables

/-! ### Changes -/

/-- The record a change leaves under its name. -/
def Change.value : Change K → Option (MemoryRecord K)
  | .put r => some r
  | .drop _ => none

section Changes
variable [Field K] [LinearOrder K] {env : Platform K}

omit [LinearOrder K] in
theorem recordAt_applyEntry {docs : Table} {item : LogItem K}
    (hitem : Plain item.record.workspaceId item.record.id) (hround : RoundTrips env item.record)
    {w id : Bytes} (hname : Plain w id) :
    (docs.applyEntry (item.docEntry env)).recordAt env w id =
      if item.record.workspaceId = w ∧ item.record.id = id then item.change.value
      else docs.recordAt env w id := by
  have hkey : buildDocKey item.record.workspaceId item.record.id = buildDocKey w id ↔
      item.record.workspaceId = w ∧ item.record.id = id :=
    ⟨buildDocKey_inj hitem.2.2.2 hname.2.2.2, fun h => by rw [h.1, h.2]⟩
  obtain ⟨r | r, docTs, reading, seq, opType, reason, nodeId, ckptTs⟩ := item
  · refine (congrArg (Option.bind · _) (lookup_insert docs (buildDocKey r.workspaceId r.id) _ _)).trans
      ?_
    rw [apply_ite (Option.bind · _)]
    exact if_congr hkey hround rfl
  · refine (congrArg (Option.bind · _) (lookup_erase docs (buildDocKey r.workspaceId r.id) _)).trans
      ?_
    rw [apply_ite (Option.bind · _)]
    exact if_congr hkey rfl rfl

theorem lookup_applyChange (s : Resident K) {change : Change K}
    (hchange : Plain change.record.workspaceId change.record.id) {w id : Bytes}
    (hname : Plain w id) :
    (s.applyChange env change).records[recordMapKey w id]? =
      if change.record.workspaceId = w ∧ change.record.id = id then change.value
      else s.records[recordMapKey w id]? := by
  have hkey : recordMapKey change.record.workspaceId change.record.id = recordMapKey w id ↔
      change.record.workspaceId = w ∧ change.record.id = id :=
    ⟨recordMapKey_inj hchange.2.2.1 hname.2.2.1, fun h => by rw [h.1, h.2]⟩
  cases change with
  | put r =>
    rw [Resident.applyChange, Resident.records_upsert, lookup_insert]
    exact if_congr hkey rfl rfl
  | drop r =>
    rw [Resident.applyChange, Resident.records_remove, lookup_erase]
    exact if_congr hkey rfl rfl

/-- Memory and documents take the same changes one by one. -/
theorem Coherent.applyItems {items : List (LogItem K)} {docs : Table} {s : Resident K}
    (h : Coherent env docs s)
    (hitems : ∀ item ∈ items, Plain item.record.workspaceId item.record.id ∧
      RoundTrips env item.record) :
    Coherent env (docs.apply (items.map (·.docEntry env)))
      ((items.map (·.change)).foldl (Resident.applyChange env) s) := by
  induction items generalizing docs s with
  | nil => exact h
  | cons item items ih =>
    obtain ⟨hname, hround⟩ := hitems item List.mem_cons_self
    refine ih (fun w id hplain => ?_) fun i hi => hitems i (List.mem_cons_of_mem _ hi)
    rw [recordAt_applyEntry hname hround hplain, lookup_applyChange s hname hplain]
    change Backed (ite (item.record.workspaceId = w ∧ item.record.id = id) _ _)
      (ite (item.record.workspaceId = w ∧ item.record.id = id) _ _)
    split
    · exact .refl _
    · exact h w id hplain

omit [LinearOrder K] in
/-- Evictions take unpinned records out of memory. -/
theorem Coherent.evicts {docs : Table} {s s' : Resident K} (h : Coherent env docs s)
    (hkeys : ∀ (k : Bytes) r, s.records[k]? = some r → k = recordMapKey r.workspaceId r.id)
    (he : Evicts s s') : Coherent env docs s' := by
  intro w id hname
  have hold := h w id hname
  rcases hr : s.records[recordMapKey w id]? with _ | r
  · have hnone : s'.records[recordMapKey w id]? = none := by
      rw [Option.eq_none_iff_forall_ne_some]
      intro r hr'
      cases hr.symm.trans (he.subset hr')
    rw [hnone, ← hr]
    exact hold
  · rw [hr] at hold
    rcases he.lookup hkeys hr with hkept | ⟨hgone, hunpinned⟩
    · rw [hkept]
      exact hold
    · rw [hgone]
      generalize docs.recordAt env w id = stored at hold ⊢
      cases hold with
      | held same =>
        refine .evicted ?_
        rw [← hunpinned]
        exact (congrArg (·.pinned) same).symm

omit [LinearOrder K] in
theorem Coherent.access {docs : Table} {s s' : Resident K} (h : Coherent env docs s)
    (hacc : AccessOnly s.records s'.records) : Coherent env docs s' := by
  intro w id hname
  have hold := h w id hname
  have hk := hacc (recordMapKey w id)
  generalize docs.recordAt env w id = stored at hold ⊢
  generalize s.records[recordMapKey w id]? = before at hold hk
  generalize s'.records[recordMapKey w id]? = after at hk ⊢
  cases hold with
  | absent =>
    obtain rfl := Option.map_eq_none_iff.mp hk
    exact .absent
  | evicted unpinned =>
    obtain rfl := Option.map_eq_none_iff.mp hk
    exact .evicted unpinned
  | held same =>
    obtain ⟨r, rfl, heq⟩ := Option.map_eq_some_iff.mp hk
    exact .held (heq.trans same)

end Changes

/-! ### Warmup -/

section Warmup
variable [Field K] [LinearOrder K] {env : Platform K}

/-- What is resident after rows were loaded was there before, or a row gave it. -/
theorem lookup_foldl_loadRow {entries : List KeyValueEntry} {s : Resident K} {k : Bytes}
    {r : MemoryRecord K} (h : (entries.foldl (loadRow env) s).records[k]? = some r) :
    s.records[k]? = some r ∨
      ∃ e ∈ entries, rowRecord env e = some r ∧ recordMapKey r.workspaceId r.id = k := by
  induction entries generalizing s with
  | nil => exact Or.inl h
  | cons e rest ih =>
    rcases ih h with hold | ⟨e', he', hrow⟩
    · unfold loadRow at hold
      split at hold
      · rename_i record hrecord
        rw [Resident.records_upsert, lookup_insert] at hold
        split at hold
        · rename_i hkey
          obtain rfl := Option.some.inj hold
          exact Or.inr ⟨e, List.mem_cons_self, hrecord, hkey⟩
        · exact Or.inl hold
      · exact Or.inl hold
    · exact Or.inr ⟨e', List.mem_cons_of_mem _ he', hrow⟩

/-- Loading rows takes nothing out. -/
theorem isSome_foldl_loadRow {entries : List KeyValueEntry} {s : Resident K} {k : Bytes}
    (h : s.records[k]?.isSome) : (entries.foldl (loadRow env) s).records[k]?.isSome := by
  induction entries generalizing s with
  | nil => exact h
  | cons e rest ih =>
    refine ih ?_
    unfold loadRow
    split
    · rw [Resident.records_upsert, lookup_insert]
      split
      · rfl
      · exact h
    · exact h

theorem isSome_of_mem_loadRow {entries : List KeyValueEntry} {s : Resident K}
    {e : KeyValueEntry} (he : e ∈ entries) {r : MemoryRecord K} (hr : rowRecord env e = some r) :
    (entries.foldl (loadRow env) s).records[recordMapKey r.workspaceId r.id]?.isSome := by
  induction entries generalizing s with
  | nil => cases he
  | cons e' rest ih =>
    rcases List.mem_cons.mp he with rfl | he
    · rw [List.foldl_cons]
      refine isSome_foldl_loadRow ?_
      unfold loadRow
      rw [hr]
      dsimp only
      rw [Resident.records_upsert, lookup_insert, if_pos rfl]
      rfl
    · exact ih he

variable {w : World K}

omit [LinearOrder K] in
theorem Durable.rowRecord_iff (hlaw : env.Lawful) {k : Bytes} {v : StoredValue} {t : Nat}
    {d : MemoryRecord K} (h : Row env t k v d) {r : MemoryRecord K} :
    rowRecord env ⟨docNs, k, v.value, v.ts⟩ = some r ↔ r = fillDefaults d := by
  rw [rowRecord_eq_some hlaw h.value h.writable h.formed.named.1 h.formed.named.2.1]
  constructor
  · rintro ⟨d', hd', rfl⟩
    obtain rfl := Option.some.inj (h.roundTrips.symm.trans hd')
    rfl
  · rintro rfl
    exact ⟨d, h.roundTrips, rfl⟩

/-- A warmup makes the documents resident, name by name. -/
theorem coherent_loadedRows (hlaw : env.Lawful) (hD : Durable env w) :
    Coherent env (w.store.table docNs) (loadedRows env w.store) := by
  intro workspaceId memoryId hname
  -- a loaded record is the stored one with its defaults
  have hsound : ∀ r, (loadedRows env w.store).records[recordMapKey workspaceId memoryId]? = some r →
      ∃ d, (w.store.table docNs).recordAt env workspaceId memoryId = some d ∧
        r.withoutAccess = d.withoutAccess := by
    intro r hr
    rcases lookup_foldl_loadRow hr with hnone | ⟨e, he, hrow, hkey⟩
    · exact absurd hnone (by simp [Resident.empty])
    · obtain ⟨hns, hv⟩ := Store.mem_scan_all.mp he
      obtain ⟨d, hd⟩ := hD.docs _ _ hv
      have hentry : e = ⟨docNs, e.key, e.value, e.ts⟩ := by rw [← hns]
      rw [hentry] at hrow
      obtain rfl := (Durable.rowRecord_iff hlaw hd).mp hrow
      obtain ⟨hws, hid⟩ := names_fillDefaults d
      rw [hws, hid] at hkey
      obtain ⟨rfl, rfl⟩ := recordMapKey_inj hd.formed.named.2.2.1 hname.2.2.1 hkey
      exact ⟨d, hd.recordAt hv, hd.formed.withoutAccess_fillDefaults⟩
  rcases hr : (loadedRows env w.store).records[recordMapKey workspaceId memoryId]? with _ | r
  · rcases hd : (w.store.table docNs).recordAt env workspaceId memoryId with _ | d
    · exact .absent
    · obtain ⟨v, hv, -⟩ := Option.bind_eq_some_iff.mp hd
      obtain ⟨rfl, rfl, v', hrow⟩ := hD.row_of_recordAt hname hd
      obtain ⟨d', hrow'⟩ := hD.docs _ v hv
      have hsome := isSome_of_mem_loadRow (s := Resident.empty)
        (Store.mem_scan_all.mpr ⟨rfl, hv⟩) ((Durable.rowRecord_iff hlaw hrow').mpr rfl)
      obtain ⟨hws, hid⟩ := names_fillDefaults d'
      obtain ⟨hws', hid'⟩ := buildDocKey_inj hname.2.2.2 hrow'.formed.named.2.2.2 hrow'.key
      rw [hws, hid, ← hws', ← hid'] at hsome
      change (loadedRows env w.store).records[_]?.isSome = true at hsome
      rw [hr] at hsome
      cases hsome
  · obtain ⟨d, hd, hsame⟩ := hsound r hr
    rw [hd]
    exact .held hsame

end Warmup

/-! ### Runs -/

section Runs
variable [Field K] [LinearOrder K] {env : Platform K} {w : World K}

/-- What a call of a run meets: names without separators, a batch that is applied
whole or not at all, records that survive the codec, and no wrap of `local_seq_`. -/
structure Sound (env : Platform K) (w : World K) (call : Call K) (fate : Fate) : Prop where
  plain : call.Workspaces fun w => 58 ∉ w ∧ 47 ∉ w
  whole : fate.main.Whole
  roundTrips : ∀ request, (prepare env fate w call).1 = some request →
    ∀ change ∈ request.plan.changes, RoundTrips env change.record
  seq_lt : (prepare env fate w call).2.localSeq < 2 ^ 64

/-- A restart whose clock has moved on. -/
def Later (env : Platform K) (w : World K) : Prop := ∀ i < w.tick, env.clock i < env.clock w.tick

theorem Sound.of_changes {call : Call K} {fate : Fate}
    (plain : call.Workspaces fun w => 58 ∉ w ∧ 47 ∉ w) (whole : fate.main.Whole)
    (roundTrips : ∀ change ∈ (prepare env fate w call).1.elim [] (·.plan.changes),
      RoundTrips env change.record)
    (seq_lt : (prepare env fate w call).2.localSeq < 2 ^ 64) : Sound env w call fate where
  plain := plain
  whole := whole
  roundTrips request hsome change hchange := by
    rw [hsome] at roundTrips
    exact roundTrips change hchange
  seq_lt := seq_lt

def Step.Sound (env : Platform K) (w : World K) : Step K → Prop
  | .call c fate => PoorguyMem.Sound env w c fate
  | .restart none _ _ => Later env w
  | .restart (some (c, fate)) _ _ =>
    PoorguyMem.Sound env w c fate ∧ Later env (interrupt env w c fate)

/-- The invariant of runs. -/
structure Consistent (env : Platform K) (w : World K) : Prop where
  sourced : Sourced env Plain w
  durable : Durable env w
  coherent : Coherent env (w.store.table docNs) w.engine.toResident

omit [LinearOrder K] in
/-- A resident record is formed like the one its row decodes to. -/
theorem Consistent.formed_held (h : Consistent env w) {k : Bytes} {r : MemoryRecord K}
    (hr : w.engine.records[k]? = some r) : Formed env w.tick r := by
  obtain ⟨rfl, hname⟩ := h.sourced.held k r hr
  have hbacked := h.coherent r.workspaceId r.id hname
  rw [hr] at hbacked
  rcases hd : (w.store.table docNs).recordAt env r.workspaceId r.id with _ | d
  · rw [hd] at hbacked
    cases hbacked
  · obtain ⟨-, -, v, hrow⟩ := h.durable.row_of_recordAt hname hd
    rw [hd] at hbacked
    cases hbacked with
    | held same => exact hrow.formed.of_withoutAccess same

omit [LinearOrder K] in
theorem Consistent.formed_loaded (h : Consistent env w) {workspaceId memoryId : Bytes}
    {r : MemoryRecord K}
    (hr : loadRecord env w.engine w.store.reader workspaceId memoryId = .ok r) :
    Formed env w.tick r := by
  rcases loadRecord_cases hr with hheld | ⟨-, v, hv, hd⟩
  · exact h.formed_held hheld
  · obtain ⟨d, hrow⟩ := h.durable.docs _ v hv
    rw [hrow.value, hrow.roundTrips] at hd
    obtain rfl := Option.some.inj hd
    exact hrow.formed

/-- What a call produces is formed. -/
theorem Consistent.formed_produced (h : Consistent env w) {call : Call K}
    (hplain : call.Workspaces fun w => 58 ∉ w ∧ 47 ∉ w) {i : Nat} (hi : w.tick ≤ i)
    {change : Change K} (hprod : Produces env w (env.clock i) call change) :
    Formed env (i + 1) change.record := by
  have hdated : ∃ j < i + 1, env.clock i ≤ env.clock j :=
    ⟨i, Nat.lt_succ_self i, UInt64.le_refl _⟩
  cases hprod with
  | new workspace _ accepted =>
    exact ⟨⟨workspace, accepted.id_ne, hplain.1, hplain.2⟩,
      Nat.pos_iff_ne_zero.mp (computeRecordSizeBytes_pos _), by simp [Change.record, newRecord, ascii],
      hdated⟩
  | pinned load =>
    have hloaded := h.formed_loaded load
    exact ⟨hloaded.named, Nat.pos_iff_ne_zero.mp (computeRecordSizeBytes_pos _), hloaded.tier,
      hdated⟩
  | tombstoned _ held =>
    exact ⟨(h.formed_held held).named, Nat.pos_iff_ne_zero.mp (computeRecordSizeBytes_pos _),
      by simp [Change.record, tombstoneOf, ascii], hdated⟩
  | dropped _ held => exact (h.formed_held held).mono (by omega)

theorem Consistent.formed_items (h : Consistent env w) {call : Call K} {fate : Fate}
    (hsound : Sound env w call fate) {request : Request K}
    (hsome : (prepare env fate w call).1 = some request) {items : List (LogItem K)}
    (hd : Drafted env w call (prepare env fate w call).2 request.plan items) :
    ∀ item ∈ items, Formed env item.reading item.record ∧ RoundTrips env item.record := by
  intro item hitem
  obtain ⟨i, hi, hreading, hprod⟩ := hd.produced item hitem
  refine ⟨(h.formed_produced hsound.plain hi hprod).mono hreading, ?_⟩
  refine hsound.roundTrips request hsome item.change ?_
  rw [hd.changes]
  exact List.mem_map_of_mem hitem

theorem Consistent.prepared (hlaw : env.Lawful) (h : Consistent env w) (call : Call K)
    (fate : Fate) : w.cursor.Before (prepare env fate w call).2 ∧
      ∀ request, (prepare env fate w call).1 = some request →
        ∃ items, Drafted env w call (prepare env fate w call).2 request.plan items :=
  prepare_spec fate (h.sourced.named hlaw names_plain) call

/-- A call leaves memory and store consistent. -/
theorem Consistent.call (hlaw : env.Lawful) (hsteady : env.Steady) (h : Consistent env w)
    {call : Call K} {fate : Fate} (hsound : Sound env w call fate) :
    Consistent env (perform env fate w call).1 := by
  have hadmits : call.Admits Plain :=
    Call.Workspaces.admits hsound.plain fun w id hw hws hid => ⟨hws, hid, hw⟩
  have hout := perform_outcome env fate w call
  obtain ⟨hsourced, -⟩ := h.sourced.call hlaw names_plain hadmits hout
  obtain ⟨hbefore, hdrafts⟩ := h.prepared hlaw call fate
  generalize (perform env fate w call).1 = w' at hsourced hout ⊢
  refine ⟨hsourced, ?_, ?_⟩ <;> cases hout
  case refine_1.idle _ agrees =>
    refine h.durable.of_tables (fun ns _ => by rw [agrees.store]; rfl) ⟨?_, ?_⟩
    · exact hbefore.tick.trans_eq agrees.tick.symm
    · exact hbefore.seq.trans_eq agrees.seq.symm
  case refine_2.idle _ agrees =>
    rw [agrees.resident, agrees.store]
    exact h.coherent
  case refine_1.queried input _ =>
    have hq := query_spec env w input
    exact h.durable.of_tables (fun ns _ => by rw [hq.store]) ⟨hq.tick, Nat.le_of_eq hq.seq.symm⟩
  case refine_2.queried input _ =>
    have hq := query_spec env w input
    obtain ⟨records, hacc, hres⟩ := hq.resident
    rw [hq.store]
    refine h.coherent.access ?_
    rw [hres]
    exact hacc
  case refine_1.failed request hsome _ agrees =>
    obtain ⟨items, hd⟩ := hdrafts _ hsome
    refine (h.durable.commit hlaw hsteady hd (h.formed_items hsound hsome hd) hsound.seq_lt
      hsound.whole).of_tables (fun ns _ => by rw [agrees.store]) ⟨?_, ?_⟩
    · exact Nat.le_of_eq agrees.tick.symm
    · exact Nat.le_of_eq agrees.seq.symm
  case refine_2.failed request hsome hfailed agrees =>
    rw [agrees.resident, agrees.store]
    change Coherent env ((w.store.batchWrite fate.main request.plan.writes).table docNs) _
    rw [Store.batchWrite_of_whole_failed _ hsound.whole hfailed]
    exact h.coherent
  case refine_1.committed request hsome _ settled =>
    obtain ⟨items, hd⟩ := hdrafts _ hsome
    refine (h.durable.commit hlaw hsteady hd (h.formed_items hsound hsome hd) hsound.seq_lt
      hsound.whole).of_tables settled.table ⟨settled.tick, ?_⟩
    exact Nat.le_of_eq settled.seq.symm
  case refine_2.committed request hsome hok settled =>
    obtain ⟨items, hd⟩ := hdrafts _ hsome
    have hitems := h.formed_items hsound hsome hd
    have hdocs : w'.store.table docNs =
        (w.store.table docNs).apply (items.map (·.docEntry env)) := by
      rw [settled.table _ docNs_ne_routeMetaNs]
      refine (congrArg (Store.table · docNs) (Store.batchWrite_of_ok w.store hok _)).trans ?_
      exact (Store.table_apply ..).trans (by rw [hd.logs.docs])
    have hnames := hd.named hlaw h.sourced hadmits
    have happly := Plan.applyInMemory_eq request.plan env w.engine.toResident
    rw [hd.changes] at happly
    have hkeys := (preserved_held env).updates
      (Updates.applyPlan (s := w.engine.toResident) hd hnames) h.sourced.held
    rw [hdocs]
    refine Coherent.evicts ?_ (fun k r hr => (hkeys k r hr).1) settled.resident
    rw [happly]
    exact h.coherent.applyItems fun item hitem => ⟨hnames item hitem, (hitems item hitem).2⟩

/-- The rows stay durable where a call is cut off. -/
theorem Consistent.interrupt (hlaw : env.Lawful) (hsteady : env.Steady) (h : Consistent env w)
    {call : Call K} {fate : Fate} (hsound : Sound env w call fate) :
    Sourced env Plain (interrupt env w call fate) ∧ Durable env (interrupt env w call fate) := by
  have hadmits : call.Admits Plain :=
    Call.Workspaces.admits hsound.plain fun w id hw hws hid => ⟨hws, hid, hw⟩
  refine ⟨h.sourced.interrupt hlaw names_plain hadmits fate, ?_⟩
  obtain ⟨hbefore, hdrafts⟩ := h.prepared hlaw call fate
  rcases interrupt_cases env w call fate with ⟨-, heq⟩ | ⟨request, hsome, heq⟩ <;> rw [heq]
  · exact h.durable.of_tables (fun _ _ => rfl) hbefore
  · obtain ⟨items, hd⟩ := hdrafts _ hsome
    exact h.durable.commit hlaw hsteady hd (h.formed_items hsound hsome hd) hsound.seq_lt
      hsound.whole

/-- A restart over durable rows makes memory and store consistent. -/
theorem Durable.consistent_restart (hlaw : env.Lawful) (hsteady : env.Steady)
    (hS : Sourced env Plain w) (hD : Durable env w) (hlater : Later env w) (nodeId : Bytes)
    (options : MemoryEngineOptions K) : Consistent env (PoorguyMem.restart env w nodeId options) := by
  have hr := restart_spec env w nodeId options
  obtain ⟨hS', -⟩ := hS.restart hlaw names_plain hr
  refine ⟨hS', hD.restart hsteady hr hlater, ?_⟩
  have hkeys := (preserved_held env).updates (updates_recovered hlaw names_plain hS)
    fun k r h => absurd h (by simp [Resident.empty])
  rw [hr.store]
  refine Coherent.evicts ?_ (fun k r h => (hkeys k r h).1) hr.resident
  rw [hD.log.recovered_eq hlaw]
  exact coherent_loadedRows hlaw hD

theorem Consistent.step (hlaw : env.Lawful) (hsteady : env.Steady) (step : Step K)
    (hsound : step.Sound env w) (h : Consistent env w) : Consistent env (next env w step) := by
  match step with
  | .call call fate => exact h.call hlaw hsteady hsound
  | .restart none nodeId options =>
    exact h.durable.consistent_restart hlaw hsteady h.sourced hsound nodeId options
  | .restart (some (call, fate)) nodeId options =>
    obtain ⟨hS, hD⟩ := h.interrupt hlaw hsteady hsound.1
    exact hD.consistent_restart hlaw hsteady hS hsound.2 nodeId options

theorem consistent_run (hlaw : env.Lawful) (hsteady : env.Steady) (nodeId : Bytes)
    (options : MemoryEngineOptions K) (steps : List (Step K))
    (hsteps : Runs.Along (next env) (fun w step => step.Sound env w)
      (World.initial nodeId options) steps) :
    Consistent env (Runs.exec (next env) (World.initial nodeId options) steps) := by
  refine Runs.invariant (fun w step hsound h => h.step hlaw hsteady step hsound) hsteps ?_
  refine ⟨sourced_initial nodeId options, durable_initial nodeId options, fun w id _ => ?_⟩
  have hdocs : Table.recordAt env ((World.initial (K := K) nodeId options).store.table docNs) w id =
      none := by simp [Table.recordAt, World.initial, Store.empty]
  have hrecords : (World.initial nodeId options).engine.records[recordMapKey w id]? =
      (none : Option (MemoryRecord K)) := by
    simp [World.initial, MemoryEngine.new, Resident.empty]
  rw [hdocs, hrecords]
  exact .absent

/-- In every run with steady clocks, whole batches and restarts at any point,
every resident record is the one its document row decodes to, apart from
accesses, and every row decodes to a record that is resident or unpinned. -/
theorem resident_agrees_with_store (hlaw : env.Lawful) (hsteady : env.Steady) (nodeId : Bytes)
    (options : MemoryEngineOptions K) (steps : List (Step K))
    (hsteps : Runs.Along (next env) (fun w step => step.Sound env w)
      (World.initial nodeId options) steps) :
    let w := Runs.exec (next env) (World.initial nodeId options) steps
    (∀ (k : Bytes) r, w.engine.records[k]? = some r → ∃ v d,
      (w.store.table docNs)[buildDocKey r.workspaceId r.id]? = some v ∧
        deserializeRecord env v.value = some d ∧ r.withoutAccess = d.withoutAccess) ∧
    (∀ (k : Bytes) v, (w.store.table docNs)[k]? = some v → ∃ d,
      deserializeRecord env v.value = some d ∧
        (w.engine.records[recordMapKey d.workspaceId d.id]? = none → d.pinned = false)) := by
  intro w
  have h : Consistent env w := consistent_run hlaw hsteady nodeId options steps hsteps
  constructor
  · intro k r hr
    obtain ⟨rfl, hname⟩ := h.sourced.held k r hr
    have hbacked := h.coherent r.workspaceId r.id hname
    rw [hr] at hbacked
    rcases hd : (w.store.table docNs).recordAt env r.workspaceId r.id with _ | d
    · rw [hd] at hbacked
      cases hbacked
    · rw [hd] at hbacked
      obtain ⟨v, hv, hdecode⟩ := Option.bind_eq_some_iff.mp hd
      cases hbacked with
      | held same => exact ⟨v, d, hv, hdecode, same⟩
  · intro k v hv
    obtain ⟨d, hrow⟩ := h.durable.docs k v hv
    refine ⟨d, by rw [hrow.value]; exact hrow.roundTrips, fun hnone => ?_⟩
    have hbacked := h.coherent d.workspaceId d.id hrow.formed.named
    rw [hrow.recordAt hv, hnone] at hbacked
    cases hbacked with
    | evicted unpinned => exact unpinned

end Runs

section Examples
open Reference

theorem steady_ticking : (platform ticking).Steady := ticking_mono

theorem sound_history : Runs.Along (next (platform ticking))
    (fun w step => step.Sound (platform ticking) w) initial history :=
  ⟨.of_changes (show 58 ∉ ascii "w" ∧ 47 ∉ ascii "w" by decide) trivial (by decide +kernel)
      (by decide +kernel),
    .of_changes trivial trivial (by decide +kernel) (by decide +kernel),
    by unfold Step.Sound Later; decide +kernel, trivial⟩

theorem resident_agrees_after_history :
    let w := Runs.exec (next (platform ticking)) initial history
    ∀ (k : Bytes) r, w.engine.records[k]? = some r → ∃ v d,
      (w.store.table docNs)[buildDocKey r.workspaceId r.id]? = some v ∧
        deserializeRecord (platform ticking) v.value = some d ∧
        r.withoutAccess = d.withoutAccess :=
  (resident_agrees_with_store (lawful_platform _) steady_ticking _ _ history sound_history).1

end Examples

end PoorguyMem
