import PoorguyMem.Requests

/-!
# What a step leaves

Every step of a run comes to one of a few shapes: nothing but clock readings, a
query that notes accesses, a batch that failed, a batch that was committed and
applied, or a warmup from the rows of the store. Evictions and accesses are kept
apart from the updates that change what a record says.
-/

namespace PoorguyMem

open ByteString Throwing

variable {K : Type}

/-! ### Accesses and evictions -/

/-- A record with the two fields cleared that a query updates. -/
def MemoryRecord.withoutAccess (r : MemoryRecord K) : MemoryRecord K :=
  { r with lastAccessMs := 0, hitCount := 0 }

@[simp] theorem MemoryRecord.withoutAccess_withoutAccess (r : MemoryRecord K) :
    r.withoutAccess.withoutAccess = r.withoutAccess := rfl

theorem MemoryRecord.names_of_withoutAccess {r d : MemoryRecord K}
    (h : r.withoutAccess = d.withoutAccess) : r.workspaceId = d.workspaceId ∧ r.id = d.id :=
  ⟨congrArg (·.workspaceId) h, congrArg (·.id) h⟩

/-- The records differ in what a query updates alone. -/
def AccessOnly (m m' : StringMap (MemoryRecord K)) : Prop :=
  ∀ k : Bytes, m'[k]?.map (·.withoutAccess) = m[k]?.map (·.withoutAccess)

theorem AccessOnly.refl (m : StringMap (MemoryRecord K)) : AccessOnly m m := fun _ => rfl

theorem AccessOnly.trans {a b c : StringMap (MemoryRecord K)} (h : AccessOnly a b)
    (h' : AccessOnly b c) : AccessOnly a c := fun k => (h' k).trans (h k)

theorem AccessOnly.symm {a b : StringMap (MemoryRecord K)} (h : AccessOnly a b) :
    AccessOnly b a := fun k => (h k).symm

theorem AccessOnly.lookup {m m' : StringMap (MemoryRecord K)} (h : AccessOnly m m') {k : Bytes}
    {r : MemoryRecord K} (hr : m'[k]? = some r) :
    ∃ r₀, m[k]? = some r₀ ∧ r.withoutAccess = r₀.withoutAccess := by
  have hk := h k
  rw [hr, Option.map_some] at hk
  obtain ⟨r₀, hr₀, heq⟩ := Option.map_eq_some_iff.mp hk.symm
  exact ⟨r₀, hr₀, heq.symm⟩

theorem accessOnly_noteAccess (workspaceId : Bytes) (nowMs : UInt64)
    (records : StringMap (MemoryRecord K)) (hit : QueryHit K) :
    AccessOnly records (noteAccess workspaceId nowMs records hit) := by
  intro k
  unfold noteAccess
  dsimp only
  split
  · rfl
  · rename_i record hrecord
    split
    · rfl
    · rw [lookup_insert]
      split
      · rename_i heq
        rw [← heq, hrecord]
        rfl
      · rfl

theorem accessOnly_foldl_noteAccess (workspaceId : Bytes) (nowMs : UInt64)
    (hits : List (QueryHit K)) (records : StringMap (MemoryRecord K)) :
    AccessOnly records (hits.foldl (noteAccess workspaceId nowMs) records) := by
  induction hits generalizing records with
  | nil => exact .refl records
  | cons hit hits ih => exact (accessOnly_noteAccess workspaceId nowMs records hit).trans (ih _)

/-- What evicting unpinned resident records can lead to. -/
inductive Evicts : Resident K → Resident K → Prop
  | refl (s : Resident K) : Evicts s s
  | evict {s s' : Resident K} {k : Bytes} {victim : MemoryRecord K} (h : Evicts s s')
      (held : s'.records[k]? = some victim) (unpinned : victim.pinned = false) :
      Evicts s (s'.evict victim)

theorem Evicts.subset {s s' : Resident K} (h : Evicts s s') {k : Bytes} {r : MemoryRecord K}
    (hr : s'.records[k]? = some r) : s.records[k]? = some r := by
  induction h with
  | refl => exact hr
  | evict _ _ _ ih =>
    refine ih ?_
    change (Std.ExtTreeMap.erase _ _)[k]? = some r at hr
    rw [lookup_erase] at hr
    split at hr
    · cases hr
    · exact hr

/-- Evictions take unpinned records out, and nothing else. -/
theorem Evicts.lookup {s s' : Resident K} (h : Evicts s s')
    (hkeys : ∀ (k : Bytes) r, s.records[k]? = some r → k = recordMapKey r.workspaceId r.id)
    {k : Bytes} {r : MemoryRecord K} (hr : s.records[k]? = some r) :
    s'.records[k]? = some r ∨ s'.records[k]? = none ∧ r.pinned = false := by
  induction h with
  | refl => exact Or.inl hr
  | @evict s' key victim h held unpinned ih =>
    change (s'.records.erase (recordMapKey victim.workspaceId victim.id))[k]? = some r ∨
      (s'.records.erase (recordMapKey victim.workspaceId victim.id))[k]? = none ∧ _
    rw [lookup_erase]
    by_cases hk : recordMapKey victim.workspaceId victim.id = k
    · rw [if_pos hk]
      rcases ih with hsome | ⟨_, hpin⟩
      · have hkey := hkeys key victim (h.subset held)
        rw [hkey, hk, hsome] at held
        cases held
        exact Or.inr ⟨rfl, unpinned⟩
      · exact Or.inr ⟨rfl, hpin⟩
    · rw [if_neg hk]
      exact ih

theorem Evicts.dedupIndex {s s' : Resident K} (h : Evicts s s') :
    s'.dedupIndex = s.dedupIndex := by
  induction h with
  | refl => rfl
  | evict _ _ _ ih => exact ih

section Steps
variable [Field K] [LinearOrder K]

theorem evicts_enforceResidentHardLimit (env : Platform K) (limit : Nat) (s : Resident K)
    (tick : Nat) : Evicts s (s.enforceResidentHardLimit env limit tick).1 :=
  Resident.enforceResidentHardLimit_induction (P := Evicts s)
    (fun _ _ _ h held unpinned => h.evict held unpinned) limit tick (.refl s)

/-! ### Calls -/

/-- Two worlds that agree in what the engine's operations depend on. -/
structure Agrees (w w' : World K) : Prop where
  resident : w'.engine.toResident = w.engine.toResident
  options : w'.engine.options = w.engine.options
  nodeId : w'.engine.nodeId = w.engine.nodeId
  seq : w'.engine.localSeq = w.engine.localSeq
  store : w'.store = w.store
  tick : w'.tick = w.tick

omit [Field K] [LinearOrder K] in
theorem Agrees.refl (w : World K) : Agrees w w := ⟨rfl, rfl, rfl, rfl, rfl, rfl⟩

theorem agrees_closeCompact (workspaceId : Bytes) (nowMs : UInt64) (usage : StoreUsage)
    (w : World K) : Agrees w (closeCompact workspaceId nowMs usage w) :=
  ⟨rfl, rfl, rfl, rfl, rfl, rfl⟩

theorem agrees_abandon (fate : Fate) (request : Request K) (w : World K) :
    Agrees w (abandon fate request w) := by
  cases request with
  | write input draft => exact .refl w
  | pin plan => exact .refl w
  | compact workspaceId draft => exact agrees_closeCompact _ _ _ w

/-- A committed plan has been applied in memory, up to evictions. -/
structure Settled (env : Platform K) (plan : Plan K) (w w' : World K) : Prop where
  resident : Evicts (plan.applyInMemory env w.engine.toResident) w'.engine.toResident
  options : w'.engine.options = w.engine.options
  nodeId : w'.engine.nodeId = w.engine.nodeId
  seq : w'.engine.localSeq = w.engine.localSeq
  tick : w.tick ≤ w'.tick
  table : ∀ ns, ns ≠ routeMetaNs → w'.store.table ns = w.store.table ns

omit [Field K] [LinearOrder K] in
theorem table_routeWrite (env : Platform K) (store : Store) (outcome : BatchOutcome)
    (workspaceId : Bytes) (nowMs : UInt64) {ns : Bytes} (hns : ns ≠ routeMetaNs) :
    (store.batchWrite outcome [routeEntry env workspaceId nowMs]).table ns = store.table ns := by
  have hnone : Store.restrict ns [routeEntry env workspaceId nowMs] = [] :=
    restrict_eq_nil fun w hw => by
      rw [List.mem_singleton.mp hw]
      exact hns.symm
  have heff : outcome.effective [] = [] := by cases outcome <;> rfl
  rw [Store.table_batchWrite, hnone, heff]
  rfl

theorem settle_spec (env : Platform K) (fate : Fate) (request : Request K) (w : World K) :
    Settled env request.plan w (settle env fate request w) := by
  cases request with
  | write input draft =>
    exact ⟨evicts_enforceResidentHardLimit env _ _ w.tick, rfl, rfl, rfl,
      Resident.tick_le_enforceResidentHardLimit env _ _ w.tick,
      fun ns hns => table_routeWrite env w.store _ _ _ hns⟩
  | pin plan =>
    exact ⟨evicts_enforceResidentHardLimit env _ _ w.tick, rfl, rfl, rfl,
      Resident.tick_le_enforceResidentHardLimit env _ _ w.tick, fun _ _ => rfl⟩
  | compact workspaceId draft =>
    exact ⟨.refl _, rfl, rfl, rfl, Nat.le_refl _, fun _ _ => rfl⟩

/-- What a call leaves. -/
inductive Outcome (env : Platform K) (fate : Fate) (w : World K) (call : Call K) :
    World K → Prop
  | idle {w' : World K} (none : (prepare env fate w call).1 = none)
      (agrees : Agrees (w.atCursor (prepare env fate w call).2) w') : Outcome env fate w call w'
  | queried {input : QueryInput K} (isQuery : call = .query input) :
      Outcome env fate w call (query env w input).1
  | failed {request : Request K} {w' : World K}
      (some : (prepare env fate w call).1 = some request) (failed : fate.main.ok = false)
      (agrees : Agrees ((w.atCursor (prepare env fate w call).2).commit fate.main request.plan)
        w') : Outcome env fate w call w'
  | committed {request : Request K} {w' : World K}
      (some : (prepare env fate w call).1 = some request) (ok : fate.main.ok = true)
      (settled : Settled env request.plan
        ((w.atCursor (prepare env fate w call).2).commit fate.main request.plan) w') :
      Outcome env fate w call w'

theorem perform_outcome (env : Platform K) (fate : Fate) (w : World K) (call : Call K) :
    Outcome env fate w call (perform env fate w call).1 := by
  have compact : ∀ workspaceId force,
      prepare env fate w call = prepareCompact env fate w workspaceId force →
      Outcome env fate w call (compactInternal env fate w workspaceId force).1 := by
    intro workspaceId force hprep
    unfold prepareCompact at hprep
    simp only [compactInternal]
    by_cases hskip : (!force && !isOverHighWatermark w.engine.options fate.usageBefore) = true
    · rw [if_pos hskip] at hprep ⊢
      exact .idle (by rw [hprep]) (by rw [hprep]; exact ⟨rfl, rfl, rfl, rfl, rfl, rfl⟩)
    · rw [if_neg hskip] at hprep ⊢
      rcases hrun : compactDraft env w.engine workspaceId w.cursor with ⟨_ | ⟨nowMs, plan⟩, c⟩ <;>
        rw [hrun] at hprep <;> dsimp only at hprep ⊢
      · exact .idle (by rw [hprep]) (by rw [hprep]; exact .refl _)
      · by_cases hempty : plan.writes = []
        · rw [if_pos hempty] at hprep
          refine .idle (by rw [hprep]) ?_
          rw [hprep]
          simpa only [hempty, ne_eq, not_true_eq_false, decide_false, Bool.false_and,
            Bool.false_eq_true, if_false, if_true] using agrees_closeCompact _ _ _ _
        · rw [if_neg hempty] at hprep
          have hsettled : (decide (plan.writes ≠ []) && fate.main.ok) = fate.main.ok := by
            simp [hempty]
          rw [if_neg hempty, hsettled]
          split
          · rename_i hok
            refine .committed (by rw [hprep]) hok ?_
            rw [hprep]
            exact settle_spec env fate (.compact workspaceId ⟨nowMs, plan⟩) _
          · rename_i hok
            refine .failed (by rw [hprep]) (by simpa using hok) ?_
            rw [hprep]
            exact agrees_closeCompact _ _ _ _
  cases call with
  | query input => exact .queried rfl
  | compact workspaceId => exact compact workspaceId true rfl
  | gc => exact compact [] false rfl
  | write input =>
    have hprep : prepare env fate w (.write input) = prepareWrite env w input := rfl
    simp only [perform, write]
    unfold prepareWrite at hprep
    by_cases hws : input.workspaceId = []
    · rw [if_pos (Or.inl hws)] at hprep
      rw [if_pos hws]
      exact .idle (by rw [hprep]) (by rw [hprep]; exact ⟨rfl, rfl, rfl, rfl, rfl, rfl⟩)
    · by_cases hrecs : input.records = []
      · rw [if_pos (Or.inr hrecs)] at hprep
        rw [if_neg hws, if_pos hrecs]
        exact .idle (by rw [hprep]) (by rw [hprep]; exact ⟨rfl, rfl, rfl, rfl, rfl, rfl⟩)
      · rw [if_neg (by simp [hws, hrecs])] at hprep
        rw [if_neg hws, if_neg hrecs]
        rcases hrun : writeDraft env w.engine input w.cursor with ⟨_ | draft, c⟩ <;>
          rw [hrun] at hprep <;> dsimp only at hprep ⊢
        · exact .idle (by rw [hprep]) (by rw [hprep]; exact .refl _)
        · by_cases hempty : draft.plan.writes = []
          · rw [if_pos hempty] at hprep
            rw [if_pos hempty]
            exact .idle (by rw [hprep]) (by rw [hprep]; exact .refl _)
          · rw [if_neg hempty] at hprep
            rw [if_neg hempty]
            split
            · rename_i hok
              refine .committed (by rw [hprep]) hok ?_
              rw [hprep]
              exact settle_spec env fate (.write input draft) _
            · rename_i hok
              refine .failed (by rw [hprep]) (by simpa using hok) ?_
              rw [hprep]
              exact .refl _
  | pin workspaceId memoryId flag =>
    have hprep : prepare env fate w (.pin workspaceId memoryId flag) =
      preparePin env w workspaceId memoryId flag := rfl
    simp only [perform, pin]
    unfold preparePin at hprep
    rcases hrun : pinDraft env w.engine w.store.reader workspaceId memoryId flag w.cursor with
      ⟨_ | error | plan, c⟩ <;> rw [hrun] at hprep <;> dsimp only at hprep ⊢
    · exact .idle (by rw [hprep]) (by rw [hprep]; exact .refl _)
    · exact .idle (by rw [hprep]) (by rw [hprep]; exact .refl _)
    · split
      · rename_i hok
        refine .committed (by rw [hprep]) hok ?_
        rw [hprep]
        exact settle_spec env fate (.pin plan) _
      · rename_i hok
        refine .failed (by rw [hprep]) (by simpa using hok) ?_
        rw [hprep]
        exact .refl _

/-! ### Queries -/

theorem tick_le_query (env : Platform K) (ret : HybridRetriever K) (input : QueryInput K)
    (t : Nat) : t ≤ (ret.query env input t).2 := by
  unfold HybridRetriever.query
  split
  · exact Nat.le_refl t
  · split
    · exact Nat.le_refl t
    · exact Nat.le_succ t

/-- A query changes the access fields of resident records and the clock. -/
structure Queried (w w' : World K) : Prop where
  resident : ∃ records, AccessOnly w.engine.records records ∧
    w'.engine.toResident = { w.engine.toResident with records := records }
  options : w'.engine.options = w.engine.options
  nodeId : w'.engine.nodeId = w.engine.nodeId
  seq : w'.engine.localSeq = w.engine.localSeq
  store : w'.store = w.store
  tick : w.tick ≤ w'.tick

theorem query_spec (env : Platform K) (w : World K) (input : QueryInput K) :
    Queried w (query env w input).1 := by
  unfold query
  split
  · exact ⟨⟨_, .refl _, rfl⟩, rfl, rfl, rfl, rfl, Nat.le_refl _⟩
  · refine ⟨⟨_, accessOnly_foldl_noteAccess _ _ _ _, rfl⟩, rfl, rfl, rfl, rfl, ?_⟩
    exact Nat.le_succ_of_le (tick_le_query env _ input w.tick)

end Steps

/-! ### Restarts -/

theorem Store.scan_all (store : Store) (ns : Bytes) : store.scan ns [] [] 0 =
    ⟨(store.table ns).toList.map fun kv => ⟨ns, kv.1, kv.2.value, kv.2.ts⟩, []⟩ := by
  have hle : ∀ k : Bytes, le [] k = true := by
    intro k
    cases k <;> rfl
  simp [Store.scan, hle]

theorem Store.mem_scan_all {store : Store} {ns : Bytes} {e : KeyValueEntry} :
    e ∈ (store.scan ns [] [] 0).entries ↔
      e.nameSpace = ns ∧ (store.table ns)[e.key]? = some ⟨e.value, e.ts⟩ := by
  rw [scan_all, List.mem_map]
  constructor
  · rintro ⟨kv, hkv, rfl⟩
    exact ⟨rfl, Std.ExtTreeMap.mem_toList_iff_getElem?_eq_some.mp hkv⟩
  · rintro ⟨rfl, h⟩
    exact ⟨(e.key, ⟨e.value, e.ts⟩), Std.ExtTreeMap.mem_toList_iff_getElem?_eq_some.mpr h, rfl⟩

section Restart
variable [Field K] [LinearOrder K]

/-- What the rows of a store load into an empty engine, before the replay. -/
def loadedRows (env : Platform K) (store : Store) : Resident K :=
  (store.scan docNs [] [] 0).entries.foldl (loadRow env) Resident.empty

def storedCheckpoints (env : Platform K) (store : Store) : StringMap Bytes :=
  readCheckpoints env (store.scan projectionCkptNs [] [] 0).entries

/-- What a restart makes resident, before it enforces the limit. -/
def recovered (env : Platform K) (store : Store) : Resident K :=
  (store.scan eventsNs [] [] 0).entries.foldl (replayEvent env (storedCheckpoints env store))
    (loadedRows env store)

structure Restarted (env : Platform K) (w w' : World K) : Prop where
  resident : Evicts (recovered env w.store) w'.engine.toResident
  seq : w'.engine.localSeq = 0
  tick : w.tick ≤ w'.tick
  store : w'.store = w.store

/-- A restart loads what the rows give and enforces the limit of the new engine. -/
theorem restart_eq (env : Platform K) (w : World K) (nodeId : Bytes)
    (options : MemoryEngineOptions K) :
    restart env w nodeId options =
      let limited := (recovered env w.store).enforceResidentHardLimit env
        (MemoryEngine.new nodeId options).residentLimitBytes w.tick
      { engine := { MemoryEngine.new nodeId options with toResident := limited.1 }
        store := w.store
        tick := limited.2 } := by
  have hscan : ∀ ns, scanOrMissing (w.store.reader.scan ns [] [] 0) =
      .ok (w.store.scan ns [] [] 0).entries := by
    intro ns
    have herr : (w.store.scan ns [] [] 0).error = [] := by rw [Store.scan_all]
    rw [scanOrMissing, if_pos (by exact herr)]
    rfl
  simp only [restart, warmup, hscan, replayProjectionEvents]
  rfl

theorem restart_spec (env : Platform K) (w : World K) (nodeId : Bytes)
    (options : MemoryEngineOptions K) : Restarted env w (restart env w nodeId options) := by
  rw [restart_eq]
  exact ⟨evicts_enforceResidentHardLimit env _ _ w.tick, rfl,
    Resident.tick_le_enforceResidentHardLimit env _ _ w.tick, rfl⟩

/-- What a call leaves that is cut off after its batch. -/
theorem interrupt_cases (env : Platform K) (w : World K) (call : Call K) (fate : Fate) :
    ((prepare env fate w call).1 = none ∧
      interrupt env w call fate = w.atCursor (prepare env fate w call).2) ∨
    ∃ request, (prepare env fate w call).1 = some request ∧ interrupt env w call fate =
      (w.atCursor (prepare env fate w call).2).commit fate.main request.plan := by
  unfold interrupt
  rcases prepare env fate w call with ⟨_ | request, c⟩
  · exact Or.inl ⟨rfl, rfl⟩
  · exact Or.inr ⟨request, rfl, rfl⟩

end Restart

end PoorguyMem
