import PoorguyMem.Documents
import PoorguyMem.Mirror
import PoorguyMem.Lib.MapTotal

/-!
# The pin quota

The engine counts the pinned records of a workspace among the resident ones, and
within a batch it counts on as if every record were new. Pinned records are never
evicted and a projected count is never below the true one, so the quota holds of
what is resident and of the documents.
-/

namespace PoorguyMem

open ByteString Throwing

variable {K : Type}

/-- A live pinned record of a workspace. -/
def isPinnedIn (workspaceId : Bytes) (r : MemoryRecord K) : Bool :=
  r.workspaceId = workspaceId && !r.tombstone && r.pinned

/-- The keys of the live pinned records of a workspace. -/
def pinnedKeys (records : StringMap (MemoryRecord K)) (workspaceId : Bytes) : Set Bytes :=
  {k | ∃ r, records[k]? = some r ∧ isPinnedIn workspaceId r = true}

/-- No workspace has more live pinned records than the quota. -/
def WithinQuota (quota : Nat) (s : Resident K) : Prop :=
  ∀ workspaceId, (pinnedKeys s.records workspaceId).encard ≤ quota

/-! ### Counting -/

section Counting
variable (records : StringMap (MemoryRecord K)) (k workspaceId : Bytes) (r : MemoryRecord K)

theorem encard_pinnedKeys : (pinnedKeys records workspaceId).encard =
    (computeWorkspacePinStats records workspaceId).pinned := by
  rw [pinnedKeys, MapTotal.encard_keys_where, computeWorkspacePinStats, pinStats, liveRecords]
  dsimp only
  rw [List.countP_filter]
  congr 2
  funext x
  rw [isPinnedIn, Bool.and_comm]

theorem pinnedKeys_insert_subset :
    pinnedKeys (records.insert k r) workspaceId ⊆ insert k (pinnedKeys records workspaceId) := by
  rintro a ⟨r', hr', hpin⟩
  rw [lookup_insert] at hr'
  split at hr'
  · rename_i hka
    exact Or.inl hka.symm
  · exact Or.inr ⟨r', hr', hpin⟩

theorem pinnedKeys_insert_of_not {r : MemoryRecord K} (h : isPinnedIn workspaceId r = false) :
    pinnedKeys (records.insert k r) workspaceId ⊆ pinnedKeys records workspaceId := by
  rintro a ⟨r', hr', hpin⟩
  rw [lookup_insert] at hr'
  split at hr'
  · obtain rfl := Option.some.inj hr'
    cases h.symm.trans hpin
  · exact ⟨r', hr', hpin⟩

theorem pinnedKeys_erase : pinnedKeys (records.erase k) workspaceId ⊆
    pinnedKeys records workspaceId := by
  rintro a ⟨r', hr', hpin⟩
  rw [lookup_erase] at hr'
  split at hr'
  · cases hr'
  · exact ⟨r', hr', hpin⟩

end Counting

section Updates
variable {quota : Nat} {s s' : Resident K}

theorem WithinQuota.of_subset (h : WithinQuota quota s)
    (hsub : ∀ ws, pinnedKeys s'.records ws ⊆ pinnedKeys s.records ws) : WithinQuota quota s' :=
  fun ws => (Set.encard_le_encard (hsub ws)).trans (h ws)

theorem WithinQuota.evicts (h : WithinQuota quota s) (he : Evicts s s') : WithinQuota quota s' := by
  refine h.of_subset fun ws k hk => ?_
  obtain ⟨r, hr, hpin⟩ := hk
  exact ⟨r, he.subset hr, hpin⟩

theorem WithinQuota.access (h : WithinQuota quota s) (hacc : AccessOnly s.records s'.records) :
    WithinQuota quota s' := by
  refine h.of_subset fun ws k hk => ?_
  obtain ⟨r, hr, hpin⟩ := hk
  obtain ⟨r₀, hr₀, hsame⟩ := hacc.lookup hr
  have hmask : ∀ x : MemoryRecord K, isPinnedIn ws x.withoutAccess = isPinnedIn ws x := fun _ => rfl
  refine ⟨r₀, hr₀, ?_⟩
  rw [← hmask r₀, ← hsame, hmask, hpin]

end Updates

/-! ### Write -/

section Calls
variable [Field K] [LinearOrder K] {env : Platform K} {w : World K}

/-- A record is pinned only where the quota has room for it. -/
theorem governPin_spec (options : MemoryEngineOptions K) (draft : WriteDraft K) (pin : Bool)
    (id : Bytes) :
    (governPin options draft pin id).2.projectedPinned = draft.projectedPinned ∧
      ((governPin options draft pin id).1 = true →
        draft.projectedPinned + 1 ≤ options.pinQuotaPerWorkspace) := by
  rw [governPin]
  split
  · exact ⟨rfl, fun h => by cases h⟩
  · split
    · exact ⟨rfl, fun h => by cases h⟩
    · rename_i hroom
      split
      · exact ⟨rfl, fun h => by cases h⟩
      · exact ⟨rfl, fun _ => Nat.le_of_not_lt hroom⟩

/-- The invariant of the loop of `Write`: the projected count is not below the
true one, and within the quota. -/
structure Projected (env : Platform K) (w : World K) (input : WriteInput K)
    (draft : WriteDraft K) : Prop where
  removals : draft.plan.removals = []
  own : (pinnedKeys (draft.plan.applyInMemory env w.engine.toResident).records
    input.workspaceId).encard ≤ draft.projectedPinned
  room : draft.projectedPinned ≤ w.engine.options.pinQuotaPerWorkspace
  others : ∀ ws, ws ≠ input.workspaceId →
    (pinnedKeys (draft.plan.applyInMemory env w.engine.toResident).records ws).encard ≤
      w.engine.options.pinQuotaPerWorkspace

theorem Projected.of_plan {input : WriteInput K} {draft draft' : WriteDraft K}
    (h : Projected env w input draft) (hplan : draft'.plan = draft.plan)
    (hpinned : draft'.projectedPinned = draft.projectedPinned) : Projected env w input draft' where
  removals := hplan ▸ h.removals
  own := by rw [hplan, hpinned]; exact h.own
  room := hpinned ▸ h.room
  others := by rw [hplan]; exact h.others

theorem Projected.accept {input : WriteInput K} {draft draft' : WriteDraft K}
    (h : Projected env w input draft) (recIn : WriteRecordInput K) (nowMs : UInt64) (id : Bytes)
    {pinned : Bool} (hpinned : pinned = true →
      draft.projectedPinned + 1 ≤ w.engine.options.pinQuotaPerWorkspace)
    (hupserts : draft'.plan.upserts =
      draft.plan.upserts ++ [newRecord w.engine input recIn nowMs id pinned])
    (hremovals : draft'.plan.removals = draft.plan.removals)
    (hprojected : draft'.projectedPinned = draft.projectedPinned + (if pinned then 1 else 0)) :
    Projected env w input draft' := by
  have hrecords : (draft'.plan.applyInMemory env w.engine.toResident).records =
      (draft.plan.applyInMemory env w.engine.toResident).records.insert
        (recordMapKey input.workspaceId id) (newRecord w.engine input recIn nowMs id pinned) := by
    simp only [Plan.applyInMemory, hremovals, h.removals, hupserts, List.foldl_append,
      List.foldl_cons, List.foldl_nil, Resident.records_upsert]
    rfl
  constructor
  · exact hremovals.trans h.removals
  · rw [hrecords, hprojected]
    cases pinned with
    | false =>
      refine (Set.encard_le_encard (pinnedKeys_insert_of_not _ _ _ ?_)).trans h.own
      simp [isPinnedIn, newRecord]
    | true =>
      refine (Set.encard_le_encard (pinnedKeys_insert_subset _ _ _ _)).trans ?_
      refine (Set.encard_insert_le _ _).trans ?_
      push_cast
      exact add_le_add_left h.own 1
  · rw [hprojected]
    cases pinned with
    | false => exact h.room
    | true => exact hpinned rfl
  · intro ws hws
    rw [hrecords]
    refine (Set.encard_le_encard (pinnedKeys_insert_of_not _ _ _ ?_)).trans (h.others ws hws)
    have hne : input.workspaceId ≠ ws := hws.symm
    simp [isPinnedIn, newRecord, hne]

theorem holds_writeDraft_projected (env : Platform K) (h : WithinQuota w.engine.options.pinQuotaPerWorkspace
    w.engine.toResident) (input : WriteInput K) :
    Holds (writeDraft env w.engine input) w.cursor
      (fun draft _ => Projected env w input draft) (fun _ => True) := by
  refine holds_bind (holds_advance (holds_foldlM ?_ ?_))
  · intro recIn _ draft c hI
    rw [writeRecord]
    split
    · exact holds_pure (hI.of_plan rfl rfl)
    · split
      · exact holds_pure (hI.of_plan rfl rfl)
      · refine holds_bind ((holds_any _ _).mono (fun id c₁ _ => ?_) fun _ _ => trivial)
        obtain ⟨hplan, -, -⟩ := governPin_plan w.engine.options draft recIn.pin id
        obtain ⟨hsame, hroom⟩ := governPin_spec w.engine.options draft recIn.pin id
        generalize governPin w.engine.options draft recIn.pin id = governed at hplan hsame hroom
        obtain ⟨pinned, governed⟩ := governed
        dsimp only at hplan hsame hroom ⊢
        split
        · exact holds_pure (hI.of_plan hplan hsame)
        · refine holds_bind ((holds_any _ _).mono (fun rows c₂ _ => ?_) fun _ _ => trivial)
          refine holds_bind ((holds_any _ _).mono (fun event c₃ _ => ?_) fun _ _ => trivial)
          refine holds_pure ((hI.of_plan hplan hsame).accept recIn governed.nowMs id ?_ rfl rfl rfl)
          intro hpin
          exact hsame ▸ hroom hpin
  · have hstats := encard_pinnedKeys w.engine.records input.workspaceId
    constructor
    · rfl
    · exact hstats.le
    · have hle := h input.workspaceId
      rw [hstats] at hle
      exact_mod_cast hle
    · exact fun ws _ => h ws

/-! ### Pin -/

/-- What a pin puts is the record it loaded, and the quota has room for a new pin. -/
theorem holds_pinDraft_refused (env : Platform K) (w : World K) (workspaceId memoryId : Bytes) (flag : Bool) (c : Cursor) :
    Holds (pinDraft env w.engine w.store.reader workspaceId memoryId flag) c
      (fun out _ => ∀ plan, out = .ok plan → ∃ loaded nowMs,
        loadRecord env w.engine w.store.reader workspaceId memoryId = .ok loaded ∧
        pinRefusal w.engine workspaceId loaded flag = none ∧
        plan.upserts = [pinnedRecord w.engine loaded flag nowMs] ∧ plan.removals = [])
      (fun _ => True) := by
  rw [pinDraft]
  split
  · exact holds_pure fun plan h => by cases h
  · rename_i loaded hload
    split
    · exact holds_pure fun plan h => by cases h
    · rename_i hrefusal
      refine holds_bind (holds_advance ?_)
      refine holds_bind ((holds_any _ _).mono (fun rows c₁ _ => ?_) fun _ _ => trivial)
      refine holds_bind ((holds_any _ _).mono (fun event c₂ _ => ?_) fun _ _ => trivial)
      refine holds_bind (holds_advance (holds_pure fun plan h => ?_))
      obtain rfl := Except.ok.inj h
      exact ⟨loaded, _, hload, hrefusal, rfl, rfl⟩

/-- Pinning within the quota. -/
theorem WithinQuota.pin {documents : Documents K} (hlaw : env.Lawful)
    (htrack : Tracked env ⟨w, documents⟩)
    (h : WithinQuota w.engine.options.pinQuotaPerWorkspace w.engine.toResident)
    {workspaceId memoryId : Bytes} {flag : Bool} (hclean : Clean workspaceId)
    {loaded : MemoryRecord K} (nowMs : UInt64)
    (hload : loadRecord env w.engine w.store.reader workspaceId memoryId = .ok loaded)
    (hrefusal : pinRefusal w.engine workspaceId loaded flag = none) :
    WithinQuota w.engine.options.pinQuotaPerWorkspace
      (w.engine.toResident.upsertRecordInMemory env
        (pinnedRecord w.engine loaded flag nowMs)) := by
  intro ws
  rw [Resident.records_upsert]
  by_cases hpin : isPinnedIn ws (pinnedRecord w.engine loaded flag nowMs) = true
  · simp only [isPinnedIn, Bool.and_eq_true, decide_eq_true_eq, Bool.not_eq_true'] at hpin
    obtain ⟨⟨hws, hlive⟩, rfl⟩ := hpin
    change loaded.workspaceId = ws at hws
    change loaded.tombstone = false at hlive
    have hname := htrack.sourced.names_loaded hlaw hload
    -- the record is loaded under its own name
    have hown : workspaceId = loaded.workspaceId ∧
        (w.engine.records[recordMapKey loaded.workspaceId loaded.id]? = some loaded ∨
          loaded.pinned = false) := by
      rcases loadRecord_cases hload with hheld | ⟨hnone, v, hv, hd⟩
      · obtain ⟨hk, -⟩ := htrack.sourced.held _ _ hheld
        rw [hk] at hheld
        exact ⟨(recordMapKey_inj hclean.1 hname.2.2.1 hk).1, Or.inl hheld⟩
      · obtain ⟨r, hk, hvalue, hw, hname'⟩ := htrack.sourced.docs _ _ hv
        obtain ⟨rfl, rfl⟩ := buildDocKey_inj hclean.2 hname'.2.2.2 hk
        obtain ⟨r₁, hr₁, -, hreread⟩ := htrack.represents.decoded hlaw hname' hv hd
        obtain ⟨hws', hid'⟩ := (deserialize_serialize hlaw hw (hvalue ▸ hd)).1.names
        have hunpinned := htrack.backs.missing _ _ r₁ hname' hnone hr₁
        refine ⟨hws'.symm, Or.inr ?_⟩
        exact (congrArg MemoryRecord.pinned hreread.essence).trans hunpinned
    obtain ⟨rfl, hheld⟩ := hown
    by_cases hwas : loaded.pinned = true
    · -- a record that was pinned before is counted once
      refine (Set.encard_le_encard ?_).trans (h ws)
      refine (pinnedKeys_insert_subset _ _ _ _).trans ?_
      refine Set.insert_subset ?_ subset_rfl
      refine ⟨loaded, hheld.resolve_right (by simp [hwas]), ?_⟩
      simp [isPinnedIn, hws, hlive, hwas]
    · have hroom : (computeWorkspacePinStats w.engine.records loaded.workspaceId).pinned + 1 ≤
          w.engine.options.pinQuotaPerWorkspace := by
        have hnew : (true && !loaded.pinned) = true := by simp [hwas]
        rw [pinRefusal, if_pos hnew] at hrefusal
        dsimp only at hrefusal
        split at hrefusal
        · cases hrefusal
        · rename_i hroom
          exact Nat.le_of_not_lt hroom
      refine (Set.encard_le_encard (pinnedKeys_insert_subset _ _ _ _)).trans ?_
      refine (Set.encard_insert_le _ _).trans ?_
      rw [← hws, encard_pinnedKeys]
      exact_mod_cast hroom
  · refine (Set.encard_le_encard (pinnedKeys_insert_of_not _ _ _ (by simpa using hpin))).trans ?_
    exact h ws

/-! ### Compaction -/

/-- What a compaction does adds no pinned record. -/
theorem WithinQuota.compact {quota : Nat} {call : Call K} {workspaceId : Bytes}
    (hcall : call.compacts = some workspaceId) {nowMs : UInt64} {change : Change K}
    (hprod : Produces env w nowMs call change) {s : Resident K} (h : WithinQuota quota s) :
    WithinQuota quota (s.applyChange env change) := by
  cases hprod with
  | new => cases hcall
  | pinned => cases hcall
  | tombstoned =>
    refine h.of_subset fun ws => ?_
    rw [Resident.applyChange, Resident.records_upsert]
    exact pinnedKeys_insert_of_not _ _ _ (by simp [isPinnedIn, tombstoneOf])
  | dropped =>
    refine h.of_subset fun ws => ?_
    rw [Resident.applyChange, Resident.records_remove]
    exact pinnedKeys_erase _ _ _

/-! ### Runs -/

omit [Field K] [LinearOrder K] in
theorem WithinQuota.foldl [Field K] [LinearOrder K] {quota : Nat} {changes : List (Change K)}
    (hstep : ∀ change ∈ changes, ∀ s, WithinQuota quota s →
      WithinQuota quota (s.applyChange env change)) {s : Resident K} (h : WithinQuota quota s) :
    WithinQuota quota (changes.foldl (Resident.applyChange env) s) := by
  induction changes generalizing s with
  | nil => exact h
  | cons change rest ih =>
    exact ih (fun c hc => hstep c (List.mem_cons_of_mem _ hc))
      (hstep change List.mem_cons_self s h)

/-- The batch of a call keeps the quota in memory. -/
theorem WithinQuota.plan {documents : Documents K} (hlaw : env.Lawful)
    (htrack : Tracked env ⟨w, documents⟩)
    (h : WithinQuota w.engine.options.pinQuotaPerWorkspace w.engine.toResident) {call : Call K}
    (hclean : call.Mentions Clean) (fate : Fate) {request : Request K}
    (hsome : (prepare env fate w call).1 = some request) :
    WithinQuota w.engine.options.pinQuotaPerWorkspace
      (request.plan.applyInMemory env w.engine.toResident) := by
  have compact : ∀ workspaceId, call.compacts = some workspaceId →
      WithinQuota w.engine.options.pinQuotaPerWorkspace
        (request.plan.applyInMemory env w.engine.toResident) := by
    intro workspaceId hcall
    obtain ⟨items, hd⟩ := htrack.drafted hlaw call fate hsome
    rw [Plan.applyInMemory_eq, hd.changes]
    refine WithinQuota.foldl (fun change hchange s hs => ?_) h
    obtain ⟨item, hitem, rfl⟩ := List.mem_map.mp hchange
    obtain ⟨i, -, -, hprod⟩ := hd.produced item hitem
    exact hs.compact hcall hprod
  cases call with
  | query input => cases hsome
  | compact workspaceId => exact compact workspaceId rfl
  | gc => exact compact [] rfl
  | write input =>
    simp only [prepare, prepareWrite] at hsome
    split at hsome
    · cases hsome
    · have hdraft := holds_writeDraft_projected env h input
      split at hsome
      · rename_i draft c hrun
        have hI := hdraft.returned draft c hrun
        dsimp only at hsome
        split at hsome
        · cases hsome
        · obtain rfl := Option.some.inj hsome
          intro ws
          by_cases hws : ws = input.workspaceId
          · rw [hws]
            exact hI.own.trans (by exact_mod_cast hI.room)
          · exact hI.others ws hws
      · cases hsome
  | pin workspaceId memoryId flag =>
    simp only [prepare, preparePin] at hsome
    have hdraft := holds_pinDraft_refused env w workspaceId memoryId flag w.cursor
    split at hsome
    · rename_i plan c hrun
      obtain rfl := Option.some.inj hsome
      obtain ⟨loaded, nowMs, hload, hrefusal, hupserts, hremovals⟩ :=
        hdraft.returned _ c hrun plan rfl
      have hpin := WithinQuota.pin hlaw htrack h hclean nowMs hload hrefusal
      rw [Request.plan, Plan.applyInMemory, hupserts, hremovals]
      exact hpin
    · cases hsome

/-- A call keeps the options, and the quota in memory. -/
theorem WithinQuota.call {documents : Documents K} (hlaw : env.Lawful)
    (htrack : Tracked env ⟨w, documents⟩)
    (h : WithinQuota w.engine.options.pinQuotaPerWorkspace w.engine.toResident) {call : Call K}
    (hclean : call.Mentions Clean) (fate : Fate) :
    (perform env fate w call).1.engine.options = w.engine.options ∧
      WithinQuota w.engine.options.pinQuotaPerWorkspace
        (perform env fate w call).1.engine.toResident := by
  have hout := perform_outcome env fate w call
  generalize (perform env fate w call).1 = w' at hout
  cases hout with
  | idle _ agrees =>
    refine ⟨agrees.options, ?_⟩
    rw [agrees.resident]
    exact h
  | queried isQuery =>
    rename_i input
    obtain ⟨records, hacc, hres⟩ := (query_spec env w input).resident
    refine ⟨(query_spec env w input).options, h.access ?_⟩
    rw [hres]
    exact hacc
  | failed _ _ agrees =>
    refine ⟨agrees.options, ?_⟩
    rw [agrees.resident]
    exact h
  | committed hsome _ settled =>
    exact ⟨settled.options, (h.plan hlaw htrack hclean fate hsome).evicts settled.resident⟩

/-- The invariant of runs with fixed options. -/
structure Quotaed (env : Platform K) (quota : Nat) (t : Traced K) : Prop where
  tracked : Tracked env t
  fixed : t.world.engine.options.pinQuotaPerWorkspace = quota
  within : WithinQuota quota t.world.engine.toResident

theorem Quotaed.step (hlaw : env.Lawful) {quota : Nat} (t : Traced K) (step : Step K)
    (hstep : step.IsCall fun c fate => c.Mentions Clean ∧ fate.main.Whole)
    (h : Quotaed env quota t) : Quotaed env quota (t.next env step) := by
  match step with
  | .call c fate =>
    obtain ⟨hclean, hwhole⟩ := hstep
    have hwithin := h.within
    rw [← h.fixed] at hwithin
    obtain ⟨hoptions, hcall⟩ := hwithin.call hlaw h.tracked hclean fate
    refine ⟨h.tracked.call hlaw hclean.workspaces hwhole, ?_, h.fixed ▸ hcall⟩
    exact (congrArg MemoryEngineOptions.pinQuotaPerWorkspace hoptions).trans h.fixed
  | .restart _ _ _ => exact hstep.elim

/-- In every run of calls, each workspace has at most as many live pinned records as
the quota, among the resident records and among the document rows. -/
theorem pin_quota_respected (hlaw : env.Lawful) (nodeId : Bytes) (options : MemoryEngineOptions K)
    (steps : List (Step K))
    (hsteps : ∀ step ∈ steps, step.IsCall fun c fate => c.Mentions Clean ∧ fate.main.Whole)
    (workspaceId : Bytes) :
    let w := Runs.exec (next env) (World.initial nodeId options) steps
    {id : Bytes | ∃ r, w.engine.toResident.Holds workspaceId id r ∧ r.tombstone = false ∧
        r.pinned = true}.encard ≤ options.pinQuotaPerWorkspace ∧
      {id : Bytes | ∃ v r, (w.store.table docNs)[buildDocKey workspaceId id]? = some v ∧
        deserializeRecord env v.value = some r ∧ r.workspaceId = workspaceId ∧ r.id = id ∧
        r.tombstone = false ∧ r.pinned = true}.encard ≤ options.pinQuotaPerWorkspace := by
  intro w
  have hrun : Quotaed env options.pinQuotaPerWorkspace
      (Runs.exec (Traced.next env) (Traced.initial nodeId options) steps) := by
    refine Runs.invariant_of_forall (fun t step hstep h => h.step hlaw t step hstep) hsteps ?_
    refine ⟨tracked_initial nodeId options, rfl, fun ws => ?_⟩
    have hnone : pinnedKeys (Traced.initial nodeId options).world.engine.records ws = ∅ := by
      ext k
      simp [pinnedKeys, Traced.initial, World.initial, MemoryEngine.new, Resident.empty]
    rw [hnone]
    simp
  have hworld : (Runs.exec (Traced.next env) (Traced.initial nodeId options) steps).world = w :=
    Traced.exec_world env _ steps
  obtain ⟨htrack, -, hwithin⟩ := hrun
  rw [hworld] at hwithin
  have hrep := htrack.represents
  have hbacks := htrack.backs
  have hsourced := htrack.sourced
  rw [hworld] at hrep hbacks hsourced
  have hheld : {id : Bytes | ∃ r, w.engine.toResident.Holds workspaceId id r ∧
      r.tombstone = false ∧ r.pinned = true}.encard ≤ options.pinQuotaPerWorkspace := by
    refine (Set.encard_le_encard_of_injOn (f := recordMapKey workspaceId) ?_ ?_).trans
      (hwithin workspaceId)
    · rintro id ⟨r, ⟨hr, hws, -⟩, hlive, hpin⟩
      exact ⟨r, hr, by simp [isPinnedIn, hws, hlive, hpin]⟩
    · exact fun a _ b _ hab => recordMapKey_id_inj hab
  refine ⟨hheld, (Set.encard_le_encard ?_).trans hheld⟩
  -- a pinned row is never without its resident copy
  rintro id ⟨v, d, hv, hd, hws, hid, hlive, hpin⟩
  obtain ⟨r₀, hk, hvalue, hw, hname⟩ := hsourced.docs _ _ hv
  obtain ⟨hws₀, hid₀⟩ := (deserialize_serialize hlaw hw (hvalue ▸ hd)).1.names
  rw [← hws₀, ← hid₀, hws, hid] at hname
  obtain ⟨r₁, hr₁, -, hreread⟩ := hrep.decoded hlaw hname hv hd
  rcases hr : w.engine.records[recordMapKey workspaceId id]? with _ | r
  · have hunpinned := hbacks.missing _ _ r₁ hname hr hr₁
    have hsame : d.essence.pinned = r₁.essence.pinned :=
      congrArg MemoryRecord.pinned hreread.essence
    cases hpin.symm.trans (hsame.trans hunpinned)
  · obtain ⟨d', hd', hess⟩ := hbacks.held _ _ r hname hr
    obtain rfl := Option.some.inj (hr₁.symm.trans hd')
    have hsame : r.essence = d.essence := hess.trans hreread.essence.symm
    refine ⟨r, ⟨hr, ?_, ?_⟩, ?_, ?_⟩
    · exact (congrArg MemoryRecord.workspaceId hsame).trans hws
    · exact (congrArg MemoryRecord.id hsame).trans hid
    · exact (congrArg MemoryRecord.tombstone hsame).trans hlive
    · exact (congrArg MemoryRecord.pinned hsame).trans hpin

end Calls

section Examples
open Reference

/-- A record is written, and pinned by a later call. -/
def pinnedHistory : List (Step ℚ) :=
  [.call (put (ascii "w") (ascii "a") (ascii "hello")) applied,
    .call (.pin (ascii "w") (ascii "a") true) applied]

theorem pin_quota_after_history :
    let w := Runs.exec (next (platform ticking)) initial pinnedHistory
    {id : Bytes | ∃ r, w.engine.toResident.Holds (ascii "w") id r ∧ r.tombstone = false ∧
      r.pinned = true}.encard ≤ 10000 := by
  have hclean : Clean (ascii "w") := ⟨by decide, by decide⟩
  refine (pin_quota_respected (lawful_platform ticking) (ascii "node") options pinnedHistory ?_
    (ascii "w")).1
  intro step hstep
  simp only [pinnedHistory, List.mem_cons, List.not_mem_nil, or_false] at hstep
  rcases hstep with rfl | rfl
  · exact ⟨hclean, trivial⟩
  · exact ⟨hclean, trivial⟩

end Examples

end PoorguyMem
