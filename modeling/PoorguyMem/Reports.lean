import PoorguyMem.Accounting
import PoorguyMem.Batches
import PoorguyMem.Reference

/-!
# What a call reports

The ids that `Write` reports as stored and the counts of a compaction are gathered
while the batch is built. They are not taken back when the batch fails.
-/

namespace PoorguyMem

open ByteString Throwing

variable {K : Type} [Field K] [LinearOrder K]

/-- The batch of a call. -/
def planned (env : Platform K) (w : World K) (call : Call K) (fate : Fate) : Plan K :=
  (prepare env fate w call).1.elim Plan.empty Request.plan

/-- The document entry of a record is among those that took effect. -/
def Upserted (env : Platform K) (effective : List WriteEntry) (r : MemoryRecord K) : Prop :=
  docEntry r (recordText env r) ∈ effective

def Removed (effective : List WriteEntry) (r : MemoryRecord K) : Prop :=
  ∃ e ∈ effective, e.op = .delete ∧ e.entry.nameSpace = docNs ∧
    e.entry.key = buildDocKey r.workspaceId r.id

omit [Field K] [LinearOrder K] in
instance (env : Platform K) (effective : List WriteEntry) (r : MemoryRecord K) :
    Decidable (Upserted env effective r) :=
  inferInstanceAs (Decidable (_ ∈ _))

omit [Field K] [LinearOrder K] in
instance (effective : List WriteEntry) (r : MemoryRecord K) : Decidable (Removed effective r) :=
  inferInstanceAs (Decidable (∃ e ∈ _, _ ∧ _ ∧ _))

/-- The records whose documents a call made durable, tombstones included. -/
def durableUpserts (env : Platform K) (w : World K) (call : Call K) (fate : Fate) :
    List (MemoryRecord K) :=
  (planned env w call fate).upserts.filter
    fun r => Upserted env (fate.main.effective (planned env w call fate).writes) r

/-- The records whose documents a call removed. -/
def durableRemovals (env : Platform K) (w : World K) (call : Call K) (fate : Fate) :
    List (MemoryRecord K) :=
  (planned env w call fate).removals.filter
    fun r => Removed (fate.main.effective (planned env w call fate).writes) r

/-- A call reports what it made durable. -/
def Reports (env : Platform K) (w : World K) (call : Call K) (fate : Fate) : Prop :=
  match (perform env fate w call).2 with
  | .write output => ∀ id, id ∈ output.storedIds ↔ ∃ r ∈ durableUpserts env w call fate, r.id = id
  | .compact output => output.tombstonedCount = (durableUpserts env w call fate).length ∧
      output.deletedCount = (durableRemovals env w call fate).length
  | _ => True

/-- The failed batch kept a document entry for every id, and of a compaction every one. -/
def NothingLost (env : Platform K) (w : World K) (fate : Fate) : Call K → Prop
  | .write input => ∀ r ∈ (planned env w (.write input) fate).upserts,
      ∃ r' ∈ durableUpserts env w (.write input) fate, r'.id = r.id
  | .compact workspaceId =>
      (∀ r ∈ (planned env w (.compact workspaceId) fate).upserts,
        r ∈ durableUpserts env w (.compact workspaceId) fate) ∧
      ∀ r ∈ (planned env w (.compact workspaceId) fate).removals,
        r ∈ durableRemovals env w (.compact workspaceId) fate
  | .gc => (∀ r ∈ (planned env w .gc fate).upserts, r ∈ durableUpserts env w .gc fate) ∧
      ∀ r ∈ (planned env w .gc fate).removals, r ∈ durableRemovals env w .gc fate
  | _ => True

variable {env : Platform K} {w : World K} {fate : Fate}

/-! ### What is gathered -/

theorem holds_writeDraft_reported (env : Platform K) (w : World K) (input : WriteInput K) :
    Holds (writeDraft env w.engine input) w.cursor
      (fun draft _ => draft.storedIds = draft.plan.upserts.map (·.id)) (fun _ => True) := by
  refine holds_bind (holds_advance (holds_foldlM ?_ rfl))
  intro recIn _ draft c h
  rw [writeRecord]
  split
  · exact holds_pure h
  · split
    · exact holds_pure h
    · refine holds_bind ((holds_any _ _).mono (fun id c₁ _ => ?_) fun _ _ => trivial)
      obtain ⟨hplan, -, -⟩ := governPin_plan w.engine.options draft recIn.pin id
      have hstored := governPin_storedIds w.engine.options draft recIn.pin id
      generalize governPin w.engine.options draft recIn.pin id = governed at hplan hstored
      obtain ⟨pinned, governed⟩ := governed
      dsimp only at hplan hstored ⊢
      have hgoverned : governed.storedIds = governed.plan.upserts.map (·.id) := by
        rw [hstored, hplan, h]
      split
      · exact holds_pure hgoverned
      · refine holds_bind ((holds_any _ _).mono (fun rows c₂ _ => ?_) fun _ _ => trivial)
        refine holds_bind ((holds_any _ _).mono (fun event c₃ _ => ?_) fun _ _ => trivial)
        refine holds_pure ?_
        rw [hgoverned, List.map_append]
        rfl

theorem ChangeRows.ne_nil {records : StringMap (MemoryRecord K)} {change : Change K}
    {rows : List WriteEntry} (h : ChangeRows env records change rows) : rows ≠ [] := by
  cases h <;> simp

/-- An empty batch changes nothing. -/
theorem Chunked.eq_empty {call : Call K} {plan : Plan K} {chunks : List (Chunk K)}
    (h : Chunked env w call plan chunks) (hnil : plan.writes = []) :
    plan.upserts = [] ∧ plan.removals = [] := by
  have hchunks : chunks = [] := by
    rw [h.writes, List.flatMap_eq_nil_iff] at hnil
    refine List.eq_nil_iff_forall_not_mem.mpr fun chunk hchunk => ?_
    have hrows := (List.append_eq_nil_iff.mp (hnil chunk hchunk)).1
    exact (h.rows chunk hchunk).ne_nil hrows
  have hchanges := h.changes
  rw [hchunks, List.map_nil, Plan.changes, List.append_eq_nil_iff] at hchanges
  exact ⟨List.map_eq_nil_iff.mp hchanges.1, List.map_eq_nil_iff.mp hchanges.2⟩

theorem write_storedIds {input : WriteInput K} {output : WriteOutput}
    (hout : (write env fate w input).2 = some output) :
    output.storedIds = (planned env w (.write input) fate).upserts.map (·.id) := by
  rw [planned, prepare, prepareWrite]
  rw [write] at hout
  split at hout
  · rename_i hws
    obtain rfl := Option.some.inj hout
    rw [if_pos (Or.inl hws)]
    rfl
  rename_i hws
  split at hout
  · rename_i hrecords
    obtain rfl := Option.some.inj hout
    rw [if_pos (Or.inr hrecords)]
    rfl
  rename_i hrecords
  rw [if_neg (by simp [hws, hrecords])]
  rcases hrun : writeDraft env w.engine input w.cursor with ⟨_ | draft, c⟩ <;> rw [hrun] at hout
  · cases hout
  have hreported := (holds_writeDraft_reported env w input).returned draft c hrun
  dsimp only at hout ⊢
  split at hout
  · rename_i hnil
    obtain rfl := Option.some.inj hout
    obtain ⟨chunks, hchunks⟩ := ((holds_writeDraft_rows env w hws).returned draft c hrun).chunked
    rw [if_pos hnil]
    exact hreported.trans (by rw [(hchunks.eq_empty hnil).1]; rfl)
  · rename_i hsome
    rw [if_neg hsome]
    split at hout
    all_goals
      obtain rfl := Option.some.inj hout
      exact hreported

theorem compact_counts {call : Call K} {workspaceId : Bytes} {force : Bool} {output : CompactOutput}
    (hcall : call.compacts = some workspaceId)
    (hprep : prepare env fate w call = prepareCompact env fate w workspaceId force)
    (hout : (compactInternal env fate w workspaceId force).2 = some output) :
    output.tombstonedCount = (planned env w call fate).upserts.length ∧
      output.deletedCount = (planned env w call fate).removals.length := by
  rw [planned, hprep, prepareCompact]
  rw [compactInternal] at hout
  dsimp only at hout
  split at hout
  · rename_i hidle
    obtain rfl := Option.some.inj hout
    rw [if_pos hidle]
    exact ⟨rfl, rfl⟩
  rename_i hbusy
  rw [if_neg hbusy]
  rcases hrun : compactDraft env w.engine workspaceId w.cursor with ⟨_ | draft, c⟩ <;>
    rw [hrun] at hout
  · cases hout
  obtain rfl := Option.some.inj hout
  dsimp only
  by_cases hnil : draft.plan.writes = []
  · obtain ⟨chunks, hchunks⟩ := (holds_compactDraft_rows env w hcall).returned draft c hrun
    obtain ⟨hupserts, hremovals⟩ := hchunks.eq_empty hnil
    rw [if_pos hnil, hupserts, hremovals]
    exact ⟨rfl, rfl⟩
  · rw [if_neg hnil]
    exact ⟨rfl, rfl⟩

/-- A call that an exception leaves has no batch. -/
theorem planned_of_write_threw {input : WriteInput K}
    (hout : (write env fate w input).2 = none) : planned env w (.write input) fate = Plan.empty := by
  rw [planned, prepare, prepareWrite]
  rw [write] at hout
  split at hout
  · cases hout
  rename_i hws
  split at hout
  · cases hout
  rename_i hrecords
  rw [if_neg (by simp [hws, hrecords])]
  rcases hrun : writeDraft env w.engine input w.cursor with ⟨_ | draft, c⟩ <;> rw [hrun] at hout
  · rfl
  · dsimp only at hout
    split at hout
    · cases hout
    · split at hout <;> cases hout

theorem planned_of_compact_threw {call : Call K} {workspaceId : Bytes} {force : Bool}
    (hprep : prepare env fate w call = prepareCompact env fate w workspaceId force)
    (hout : (compactInternal env fate w workspaceId force).2 = none) :
    planned env w call fate = Plan.empty := by
  rw [planned, hprep, prepareCompact]
  rw [compactInternal] at hout
  dsimp only at hout
  split at hout
  · cases hout
  rename_i hbusy
  rw [if_neg hbusy]
  rcases hrun : compactDraft env w.engine workspaceId w.cursor with ⟨_ | draft, c⟩ <;>
    rw [hrun] at hout
  · rfl
  · cases hout

/-! ### What takes effect -/

/-- A batch that is committed makes every record of the plan durable. -/
theorem durable_of_ok {call : Call K} (hok : fate.main.ok = true) :
    durableUpserts env w call fate = (planned env w call fate).upserts ∧
      durableRemovals env w call fate = (planned env w call fate).removals := by
  have heffective : ∀ writes, fate.main.effective writes = writes := by
    intro writes
    rcases hmain : fate.main with _ | ⟨error, kept⟩
    · rfl
    · rw [hmain] at hok
      cases hok
  rw [durableUpserts, durableRemovals, heffective, planned]
  rcases hprep : (prepare env fate w call).1 with _ | request
  · exact ⟨rfl, rfl⟩
  obtain ⟨chunks, hchunks⟩ := prepare_chunked hprep
  have hmem : ∀ change ∈ request.plan.changes, ∃ rows, ChangeRows env w.engine.records change rows ∧
      ∀ e ∈ rows, e ∈ request.plan.writes := by
    intro change hchange
    rw [hchunks.changes] at hchange
    obtain ⟨chunk, hchunk, rfl⟩ := List.mem_map.mp hchange
    refine ⟨chunk.rows, hchunks.rows chunk hchunk, fun e he => ?_⟩
    rw [hchunks.writes]
    exact List.mem_flatMap.mpr ⟨chunk, hchunk, List.mem_append_left _ he⟩
  constructor
  · refine List.filter_eq_self.mpr fun r hr => decide_eq_true ?_
    obtain ⟨rows, hrows, hwrites⟩ := hmem (.put r)
      (List.mem_append_left _ (List.mem_map_of_mem hr))
    cases hrows with
    | put _ t => exact hwrites _ List.mem_cons_self
  · refine List.filter_eq_self.mpr fun r hr => decide_eq_true ?_
    obtain ⟨rows, hrows, hwrites⟩ := hmem (.drop r)
      (List.mem_append_right _ (List.mem_map_of_mem hr))
    cases hrows with
    | drop _ t docTs vecCodeTs vecFpTs deletes =>
      exact ⟨_, hwrites _ List.mem_cons_self, rfl, rfl, rfl⟩

theorem length_filter_eq_iff {α : Type} {p : α → Bool} {l : List α} :
    l.length = (l.filter p).length ↔ ∀ x ∈ l, x ∈ l.filter p := by
  rw [eq_comm, List.length_filter_eq_length_iff]
  refine forall₂_congr fun x hx => ?_
  rw [List.mem_filter]
  exact (and_iff_right hx).symm

theorem reports_write_iff {input : WriteInput K} :
    Reports env w (.write input) fate ↔
      fate.main.ok = true ∨ NothingLost env w fate (.write input) := by
  rw [Reports, perform]
  dsimp only
  rcases hout : (write env fate w input).2 with _ | output
  · -- an exception leaves no batch
    refine iff_of_true trivial (Or.inr fun r hr => ?_)
    rw [planned_of_write_threw hout] at hr
    cases hr
  · have hids := write_storedIds hout
    constructor
    · intro h
      refine Or.inr fun r hr => (h r.id).mp ?_
      rw [hids]
      exact List.mem_map_of_mem hr
    · intro h id
      rw [hids]
      constructor
      · intro hid
        obtain ⟨r, hr, rfl⟩ := List.mem_map.mp hid
        rcases h with hok | hkept
        · exact ⟨r, by rw [(durable_of_ok hok).1]; exact hr, rfl⟩
        · exact hkept r hr
      · rintro ⟨r, hr, rfl⟩
        exact List.mem_map_of_mem (List.mem_of_mem_filter hr)

theorem reports_compact_iff {call : Call K} {workspaceId : Bytes} {force : Bool}
    (hcall : call.compacts = some workspaceId)
    (hprep : prepare env fate w call = prepareCompact env fate w workspaceId force)
    {output : CompactOutput}
    (hout : (compactInternal env fate w workspaceId force).2 = some output) :
    (output.tombstonedCount = (durableUpserts env w call fate).length ∧
      output.deletedCount = (durableRemovals env w call fate).length) ↔
    fate.main.ok = true ∨ (∀ r ∈ (planned env w call fate).upserts,
      r ∈ durableUpserts env w call fate) ∧
        ∀ r ∈ (planned env w call fate).removals, r ∈ durableRemovals env w call fate := by
  obtain ⟨htomb, hdel⟩ := compact_counts hcall hprep hout
  rw [htomb, hdel, durableUpserts, durableRemovals, length_filter_eq_iff, length_filter_eq_iff]
  constructor
  · exact Or.inr
  · rintro (hok | hkept)
    · have hdurable : durableUpserts env w call fate = (planned env w call fate).upserts ∧
          durableRemovals env w call fate = (planned env w call fate).removals :=
        durable_of_ok hok
      rw [durableUpserts, durableRemovals] at hdurable
      rw [hdurable.1, hdurable.2]
      exact ⟨fun r hr => hr, fun r hr => hr⟩
    · exact hkept

/-- A call reports what it made durable exactly where its batch is committed or has
lost nothing. -/
theorem reports_iff (env : Platform K) (w : World K) (call : Call K) (fate : Fate) :
    Reports env w call fate ↔ fate.main.ok = true ∨ NothingLost env w fate call := by
  cases call with
  | write input => exact reports_write_iff
  | query input => exact iff_of_true trivial (Or.inr trivial)
  | pin workspaceId memoryId flag =>
    refine iff_of_true ?_ (Or.inr trivial)
    rw [Reports, perform]
    dsimp only
    rcases (pin env fate w workspaceId memoryId flag).2 with _ | result <;> trivial
  | compact workspaceId =>
    rw [Reports, perform]
    dsimp only
    rcases hout : (compactInternal env fate w workspaceId true).2 with _ | output
    · refine iff_of_true trivial (Or.inr ?_)
      rw [NothingLost, planned_of_compact_threw rfl hout]
      exact ⟨fun r hr => (by cases hr), fun r hr => by cases hr⟩
    · exact reports_compact_iff rfl rfl hout
  | gc =>
    rw [Reports, perform]
    dsimp only
    rcases hout : (compactInternal env fate w [] false).2 with _ | output
    · refine iff_of_true trivial (Or.inr ?_)
      rw [NothingLost, planned_of_compact_threw rfl hout]
      exact ⟨fun r hr => (by cases hr), fun r hr => by cases hr⟩
    · exact reports_compact_iff rfl rfl hout

section Examples
open Reference

/-- The store refuses the batch. -/
def refused : Fate := ⟨.failed (ascii "error") fun _ => false, .applied, ⟨0, 0, 0⟩, ⟨0, 0, 0⟩⟩

/-- The id of a record whose batch failed is reported as stored. -/
theorem not_reports_refused :
    ¬ Reports (platform ticking) initial (put (ascii "w") (ascii "a") (ascii "x")) refused := by
  intro h
  have hids : (write (platform ticking) refused initial ⟨ascii "w", [],
      [recordInput (ascii "a") (ascii "x") []], ascii "upsert"⟩).2.map (·.storedIds) =
      some [ascii "a"] := by decide
  have hnone : (durableUpserts (platform ticking) initial (put (ascii "w") (ascii "a") (ascii "x"))
      refused).map (·.id) = [] := by decide
  obtain ⟨output, hout, hstored⟩ := Option.map_eq_some_iff.mp hids
  rw [Reports, put, Reference.write, perform] at h
  dsimp only at h
  rw [hout] at h
  obtain ⟨r, hr, -⟩ := (h (ascii "a")).mp (by rw [hstored]; exact List.mem_cons_self)
  rw [List.map_eq_nil_iff] at hnone
  rw [put, Reference.write] at hnone
  rw [hnone] at hr
  cases hr

end Examples

end PoorguyMem
