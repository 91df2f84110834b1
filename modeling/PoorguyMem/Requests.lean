import PoorguyMem.Log

/-!
# What a call changes

The batch a call builds is a log of changes, and each change is one of four: a
new record, a record with its pin set, a tombstone made of a live record, or a
tombstone dropped. A call then either leaves the store and what is resident as
they are, or notes accesses, or commits its batch and applies the changes.
-/

namespace PoorguyMem

open ByteString PropertyTree Throwing

variable {K : Type} [Field K] [LinearOrder K]

/-- The workspace a call compacts, the empty one for all. -/
def Call.compacts : Call K → Option Bytes
  | .compact workspaceId => some workspaceId
  | .gc => some []
  | _ => none

/-- An input record that `Write` stores, under the id it gets. -/
structure Accepted (engine : MemoryEngine K) (input : WriteInput K)
    (recIn : WriteRecordInput K) (id : Bytes) : Prop where
  content : recIn.content ≠ []
  fresh : suppressedBy engine input recIn = none
  id_ne : id ≠ []
  named : recIn.recordId ≠ [] → id = recIn.recordId

/-- The changes a call makes to the records of an engine and its store. -/
inductive Produces (env : Platform K) (w : World K) (nowMs : UInt64) : Call K → Change K → Prop
  | new {input : WriteInput K} {recIn : WriteRecordInput K} {id : Bytes} {pinned : Bool}
      (workspace : input.workspaceId ≠ []) (mem : recIn ∈ input.records)
      (accepted : Accepted w.engine input recIn id) :
      Produces env w nowMs (.write input)
        (.put (newRecord w.engine input recIn nowMs id pinned))
  | pinned {workspaceId memoryId : Bytes} {flag : Bool} {loaded : MemoryRecord K}
      (load : loadRecord env w.engine w.store.reader workspaceId memoryId = .ok loaded) :
      Produces env w nowMs (.pin workspaceId memoryId flag)
        (.put (pinnedRecord w.engine loaded flag nowMs))
  | tombstoned {call : Call K} {workspaceId k : Bytes} {candidate : MemoryRecord K}
      (compacts : call.compacts = some workspaceId)
      (held : w.engine.records[k]? = some candidate) (scope : inScope workspaceId candidate)
      (unpinned : candidate.pinned = false) (live : candidate.tombstone = false) :
      Produces env w nowMs call (.put (tombstoneOf w.engine candidate nowMs))
  | dropped {call : Call K} {workspaceId k : Bytes} {candidate : MemoryRecord K}
      (compacts : call.compacts = some workspaceId)
      (held : w.engine.records[k]? = some candidate) (scope : inScope workspaceId candidate)
      (dead : candidate.tombstone = true) :
      Produces env w nowMs call (.drop candidate)

/-- A plan as a log, with the origin of every change. -/
structure Drafted (env : Platform K) (w : World K) (call : Call K) (c : Cursor) (plan : Plan K)
    (items : List (LogItem K)) : Prop where
  before : w.cursor.Before c
  logs : Logs env w.cursor c plan.writes items
  changes : plan.changes = items.map (·.change)
  produced : ∀ item ∈ items, ∃ i, w.tick ≤ i ∧ i < item.reading ∧
    Produces env w (env.clock i) call item.change

variable {env : Platform K} {w : World K} {call : Call K} {c c₁ c₂ : Cursor} {plan plan' : Plan K}
  {items : List (LogItem K)} {item : LogItem K} {rows : List WriteEntry}

theorem Drafted.empty (h : w.cursor.Before c) : Drafted env w call c Plan.empty [] where
  before := h
  logs := Logs.nil env _ _
  changes := rfl
  produced _ h := by cases h

theorem Drafted.advance (h : Drafted env w call c plan items) (hc : c.Before c₁) :
    Drafted env w call c₁ plan items :=
  { h with
    before := h.before.trans hc
    logs := { h.logs with
      stamped := fun i hi => (h.logs.stamped i hi).mono (Cursor.Before.refl _) hc } }

/-- A record with its rows, its event and its checkpoint extends the log. -/
theorem Drafted.extend (h : Drafted env w call c plan items)
    (hrows : RowsOf rows (item.docEntry env)) (hws : item.record.workspaceId ≠ [])
    (hw : (recordTree env item.record).writable = true) (hstamp : item.Stamped c₁ c₂)
    (h01 : c.Before c₁) (h12 : c₁.Before c₂)
    (hprod : ∃ i, w.tick ≤ i ∧ i < item.reading ∧ Produces env w (env.clock i) call item.change)
    (hwrites : plan'.writes = plan.writes ++ (rows ++ item.eventEntry env ::
      appendProjectionCheckpoint env item.record.workspaceId (item.eventKey env) item.ckptTs))
    (hchanges : plan'.changes = plan.changes ++ [item.change]) :
    Drafted env w call c₂ plan' (items ++ [item]) where
  before := (h.before.trans h01).trans h12
  logs := by
    rw [hwrites]
    exact h.logs.append (Logs.single hrows hws hw hstamp) h01 (h.before.trans h01) h12
  changes := by rw [hchanges, h.changes, List.map_append, List.map_cons, List.map_nil]
  produced i hi := by
    rcases List.mem_append.mp hi with hi | hi
    · exact h.produced i hi
    · obtain rfl := List.mem_singleton.mp hi
      exact hprod

/-- The two steps that log a record which is put: its rows, then its event. -/
theorem holds_logRecord {α : Type} {records : StringMap (MemoryRecord K)} {r : MemoryRecord K}
    (hws : r.workspaceId ≠ []) (nodeId : Bytes) (opType : OpType) (reason : Bytes)
    (ckptTs : UInt64) {f : List WriteEntry → WriteEntry × Bytes → Program Cursor α} {c : Cursor}
    {Q : α → Cursor → Prop} {E : Cursor → Prop} (hE : ∀ c', c.Before c' → E c')
    (h : ∀ rows, let item : LogItem K :=
        ⟨.put r, 0, c.tick, c.localSeq + 1, opType, reason, nodeId, ckptTs⟩
      RowsOf rows (item.docEntry env) → (recordTree env r).writable = true →
      Holds (f rows (item.eventEntry env, item.eventKey env)) ⟨c.tick + 1, c.localSeq + 1⟩ Q E) :
    Holds (do
      let rows ← persistRecord env records r
      let out ← appendProjectionEvent env nodeId r opType reason
      f rows out) c Q E := by
  refine holds_bind ((holds_persistRecord records r c).mono ?_ ?_)
  · rintro rows c' ⟨rfl, hwr, hrows⟩
    have hput : (Change.put r).record.workspaceId ≠ [] := hws
    have hev := holds_appendProjectionEvent env nodeId hput opType reason 0 ckptTs c'
    refine holds_bind (hev.mono ?_ hE)
    rintro out c'' ⟨rfl, -, rfl⟩
    exact h rows hrows hwr
  · rintro c' rfl
    exact hE c' (Cursor.Before.refl c')

/-! ### Write -/

/-- The invariant of the loop of `Write` over its input records. -/
structure WriteDrafted (env : Platform K) (w : World K) (input : WriteInput K)
    (passed : List (WriteRecordInput K)) (draft : WriteDraft K) (c : Cursor)
    (items : List (LogItem K)) : Prop where
  drafted : Drafted env w (.write input) c draft.plan items
  removals : draft.plan.removals = []
  nowMs : draft.nowMs = env.clock w.tick
  started : w.tick < c.tick
  accepted : ∃ taken, taken.Sublist passed ∧ List.Forall₂ (fun recIn item => ∃ id pinned,
    Accepted w.engine input recIn id ∧
      item.change = .put (newRecord w.engine input recIn (env.clock w.tick) id pinned)) taken items
  suppressed : ∀ id ∈ draft.dedupedIds, ∃ recIn ∈ passed,
    suppressedBy w.engine input recIn = some id

/-- A pass that adds nothing to the plan keeps the invariant. -/
theorem WriteDrafted.skip {input : WriteInput K} {passed : List (WriteRecordInput K)}
    {draft draft' : WriteDraft K} (h : WriteDrafted env w input passed draft c items)
    (recIn : WriteRecordInput K) (hc : c.Before c₁) (hplan : draft'.plan = draft.plan)
    (hnow : draft'.nowMs = draft.nowMs)
    (hids : ∀ id ∈ draft'.dedupedIds, id ∈ draft.dedupedIds ∨
      suppressedBy w.engine input recIn = some id) :
    WriteDrafted env w input (passed ++ [recIn]) draft' c₁ items where
  drafted := hplan ▸ h.drafted.advance hc
  removals := hplan ▸ h.removals
  nowMs := hnow.trans h.nowMs
  started := Nat.lt_of_lt_of_le h.started hc.tick
  accepted := by
    obtain ⟨taken, hsub, hall⟩ := h.accepted
    exact ⟨taken, hsub.trans (List.sublist_append_left _ _), hall⟩
  suppressed id hid := by
    rcases hids id hid with hold | hnew
    · obtain ⟨recIn', hmem, hsup⟩ := h.suppressed id hold
      exact ⟨recIn', List.mem_append_left _ hmem, hsup⟩
    · exact ⟨recIn, List.mem_append_right _ (List.mem_singleton_self _), hnew⟩

omit [Field K] [LinearOrder K] in
theorem governPin_plan [Field K] [LinearOrder K] (options : MemoryEngineOptions K)
    (draft : WriteDraft K) (pin : Bool) (id : Bytes) :
    (governPin options draft pin id).2.plan = draft.plan ∧
      (governPin options draft pin id).2.nowMs = draft.nowMs ∧
      (governPin options draft pin id).2.dedupedIds = draft.dedupedIds := by
  unfold governPin
  split
  · exact ⟨rfl, rfl, rfl⟩
  · split
    · exact ⟨rfl, rfl, rfl⟩
    · split <;> exact ⟨rfl, rfl, rfl⟩

omit [Field K] [LinearOrder K] in
theorem holds_nextMemoryId (c : Cursor) {E : Cursor → Prop} :
    Holds (nextMemoryId env) c (fun id c' => id ≠ [] ∧ c.Before c') E := by
  refine holds_bind (holds_advance (holds_bind (holds_advance (holds_pure ⟨?_, ?_, ?_⟩))))
  · simp [ascii]
  · exact Nat.le_succ _
  · exact Nat.le_succ _

/-- One pass over an input record keeps the invariant. -/
theorem holds_writeRecord {input : WriteInput K} (hws : input.workspaceId ≠ [])
    {passed : List (WriteRecordInput K)} {recIn : WriteRecordInput K} (hmem : recIn ∈ input.records)
    {draft : WriteDraft K} (h : WriteDrafted env w input passed draft c items) :
    Holds (writeRecord env w.engine input draft recIn) c
      (fun draft' c' => ∃ items', WriteDrafted env w input (passed ++ [recIn]) draft' c' items')
      (fun c' => w.cursor.Before c') := by
  unfold writeRecord
  split
  · exact holds_pure ⟨items, h.skip recIn (Cursor.Before.refl c) rfl rfl fun _ hid => Or.inl hid⟩
  · rename_i hcontent
    split
    · rename_i id hsup
      refine holds_pure ⟨items, h.skip recIn (Cursor.Before.refl c) rfl rfl fun id' hid => ?_⟩
      rcases List.mem_append.mp hid with hid | hid
      · exact Or.inl hid
      · exact Or.inr (List.mem_singleton.mp hid ▸ hsup)
    · rename_i hfresh
      -- the id is the given one, or it is drawn
      have hid : Holds (inputRecordId env recIn) c
          (fun id c' => Accepted w.engine input recIn id ∧ c.Before c')
          (fun c' => w.cursor.Before c') := by
        unfold inputRecordId
        split
        · rename_i hnone
          refine (holds_nextMemoryId c).mono ?_ fun _ hE => hE
          rintro id c' ⟨hne, hc⟩
          exact ⟨⟨hcontent, hfresh, hne, fun hne' => absurd hnone hne'⟩, hc⟩
        · rename_i hsome
          exact holds_pure ⟨⟨hcontent, hfresh, hsome, fun _ => rfl⟩, Cursor.Before.refl c⟩
      refine holds_bind (hid.mono ?_ fun _ hE => hE)
      rintro id c' ⟨haccepted, hc⟩
      obtain ⟨hplan, hnow, hids⟩ := governPin_plan w.engine.options draft recIn.pin id
      generalize governPin w.engine.options draft recIn.pin id = governed at hplan hnow hids
      obtain ⟨pinned, governed⟩ := governed
      dsimp only at hplan hnow hids ⊢
      split
      · exact holds_pure ⟨items, h.skip recIn hc hplan hnow fun id' hid' => Or.inl (hids ▸ hid')⟩
      · refine holds_logRecord hws w.engine.nodeId .upsert (ascii "write") governed.nowMs
          (fun c'' hc'' => (h.drafted.before.trans hc).trans hc'') ?_
        intro rows item hrows hwr
        have hnow' : governed.nowMs = env.clock w.tick := hnow.trans h.nowMs
        have hstamp : item.Stamped c' ⟨c'.tick + 1, c'.localSeq + 1⟩ :=
          ⟨Nat.le_refl _, Nat.lt_succ_self _, Nat.lt_succ_self _, Nat.le_refl _⟩
        have hstep : c'.Before ⟨c'.tick + 1, c'.localSeq + 1⟩ := ⟨Nat.le_succ _, Nat.le_succ _⟩
        have hstarted : w.tick < c'.tick := Nat.lt_of_lt_of_le h.started hc.tick
        have hchange : item.change =
            .put (newRecord w.engine input recIn (env.clock w.tick) id pinned) := by
          rw [← hnow']
        refine holds_pure ⟨items ++ [item], ?_⟩
        constructor
        case drafted =>
          refine h.drafted.extend hrows hws hwr hstamp hc hstep ?_ ?_ ?_
          · refine ⟨w.tick, Nat.le_refl _, hstarted, ?_⟩
            rw [hchange]
            exact .new hws hmem haccepted
          · simp [hplan, List.append_assoc]
            rfl
          · simp [Plan.changes, hplan, h.removals]
            rfl
        case removals => exact hplan ▸ h.removals
        case nowMs => exact hnow'
        case started => exact Nat.lt_succ_of_lt hstarted
        case accepted =>
          obtain ⟨taken, hsub, hall⟩ := h.accepted
          refine ⟨taken ++ [recIn], hsub.append (List.Sublist.refl _), ?_⟩
          exact List.rel_append hall (.cons ⟨id, pinned, haccepted, hchange⟩ .nil)
        case suppressed =>
          intro id' hid'
          obtain ⟨recIn', hmem', hsup⟩ := h.suppressed id' (hids ▸ hid')
          exact ⟨recIn', List.mem_append_left _ hmem', hsup⟩

theorem holds_writeDraft (env : Platform K) (w : World K) {input : WriteInput K} (hws : input.workspaceId ≠ []) :
    Holds (writeDraft env w.engine input) w.cursor
      (fun draft c => ∃ items, WriteDrafted env w input input.records draft c items)
      (fun c => w.cursor.Before c) := by
  refine holds_bind (holds_advance (holds_foldlM_passed (I := fun passed draft c =>
    ∃ items, WriteDrafted env w input passed draft c items) ?_ ?_))
  · rintro passed recIn rest draft c hrecs ⟨items, h⟩
    exact holds_writeRecord hws (by rw [hrecs]; simp) h
  · have hc : w.cursor.Before { w.cursor with tick := w.cursor.tick + 1 } :=
      ⟨Nat.le_succ _, Nat.le_refl _⟩
    refine ⟨[], Drafted.empty hc, rfl, rfl, Nat.lt_succ_self _, ⟨[], .refl _, .nil⟩, ?_⟩
    intro id hid
    cases hid

/-! ### Pin -/

theorem holds_pinDraft (env : Platform K) {workspaceId memoryId : Bytes} (flag : Bool)
    (hws : ∀ loaded, loadRecord env w.engine w.store.reader workspaceId memoryId = .ok loaded →
      loaded.workspaceId ≠ []) :
    Holds (pinDraft env w.engine w.store.reader workspaceId memoryId flag) w.cursor
      (fun out c => w.cursor.Before c ∧ ∀ plan, out = .ok plan →
        ∃ items, Drafted env w (.pin workspaceId memoryId flag) c plan items)
      (fun c => w.cursor.Before c) := by
  unfold pinDraft
  have refused : ∀ error, Holds (pure (.error error) : Program Cursor (Except Bytes (Plan K)))
      w.cursor (fun out c => w.cursor.Before c ∧ ∀ plan, out = .ok plan →
        ∃ items, Drafted env w (.pin workspaceId memoryId flag) c plan items)
      (fun c => w.cursor.Before c) :=
    fun error => holds_pure ⟨Cursor.Before.refl _, fun plan h => by cases h⟩
  split
  · exact refused _
  · rename_i loaded hload
    split
    · exact refused _
    · refine holds_bind (holds_advance ?_)
      dsimp only
      have hproduced : Produces env w (env.clock w.tick) (.pin workspaceId memoryId flag)
          (.put (pinnedRecord w.engine loaded flag (env.clock w.tick))) := .pinned hload
      have hnamed : (pinnedRecord w.engine loaded flag (env.clock w.cursor.tick)).workspaceId ≠ [] :=
        hws loaded hload
      change Produces env w (env.clock w.tick) _
        (.put (pinnedRecord w.engine loaded flag (env.clock w.cursor.tick))) at hproduced
      generalize pinnedRecord w.engine loaded flag (env.clock w.cursor.tick) = record
        at hproduced hnamed ⊢
      have hfirst : w.cursor.Before { w.cursor with tick := w.cursor.tick + 1 } :=
        ⟨Nat.le_succ _, Nat.le_refl _⟩
      -- the checkpoint takes the reading after the one of the event
      refine holds_logRecord hnamed w.engine.nodeId .pin (ascii "pin")
        (max record.updatedAtMs (env.clock (w.tick + 2))) (fun c hc => hfirst.trans hc) ?_
      intro rows item hrows hwr
      have hstamp : item.Stamped ⟨w.tick + 1, w.engine.localSeq⟩
          ⟨w.tick + 2 + 1, w.engine.localSeq + 1⟩ :=
        ⟨Nat.le_refl _, by simp [item, World.cursor], Nat.lt_succ_self _, Nat.le_refl _⟩
      have hlast : (⟨w.tick + 1, w.engine.localSeq⟩ : Cursor).Before
          ⟨w.tick + 2 + 1, w.engine.localSeq + 1⟩ := ⟨by simp, Nat.le_succ _⟩
      refine holds_bind (holds_advance (holds_pure ⟨hfirst.trans hlast, ?_⟩))
      intro plan hplan
      obtain rfl := Except.ok.inj hplan
      refine ⟨[item], ?_⟩
      refine (Drafted.empty (Cursor.Before.refl _)).extend hrows hnamed hwr hstamp
        hfirst hlast ?_ ?_ ?_
      · exact ⟨w.tick, Nat.le_refl _, Nat.lt_succ_self _, hproduced⟩
      · rw [Plan.empty, List.nil_append]
        rfl
      · simp only [Plan.changes, Plan.empty, List.map_cons, List.map_nil, List.nil_append,
          List.append_nil]
        rfl

/-! ### Compaction -/

theorem mem_active {workspaceId : Bytes} {nowMs : UInt64} {t : Nat}
    {records : StringMap (MemoryRecord K)} {candidate : MemoryRecord K}
    (h : candidate ∈ ((((env.iterate t records).map Prod.snd).filter (inScope workspaceId)).filter
      fun r => !r.tombstone).insertionSort fun l r => rankBefore env nowMs r l = false) :
    inScope workspaceId candidate ∧ ∃ k : Bytes, records[k]? = some candidate := by
  rw [List.mem_insertionSort, List.mem_filter, List.mem_filter, List.mem_map] at h
  obtain ⟨⟨⟨kv, hkv, rfl⟩, hscope⟩, -⟩ := h
  exact ⟨hscope, kv.1, (env.mem_iterate t).mp hkv⟩

omit [Field K] [LinearOrder K] in
theorem mem_tombstones {workspaceId : Bytes} {t : Nat} {records : StringMap (MemoryRecord K)}
    {candidate : MemoryRecord K}
    (h : candidate ∈ (((env.iterate t records).map Prod.snd).filter
      (inScope workspaceId)).filter (·.tombstone)) :
    candidate.tombstone = true ∧ inScope workspaceId candidate ∧
      ∃ k : Bytes, records[k]? = some candidate := by
  rw [List.mem_filter, List.mem_filter, List.mem_map] at h
  obtain ⟨⟨⟨kv, hkv, rfl⟩, hscope⟩, hdead⟩ := h
  exact ⟨hdead, hscope, kv.1, (env.mem_iterate t).mp hkv⟩

/-- The invariant of both loops of a compaction. -/
structure CompactDrafted (env : Platform K) (w : World K) (call : Call K) (plan : Plan K)
    (c : Cursor) : Prop where
  drafted : ∃ items, Drafted env w call c plan items
  started : w.tick < c.tick

theorem holds_tombstoneRecord {workspaceId k : Bytes} {maxBatch : Nat}
    (hcall : call.compacts = some workspaceId) {candidate : MemoryRecord K}
    (hheld : w.engine.records[k]? = some candidate) (hscope : inScope workspaceId candidate)
    (hws : candidate.workspaceId ≠ []) (h : CompactDrafted env w call plan c)
    (hput : plan.removals = []) :
    Holds (tombstoneRecord env w.engine (env.clock w.tick) maxBatch plan candidate) c
      (fun plan' c' => CompactDrafted env w call plan' c' ∧ plan'.removals = [])
      (fun c' => w.cursor.Before c') := by
  obtain ⟨⟨items, hd⟩, hstarted⟩ := h
  unfold tombstoneRecord
  split
  · exact holds_pure ⟨⟨⟨items, hd⟩, hstarted⟩, hput⟩
  · rename_i hskip
    simp only [not_or, Bool.not_eq_true] at hskip
    refine holds_logRecord (r := tombstoneOf w.engine candidate (env.clock w.tick)) hws
      w.engine.nodeId .delete (ascii "compact_tombstone") (env.clock w.tick)
      (fun c' hc' => hd.before.trans hc') ?_
    intro rows item hrows hwr
    have hstep : c.Before ⟨c.tick + 1, c.localSeq + 1⟩ := ⟨Nat.le_succ _, Nat.le_succ _⟩
    have hstamp : item.Stamped c ⟨c.tick + 1, c.localSeq + 1⟩ :=
      ⟨Nat.le_refl _, Nat.lt_succ_self _, Nat.lt_succ_self _, Nat.le_refl _⟩
    refine holds_pure ⟨⟨⟨items ++ [item], ?_⟩, Nat.lt_succ_of_lt hstarted⟩, hput⟩
    refine hd.extend hrows hws hwr hstamp (Cursor.Before.refl c) hstep ?_ ?_ ?_
    · exact ⟨w.tick, Nat.le_refl _, hstarted, .tombstoned hcall hheld hscope hskip.2.1 hskip.2.2⟩
    · simp only [List.append_assoc]
      rfl
    · simp only [Plan.changes, hput, List.map_append, List.map_cons, List.map_nil,
        List.append_nil]
      rfl

theorem holds_deleteTombstone {workspaceId k : Bytes} {maxBatch : Nat}
    (hcall : call.compacts = some workspaceId) {candidate : MemoryRecord K}
    (hheld : w.engine.records[k]? = some candidate) (hscope : inScope workspaceId candidate)
    (hdead : candidate.tombstone = true) (hws : candidate.workspaceId ≠ [])
    (h : CompactDrafted env w call plan c) :
    Holds (deleteTombstone env w.engine (env.clock w.tick) maxBatch plan candidate) c
      (fun plan' c' => CompactDrafted env w call plan' c') (fun c' => w.cursor.Before c') := by
  obtain ⟨⟨items, hd⟩, hstarted⟩ := h
  unfold deleteTombstone
  split
  · exact holds_pure ⟨⟨items, hd⟩, hstarted⟩
  · refine holds_bind ((holds_deleteRecordStorage candidate c).mono ?_
      fun c' hc' => hd.before.trans hc')
    rintro rows c' ⟨hc, docTs, hrows⟩
    have hdrop : (Change.drop candidate).record.workspaceId ≠ [] := hws
    have hev := holds_appendProjectionEvent env w.engine.nodeId hdrop .delete
      (ascii "compact_delete") docTs (env.clock w.tick) c'
    refine holds_bind (hev.mono ?_ fun c'' hc'' => (hd.before.trans hc).trans hc'')
    rintro out c'' ⟨rfl, hwr, rfl⟩
    have hstep : c'.Before ⟨c'.tick + 1, c'.localSeq + 1⟩ := ⟨Nat.le_succ _, Nat.le_succ _⟩
    have hstarted' : w.tick < c'.tick := Nat.lt_of_lt_of_le hstarted hc.tick
    refine holds_pure ⟨⟨items ++ [⟨.drop candidate, docTs, c'.tick, c'.localSeq + 1, .delete,
      ascii "compact_delete", w.engine.nodeId, env.clock w.tick⟩], ?_⟩,
      Nat.lt_succ_of_lt hstarted'⟩
    refine hd.extend hrows hws hwr
      ⟨Nat.le_refl _, Nat.lt_succ_self _, Nat.lt_succ_self _, Nat.le_refl _⟩ hc hstep ?_ ?_ ?_
    · exact ⟨w.tick, Nat.le_refl _, hstarted', .dropped hcall hheld hscope hdead⟩
    · simp only [List.append_assoc]
      rfl
    · simp only [Plan.changes, List.map_append, List.map_cons, List.map_nil, List.append_assoc]

theorem holds_compactDraft (env : Platform K) {workspaceId : Bytes} (hcall : call.compacts = some workspaceId)
    (hws : ∀ (k : Bytes) r, w.engine.records[k]? = some r → r.workspaceId ≠ []) :
    Holds (compactDraft env w.engine workspaceId) w.cursor
      (fun draft c => ∃ items, Drafted env w call c draft.plan items)
      (fun c => w.cursor.Before c) := by
  have hfirst : w.cursor.Before { w.cursor with tick := w.cursor.tick + 1 } :=
    ⟨Nat.le_succ _, Nat.le_refl _⟩
  refine holds_bind (holds_advance (holds_bind (holds_advance (holds_bind ?_))))
  refine (holds_foldlM (I := fun plan c => CompactDrafted env w call plan c ∧ plan.removals = [])
    ?_ ⟨⟨⟨[], Drafted.empty hfirst⟩, Nat.lt_succ_self _⟩, rfl⟩).mono ?_ fun _ hE => hE
  · rintro candidate hmem plan c ⟨h, hput⟩
    obtain ⟨hscope, k, hheld⟩ := mem_active hmem
    exact holds_tombstoneRecord hcall hheld hscope (hws k candidate hheld) h hput
  · rintro plan c ⟨h, -⟩
    split
    · refine holds_bind ((holds_foldlM (I := fun plan c => CompactDrafted env w call plan c)
        ?_ h).mono ?_ fun _ hE => hE)
      · intro candidate hmem plan c h
        obtain ⟨hdead, hscope, k, hheld⟩ := mem_tombstones hmem
        exact holds_deleteTombstone hcall hheld hscope hdead (hws k candidate hheld) h
      · exact fun plan c h => holds_pure h.drafted
    · exact holds_pure h.drafted

/-! ### Calls -/

/-- The workspaces a call finds are named: those of the resident records and of
a record it loads. -/
structure Named (env : Platform K) (w : World K) : Prop where
  held : ∀ (k : Bytes) r, w.engine.records[k]? = some r → r.workspaceId ≠ []
  loaded : ∀ workspaceId memoryId r,
    loadRecord env w.engine w.store.reader workspaceId memoryId = .ok r → r.workspaceId ≠ []

theorem holds_run {α : Type} {p : Program Cursor α} {Q : α → Cursor → Prop} {E : Cursor → Prop}
    (h : Holds p c Q E) (hE : ∀ a c', Q a c' → E c') : E (p c).2 := by
  rcases hp : p c with ⟨_ | a, c'⟩
  · exact h.thrown c' hp
  · exact hE a c' (h.returned a c' hp)

/-- What a call prepares is a log of its changes. -/
theorem prepare_spec (fate : Fate) (hnamed : Named env w) (call : Call K) :
    w.cursor.Before (prepare env fate w call).2 ∧
      ∀ request, (prepare env fate w call).1 = some request →
        ∃ items, Drafted env w call (prepare env fate w call).2 request.plan items := by
  have compact : ∀ workspaceId force, call.compacts = some workspaceId →
      prepare env fate w call = prepareCompact env fate w workspaceId force →
      w.cursor.Before (prepare env fate w call).2 ∧
        ∀ request, (prepare env fate w call).1 = some request →
          ∃ items, Drafted env w call (prepare env fate w call).2 request.plan items := by
    intro workspaceId force hcall hprep
    have hdraft := holds_compactDraft env hcall hnamed.held
    rw [hprep, prepareCompact]
    split
    · exact ⟨Cursor.Before.refl _, fun request h => by cases h⟩
    · split
      · rename_i draft c hrun
        obtain ⟨items, hitems⟩ := hdraft.returned draft c hrun
        refine ⟨hitems.before, fun request h => ?_⟩
        dsimp only at h
        split at h
        · cases h
        · cases h
          exact ⟨items, hitems⟩
      · rename_i c hrun
        exact ⟨hdraft.thrown c hrun, fun request h => by cases h⟩
  cases call with
  | write input =>
    simp only [prepare, prepareWrite]
    split
    · exact ⟨Cursor.Before.refl _, fun request h => by cases h⟩
    · rename_i hvalid
      have hdraft := holds_writeDraft env w fun h => hvalid (Or.inl h)
      split
      · rename_i draft c hrun
        obtain ⟨items, hitems⟩ := hdraft.returned draft c hrun
        refine ⟨hitems.drafted.before, fun request h => ?_⟩
        dsimp only at h
        split at h
        · cases h
        · cases h
          exact ⟨items, hitems.drafted⟩
      · rename_i c hrun
        exact ⟨hdraft.thrown c hrun, fun request h => by cases h⟩
  | query input => exact ⟨Cursor.Before.refl _, fun request h => by cases h⟩
  | pin workspaceId memoryId flag =>
    simp only [prepare, preparePin]
    have hdraft := holds_pinDraft env flag fun r => hnamed.loaded workspaceId memoryId r
    split
    · rename_i plan c hrun
      obtain ⟨hbefore, hplan⟩ := hdraft.returned _ c hrun
      refine ⟨hbefore, fun request h => ?_⟩
      cases h
      exact hplan plan rfl
    · rename_i out c hother hrun
      refine ⟨?_, fun request h => by cases h⟩
      have := holds_run hdraft fun _ _ h => h.1
      rwa [hrun] at this
  | compact workspaceId => exact compact workspaceId true rfl rfl
  | gc => exact compact [] false rfl rfl

end PoorguyMem
