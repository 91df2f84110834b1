import PoorguyMem.Intake

/-!
# The rows of a batch

A batch is a chunk for each change: the rows of its record, and after them its
event and its checkpoint. The rows are those of the record and of the copy that
is resident when the call builds the batch. Every record of a batch is made with
the reading of the clock that the call takes first.
-/

namespace PoorguyMem

open ByteString Throwing

variable {K : Type} [Field K] [LinearOrder K]

/-- The rows a change comes with. The order of the terms is that of a container,
and each deletion has a time of its own. -/
inductive ChangeRows (env : Platform K) (records : StringMap (MemoryRecord K)) :
    Change K → List WriteEntry → Prop
  | put (record : MemoryRecord K) (t : Nat) :
      ChangeRows env records (.put record) (docEntry record (recordText env record) ::
        indexEntries env t records[recordMapKey record.workspaceId record.id]? record)
  | drop (record : MemoryRecord K) (t : Nat) (docTs vecCodeTs vecFpTs : UInt64)
      {postings : List WriteEntry} (deletes : List.Forall₂
        (fun term e => ∃ ts, e = deletePostingEntry env record ts term)
        (env.iterateSet t (tokenize record.content)) postings) :
      ChangeRows env records (.drop record)
        (deleteEntry docNs (buildDocKey record.workspaceId record.id) docTs ::
          deleteEntry vecCodeNs (buildVecCodeKey record.workspaceId
            (bucketForPosting env record.workspaceId record.id) record.id) vecCodeTs ::
          deleteEntry vecFpNs (buildVecFpKey record.workspaceId record.id) vecFpTs :: postings)

/-- An entry of the event log or a checkpoint. -/
def WriteEntry.IsLog (e : WriteEntry) : Prop :=
  e.entry.nameSpace = eventsNs ∨ e.entry.nameSpace = projectionCkptNs

structure Chunk (K : Type) where
  change : Change K
  rows : List WriteEntry
  log : List WriteEntry

def Chunk.writes (chunk : Chunk K) : List WriteEntry := chunk.rows ++ chunk.log

/-- The batch of a call, chunk by chunk. -/
structure Chunked (env : Platform K) (w : World K) (call : Call K) (plan : Plan K)
    (chunks : List (Chunk K)) : Prop where
  writes : plan.writes = chunks.flatMap Chunk.writes
  changes : plan.changes = chunks.map (·.change)
  rows : ∀ chunk ∈ chunks, ChangeRows env w.engine.records chunk.change chunk.rows
  log : ∀ chunk ∈ chunks, ∀ e ∈ chunk.log, e.IsLog
  produced : ∀ chunk ∈ chunks, Produces env w (env.clock w.tick) call chunk.change

variable {env : Platform K} {w : World K} {call : Call K} {plan plan' : Plan K}
  {chunks : List (Chunk K)}

theorem Chunked.empty : Chunked env w call Plan.empty [] where
  writes := rfl
  changes := rfl
  rows _ h := by cases h
  log _ h := by cases h
  produced _ h := by cases h

theorem Chunked.extend (h : Chunked env w call plan chunks) {change : Change K}
    {rows log : List WriteEntry} (hrows : ChangeRows env w.engine.records change rows)
    (hlog : ∀ e ∈ log, e.IsLog) (hprod : Produces env w (env.clock w.tick) call change)
    (hwrites : plan'.writes = plan.writes ++ (rows ++ log))
    (hchanges : plan'.changes = plan.changes ++ [change]) :
    Chunked env w call plan' (chunks ++ [⟨change, rows, log⟩]) := by
  have last : ∀ {P : Chunk K → Prop}, (∀ chunk ∈ chunks, P chunk) → P ⟨change, rows, log⟩ →
      ∀ chunk ∈ chunks ++ [⟨change, rows, log⟩], P chunk := by
    intro P hold hnew chunk hchunk
    rcases List.mem_append.mp hchunk with hmem | hmem
    · exact hold chunk hmem
    · rw [List.mem_singleton.mp hmem]
      exact hnew
  constructor
  case writes =>
    rw [hwrites, h.writes, List.flatMap_append]
    simp [Chunk.writes]
  case changes => rw [hchanges, h.changes, List.map_append, List.map_cons, List.map_nil]
  case rows => exact last h.rows hrows
  case log => exact last h.log hlog
  case produced => exact last h.produced hprod

/-! ### One record -/

theorem holds_persistRecord_rows (records : StringMap (MemoryRecord K)) (record : MemoryRecord K)
    (c : Cursor) : Holds (persistRecord env records record) c
      (fun rows _ => ChangeRows env records (.put record) rows) (fun _ => True) := by
  rw [persistRecord]
  refine holds_bind (holds_ofOption ?_ fun _ => trivial)
  intro text htext
  refine holds_bind (holds_advance (holds_pure ?_))
  rw [← (serializeRecord_eq_some.mp htext).2]
  exact .put record c.tick

theorem holds_deleteRecordStorage_rows (records : StringMap (MemoryRecord K))
    (record : MemoryRecord K) (c : Cursor) : Holds (deleteRecordStorage env record) c
      (fun rows _ => ChangeRows env records (.drop record) rows) (fun _ => True) := by
  rw [deleteRecordStorage]
  refine holds_bind (holds_advance ?_)
  refine holds_bind (holds_advance (holds_bind (holds_advance (holds_bind (holds_advance ?_)))))
  -- the deletions so far are those of the terms passed
  refine (holds_foldlM_passed (I := fun passed rows _ => ∃ postings, rows =
      deleteEntry docNs (buildDocKey record.workspaceId record.id) _ ::
        deleteEntry vecCodeNs (buildVecCodeKey record.workspaceId
          (bucketForPosting env record.workspaceId record.id) record.id) _ ::
        deleteEntry vecFpNs (buildVecFpKey record.workspaceId record.id) _ :: postings ∧
      List.Forall₂ (fun term e => ∃ ts, e = deletePostingEntry env record ts term) passed postings)
    (E := fun _ => True) ?_ ⟨[], rfl, .nil⟩).mono ?_ fun _ h => h
  · rintro passed term rest rows c' - ⟨postings, rfl, hall⟩
    refine holds_bind (holds_advance (holds_pure ⟨postings ++ [_], rfl, ?_⟩))
    exact List.rel_append hall (.cons ⟨_, rfl⟩ .nil)
  · rintro rows c' ⟨postings, rfl, hall⟩
    exact .drop record _ _ _ _ hall

omit [Field K] [LinearOrder K] in
theorem isLog_appendProjectionCheckpoint {workspaceId eventKey : Bytes} {ts : UInt64} :
    ∀ e ∈ appendProjectionCheckpoint env workspaceId eventKey ts, e.IsLog := by
  intro e he
  rw [appendProjectionCheckpoint] at he
  split at he
  · cases he
  · rw [List.mem_singleton.mp he]
    exact Or.inr rfl

omit [Field K] [LinearOrder K] in
theorem holds_appendProjectionEvent_log (nodeId : Bytes) (record : MemoryRecord K)
    (opType : OpType) (reason : Bytes) (c : Cursor) :
    Holds (appendProjectionEvent env nodeId record opType reason) c
      (fun out _ => ∀ ts, ∀ e ∈ out.1 ::
        appendProjectionCheckpoint env record.workspaceId out.2 ts, e.IsLog) (fun _ => True) := by
  rw [appendProjectionEvent]
  refine holds_bind (holds_advance (holds_bind (holds_advance ?_)))
  refine holds_bind (holds_ofOption (fun payload _ => holds_pure ?_) fun _ => trivial)
  intro ts e he
  rcases List.mem_cons.mp he with rfl | he
  · exact Or.inl rfl
  · exact isLog_appendProjectionCheckpoint e he

/-- The two steps that write a record, with what follows them. -/
theorem holds_logRecord_rows {α : Type} {records : StringMap (MemoryRecord K)}
    {record : MemoryRecord K} {nodeId : Bytes} {opType : OpType} {reason : Bytes}
    {f : List WriteEntry → WriteEntry × Bytes → Program Cursor α} {c : Cursor}
    {Q : α → Cursor → Prop}
    (h : ∀ rows out c', ChangeRows env records (.put record) rows →
      (∀ ts, ∀ e ∈ out.1 :: appendProjectionCheckpoint env record.workspaceId out.2 ts, e.IsLog) →
      Holds (f rows out) c' Q fun _ => True) :
    Holds (do
      let rows ← persistRecord env records record
      let out ← appendProjectionEvent env nodeId record opType reason
      f rows out) c Q fun _ => True := by
  refine holds_bind ((holds_persistRecord_rows records record c).mono ?_ fun _ h => h)
  intro rows c' hrows
  refine holds_bind ((holds_appendProjectionEvent_log nodeId record opType reason c').mono ?_
    fun _ h => h)
  intro out c'' hlog
  exact h rows out c'' hrows hlog

/-! ### Calls -/

/-- The invariant of the loop of `Write` over its input records. -/
structure WriteChunked (env : Platform K) (w : World K) (input : WriteInput K)
    (draft : WriteDraft K) : Prop where
  chunked : ∃ chunks, Chunked env w (.write input) draft.plan chunks
  removals : draft.plan.removals = []
  nowMs : draft.nowMs = env.clock w.tick

theorem holds_writeRecord_rows {input : WriteInput K} (hws : input.workspaceId ≠ [])
    {recIn : WriteRecordInput K} (hmem : recIn ∈ input.records) {draft : WriteDraft K}
    {c : Cursor} (h : WriteChunked env w input draft) :
    Holds (writeRecord env w.engine input draft recIn) c
      (fun draft' _ => WriteChunked env w input draft') (fun _ => True) := by
  rw [writeRecord]
  split
  · exact holds_pure ⟨h.chunked, h.removals, h.nowMs⟩
  · rename_i hcontent
    split
    · exact holds_pure ⟨h.chunked, h.removals, h.nowMs⟩
    · rename_i hfresh
      refine holds_bind ((holds_inputRecordId recIn c).mono ?_ fun _ _ => trivial)
      rintro id c₁ ⟨hne, hgiven, -⟩
      obtain ⟨hplan, hnow, -⟩ := governPin_plan w.engine.options draft recIn.pin id
      generalize governPin w.engine.options draft recIn.pin id = governed at hplan hnow
      obtain ⟨pinned, governed⟩ := governed
      dsimp only at hplan hnow ⊢
      have hgoverned : WriteChunked env w input governed :=
        ⟨hplan ▸ h.chunked, hplan ▸ h.removals, hnow.trans h.nowMs⟩
      split
      · exact holds_pure ⟨hgoverned.chunked, hgoverned.removals, hgoverned.nowMs⟩
      · refine holds_logRecord_rows fun rows out c₂ hrows hlog => holds_pure ?_
        obtain ⟨chunks, hchunks⟩ := hgoverned.chunked
        refine ⟨⟨_, hchunks.extend hrows (hlog governed.nowMs) ?_ ?_ ?_⟩, hgoverned.removals,
          hgoverned.nowMs⟩
        · rw [hgoverned.nowMs]
          exact .new hws hmem ⟨hcontent, hfresh, hne, hgiven⟩
        · simp only [List.append_assoc]
        · simp only [Plan.changes, hgoverned.removals, List.map_append, List.map_cons,
            List.map_nil, List.append_nil]

theorem holds_writeDraft_rows (env : Platform K) (w : World K) {input : WriteInput K}
    (hws : input.workspaceId ≠ []) : Holds (writeDraft env w.engine input) w.cursor
      (fun draft _ => WriteChunked env w input draft) (fun _ => True) := by
  refine holds_bind (holds_advance (holds_foldlM ?_ ⟨⟨[], .empty⟩, rfl, rfl⟩))
  exact fun recIn hmem draft c h => holds_writeRecord_rows hws hmem h

theorem holds_pinDraft_rows (env : Platform K) (w : World K) (workspaceId memoryId : Bytes)
    (flag : Bool) : Holds (pinDraft env w.engine w.store.reader workspaceId memoryId flag) w.cursor
      (fun out _ => ∀ plan, out = .ok plan →
        ∃ chunks, Chunked env w (.pin workspaceId memoryId flag) plan chunks)
      (fun _ => True) := by
  rw [pinDraft]
  split
  · exact holds_pure fun plan h => by cases h
  · rename_i loaded hload
    split
    · exact holds_pure fun plan h => by cases h
    · refine holds_bind (holds_advance ?_)
      refine holds_logRecord_rows fun rows out c hrows hlog => ?_
      refine holds_bind (holds_advance (holds_pure fun plan hplan => ?_))
      obtain rfl := Except.ok.inj hplan
      exact ⟨_, Chunked.empty.extend hrows (hlog _) (.pinned hload) rfl rfl⟩

theorem holds_tombstoneRecord_rows {workspaceId k : Bytes} {maxBatch : Nat}
    (hcall : call.compacts = some workspaceId) {candidate : MemoryRecord K}
    (hheld : w.engine.records[k]? = some candidate) (hscope : inScope workspaceId candidate)
    {c : Cursor} (h : ∃ chunks, Chunked env w call plan chunks) (hput : plan.removals = []) :
    Holds (tombstoneRecord env w.engine (env.clock w.tick) maxBatch plan candidate) c
      (fun plan' _ => (∃ chunks, Chunked env w call plan' chunks) ∧ plan'.removals = [])
      (fun _ => True) := by
  obtain ⟨chunks, hchunks⟩ := h
  rw [tombstoneRecord]
  split
  · exact holds_pure ⟨⟨chunks, hchunks⟩, hput⟩
  · rename_i hskip
    simp only [not_or, Bool.not_eq_true] at hskip
    refine holds_logRecord_rows fun rows out c' hrows hlog =>
      holds_pure ⟨⟨_, hchunks.extend hrows (hlog (env.clock w.tick)) ?_ ?_ ?_⟩, hput⟩
    · exact .tombstoned hcall hheld hscope hskip.2.1 hskip.2.2
    · simp only [List.append_assoc]
    · simp only [Plan.changes, hput, List.map_append, List.map_cons, List.map_nil,
        List.append_nil]

theorem holds_deleteTombstone_rows {workspaceId k : Bytes} {maxBatch : Nat}
    (hcall : call.compacts = some workspaceId) {candidate : MemoryRecord K}
    (hheld : w.engine.records[k]? = some candidate) (hscope : inScope workspaceId candidate)
    (hdead : candidate.tombstone = true) {c : Cursor}
    (h : ∃ chunks, Chunked env w call plan chunks) :
    Holds (deleteTombstone env w.engine (env.clock w.tick) maxBatch plan candidate) c
      (fun plan' _ => ∃ chunks, Chunked env w call plan' chunks) (fun _ => True) := by
  obtain ⟨chunks, hchunks⟩ := h
  rw [deleteTombstone]
  split
  · exact holds_pure ⟨chunks, hchunks⟩
  · refine holds_bind ((holds_deleteRecordStorage_rows w.engine.records candidate c).mono ?_
      fun _ h => h)
    intro rows c₁ hrows
    refine holds_bind ((holds_appendProjectionEvent_log _ candidate .delete _ c₁).mono ?_
      fun _ h => h)
    intro out c₂ hlog
    refine holds_pure ⟨_, hchunks.extend hrows (hlog (env.clock w.tick)) ?_ ?_ ?_⟩
    · exact .dropped hcall hheld hscope hdead
    · simp only [List.append_assoc]
    · simp only [Plan.changes, List.map_append, List.map_cons, List.map_nil, List.append_assoc]

theorem holds_compactDraft_rows (env : Platform K) (w : World K) {workspaceId : Bytes}
    (hcall : call.compacts = some workspaceId) :
    Holds (compactDraft env w.engine workspaceId) w.cursor
      (fun draft _ => ∃ chunks, Chunked env w call draft.plan chunks) (fun _ => True) := by
  refine holds_bind (holds_advance (holds_bind (holds_advance (holds_bind ?_))))
  refine (holds_foldlM (I := fun plan _ => (∃ chunks, Chunked env w call plan chunks) ∧
    plan.removals = []) ?_ ⟨⟨[], .empty⟩, rfl⟩).mono ?_ fun _ h => h
  · rintro candidate hmem plan c ⟨h, hput⟩
    obtain ⟨hscope, k, hheld⟩ := mem_active hmem
    exact holds_tombstoneRecord_rows hcall hheld hscope h hput
  · rintro plan c ⟨h, -⟩
    split
    · refine holds_bind ((holds_foldlM (I := fun plan _ => ∃ chunks, Chunked env w call plan chunks)
        ?_ h).mono ?_ fun _ h => h)
      · intro candidate hmem plan c h
        obtain ⟨hdead, hscope, k, hheld⟩ := mem_tombstones hmem
        exact holds_deleteTombstone_rows hcall hheld hscope hdead h
      · exact fun plan c h => holds_pure h
    · exact holds_pure h

/-- The batch a call prepares, chunk by chunk. -/
theorem prepare_chunked {fate : Fate} {request : Request K}
    (hsome : (prepare env fate w call).1 = some request) :
    ∃ chunks, Chunked env w call request.plan chunks := by
  have compact : ∀ workspaceId force, call.compacts = some workspaceId →
      prepare env fate w call = prepareCompact env fate w workspaceId force →
      ∃ chunks, Chunked env w call request.plan chunks := by
    intro workspaceId force hcall hprep
    rw [hprep, prepareCompact] at hsome
    split at hsome
    · cases hsome
    · split at hsome
      · rename_i draft c hrun
        dsimp only at hsome
        split at hsome
        · cases hsome
        · obtain rfl := Option.some.inj hsome
          exact (holds_compactDraft_rows env w hcall).returned draft c hrun
      · cases hsome
  cases call with
  | write input =>
    simp only [prepare, prepareWrite] at hsome
    split at hsome
    · cases hsome
    · rename_i hvalid
      have hdraft := holds_writeDraft_rows env w fun h => hvalid (Or.inl h)
      split at hsome
      · rename_i draft c hrun
        dsimp only at hsome
        split at hsome
        · cases hsome
        · obtain rfl := Option.some.inj hsome
          exact (hdraft.returned draft c hrun).chunked
      · cases hsome
  | query input => cases hsome
  | pin workspaceId memoryId flag =>
    simp only [prepare, preparePin] at hsome
    split at hsome
    · rename_i plan c hrun
      obtain rfl := Option.some.inj hsome
      exact (holds_pinDraft_rows env w workspaceId memoryId flag).returned _ c hrun plan rfl
    · cases hsome
  | compact workspaceId => exact compact workspaceId true rfl rfl
  | gc => exact compact [] false rfl rfl

/-- What a call changes is made with its first reading of the clock. -/
theorem prepare_produces {fate : Fate} {request : Request K}
    (hsome : (prepare env fate w call).1 = some request) :
    ∀ change ∈ request.plan.changes, Produces env w (env.clock w.tick) call change := by
  intro change hchange
  obtain ⟨chunks, hchunks⟩ := prepare_chunked hsome
  rw [hchunks.changes] at hchange
  obtain ⟨chunk, hmem, rfl⟩ := List.mem_map.mp hchange
  exact hchunks.produced chunk hmem

theorem committed_of_ok {fate : Fate} {request : Request K} (hok : fate.main.ok = true)
    (hsome : (prepare env fate w call).1 = some request) :
    committed env w call fate = request.plan.changes := by
  rw [committed, if_pos hok, hsome, Option.elim_some]

/-- So is what it commits. -/
theorem committed_produces {fate : Fate} : ∀ change ∈ committed env w call fate,
    Produces env w (env.clock w.tick) call change := by
  intro change hchange
  by_cases hok : fate.main.ok = true
  · rcases hsome : (prepare env fate w call).1 with _ | request
    · rw [committed_of_none hsome] at hchange
      cases hchange
    · rw [committed_of_ok hok hsome] at hchange
      exact prepare_produces hsome change hchange
  · rw [committed, if_neg hok] at hchange
    cases hchange

/-- A call that is no `Write` makes one change under a name. -/
theorem Sourced.produced_agree (hS : Sourced env Plain w) (hcall : ∀ input, call ≠ .write input)
    {nowMs : UInt64} {c d : Change K} (hc : Produces env w nowMs call c)
    (hd : Produces env w nowMs call d) (hws : c.record.workspaceId = d.record.workspaceId)
    (hid : c.record.id = d.record.id) : c = d := by
  have same : ∀ {k l : Bytes} {x y : MemoryRecord K}, w.engine.records[k]? = some x →
      w.engine.records[l]? = some y → x.workspaceId = y.workspaceId → x.id = y.id → x = y := by
    intro k l x y hx hy hws hid
    have hk := (hS.held k x hx).1
    have hl := (hS.held l y hy).1
    rw [hk, hws, hid, ← hl] at hx
    exact Option.some.inj (hx.symm.trans hy)
  cases hc with
  | new => exact absurd rfl (hcall _)
  | pinned load =>
    cases hd with
    | pinned load' =>
      obtain rfl := Except.ok.inj (load.symm.trans load')
      rfl
    | tombstoned compacts => cases compacts
    | dropped compacts => cases compacts
  | tombstoned compacts held scope unpinned live =>
    cases hd with
    | new => exact absurd rfl (hcall _)
    | pinned => cases compacts
    | tombstoned _ held' =>
      obtain rfl := same held held' hws hid
      rfl
    | dropped _ held' _ dead =>
      obtain rfl := same held held' hws hid
      exact absurd live (by simp [dead])
  | dropped compacts held scope dead =>
    cases hd with
    | new => exact absurd rfl (hcall _)
    | pinned => cases compacts
    | tombstoned _ held' _ _ live =>
      obtain rfl := same held held' hws hid
      exact absurd live (by simp [dead])
    | dropped _ held' => rw [same held held' hws hid]

end PoorguyMem
