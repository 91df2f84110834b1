import PoorguyMem.World

/-!
# The log behind a batch

A batch is a list of changes to records. Each change puts a document or drops
it, adds one event that carries the record, and moves the checkpoint of its
workspace to that event. `Logs` says that a batch comes to such a list, with the
events stamped by the clock readings and sequence numbers drawn for it; the rows
of the other namespaces are left open.
-/

namespace PoorguyMem

open ByteString PropertyTree Throwing

variable {K : Type}

inductive Change (K : Type) where
  | put (record : MemoryRecord K)
  | drop (record : MemoryRecord K)

def Change.record : Change K → MemoryRecord K
  | .put r => r
  | .drop r => r

def Plan.changes (plan : Plan K) : List (Change K) :=
  plan.upserts.map .put ++ plan.removals.map .drop

def Resident.applyChange [Field K] [LinearOrder K] (env : Platform K) (resident : Resident K) :
    Change K → Resident K
  | .put r => resident.upsertRecordInMemory env r
  | .drop r => resident.removeRecordInMemory r

/-- The two loops over a batch's records apply its changes in order. -/
theorem Plan.applyInMemory_eq [Field K] [LinearOrder K] (plan : Plan K) (env : Platform K)
    (resident : Resident K) :
    plan.applyInMemory env resident = plan.changes.foldl (Resident.applyChange env) resident := by
  rw [applyInMemory, changes, List.foldl_append, List.foldl_map, List.foldl_map]
  rfl

structure LogItem (K : Type) where
  change : Change K
  docTs : UInt64
  reading : Nat
  seq : Nat
  opType : OpType
  reason : Bytes
  nodeId : Bytes
  ckptTs : UInt64

namespace LogItem

def record (item : LogItem K) : MemoryRecord K := item.change.record

def docEntry (env : Platform K) (item : LogItem K) : WriteEntry :=
  match item.change with
  | .put r => PoorguyMem.docEntry r (recordText env r)
  | .drop r => deleteEntry docNs (buildDocKey r.workspaceId r.id) item.docTs

def eventMs (env : Platform K) (item : LogItem K) : UInt64 :=
  max item.record.updatedAtMs (env.clock item.reading)

def eventKey (env : Platform K) (item : LogItem K) : Bytes :=
  buildEventKey item.record.workspaceId (item.eventMs env) (UInt64.ofNat item.seq)

def eventTree (env : Platform K) (item : LogItem K) : Ptree :=
  flatTree (eventFields (item.eventKey env) item.record.workspaceId item.record item.opType
    item.reason (item.eventMs env) item.nodeId (recordText env item.record))

def eventEntry (env : Platform K) (item : LogItem K) : WriteEntry :=
  upsertEntry eventsNs (item.eventKey env) (env.json.print (item.eventTree env))
    (item.eventMs env)

def ckptTree (env : Platform K) (item : LogItem K) : Ptree :=
  flatTree (ckptFields item.record.workspaceId (item.eventKey env) item.ckptTs)

def ckptEntry (env : Platform K) (item : LogItem K) : WriteEntry :=
  upsertEntry projectionCkptNs (buildCkptKey item.record.workspaceId)
    (env.json.print (item.ckptTree env)) item.ckptTs

end LogItem

/-- Clock readings and sequence numbers only go forward. -/
structure Cursor.Before (c c' : Cursor) : Prop where
  tick : c.tick ≤ c'.tick
  seq : c.localSeq ≤ c'.localSeq

theorem Cursor.Before.refl (c : Cursor) : c.Before c := ⟨Nat.le_refl _, Nat.le_refl _⟩

theorem Cursor.Before.trans {a b c : Cursor} (h : a.Before b) (h' : b.Before c) : a.Before c :=
  ⟨Nat.le_trans h.tick h'.tick, Nat.le_trans h.seq h'.seq⟩

/-- The item's event is stamped after `c` and not after `c'`. -/
structure LogItem.Stamped (c c' : Cursor) (item : LogItem K) : Prop where
  after_tick : c.tick ≤ item.reading
  before_tick : item.reading < c'.tick
  after_seq : c.localSeq < item.seq
  before_seq : item.seq ≤ c'.localSeq

theorem LogItem.Stamped.mono {a b c d : Cursor} {item : LogItem K} (h : item.Stamped b c)
    (hab : a.Before b) (hcd : c.Before d) : item.Stamped a d :=
  ⟨Nat.le_trans hab.tick h.after_tick, Nat.lt_of_lt_of_le h.before_tick hcd.tick,
    Nat.lt_of_le_of_lt hab.seq h.after_seq, Nat.le_trans h.before_seq hcd.seq⟩

structure Logs (env : Platform K) (c c' : Cursor) (writes : List WriteEntry)
    (items : List (LogItem K)) : Prop where
  docs : Store.restrict docNs writes = items.map (·.docEntry env)
  events : Store.restrict eventsNs writes = items.map (·.eventEntry env)
  ckpts : Store.restrict projectionCkptNs writes = items.map (·.ckptEntry env)
  writable : ∀ item ∈ items, (recordTree env item.record).writable = true
  stamped : ∀ item ∈ items, item.Stamped c c'
  ordered : items.Pairwise fun a b => a.reading < b.reading ∧ a.seq < b.seq

theorem Logs.nil (env : Platform K) (c c' : Cursor) : Logs env c c' [] [] where
  docs := rfl
  events := rfl
  ckpts := rfl
  writable _ h := by cases h
  stamped _ h := by cases h
  ordered := List.Pairwise.nil

theorem Logs.append {env : Platform K} {a b b' c : Cursor} {ws vs : List WriteEntry}
    {is js : List (LogItem K)} (h : Logs env a b ws is) (h' : Logs env b' c vs js)
    (hbb : b.Before b') (hab : a.Before b') (hbc : b'.Before c) :
    Logs env a c (ws ++ vs) (is ++ js) where
  docs := by rw [Store.restrict_append, h.docs, h'.docs, List.map_append]
  events := by rw [Store.restrict_append, h.events, h'.events, List.map_append]
  ckpts := by rw [Store.restrict_append, h.ckpts, h'.ckpts, List.map_append]
  writable item hitem := (List.mem_append.mp hitem).elim (h.writable item) (h'.writable item)
  stamped item hitem := by
    rcases List.mem_append.mp hitem with hi | hj
    · exact (h.stamped item hi).mono (Cursor.Before.refl a) (hbb.trans hbc)
    · exact (h'.stamped item hj).mono hab (Cursor.Before.refl c)
  ordered := by
    refine List.pairwise_append.mpr ⟨h.ordered, h'.ordered, ?_⟩
    intro i hi j hj
    have hsi := h.stamped i hi
    have hsj := h'.stamped j hj
    exact ⟨Nat.lt_of_lt_of_le hsi.before_tick (Nat.le_trans hbb.tick hsj.after_tick),
      Nat.lt_of_le_of_lt (Nat.le_trans hsi.before_seq hbb.seq) hsj.after_seq⟩

/-! ### The rows of one record -/

/-- Rows that hold one entry of the document namespace and touch neither events
nor checkpoints. -/
structure RowsOf (rows : List WriteEntry) (doc : WriteEntry) : Prop where
  docs : Store.restrict docNs rows = [doc]
  events : Store.restrict eventsNs rows = []
  ckpts : Store.restrict projectionCkptNs rows = []

/-- The namespaces of the rows beside the document. -/
def indexNamespaces : List Bytes := [postingBlkNs, vecCodeNs, vecFpNs, termDictNs]

theorem restrict_eq_nil {ns : Bytes} {rows : List WriteEntry}
    (h : ∀ w ∈ rows, w.entry.nameSpace ≠ ns) : Store.restrict ns rows = [] := by
  rw [Store.restrict, List.filter_eq_nil_iff]
  intro w hw
  simpa using h w hw

theorem restrict_index_rows {ns : Bytes} (hns : ns ∉ indexNamespaces) {rows : List WriteEntry}
    (h : ∀ w ∈ rows, w.entry.nameSpace ∈ indexNamespaces) : Store.restrict ns rows = [] :=
  restrict_eq_nil fun w hw heq => hns (heq ▸ h w hw)

theorem docNs_notMem : docNs ∉ indexNamespaces := by decide

theorem eventsNs_notMem : eventsNs ∉ indexNamespaces := by decide

theorem projectionCkptNs_notMem : projectionCkptNs ∉ indexNamespaces := by decide

theorem docNs_ne_eventsNs : docNs ≠ eventsNs := by decide

theorem docNs_ne_projectionCkptNs : docNs ≠ projectionCkptNs := by decide

theorem eventsNs_ne_projectionCkptNs : eventsNs ≠ projectionCkptNs := by decide

theorem rowsOf_cons {doc : WriteEntry} {rows : List WriteEntry} (hdoc : doc.entry.nameSpace = docNs)
    (h : ∀ w ∈ rows, w.entry.nameSpace ∈ indexNamespaces) : RowsOf (doc :: rows) doc where
  docs := by
    have hrows := restrict_index_rows docNs_notMem h
    rw [Store.restrict] at hrows ⊢
    rw [List.filter_cons_of_pos (by simpa using hdoc), hrows]
  events := by
    have hrows := restrict_index_rows eventsNs_notMem h
    rw [Store.restrict] at hrows ⊢
    rw [List.filter_cons_of_neg (by simpa [hdoc] using docNs_ne_eventsNs), hrows]
  ckpts := by
    have hrows := restrict_index_rows projectionCkptNs_notMem h
    rw [Store.restrict] at hrows ⊢
    rw [List.filter_cons_of_neg (by simpa [hdoc] using docNs_ne_projectionCkptNs), hrows]

section Rows
variable {env : Platform K}

theorem dropIndexEntries_ns {t : Nat} {record : MemoryRecord K} {ts : UInt64} :
    ∀ w ∈ dropIndexEntries env t record ts, w.entry.nameSpace ∈ indexNamespaces := by
  intro w hw
  rcases List.mem_append.mp hw with hw | hw
  · obtain ⟨term, _, rfl⟩ := List.mem_map.mp hw
    simp [deletePostingEntry, deleteEntry, indexNamespaces]
  · simp only [deleteVectorEntries, List.mem_cons, List.not_mem_nil, or_false] at hw
    rcases hw with rfl | rfl <;> simp [deleteEntry, indexNamespaces]

variable [Field K] [LinearOrder K]

theorem indexEntries_ns {t : Nat} {old : Option (MemoryRecord K)} {record : MemoryRecord K} :
    ∀ w ∈ indexEntries env t old record, w.entry.nameSpace ∈ indexNamespaces := by
  intro w hw
  rcases List.mem_append.mp hw with hw | hw
  · cases old with
    | none => cases hw
    | some rec => exact dropIndexEntries_ns w hw
  · split at hw
    · exact dropIndexEntries_ns w hw
    · simp only [List.mem_cons, List.mem_flatMap, List.not_mem_nil, or_false] at hw
      rcases hw with rfl | rfl | ⟨kv, _, rfl | rfl⟩ <;>
        simp [vecCodeEntry, vecFpEntry, termDictEntry, postingEntry, upsertEntry, indexNamespaces]

theorem holds_persistRecord (records : StringMap (MemoryRecord K)) (record : MemoryRecord K)
    (c : Cursor) :
    Holds (persistRecord env records record) c
      (fun rows c' => c' = c ∧ (recordTree env record).writable = true ∧
        RowsOf rows (docEntry record (recordText env record)))
      (fun c' => c' = c) := by
  unfold persistRecord
  refine holds_bind (holds_ofOption ?_ fun _ => rfl)
  intro text htext
  refine holds_bind (holds_advance ?_)
  refine holds_pure ?_
  obtain ⟨hw, rfl⟩ := serializeRecord_eq_some.mp htext
  exact ⟨rfl, hw, rowsOf_cons rfl indexEntries_ns⟩

omit [Field K] [LinearOrder K] in
theorem holds_deleteRecordStorage (record : MemoryRecord K) (c : Cursor) :
    Holds (deleteRecordStorage env record) c
      (fun rows c' => c.Before c' ∧
        ∃ ts, RowsOf rows (deleteEntry docNs (buildDocKey record.workspaceId record.id) ts))
      (fun c' => c.Before c') := by
  refine holds_bind (holds_advance ?_)
  refine holds_bind (holds_advance (holds_bind (holds_advance (holds_bind (holds_advance ?_)))))
  let docTs := env.clock c.tick
  -- the rows collected so far are the deletion of the document and rows beside it
  refine (holds_foldlM (I := fun rows c' => c.Before c' ∧ ∃ rest,
    rows = deleteEntry docNs (buildDocKey record.workspaceId record.id) docTs :: rest ∧
      ∀ w ∈ rest, w.entry.nameSpace ∈ indexNamespaces)
    (E := fun c' => c.Before c') ?_ ?_).mono ?_ fun _ h => h
  · rintro term _ rows c' ⟨hbefore, rest, rfl, hrest⟩
    refine holds_bind (holds_advance (holds_pure ⟨hbefore.trans ⟨?_, ?_⟩, ?_⟩))
    · exact Nat.le_succ _
    · exact Nat.le_refl _
    · refine ⟨rest ++ [_], rfl, fun w hw => ?_⟩
      rcases List.mem_append.mp hw with hw | hw
      · exact hrest w hw
      · rw [List.mem_singleton.mp hw]
        simp [deletePostingEntry, deleteEntry, indexNamespaces]
  · refine ⟨⟨by simp; omega, Nat.le_refl _⟩, _, rfl, ?_⟩
    intro w hw
    simp only [List.mem_cons, List.not_mem_nil, or_false] at hw
    rcases hw with rfl | rfl <;> simp [deleteEntry, indexNamespaces]
  · rintro rows c' ⟨hbefore, rest, rfl, hrest⟩
    exact ⟨hbefore, docTs, rowsOf_cons rfl hrest⟩

end Rows

/-- The event of a record is the event of an item for it. -/
theorem holds_appendProjectionEvent (env : Platform K) (nodeId : Bytes) {change : Change K}
    (hws : change.record.workspaceId ≠ []) (opType : OpType) (reason : Bytes) (docTs ckptTs : UInt64)
    (c : Cursor) :
    Holds (appendProjectionEvent env nodeId change.record opType reason) c
      (fun out c' => c' = ⟨c.tick + 1, c.localSeq + 1⟩ ∧
        (recordTree env change.record).writable = true ∧
        let item : LogItem K :=
          ⟨change, docTs, c.tick, c.localSeq + 1, opType, reason, nodeId, ckptTs⟩
        out = (item.eventEntry env, item.eventKey env))
      (fun c' => c.Before c') := by
  unfold appendProjectionEvent
  refine holds_bind (holds_advance ?_)
  refine holds_bind (holds_advance ?_)
  refine holds_bind (holds_ofOption ?_ ?_)
  · intro payload hpayload
    obtain ⟨hw, rfl⟩ := serializeRecord_eq_some.mp hpayload
    refine holds_pure ⟨rfl, hw, ?_⟩
    simp only [if_neg hws]
    rfl
  · exact fun _ => ⟨Nat.le_succ _, Nat.le_succ _⟩

/-- The rows of a record with its event and its checkpoint make one item. -/
theorem Logs.single {env : Platform K} {c c' : Cursor} {rows : List WriteEntry}
    {item : LogItem K} (hrows : RowsOf rows (item.docEntry env))
    (hws : item.record.workspaceId ≠ []) (hw : (recordTree env item.record).writable = true)
    (hstamp : item.Stamped c c') :
    Logs env c c' (rows ++ item.eventEntry env ::
      appendProjectionCheckpoint env item.record.workspaceId (item.eventKey env) item.ckptTs)
      [item] := by
  have hkey : item.eventKey env ≠ [] := by simp [LogItem.eventKey, buildEventKey, ascii]
  have hckpt : appendProjectionCheckpoint env item.record.workspaceId (item.eventKey env)
      item.ckptTs = [item.ckptEntry env] := by
    rw [appendProjectionCheckpoint, if_neg (by simp [hws, hkey])]
    rfl
  have hev : (item.eventEntry env).entry.nameSpace = eventsNs := rfl
  have hck : (item.ckptEntry env).entry.nameSpace = projectionCkptNs := rfl
  have tail : ∀ ns, Store.restrict ns [item.eventEntry env, item.ckptEntry env] =
      (if eventsNs = ns then [item.eventEntry env] else []) ++
        (if projectionCkptNs = ns then [item.ckptEntry env] else []) := by
    intro ns
    by_cases h : eventsNs = ns <;> by_cases h' : projectionCkptNs = ns <;>
      simp [Store.restrict, hev, hck, h, h']
  rw [hckpt]
  refine ⟨?_, ?_, ?_, ?_, ?_, List.pairwise_singleton _ _⟩
  · rw [Store.restrict_append, hrows.docs, tail, if_neg docNs_ne_eventsNs.symm,
      if_neg docNs_ne_projectionCkptNs.symm]
    simp only [List.append_nil, List.map_cons, List.map_nil]
  · rw [Store.restrict_append, hrows.events, tail, if_pos rfl,
      if_neg eventsNs_ne_projectionCkptNs.symm]
    simp only [List.nil_append, List.append_nil, List.map_cons, List.map_nil]
  · rw [Store.restrict_append, hrows.ckpts, tail, if_neg eventsNs_ne_projectionCkptNs, if_pos rfl]
    simp only [List.nil_append, List.map_cons, List.map_nil]
  · intro i hi
    obtain rfl := List.mem_singleton.mp hi
    exact hw
  · intro i hi
    obtain rfl := List.mem_singleton.mp hi
    exact hstamp

end PoorguyMem
