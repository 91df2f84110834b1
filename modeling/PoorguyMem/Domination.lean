import PoorguyMem.Residue

/-!
# Checkpoints and clocks that step back

An event is stamped with a time, that of its record or of the clock, whichever is
later, and with a sequence number that starts anew in every process. Whatever the
clock does, the checkpoint of a workspace is not before an event of it as long as
the last event of every batch is stamped after those that are stored.
-/

namespace PoorguyMem

open ByteString PropertyTree

variable {K : Type}

/-! ### What dominates means -/

/-- The event key in the checkpoint row of a workspace, as it is read back. -/
def checkpointOf (env : Platform K) (store : Store) (workspaceId : Bytes) : Option Bytes :=
  ((store.table projectionCkptNs)[buildCkptKey workspaceId]?).bind fun v =>
    (rowCheckpoint env ⟨projectionCkptNs, buildCkptKey workspaceId, v.value, v.ts⟩).map Prod.snd

/-- The checkpoint of a workspace is not before the key of an event of the workspace. -/
def Dominates (env : Platform K) (store : Store) : Prop :=
  ∀ workspaceId mark, checkpointOf env store workspaceId = some mark →
    ∀ (ts seq : UInt64) v, (store.table eventsNs)[buildEventKey workspaceId ts seq]? = some v →
      le (buildEventKey workspaceId ts seq) mark = true

/-- A warmup replays none of the events. -/
def ReplaysNothing [One K] (env : Platform K) (store : Store) : Prop :=
  ∀ event ∈ (store.scan eventsNs [] [] 0).entries,
    eventRecord env (storedCheckpoints env store) event = none

/-! ### The order of keys -/

/-- The lexicographic comparison of pairs of a time and a sequence number. -/
def compareStamps : UInt64 × UInt64 → UInt64 × UInt64 → Ordering :=
  compareLex (compareOn Prod.fst) (compareOn Prod.snd)

theorem compare_eq_toNat (a b : UInt64) : compare a b = compare a.toNat b.toNat := by
  rcases Nat.lt_trichotomy a.toNat b.toNat with hlt | heq | hgt
  · rw [Nat.compare_eq_lt.mpr hlt, Std.compare_eq_lt]
    exact UInt64.lt_iff_toNat_lt.mpr hlt
  · rw [Nat.compare_eq_eq.mpr heq, Std.compare_eq_iff_eq]
    exact UInt64.toNat_inj.mp heq
  · rw [Nat.compare_eq_gt.mpr hgt, Std.compare_eq_gt]
    exact UInt64.lt_iff_toNat_lt.mpr hgt

theorem compare_eventKeys (w : Bytes) (ts seq ts' seq' : UInt64) :
    compare (buildEventKey w ts seq) (buildEventKey w ts' seq') =
      compareStamps (ts, seq) (ts', seq') := by
  rw [compare_buildEventKey, ← compare_eq_toNat, ← compare_eq_toNat]
  rfl

/-- The event keys of a workspace sort like its events, so the replay skips those up to the
checkpoint and no others. -/
theorem eventKeys_sort [One K] (env : Platform K) (w : Bytes) (ts seq ts' seq' : UInt64) :
    compare (buildEventKey w ts seq) (buildEventKey w ts' seq') =
      compareStamps (ts, seq) (ts', seq') ∧
    ∀ checkpoints event json, env.json.parse event.value = some json →
      (let named := json.getString (ascii "workspace_id") []
        if named = [] then workspaceFromEventKey event.key else named) = w →
      event.key = buildEventKey w ts seq → checkpoints[w]? = some (buildEventKey w ts' seq') →
      eventRecord env checkpoints event =
        if (compareStamps (ts, seq) (ts', seq')).isLE then none else eventRecord env ∅ event := by
  refine ⟨compare_eventKeys w ts seq ts' seq', ?_⟩
  intro checkpoints event json hjson hworkspace hkey hckpt
  have hcovered : isCovered checkpoints w event.key = (compareStamps (ts, seq) (ts', seq')).isLE := by
    rw [isCovered, hckpt, hkey, ← compare_eventKeys]
    rfl
  have huncovered : isCovered ∅ w event.key = false := by simp [isCovered]
  rw [eventRecord, eventRecord, hjson, Option.bind_some, Option.bind_some]
  dsimp only at hworkspace ⊢
  rw [hworkspace, hcovered, huncovered]
  cases (compareStamps (ts, seq) (ts', seq')).isLE with
  | true => rw [if_pos (Or.inr rfl), if_pos rfl]
  | false => rfl

/-! ### Stamps -/

/-- An event at this time and number is not after the event of the item. -/
def LogItem.Follows (env : Platform K) (item : LogItem K) (ts seq : UInt64) : Prop :=
  ts < item.eventMs env ∨ ts = item.eventMs env ∧ seq ≤ UInt64.ofNat item.seq

instance (env : Platform K) (item : LogItem K) (ts seq : UInt64) :
    Decidable (item.Follows env ts seq) := inferInstanceAs (Decidable (_ ∨ _))

/-- The last event of a workspace in a batch follows those before it in the batch and
those in the store. -/
def Onward (env : Platform K) (events : Table) (items : List (LogItem K)) : Prop :=
  ∀ before item after, items = before ++ item :: after →
    (∀ later ∈ after, later.record.workspaceId ≠ item.record.workspaceId) →
    (∀ earlier ∈ before, earlier.record.workspaceId = item.record.workspaceId →
      item.Follows env (earlier.eventMs env) (UInt64.ofNat earlier.seq)) ∧
    ∀ ts seq v, events[buildEventKey item.record.workspaceId ts seq]? = some v →
      item.Follows env ts seq

/-! ### Rows -/

/-- The checkpoint row of a workspace at an event key. -/
structure Marked (env : Platform K) (workspaceId : Bytes) (v : StoredValue) (ts seq : UInt64) :
    Prop where
  workspace_ne : workspaceId ≠ []
  value : ∃ date, v.value = env.json.print
    (flatTree (ckptFields workspaceId (buildEventKey workspaceId ts seq) date))

theorem LogItem.marked (env : Platform K) {item : LogItem K} (hws : item.record.workspaceId ≠ []) :
    Marked env item.record.workspaceId ⟨env.json.print (item.ckptTree env), item.ckptTs⟩
      (item.eventMs env) (UInt64.ofNat item.seq) :=
  ⟨hws, item.ckptTs, rfl⟩

theorem mem_strings_flatTree {fields : List (Bytes × Bytes)}
    (h : FieldNames (fields.map Prod.fst)) {key value : Bytes} (hmem : (key, value) ∈ fields) :
    value ∈ (flatTree fields).strings := by
  have hchild : (key, Ptree.leaf value) ∈ fields.map fun kv => (kv.1, Ptree.leaf kv.2) :=
    List.mem_map.mpr ⟨_, hmem, rfl⟩
  have hleaf : value ∈ (Ptree.leaf value).strings := by simp [Ptree.leaf, Ptree.strings]
  rw [flatTree_eq h, Ptree.strings]
  exact List.mem_cons_of_mem _ (Ptree.mem_stringsAll hchild (Or.inr hleaf))

/-- A row that can be read back says what was written. -/
theorem Marked.rowCheckpoint_eq {env : Platform K} (hlaw : env.Lawful) {workspaceId : Bytes}
    {v : StoredValue} {ts seq : UInt64} (h : Marked env workspaceId v ts seq)
    {entry : KeyValueEntry} (hvalue : entry.value = v.value) {read : Bytes × Bytes}
    (hread : rowCheckpoint env entry = some read) :
    read = (workspaceId, buildEventKey workspaceId ts seq) := by
  obtain ⟨date, hv⟩ := h.value
  have hnames : FieldNames ((ckptFields workspaceId (buildEventKey workspaceId ts seq) date).map
      Prod.fst) := fieldNames_ckptKeys
  obtain ⟨json, hjson, -⟩ := Option.bind_eq_some_iff.mp hread
  rw [hvalue, hv] at hjson
  obtain ⟨-, hcarries⟩ := hlaw.json.parse_only _ _ (writable_flatTree hnames) hjson
  have hfield : (ascii "workspace_id", workspaceId) ∈
      ckptFields workspaceId (buildEventKey workspaceId ts seq) date := by simp [ckptFields]
  have hcarried : env.json.carries workspaceId := hcarries _ (mem_strings_flatTree hnames hfield)
  have hback := rowCheckpoint_of_value hlaw h.workspace_ne hcarried (hvalue.trans hv)
  exact Option.some.inj (hread.symm.trans hback)

/-- The rows of the log: every event has the checkpoint of its workspace not before it. -/
structure LogRows (env : Platform K) (eventRows ckptRows : Table) : Prop where
  ckpts : ∀ (k : Bytes) v, ckptRows[k]? = some v → ∃ workspaceId ts seq,
    k = buildCkptKey workspaceId ∧ Marked env workspaceId v ts seq
  events : ∀ (k : Bytes) v, eventRows[k]? = some v → ∃ (item : LogItem K)
    (ckpt : StoredValue) (ts seq : UInt64),
    k = item.eventKey env ∧ v.value = env.json.print (item.eventTree env) ∧
      ckptRows[buildCkptKey item.record.workspaceId]? = some ckpt ∧
      Marked env item.record.workspaceId ckpt ts seq ∧
      le k (buildEventKey item.record.workspaceId ts seq) = true

section Rows
variable {env : Platform K} {events ckpts : Table} {items : List (LogItem K)}

/-- The last item of a workspace that has one. -/
theorem exists_last {workspaceId : Bytes} (h : ∃ item ∈ items, item.record.workspaceId = workspaceId) :
    ∃ before item after, items = before ++ item :: after ∧
      item.record.workspaceId = workspaceId ∧
      ∀ later ∈ after, later.record.workspaceId ≠ workspaceId := by
  induction items with
  | nil =>
    obtain ⟨item, hitem, -⟩ := h
    cases hitem
  | cons first rest ih =>
    by_cases hrest : ∃ item ∈ rest, item.record.workspaceId = workspaceId
    · obtain ⟨before, item, after, rfl, hitem⟩ := ih hrest
      exact ⟨first :: before, item, after, rfl, hitem⟩
    · obtain ⟨item, hitem, hws⟩ := h
      rcases List.mem_cons.mp hitem with rfl | hitem
      · exact ⟨[], item, rest, rfl, hws, fun later hlater heq => hrest ⟨later, hlater, heq⟩⟩
      · exact absurd ⟨item, hitem, hws⟩ hrest

theorem lookup_apply_ckpts_of_notMem {workspaceId : Bytes}
    (h : ∀ item ∈ items, item.record.workspaceId ≠ workspaceId) :
    (ckpts.apply (items.map (·.ckptEntry env)))[buildCkptKey workspaceId]? =
      ckpts[buildCkptKey workspaceId]? := by
  apply Table.lookup_apply_of_notMem
  intro e he hkey
  obtain ⟨item, hitem, rfl⟩ := List.mem_map.mp he
  exact h item hitem (buildCkptKey_inj hkey)

/-- The last item of a workspace sets its checkpoint. -/
theorem lookup_apply_ckpts {before after : List (LogItem K)} {item : LogItem K}
    (hafter : ∀ later ∈ after, later.record.workspaceId ≠ item.record.workspaceId) :
    (ckpts.apply ((before ++ item :: after).map (·.ckptEntry env)))[
      buildCkptKey item.record.workspaceId]? =
      some ⟨env.json.print (item.ckptTree env), item.ckptTs⟩ := by
  have hsplit : ckpts.apply ((before ++ item :: after).map (·.ckptEntry env)) =
      ((ckpts.apply (before.map (·.ckptEntry env))).applyEntry (item.ckptEntry env)).apply
        (after.map (·.ckptEntry env)) := by
    rw [Table.apply, Table.apply, Table.apply, List.map_append, List.foldl_append, List.map_cons,
      List.foldl_cons]
  rw [hsplit, lookup_apply_ckpts_of_notMem hafter]
  exact (lookup_insert _ _ _ _).trans (if_pos rfl)

theorem LogItem.Follows.le {item : LogItem K} {ts seq : UInt64} (h : item.Follows env ts seq) :
    le (buildEventKey item.record.workspaceId ts seq) (item.eventKey env) = true :=
  buildEventKey_le h

/-- A batch whose last events are stamped onward keeps the checkpoints ahead. -/
theorem LogRows.apply (h : LogRows env events ckpts)
    (hnamed : ∀ item ∈ items, item.record.workspaceId ≠ []) (honward : Onward env events items) :
    LogRows env (events.apply (items.map (·.eventEntry env)))
      (ckpts.apply (items.map (·.ckptEntry env))) := by
  constructor
  · intro k v hv
    rcases Table.lookup_apply hv with hold | ⟨e, he, -, rfl, rfl⟩
    · exact h.ckpts k v hold
    · obtain ⟨item, hitem, rfl⟩ := List.mem_map.mp he
      exact ⟨_, _, _, rfl, LogItem.marked env (hnamed item hitem)⟩
  · intro k v hv
    -- an event of a workspace that the batch logs is not after the last one it logs
    have hahead : ∀ item : LogItem K, k = item.eventKey env →
        v.value = env.json.print (item.eventTree env) → item ∈ items ∨ events[k]? = some v →
        (∃ b ∈ items, b.record.workspaceId = item.record.workspaceId) →
        ∃ (item : LogItem K) (ckpt : StoredValue) (ts seq : UInt64),
          k = item.eventKey env ∧ v.value = env.json.print (item.eventTree env) ∧
            (ckpts.apply (items.map (·.ckptEntry env)))[buildCkptKey item.record.workspaceId]? =
              some ckpt ∧
            Marked env item.record.workspaceId ckpt ts seq ∧
            le k (buildEventKey item.record.workspaceId ts seq) = true := by
      intro item hk hvalue hwhere hany
      obtain ⟨before, last, after, rfl, hws, hafter⟩ := exists_last hany
      have hlater : ∀ later ∈ after, later.record.workspaceId ≠ last.record.workspaceId := by
        rw [hws]
        exact hafter
      obtain ⟨hbatch, hstored⟩ := honward before last after rfl hlater
      refine ⟨item, ⟨env.json.print (last.ckptTree env), last.ckptTs⟩, last.eventMs env,
        UInt64.ofNat last.seq, hk, hvalue, ?_, ?_, ?_⟩
      · rw [← hws]
        exact lookup_apply_ckpts hlater
      · rw [← hws]
        exact LogItem.marked env (hnamed last (by simp))
      · rw [hk, ← hws]
        rcases hwhere with hmem | hold
        · rcases List.mem_append.mp hmem with hbefore | hmem
          · rw [LogItem.eventKey, ← hws]
            exact (hbatch item hbefore hws.symm).le
          · rcases List.mem_cons.mp hmem with rfl | hmem
            · exact le_refl _
            · exact absurd rfl (hafter item hmem)
        · rw [hk, LogItem.eventKey, ← hws] at hold
          rw [LogItem.eventKey, ← hws]
          exact (hstored _ _ v hold).le
    rcases Table.lookup_apply hv with hold | ⟨e, he, -, rfl, rfl⟩
    · obtain ⟨item, ckpt, ts, seq, hk, hvalue, hckpt, hmarked, hle⟩ := h.events k v hold
      by_cases hany : ∃ b ∈ items, b.record.workspaceId = item.record.workspaceId
      · exact hahead item hk hvalue (Or.inr hold) hany
      · refine ⟨item, ckpt, ts, seq, hk, hvalue, ?_, hmarked, hle⟩
        rw [lookup_apply_ckpts_of_notMem fun b hb heq => hany ⟨b, hb, heq⟩]
        exact hckpt
    · obtain ⟨item, hitem, rfl⟩ := List.mem_map.mp he
      exact hahead item rfl rfl (Or.inl hitem) ⟨item, hitem, rfl⟩

end Rows

/-! ### Reading back -/

/-- The time and the number of an event key have a fixed length. -/
theorem workspace_of_buildEventKey {w v : Bytes} {ts seq ts' seq' : UInt64}
    (h : buildEventKey w ts seq = buildEventKey v ts' seq') : w = v := by
  have hlength : (zeroPadUint64 ts).length = (zeroPadUint64 ts').length ∧
      (zeroPadUint64 seq).length = (zeroPadUint64 seq').length := by
    constructor <;> rw [length_zeroPadUint64, length_zeroPadUint64]
  have hsplit : ∀ (x : Bytes) (a b : UInt64), buildEventKey x a b =
      (ascii "ws/" ++ x) ++ (ascii "/ts/" ++ zeroPadUint64 a ++ ascii "/seq/" ++ zeroPadUint64 b) := by
    intro x a b
    simp only [buildEventKey, List.append_assoc]
  rw [hsplit, hsplit] at h
  apply List.append_cancel_left
  apply List.append_inj_left' h
  simp only [List.length_append, hlength.1, hlength.2]

section Store
variable {env : Platform K} {store : Store}

theorem LogRows.dominates (hlaw : env.Lawful)
    (h : LogRows env (store.table eventsNs) (store.table projectionCkptNs)) :
    Dominates env store := by
  intro workspaceId mark hmark ts seq v hv
  obtain ⟨row, hrow, hsnd⟩ := Option.bind_eq_some_iff.mp hmark
  obtain ⟨read, hread, rfl⟩ := Option.map_eq_some_iff.mp hsnd
  obtain ⟨item, ckpt, ts', seq', hk, -, hckpt, hmarked, hle⟩ := h.events _ v hv
  have hws := workspace_of_buildEventKey hk
  rw [← hws] at hckpt hmarked hle
  obtain rfl := Option.some.inj (hrow.symm.trans hckpt)
  rw [hmarked.rowCheckpoint_eq hlaw rfl hread]
  exact hle

/-- An event that can be read at all finds its checkpoint. -/
theorem LogRows.replaysNothing [One K] (hlaw : env.Lawful)
    (h : LogRows env (store.table eventsNs) (store.table projectionCkptNs)) :
    ReplaysNothing env store := by
  intro event hevent
  obtain ⟨-, hrow⟩ := Store.mem_scan_all.mp hevent
  obtain ⟨item, ckpt, ts, seq, -, hvalue, hckpt, hmarked, hle⟩ := h.events _ _ hrow
  change event.value = _ at hvalue
  rw [eventRecord, hvalue]
  rcases hjson : env.json.parse (env.json.print (item.eventTree env)) with _ | json
  · rfl
  have hnames := item.fieldNames_event env
  have hfield : (ascii "workspace_id", item.record.workspaceId) ∈ eventFields (item.eventKey env)
      item.record.workspaceId item.record item.opType item.reason (item.eventMs env) item.nodeId
      (recordText env item.record) := by simp [eventFields]
  obtain ⟨-, hcarries⟩ := hlaw.json.parse_only _ _ (writable_flatTree hnames) hjson
  have hcarried : env.json.carries item.record.workspaceId :=
    hcarries _ (mem_strings_flatTree hnames hfield)
  have hstored : (storedCheckpoints env store)[item.record.workspaceId]? =
      some (buildEventKey item.record.workspaceId ts seq) := by
    let entry : KeyValueEntry :=
      ⟨projectionCkptNs, buildCkptKey item.record.workspaceId, ckpt.value, ckpt.ts⟩
    have hmem : entry ∈ (store.scan projectionCkptNs [] [] 0).entries :=
      Store.mem_scan_all.mpr ⟨rfl, hckpt⟩
    obtain ⟨date, hdate⟩ := hmarked.value
    apply lookup_readCheckpoints hmem
    · exact rowCheckpoint_of_value hlaw hmarked.workspace_ne hcarried hdate
    · intro e he mark' hread
      obtain ⟨-, hother⟩ := Store.mem_scan_all.mp he
      obtain ⟨other, ts', seq', hk, hotherMarked⟩ := h.ckpts _ _ hother
      obtain ⟨rfl, rfl⟩ := Prod.mk.inj (hotherMarked.rowCheckpoint_eq hlaw rfl hread)
      rw [hk, hckpt] at hother
      obtain rfl := Option.some.inj hother
      have hsame := hmarked.rowCheckpoint_eq hlaw rfl hread
      exact (Prod.mk.inj hsame).2
  have hcovered : isCovered (storedCheckpoints env store) item.record.workspaceId event.key =
      true := by
    rw [isCovered, hstored]
    exact hle
  rw [Option.bind_some]
  dsimp only
  rw [(parse_eventTree hlaw item hjson).1, if_neg hmarked.workspace_ne, if_pos (Or.inr hcovered)]

end Store

/-! ### Runs -/

section Runs
variable [Field K] [LinearOrder K]

/-- The batch of a call is applied whole or not at all, and where it is applied its events
are stamped onward. -/
structure InTime (env : Platform K) (w : World K) (call : Call K) (fate : Fate) : Prop where
  whole : fate.main.Whole
  onward : fate.main.ok = true → ∀ request, (prepare env fate w call).1 = some request →
    ∀ items : List (LogItem K),
      Logs env w.cursor (prepare env fate w call).2 request.plan.writes items →
      Onward env (w.store.table eventsNs) items

/-- A restart asks for nothing. -/
def Step.InTime (env : Platform K) (w : World K) : Step K → Prop
  | .call c fate => PoorguyMem.InTime env w c fate
  | .restart none _ _ => True
  | .restart (some (c, fate)) _ _ => PoorguyMem.InTime env w c fate

def NonemptyNames (workspaceId id : Bytes) : Prop := workspaceId ≠ [] ∧ id ≠ []

/-- The invariant of runs. -/
structure Ahead (env : Platform K) (w : World K) : Prop where
  sourced : Sourced env NonemptyNames w
  rows : LogRows env (w.store.table eventsNs) (w.store.table projectionCkptNs)

variable {env : Platform K} {w w' : World K} {call : Call K} {fate : Fate}

theorem Ahead.commit (hlaw : env.Lawful) (h : Ahead env w) (hcall : call.Admits NonemptyNames)
    (hin : InTime env w call fate) {request : Request K}
    (hsome : (prepare env fate w call).1 = some request) :
    LogRows env
      (((w.atCursor (prepare env fate w call).2).commit fate.main request.plan).store.table
        eventsNs)
      (((w.atCursor (prepare env fate w call).2).commit fate.main request.plan).store.table
        projectionCkptNs) := by
  obtain ⟨items, hd⟩ :=
    (prepare_spec fate (h.sourced.named hlaw names_nonempty) call).2 request hsome
  by_cases hok : fate.main.ok = true
  · have htable : ∀ ns, ((w.atCursor (prepare env fate w call).2).commit fate.main
        request.plan).store.table ns =
        (w.store.table ns).apply (Store.restrict ns request.plan.writes) := by
      intro ns
      refine (congrArg (Store.table · ns) (Store.batchWrite_of_ok w.store hok _)).trans ?_
      exact Store.table_apply ..
    rw [htable, htable, hd.logs.events, hd.logs.ckpts]
    apply h.rows.apply
    · exact fun item hitem => (hd.named hlaw h.sourced hcall item hitem).1
    · exact hin.onward hok request hsome items hd.logs
  · have hstore : ((w.atCursor (prepare env fate w call).2).commit fate.main request.plan).store =
        w.store := Store.batchWrite_of_whole_failed _ hin.whole (by simpa using hok) _
    rw [hstore]
    exact h.rows

omit [Field K] [LinearOrder K] in
theorem call_admits_nonempty (call : Call K) : call.Admits NonemptyNames := by
  cases call with
  | write input => exact fun id hws hid => ⟨hws, hid⟩
  | _ => trivial

theorem Ahead.performed (hlaw : env.Lawful) (h : Ahead env w) (hin : InTime env w call fate) :
    Ahead env (perform env fate w call).1 := by
  have hcall : call.Admits NonemptyNames := call_admits_nonempty call
  have hout := perform_outcome env fate w call
  refine ⟨(h.sourced.call hlaw names_nonempty hcall hout).1, ?_⟩
  generalize (perform env fate w call).1 = w' at hout ⊢
  cases hout with
  | idle _ agrees =>
    rw [agrees.store]
    exact h.rows
  | queried isQuery =>
    rw [(query_spec env w _).store]
    exact h.rows
  | failed some _ agrees =>
    rw [agrees.store]
    exact h.commit hlaw hcall hin some
  | committed some _ settled =>
    rw [settled.table _ eventsNs_ne_routeMetaNs, settled.table _ projectionCkptNs_ne_routeMetaNs]
    exact h.commit hlaw hcall hin some

theorem Ahead.restart (hlaw : env.Lawful) (hS : Sourced env NonemptyNames w)
    (hrows : LogRows env (w.store.table eventsNs) (w.store.table projectionCkptNs))
    (nodeId : Bytes) (options : MemoryEngineOptions K) :
    Ahead env (PoorguyMem.restart env w nodeId options) := by
  have hr := restart_spec env w nodeId options
  refine ⟨(hS.restart hlaw names_nonempty hr).1, ?_⟩
  rw [hr.store]
  exact hrows

theorem Ahead.step (hlaw : env.Lawful) (w : World K) (step : Step K) (hstep : step.InTime env w)
    (h : Ahead env w) : Ahead env (next env w step) := by
  match step with
  | .call call fate => exact h.performed hlaw hstep
  | .restart none nodeId options => exact .restart hlaw h.sourced h.rows nodeId options
  | .restart (some (call, fate)) nodeId options =>
    have hcall : call.Admits NonemptyNames := call_admits_nonempty call
    apply Ahead.restart hlaw (h.sourced.interrupt hlaw names_nonempty hcall fate)
    rcases interrupt_cases env w call fate with ⟨-, heq⟩ | ⟨request, hsome, heq⟩ <;> rw [heq]
    · exact h.rows
    · exact h.commit hlaw hcall hstep hsome

/-- Whatever the clock does: where every batch is stamped onward, no checkpoint is before
an event of its workspace, and a warmup replays nothing. -/
theorem checkpoints_dominate (hlaw : env.Lawful) (nodeId : Bytes) (options : MemoryEngineOptions K)
    (steps : List (Step K)) (hsteps : Runs.Along (next env) (fun w step => step.InTime env w)
      (World.initial nodeId options) steps) :
    let w := Runs.exec (next env) (World.initial nodeId options) steps
    Dominates env w.store ∧ ReplaysNothing env w.store := by
  have hahead : Ahead env (Runs.exec (next env) (World.initial nodeId options) steps) := by
    refine Runs.invariant (fun w step hstep h => h.step hlaw w step hstep) hsteps ?_
    refine ⟨sourced_initial nodeId options, ?_⟩
    constructor
    · intro k v hv
      exact absurd hv (by simp [World.initial, Store.empty])
    · intro k v hv
      exact absurd hv (by simp [World.initial, Store.empty])
  exact ⟨hahead.rows.dominates hlaw, hahead.rows.replaysNothing hlaw⟩

end Runs

section Examples
open Reference

/-- The event at the checkpoint is skipped. -/
theorem eventKeys_sort_atCheckpoint :
    eventRecord (platform ticking)
      ((∅ : StringMap Bytes).insert (ascii "w") (buildEventKey (ascii "w") 5 7))
      ⟨eventsNs, buildEventKey (ascii "w") 5 7, ascii "\x7b\"workspace_id\":\"w\"\x7d", 0⟩ = none := by
  have hnamed : ((platform ticking).json.parse (ascii "\x7b\"workspace_id\":\"w\"\x7d")).map
      (fun json => json.getString (ascii "workspace_id") []) = some (ascii "w") := by decide +kernel
  obtain ⟨json, hjson, hname⟩ := Option.map_eq_some_iff.mp hnamed
  have hckpt : ((∅ : StringMap Bytes).insert (ascii "w") (buildEventKey (ascii "w") 5 7))[
      ascii "w"]? = some (buildEventKey (ascii "w") 5 7) := by rw [lookup_insert, if_pos rfl]
  have hskip := (eventKeys_sort (platform ticking) (ascii "w") 5 7 5 7).2
    ((∅ : StringMap Bytes).insert (ascii "w") (buildEventKey (ascii "w") 5 7))
    ⟨eventsNs, buildEventKey (ascii "w") 5 7, ascii "\x7b\"workspace_id\":\"w\"\x7d", 0⟩ json hjson
    (by rw [hname, if_neg (by decide)]) rfl hckpt
  rw [hskip, if_pos (by decide)]

/-- A clock that steps back by a second after two readings. -/
def steppingBack (i : Nat) : UInt64 := if i < 2 then 2000 else 1000

/-- The first event of a store is stamped onward, and a restart asks for nothing. -/
theorem checkpoints_dominate_restarted :
    let w := Runs.exec (next (platform steppingBack)) initial
      [.call (put (ascii "w") (ascii "a") (ascii "x")) applied,
        .restart none (ascii "node") options]
    Dominates (platform steppingBack) w.store ∧ ReplaysNothing (platform steppingBack) w.store := by
  apply checkpoints_dominate (lawful_platform steppingBack)
  refine ⟨⟨trivial, ?_⟩, trivial, trivial⟩
  intro _ request hsome items hlogs before item after hitems _
  have hone : (prepare (platform steppingBack) applied initial
      (put (ascii "w") (ascii "a") (ascii "x"))).1.map
      (fun request => (Store.restrict eventsNs request.plan.writes).length) = some 1 := by
    decide
  rw [initial, hsome, Option.map_some] at hone
  have hlength := Option.some.inj hone
  rw [hlogs.events, List.length_map, hitems, List.length_append, List.length_cons] at hlength
  obtain rfl := List.length_eq_zero_iff.mp (show before.length = 0 by omega)
  constructor
  · intro earlier hearlier
    cases hearlier
  · intro ts seq v hv
    exact absurd hv (by simp [World.initial, Store.empty])

/-- The clock steps back between two writes. -/
theorem not_dominates_steppedBack :
    ¬ Dominates (platform steppingBack) (Runs.exec (next (platform steppingBack)) initial
      [.call (put (ascii "w") (ascii "a") (ascii "x")) applied,
        .call (put (ascii "w") (ascii "b") (ascii "y")) applied]).store := by
  intro h
  have hmark : checkpointOf (platform steppingBack)
      (Runs.exec (next (platform steppingBack)) initial
        [.call (put (ascii "w") (ascii "a") (ascii "x")) applied,
          .call (put (ascii "w") (ascii "b") (ascii "y")) applied]).store (ascii "w") =
      some (buildEventKey (ascii "w") 1000 2) := by decide +kernel
  have hrow : (((Runs.exec (next (platform steppingBack)) initial
      [.call (put (ascii "w") (ascii "a") (ascii "x")) applied,
        .call (put (ascii "w") (ascii "b") (ascii "y")) applied]).store.table eventsNs)[
          buildEventKey (ascii "w") 2000 1]?).isSome = true := by decide
  obtain ⟨v, hv⟩ := Option.isSome_iff_exists.mp hrow
  exact absurd (h _ _ hmark 2000 1 v hv) (by decide)

end Examples

end PoorguyMem
