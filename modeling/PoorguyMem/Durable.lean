import PoorguyMem.Provenance
import PoorguyMem.Reference

/-!
# What the store keeps

Under steady clocks and whole batches the rows of a run determine its records: a
document row decodes to the record it was written from, and the checkpoint of a
workspace is never before one of its events. A warmup then reads back the
document rows and replays nothing.
-/

namespace PoorguyMem

open ByteString PropertyTree

variable {K : Type}

/-- The clock never goes back. -/
def Platform.Steady (env : Platform K) : Prop := ∀ i j, i ≤ j → env.clock i ≤ env.clock j

/-- Names whose workspace is free of the separators of keys. -/
def Plain (workspaceId memoryId : Bytes) : Prop :=
  workspaceId ≠ [] ∧ memoryId ≠ [] ∧ 58 ∉ workspaceId ∧ 47 ∉ workspaceId

theorem names_plain : Names Plain := ⟨fun h => h.1, fun h => h.2.1⟩

/-! ### Documents -/

/-- A record as the engine makes it: named, with its defaults in place, and dated
by a reading before `t`. -/
structure Formed (env : Platform K) (t : Nat) (r : MemoryRecord K) : Prop where
  named : Plain r.workspaceId r.id
  size : r.sizeBytes ≠ 0
  tier : r.tier ≠ []
  dated : ∃ i < t, r.updatedAtMs ≤ env.clock i

theorem Formed.mono {env : Platform K} {t t' : Nat} {r : MemoryRecord K} (h : Formed env t r)
    (ht : t ≤ t') : Formed env t' r :=
  { h with dated := h.dated.imp fun _ hi => ⟨Nat.lt_of_lt_of_le hi.1 ht, hi.2⟩ }

/-- Being formed does not depend on the fields a query updates. -/
theorem Formed.of_withoutAccess {env : Platform K} {t : Nat} {r d : MemoryRecord K}
    (h : Formed env t d) (heq : r.withoutAccess = d.withoutAccess) : Formed env t r := by
  obtain ⟨hws, hid⟩ := MemoryRecord.names_of_withoutAccess heq
  refine ⟨?_, ?_, ?_, ?_⟩
  · rw [hws, hid]
    exact h.named
  · have hsize : r.sizeBytes = d.sizeBytes := congrArg (·.sizeBytes) heq
    rw [hsize]
    exact h.size
  · have htier : r.tier = d.tier := congrArg (·.tier) heq
    rw [htier]
    exact h.tier
  · have hupdated : r.updatedAtMs = d.updatedAtMs := congrArg (·.updatedAtMs) heq
    rw [hupdated]
    exact h.dated

/-- The defaults of a formed record are in place, its last access apart. -/
theorem Formed.withoutAccess_fillDefaults {env : Platform K} {t : Nat} {r : MemoryRecord K}
    (h : Formed env t r) : (fillDefaults r).withoutAccess = r.withoutAccess := by
  rw [fillDefaults, fillSizeBytes, if_neg h.size]
  simp only [MemoryRecord.withoutAccess, if_neg h.tier]

/-- `DeserializeRecord` inverts `SerializeRecord` on the record. -/
def RoundTrips [One K] (env : Platform K) (r : MemoryRecord K) : Prop :=
  deserializeRecord env (recordText env r) = some r

instance [One K] [DecidableEq K] (env : Platform K) (r : MemoryRecord K) :
    Decidable (RoundTrips env r) := inferInstanceAs (Decidable (_ = _))

/-- The document row of a record. -/
structure Row [One K] (env : Platform K) (t : Nat) (k : Bytes) (v : StoredValue)
    (r : MemoryRecord K) : Prop where
  key : k = buildDocKey r.workspaceId r.id
  value : v.value = recordText env r
  writable : (recordTree env r).writable = true
  roundTrips : RoundTrips env r
  formed : Formed env t r

/-! ### Checkpoints -/

/-- A stamp before the cursor: its time has been read, and every stamp that is
drawn from the cursor on comes after it. -/
structure Passed (env : Platform K) (c : Cursor) (ts seq : UInt64) : Prop where
  read : ∃ i < c.tick, ts ≤ env.clock i
  drawn : seq.toNat ≤ c.localSeq ∨ ∀ j, c.tick ≤ j → ts < env.clock j

section Stamps
variable {env : Platform K} {c c' : Cursor} {ts seq : UInt64}

theorem Passed.mono (h : Passed env c ts seq) (hc : c.Before c') : Passed env c' ts seq where
  read := h.read.imp fun _ hi => ⟨Nat.lt_of_lt_of_le hi.1 hc.tick, hi.2⟩
  drawn := h.drawn.imp (fun hseq => Nat.le_trans hseq hc.seq)
    fun hlater j hj => hlater j (Nat.le_trans hc.tick hj)

/-- A new session starts its sequence anew, at a later time. -/
theorem Passed.restart (hsteady : env.Steady) (h : Passed env c ts seq)
    (hlater : ∀ i < c.tick, env.clock i < env.clock c.tick) {t : Nat} (ht : c.tick ≤ t) :
    Passed env ⟨t, 0⟩ ts seq where
  read := h.read.imp fun _ hi => ⟨Nat.lt_of_lt_of_le hi.1 ht, hi.2⟩
  drawn := by
    obtain ⟨i, hi, hts⟩ := h.read
    refine Or.inr fun j hj => ?_
    have hbefore : ts < env.clock c.tick := UInt64.lt_of_le_of_lt hts (hlater i hi)
    exact UInt64.lt_of_lt_of_le hbefore (hsteady _ _ (Nat.le_trans ht hj))

/-- Event keys stamped from the cursor on are not before a passed one. -/
theorem Passed.buildEventKey_le (hsteady : env.Steady) (h : Passed env c ts seq)
    {reading n : Nat} (hreading : c.tick ≤ reading) (hn : c.localSeq < n) (hlt : n < 2 ^ 64)
    (workspaceId : Bytes) :
    le (buildEventKey workspaceId ts seq)
      (buildEventKey workspaceId (env.clock reading) (UInt64.ofNat n)) = true := by
  refine PoorguyMem.buildEventKey_le ?_
  obtain ⟨i, hi, hts⟩ := h.read
  have hle : ts ≤ env.clock reading := UInt64.le_trans hts (hsteady i reading (by omega))
  rcases h.drawn with hseq | hlater
  · rcases UInt64.lt_or_eq_of_le hle with hlt' | heq
    · exact Or.inl hlt'
    · refine Or.inr ⟨heq, UInt64.le_iff_toNat_le.mpr ?_⟩
      rw [UInt64.toNat_ofNat_of_lt' hlt]
      omega
  · exact Or.inl (hlater reading hreading)

/-- A checkpoint row of a workspace, at the event key `mark`. -/
structure Marks (env : Platform K) (c : Cursor) (workspaceId : Bytes) (v : StoredValue)
    (mark : Bytes) : Prop where
  value : ∃ ts, v.value = env.json.print (flatTree (ckptFields workspaceId mark ts))
  workspace_ne : workspaceId ≠ []
  carried : env.json.carries workspaceId
  passed : ∃ ts seq, mark = buildEventKey workspaceId ts seq ∧ Passed env c ts seq

theorem Marks.imp {workspaceId : Bytes} {v : StoredValue} {mark : Bytes}
    (h : Marks env c workspaceId v mark)
    (himp : ∀ ts seq, Passed env c ts seq → Passed env c' ts seq) :
    Marks env c' workspaceId v mark :=
  { h with
    passed := by
      obtain ⟨ts, seq, hmark, hpassed⟩ := h.passed
      exact ⟨ts, seq, hmark, himp ts seq hpassed⟩ }

end Stamps

theorem carries_digits {env : Platform K} (hlaw : env.Lawful) {s : Bytes} (h : IsDigits s) :
    env.json.carries s :=
  hlaw.json.carries_ascii s fun b hb => by
    have := (h b hb).2
    exact UInt8.lt_iff_toNat_lt.mpr (by simp; omega)

theorem carries_buildEventKey {env : Platform K} (hlaw : env.Lawful) {workspaceId : Bytes}
    (h : env.json.carries workspaceId) (ts seq : UInt64) :
    env.json.carries (buildEventKey workspaceId ts seq) := by
  have ascii_ok : ∀ {x : Bytes}, (∀ c ∈ x, c < 128) → env.json.carries x :=
    fun hx => hlaw.json.carries_ascii _ hx
  have digits_ok : ∀ n : UInt64, env.json.carries (zeroPadUint64 n) :=
    fun n => carries_digits hlaw (isDigits_zeroPad 20 n.toNat)
  have join := hlaw.json.carries_append
  exact join _ _ (join _ _ (join _ _ (join _ _ (join _ _ (ascii_ok (by decide +kernel)) h)
    (ascii_ok (by decide +kernel))) (digits_ok ts)) (ascii_ok (by decide +kernel))) (digits_ok seq)

/-- The text of a checkpoint is read back as it was written. -/
theorem rowCheckpoint_of_value {env : Platform K} (hlaw : env.Lawful) {workspaceId : Bytes}
    (hws : workspaceId ≠ []) (hcarried : env.json.carries workspaceId) {ts seq date : UInt64}
    {entry : KeyValueEntry} (hvalue : entry.value = env.json.print
      (flatTree (ckptFields workspaceId (buildEventKey workspaceId ts seq) date))) :
    rowCheckpoint env entry = some (workspaceId, buildEventKey workspaceId ts seq) := by
  generalize hmark : buildEventKey workspaceId ts seq = mark at hvalue ⊢
  have hne : mark ≠ [] := by simp [← hmark, buildEventKey, ascii]
  have hnames : FieldNames ((ckptFields workspaceId mark date).map Prod.fst) := fieldNames_ckptKeys
  have hcarries : ∀ x ∈ (flatTree (ckptFields workspaceId mark date)).strings,
      env.json.carries x := by
    have hkeys : ∀ key ∈ ckptKeys, ∀ b ∈ key, b < 128 := by
      have hall : (ckptKeys.all fun key => key.all fun b => b < 128) = true := by decide +kernel
      simpa using hall
    refine strings_flatTree hnames (hlaw.json.carries_ascii [] (by simp)) ?_
    intro kv hkv
    refine ⟨hlaw.json.carries_ascii _ (hkeys _ (List.mem_map_of_mem hkv)), ?_⟩
    simp only [ckptFields, List.mem_cons, List.not_mem_nil, or_false] at hkv
    rcases hkv with rfl | rfl | rfl
    · exact hcarried
    · rw [← hmark]
      exact carries_buildEventKey hlaw hcarried ts seq
    · exact carries_digits hlaw (isDigits_decimal _)
  have hread : (flatTree (ckptFields workspaceId mark date)).getString (ascii "workspace_id") [] =
      workspaceId := getString_flatTree hnames (by simp [ckptFields])
  have hkey : (flatTree (ckptFields workspaceId mark date)).getString (ascii "event_key") [] =
      mark := getString_flatTree hnames (by simp [ckptFields])
  rw [rowCheckpoint, hvalue, hlaw.json.parse_print _ (writable_flatTree hnames) hcarries,
    Option.bind_some]
  dsimp only
  rw [hread, hkey, if_neg hws, if_neg (by simp [hws, hne])]

/-- A checkpoint row is read back as what it marks. -/
theorem Marks.rowCheckpoint {env : Platform K} (hlaw : env.Lawful) {c : Cursor}
    {workspaceId : Bytes} {v : StoredValue} {mark : Bytes} (h : Marks env c workspaceId v mark)
    {entry : KeyValueEntry} (hvalue : entry.value = v.value) :
    rowCheckpoint env entry = some (workspaceId, mark) := by
  obtain ⟨date, hv⟩ := h.value
  obtain ⟨ts, seq, rfl, -⟩ := h.passed
  exact rowCheckpoint_of_value hlaw h.workspace_ne h.carried (hvalue.trans hv)

/-! ### Events -/

/-- The events of the log are not beyond the checkpoints of their workspaces. -/
structure Covered (env : Platform K) (c : Cursor) (eventRows ckptRows : Table) : Prop where
  ckpts : ∀ (k : Bytes) v, ckptRows[k]? = some v → ∃ workspaceId mark,
    k = buildCkptKey workspaceId ∧ Marks env c workspaceId v mark
  events : ∀ (k : Bytes) v, eventRows[k]? = some v → ∃ item : LogItem K, ∃ ckpt mark,
    k = item.eventKey env ∧ v.value = env.json.print (item.eventTree env) ∧
      ckptRows[buildCkptKey item.record.workspaceId]? = some ckpt ∧
      Marks env c item.record.workspaceId ckpt mark ∧ le k mark = true

theorem Covered.imp {env : Platform K} {c c' : Cursor} {events ckpts : Table}
    (h : Covered env c events ckpts)
    (himp : ∀ ts seq, Passed env c ts seq → Passed env c' ts seq) :
    Covered env c' events ckpts where
  ckpts k v hv := by
    obtain ⟨workspaceId, mark, hk, hmarks⟩ := h.ckpts k v hv
    exact ⟨workspaceId, mark, hk, hmarks.imp himp⟩
  events k v hv := by
    obtain ⟨item, ckpt, mark, hk, hvalue, hckpt, hmarks, hle⟩ := h.events k v hv
    exact ⟨item, ckpt, mark, hk, hvalue, hckpt, hmarks.imp himp, hle⟩

theorem Covered.mono {env : Platform K} {c c' : Cursor} {events ckpts : Table}
    (h : Covered env c events ckpts) (hc : c.Before c') : Covered env c' events ckpts :=
  h.imp fun _ _ hpassed => hpassed.mono hc

/-- The cursor right after an item is stamped. -/
def LogItem.cursor (item : LogItem K) : Cursor := ⟨item.reading + 1, item.seq⟩

/-- What the log of a record needs for its event to be covered. -/
structure Loggable (env : Platform K) (item : LogItem K) : Prop where
  workspace_ne : item.record.workspaceId ≠ []
  carried : env.json.carries item.record.workspaceId
  dated : item.record.updatedAtMs ≤ env.clock item.reading
  seq_lt : item.seq < 2 ^ 64

section Log
variable {env : Platform K} {c c' : Cursor} {events ckpts : Table} {item : LogItem K}

theorem Loggable.eventMs (h : Loggable env item) : item.eventMs env = env.clock item.reading := by
  change (if item.record.updatedAtMs ≤ env.clock item.reading then env.clock item.reading
    else item.record.updatedAtMs) = _
  exact if_pos h.dated

theorem Loggable.marks (h : Loggable env item) : Marks env item.cursor item.record.workspaceId
    ⟨env.json.print (item.ckptTree env), item.ckptTs⟩ (item.eventKey env) where
  value := ⟨item.ckptTs, rfl⟩
  workspace_ne := h.workspace_ne
  carried := h.carried
  passed := by
    refine ⟨item.eventMs env, UInt64.ofNat item.seq, rfl, ?_, Or.inl ?_⟩
    · exact ⟨item.reading, Nat.lt_succ_self _, by rw [h.eventMs]; exact UInt64.le_refl _⟩
    · rw [UInt64.toNat_ofNat_of_lt' h.seq_lt]
      exact Nat.le_refl _

/-- An item that is stamped after the cursor moves the checkpoint of its workspace
past every event of it. -/
theorem Covered.extend (hsteady : env.Steady) (h : Covered env c events ckpts)
    (hlog : Loggable env item) (htick : c.tick ≤ item.reading) (hseq : c.localSeq < item.seq) :
    Covered env item.cursor (events.applyEntry (item.eventEntry env))
      (ckpts.applyEntry (item.ckptEntry env)) := by
  have hbefore : c.Before item.cursor := ⟨Nat.le_succ_of_le htick, Nat.le_of_lt hseq⟩
  have hmarks := hlog.marks
  let key := buildCkptKey item.record.workspaceId
  let row : StoredValue := ⟨env.json.print (item.ckptTree env), item.ckptTs⟩
  have hckpts : ∀ k : Bytes, (ckpts.applyEntry (item.ckptEntry env))[k]? =
      if key = k then some row else ckpts[k]? :=
    fun k => lookup_insert ckpts key k row
  refine ⟨fun k v hv => ?_, fun k v hv => ?_⟩
  · rw [hckpts] at hv
    split at hv
    · rename_i hkey
      obtain rfl := Option.some.inj hv
      exact ⟨_, _, hkey.symm, hmarks⟩
    · obtain ⟨workspaceId, mark, hk, hold⟩ := h.ckpts k v hv
      exact ⟨workspaceId, mark, hk, hold.imp fun _ _ hp => hp.mono hbefore⟩
  · have hevents : (events.applyEntry (item.eventEntry env))[k]? =
        if item.eventKey env = k then
          some ⟨env.json.print (item.eventTree env), item.eventMs env⟩ else events[k]? :=
      lookup_insert events (item.eventKey env) k _
    rw [hevents] at hv
    split at hv
    · rename_i hkey
      obtain rfl := Option.some.inj hv
      refine ⟨item, row, _, hkey.symm, rfl, ?_, hmarks, ?_⟩
      · rw [hckpts, if_pos rfl]
      · rw [hkey]
        exact le_refl k
    · obtain ⟨old, ckpt, mark, hk, hvalue, hckpt, hold, hle⟩ := h.events k v hv
      by_cases hws : item.record.workspaceId = old.record.workspaceId
      · -- the new checkpoint is not before the one that covered the event
        refine ⟨old, row, item.eventKey env, hk, hvalue, ?_, ?_, ?_⟩
        · rw [hckpts, if_pos (by rw [← hws])]
        · rw [← hws]
          exact hmarks
        · obtain ⟨ts, seq, hmark, hpassed⟩ := hold.passed
          refine le_trans hle ?_
          rw [hmark, ← hws, LogItem.eventKey, hlog.eventMs]
          exact hpassed.buildEventKey_le hsteady htick hseq hlog.seq_lt _
      · refine ⟨old, ckpt, mark, hk, hvalue, ?_, hold.imp fun _ _ hp => hp.mono hbefore, hle⟩
        rw [hckpts, if_neg fun hkey => hws (buildCkptKey_inj hkey)]
        exact hckpt

/-- A batch of items that are stamped in order keeps the events covered. -/
theorem Covered.applyItems (hsteady : env.Steady) {items : List (LogItem K)}
    (h : Covered env c events ckpts) (hlog : ∀ item ∈ items, Loggable env item)
    (hstamped : ∀ item ∈ items, item.Stamped c c')
    (hordered : items.Pairwise fun a b => a.reading < b.reading ∧ a.seq < b.seq)
    (hc : c.Before c') :
    Covered env c' (events.apply (items.map (·.eventEntry env)))
      (ckpts.apply (items.map (·.ckptEntry env))) := by
  induction items generalizing c events ckpts with
  | nil => exact h.mono hc
  | cons item items ih =>
    have hstamp := hstamped item List.mem_cons_self
    obtain ⟨hhead, htail⟩ := List.pairwise_cons.mp hordered
    refine ih (h.extend hsteady (hlog item List.mem_cons_self) hstamp.after_tick
      hstamp.after_seq) (fun i hi => hlog i (List.mem_cons_of_mem _ hi)) ?_ htail
      ⟨hstamp.before_tick, hstamp.before_seq⟩
    intro i hi
    have hi' := hstamped i (List.mem_cons_of_mem _ hi)
    exact ⟨(hhead i hi).1, hi'.before_tick, (hhead i hi).2, hi'.before_seq⟩

end Log

/-! ### The replay -/

/-- The checkpoint of a workspace that only one row names. -/
theorem lookup_readCheckpoints {env : Platform K} {entries : List KeyValueEntry}
    {workspaceId mark : Bytes} {entry : KeyValueEntry} (hmem : entry ∈ entries)
    (hrow : rowCheckpoint env entry = some (workspaceId, mark))
    (honly : ∀ e ∈ entries, ∀ mark', rowCheckpoint env e = some (workspaceId, mark') →
      mark' = mark) :
    (readCheckpoints env entries)[workspaceId]? = some mark := by
  induction entries using List.reverseRecOn with
  | nil => cases hmem
  | append_singleton rest last ih =>
    rw [readCheckpoints, List.foldl_append, List.foldl_cons, List.foldl_nil, ← readCheckpoints]
    have hrest : entry ∈ rest → (readCheckpoints env rest)[workspaceId]? = some mark :=
      fun h => ih h fun e he => honly e (List.mem_append_left _ he)
    rcases hlast : rowCheckpoint env last with _ | ⟨workspace, eventKey⟩ <;> dsimp only
    · rcases List.mem_append.mp hmem with h | h
      · exact hrest h
      · cases hrow.symm.trans (List.mem_singleton.mp h ▸ hlast)
    · rw [lookup_insert]
      by_cases hws : workspace = workspaceId
      · subst hws
        rw [if_pos rfl, honly last (by simp) eventKey hlast]
      · rw [if_neg hws]
        rcases List.mem_append.mp hmem with h | h
        · exact hrest h
        · cases hrow.symm.trans (List.mem_singleton.mp h ▸ hlast)
          exact absurd rfl hws

section Replay
variable {env : Platform K} {c : Cursor} {store : Store}

/-- A warmup reads the checkpoints of the store back. -/
theorem Covered.lookup_storedCheckpoints (hlaw : env.Lawful)
    (h : Covered env c (store.table eventsNs) (store.table projectionCkptNs))
    {workspaceId mark : Bytes} {v : StoredValue}
    (hv : (store.table projectionCkptNs)[buildCkptKey workspaceId]? = some v)
    (hmarks : Marks env c workspaceId v mark) :
    (storedCheckpoints env store)[workspaceId]? = some mark := by
  let entry : KeyValueEntry := ⟨projectionCkptNs, buildCkptKey workspaceId, v.value, v.ts⟩
  have hmem : entry ∈ (store.scan projectionCkptNs [] [] 0).entries :=
    Store.mem_scan_all.mpr ⟨rfl, hv⟩
  refine lookup_readCheckpoints hmem (hmarks.rowCheckpoint hlaw rfl) ?_
  intro e he mark' hrow
  obtain ⟨-, hrowv⟩ := Store.mem_scan_all.mp he
  obtain ⟨other, m, hk, hother⟩ := h.ckpts _ _ hrowv
  have hread : rowCheckpoint env e = some (other, m) := hother.rowCheckpoint hlaw rfl
  obtain ⟨rfl, rfl⟩ := Prod.mk.inj (Option.some.inj (hrow.symm.trans hread))
  rw [hk, hv] at hrowv
  have hvalue : v.value = e.value := congrArg StoredValue.value (Option.some.inj hrowv)
  have hsame := hmarks.rowCheckpoint hlaw hvalue.symm
  exact (Prod.mk.inj (Option.some.inj (hrow.symm.trans hsame))).2

/-- A warmup skips every event. -/
theorem Covered.eventRecord_eq_none [One K] (hlaw : env.Lawful)
    (h : Covered env c (store.table eventsNs) (store.table projectionCkptNs))
    {event : KeyValueEntry} (hevent : event ∈ (store.scan eventsNs [] [] 0).entries) :
    eventRecord env (storedCheckpoints env store) event = none := by
  obtain ⟨-, hrow⟩ := Store.mem_scan_all.mp hevent
  obtain ⟨item, ckpt, mark, -, hvalue, hckpt, hmarks, hle⟩ := h.events _ _ hrow
  change event.value = _ at hvalue
  rw [eventRecord, hvalue]
  rcases hjson : env.json.parse (env.json.print (item.eventTree env)) with _ | json
  · rfl
  · have hws := (parse_eventTree hlaw item hjson).1
    have hcovered : isCovered (storedCheckpoints env store) item.record.workspaceId
        event.key = true := by
      rw [isCovered, h.lookup_storedCheckpoints hlaw hckpt hmarks]
      exact hle
    rw [Option.bind_some]
    dsimp only
    rw [hws, if_neg hmarks.workspace_ne, if_pos (Or.inr hcovered)]

/-- A warmup that skips every event ends with the rows it loaded. -/
theorem recovered_eq_of_skipped [Field K] [LinearOrder K]
    (h : ∀ e ∈ (store.scan eventsNs [] [] 0).entries,
      eventRecord env (storedCheckpoints env store) e = none) :
    recovered env store = loadedRows env store := by
  have loop : ∀ (events : List KeyValueEntry) (s : Resident K),
      (∀ e ∈ events, eventRecord env (storedCheckpoints env store) e = none) →
      events.foldl (replayEvent env (storedCheckpoints env store)) s = s := by
    intro events
    induction events with
    | nil => exact fun s _ => rfl
    | cons e rest ih =>
      intro s hnone
      have hskip : replayEvent env (storedCheckpoints env store) s e = s := by
        rw [replayEvent, hnone e List.mem_cons_self]
      rw [List.foldl_cons, hskip]
      exact ih s fun e' he' => hnone e' (List.mem_cons_of_mem _ he')
  exact loop _ _ h

theorem Covered.recovered_eq [Field K] [LinearOrder K] (hlaw : env.Lawful)
    (h : Covered env c (store.table eventsNs) (store.table projectionCkptNs)) :
    recovered env store = loadedRows env store :=
  recovered_eq_of_skipped fun _ he => h.eventRecord_eq_none hlaw he

end Replay

/-! ### The store of a run -/

/-- Documents decode, and no event is beyond its checkpoint. -/
structure Durable [One K] (env : Platform K) (w : World K) : Prop where
  docs : ∀ (k : Bytes) v, (w.store.table docNs)[k]? = some v → ∃ r, Row env w.tick k v r
  log : Covered env w.cursor (w.store.table eventsNs) (w.store.table projectionCkptNs)

section Stores
variable [Field K] [LinearOrder K] {env : Platform K} {w w' : World K}

omit [LinearOrder K] in
theorem durable_initial (nodeId : Bytes) (options : MemoryEngineOptions K) :
    Durable env (World.initial nodeId options) where
  docs k v hv := absurd hv (by simp [World.initial, Store.empty])
  log :=
    { ckpts := fun k v hv => absurd hv (by simp [World.initial, Store.empty])
      events := fun k v hv => absurd hv (by simp [World.initial, Store.empty]) }

omit [LinearOrder K] in
/-- `Durable` depends on three tables of the store, at any later cursor. -/
theorem Durable.of_tables (h : Durable env w)
    (htable : ∀ ns, ns ≠ routeMetaNs → w'.store.table ns = w.store.table ns)
    (hc : w.cursor.Before w'.cursor) : Durable env w' where
  docs k v hv := by
    rw [htable _ docNs_ne_routeMetaNs] at hv
    obtain ⟨r, hr⟩ := h.docs k v hv
    exact ⟨r, { hr with formed := hr.formed.mono hc.tick }⟩
  log := by
    rw [htable _ eventsNs_ne_routeMetaNs, htable _ projectionCkptNs_ne_routeMetaNs]
    exact h.log.mono hc

/-- A restart finds the same rows, and every stamp it draws comes after theirs. -/
theorem Durable.restart (hsteady : env.Steady) (h : Durable env w) (hr : Restarted env w w')
    (hlater : ∀ i < w.tick, env.clock i < env.clock w.tick) : Durable env w' where
  docs k v hv := by
    rw [hr.store] at hv
    obtain ⟨r, hrow⟩ := h.docs k v hv
    exact ⟨r, { hrow with formed := hrow.formed.mono hr.tick }⟩
  log := by
    have hcursor : w'.cursor = ⟨w'.tick, 0⟩ := by rw [World.cursor, hr.seq]
    rw [hr.store, hcursor]
    exact h.log.imp fun _ _ hpassed => hpassed.restart hsteady hlater hr.tick

variable {call : Call K} {c : Cursor} {plan : Plan K} {items : List (LogItem K)}

theorem Drafted.loggable (hlaw : env.Lawful) (hsteady : env.Steady)
    (hd : Drafted env w call c plan items)
    (hitems : ∀ item ∈ items, Formed env item.reading item.record ∧ RoundTrips env item.record)
    (hseq : c.localSeq < 2 ^ 64) : ∀ item ∈ items, Loggable env item := by
  intro item hitem
  obtain ⟨hformed, hround⟩ := hitems item hitem
  obtain ⟨-, hcarries⟩ := deserialize_serialize hlaw (hd.logs.writable item hitem) hround
  obtain ⟨i, hi, hdated⟩ := hformed.dated
  refine ⟨hformed.named.1, ?_, ?_, ?_⟩
  · have hfield : (ascii "workspace_id", item.record.workspaceId) ∈ recordFields env item.record := by
      simp [recordFields]
    exact carries_field hcarries hfield
  · exact UInt64.le_trans hdated (hsteady i _ (Nat.le_of_lt hi))
  · exact Nat.lt_of_le_of_lt (hd.logs.stamped item hitem).before_seq hseq

/-- A batch of formed records keeps the store durable, applied whole or not at all. -/
theorem Durable.commit (hlaw : env.Lawful) (hsteady : env.Steady) (h : Durable env w)
    (hd : Drafted env w call c plan items)
    (hitems : ∀ item ∈ items, Formed env item.reading item.record ∧ RoundTrips env item.record)
    (hseq : c.localSeq < 2 ^ 64) {outcome : BatchOutcome} (hwhole : outcome.Whole) :
    Durable env ((w.atCursor c).commit outcome plan) := by
  by_cases hok : outcome.ok = true
  · have htable : ∀ ns, ((w.atCursor c).commit outcome plan).store.table ns =
        (w.store.table ns).apply (Store.restrict ns plan.writes) := by
      intro ns
      refine (congrArg (Store.table · ns) (Store.batchWrite_of_ok w.store hok _)).trans ?_
      exact Store.table_apply ..
    constructor
    · intro k v hv
      rw [htable, hd.logs.docs] at hv
      rcases Table.lookup_apply hv with hold | ⟨e, he, hop, rfl, rfl⟩
      · obtain ⟨r, hr⟩ := h.docs k v hold
        exact ⟨r, { hr with formed := hr.formed.mono hd.before.tick }⟩
      · obtain ⟨item, hitem, rfl⟩ := List.mem_map.mp he
        obtain ⟨hformed, hround⟩ := hitems item hitem
        have hw := hd.logs.writable item hitem
        have htick := Nat.le_of_lt (hd.logs.stamped item hitem).before_tick
        unfold LogItem.record at hformed hround hw
        unfold LogItem.docEntry at hop ⊢
        split at hop
        · rename_i r hchange
          rw [hchange] at hformed hround hw
          exact ⟨r, rfl, rfl, hw, hround, hformed.mono htick⟩
        · cases hop
    · rw [htable, htable, hd.logs.events, hd.logs.ckpts]
      exact h.log.applyItems hsteady (hd.loggable hlaw hsteady hitems hseq) hd.logs.stamped
        hd.logs.ordered hd.before
  · refine h.of_tables (fun ns _ => ?_) hd.before
    refine congrArg (Store.table · ns) ?_
    exact Store.batchWrite_of_whole_failed _ hwhole (by simpa using hok) _

end Stores

end PoorguyMem
