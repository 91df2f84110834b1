import PoorguyMem.SequenceNumbers

/-!
# What a failed call leaves

A call whose batch fails has drawn sequence numbers, and a compaction has noted
its time and whether capacity is blocked. Two worlds that differ in these, and
in their log rows, reply alike from there on, whatever is called.
-/

namespace PoorguyMem

open ByteString Throwing

variable {K : Type}

/-! ### Worlds -/

/-- Two worlds that differ in the trace and the log rows of failed calls alone. -/
structure Twin (w v : World K) : Prop where
  tick : w.tick = v.tick
  engine : ∃ trace, v.engine = w.engine.withTrace trace
  tables : ∀ ns, ns ∉ logNamespaces → w.store.table ns = v.store.table ns

theorem docNs_notMem_log : docNs ∉ logNamespaces := by decide

theorem Twin.commit {w v : World K} (h : Twin w v) (outcome : BatchOutcome) {p q : Plan K}
    (hplan : p.Alike q) : Twin (w.commit outcome p) (v.commit outcome q) where
  tick := h.tick
  engine := h.engine
  tables ns hns := by
    change (w.store.batchWrite outcome p.writes).table ns =
      (v.store.batchWrite outcome q.writes).table ns
    rw [Store.table_batchWrite, Store.table_batchWrite, h.tables ns hns, hplan.writes.rows ns hns]

theorem Twin.atCursor {w v : World K} (h : Twin w v) {c d : Cursor} (hcd : SameTick c d) :
    Twin (w.atCursor c) (v.atCursor d) where
  tick := hcd
  engine := by
    obtain ⟨trace, htrace⟩ := h.engine
    refine ⟨{ trace with localSeq := d.localSeq, gcLastRunMs := trace.gcLastRunMs }, ?_⟩
    change { v.engine with localSeq := d.localSeq } = _
    rw [htrace]
    rfl
  tables := h.tables

section Steps
variable [Field K] [LinearOrder K] (env : Platform K) {w v : World K}

omit [LinearOrder K] in
theorem Twin.loadRecord (h : Twin w v) (workspaceId memoryId : Bytes) :
    PoorguyMem.loadRecord env v.engine v.store.reader workspaceId memoryId =
      PoorguyMem.loadRecord env w.engine w.store.reader workspaceId memoryId := by
  obtain ⟨trace, htrace⟩ := h.engine
  have hget : v.store.reader.get docNs = w.store.reader.get docNs := by
    funext key
    change v.store.get docNs key = w.store.get docNs key
    rw [Store.get, Store.get, h.tables docNs docNs_notMem_log]
  rw [PoorguyMem.loadRecord, PoorguyMem.loadRecord, htrace, hget]
  rfl

theorem Twin.settleWrite (h : Twin w v) (route : BatchOutcome) (input : WriteInput K)
    {d e : WriteDraft K} (hde : d.Alike e) :
    Twin (PoorguyMem.settleWrite env route input d w)
      (PoorguyMem.settleWrite env route input e v) := by
  obtain ⟨trace, htrace⟩ := h.engine
  have hnow : e.nowMs = d.nowMs := by rw [hde.rest]
  have hresident : v.engine.toResident = w.engine.toResident := by
    rw [htrace]
    rfl
  have hlimit : v.engine.residentLimitBytes = w.engine.residentLimitBytes := by
    rw [htrace]
    rfl
  unfold PoorguyMem.settleWrite
  rw [hnow, hresident, hlimit, ← h.tick, hde.plan.applyInMemory]
  constructor
  · rfl
  · refine ⟨trace, ?_⟩
    dsimp only
    rw [htrace]
    rfl
  · intro ns hns
    dsimp only
    rw [Store.table_batchWrite, Store.table_batchWrite, h.tables ns hns]

theorem Twin.settlePin (h : Twin w v) {p q : Plan K} (hpq : p.Alike q) :
    Twin (PoorguyMem.settlePin env p w) (PoorguyMem.settlePin env q v) := by
  obtain ⟨trace, htrace⟩ := h.engine
  have hresident : v.engine.toResident = w.engine.toResident := by
    rw [htrace]
    rfl
  have hlimit : v.engine.residentLimitBytes = w.engine.residentLimitBytes := by
    rw [htrace]
    rfl
  unfold PoorguyMem.settlePin
  rw [hresident, hlimit, ← h.tick, hpq.applyInMemory]
  constructor
  · rfl
  · refine ⟨trace, ?_⟩
    dsimp only
    rw [htrace]
    rfl
  · exact h.tables

theorem Twin.settleCompact (h : Twin w v) {p q : Plan K} (hpq : p.Alike q) :
    Twin (PoorguyMem.settleCompact env p w) (PoorguyMem.settleCompact env q v) := by
  obtain ⟨trace, htrace⟩ := h.engine
  constructor
  · exact h.tick
  · refine ⟨trace, ?_⟩
    rw [PoorguyMem.settleCompact, PoorguyMem.settleCompact, htrace, hpq.removals]
    dsimp only
    rw [← hpq.applyInMemory]
    rfl
  · exact h.tables

/-- What a compaction notes at its end is the same on both sides. -/
theorem Twin.closeCompact (h : Twin w v) (workspaceId : Bytes) (nowMs : UInt64)
    (usage : StoreUsage) :
    Twin (PoorguyMem.closeCompact workspaceId nowMs usage w)
        (PoorguyMem.closeCompact workspaceId nowMs usage v) ∧
      (PoorguyMem.closeCompact workspaceId nowMs usage v).engine.capacityBlocked =
        (PoorguyMem.closeCompact workspaceId nowMs usage w).engine.capacityBlocked := by
  obtain ⟨trace, htrace⟩ := h.engine
  have hcap : (PoorguyMem.closeCompact workspaceId nowMs usage v).engine.capacityBlocked =
      (PoorguyMem.closeCompact workspaceId nowMs usage w).engine.capacityBlocked := by
    rw [PoorguyMem.closeCompact, PoorguyMem.closeCompact, htrace]
    rfl
  constructor
  · constructor
    · exact h.tick
    · refine ⟨⟨trace.localSeq, nowMs,
        (PoorguyMem.closeCompact workspaceId nowMs usage w).engine.capacityBlocked⟩, ?_⟩
      rw [← hcap, PoorguyMem.closeCompact, PoorguyMem.closeCompact, htrace]
      rfl
    · exact h.tables
  · exact hcap

/-- Calls that reply alike and leave twins. -/
def Parallel {O : Type} (a b : World K × O) : Prop := a.2 = b.2 ∧ Twin a.1 b.1

theorem Twin.write (h : Twin w v) (fate : Fate) {input : WriteInput K}
    (hids : ∀ recIn ∈ input.records, recIn.recordId ≠ []) :
    Parallel (PoorguyMem.write env fate w input) (PoorguyMem.write env fate v input) := by
  obtain ⟨trace, htrace⟩ := h.engine
  have hc : SameTick w.cursor v.cursor := h.tick
  by_cases hws : input.workspaceId = []
  · rw [PoorguyMem.write, PoorguyMem.write, if_pos hws, if_pos hws]
    exact ⟨rfl, h⟩
  by_cases hrecs : input.records = []
  · rw [PoorguyMem.write, PoorguyMem.write, if_neg hws, if_neg hws, if_pos hrecs, if_pos hrecs]
    exact ⟨rfl, h⟩
  rw [PoorguyMem.write, PoorguyMem.write, if_neg hws, if_neg hws, if_neg hrecs, if_neg hrecs,
    htrace]
  rcases couples_writeDraft env w.engine trace hids hc with ⟨left, right, hde, hst⟩ | ⟨left, right, hst⟩
  · rename_i d e c c'
    rw [left, right]
    dsimp only
    by_cases hd : d.plan.writes = []
    · rw [if_pos hd, if_pos (hde.plan.writes.empty.mp hd)]
      constructor
      · dsimp only
        rw [hde.output, hde.rest]
      · exact h.atCursor hst
    · rw [if_neg hd, if_neg fun he => hd (hde.plan.writes.empty.mpr he)]
      have hcommit := (h.atCursor hst).commit fate.main hde.plan
      by_cases hok : fate.main.ok = true
      · rw [if_pos hok, if_pos hok]
        have hsettled := hcommit.settleWrite env fate.route input hde
        constructor
        · obtain ⟨trace', htrace'⟩ := hsettled.engine
          dsimp only
          rw [hde.output, htrace']
          rfl
        · exact hsettled
      · rw [if_neg hok, if_neg hok]
        constructor
        · dsimp only
          rw [hde.output]
        · exact hcommit
  · rw [left, right]
    exact ⟨rfl, h.atCursor hst⟩

theorem Twin.pin (h : Twin w v) (fate : Fate) (workspaceId memoryId : Bytes) (flag : Bool) :
    Parallel (PoorguyMem.pin env fate w workspaceId memoryId flag)
      (PoorguyMem.pin env fate v workspaceId memoryId flag) := by
  obtain ⟨trace, htrace⟩ := h.engine
  have hload := h.loadRecord env workspaceId memoryId
  have hc : SameTick w.cursor v.cursor := h.tick
  rw [htrace] at hload
  rw [PoorguyMem.pin, PoorguyMem.pin, htrace]
  rcases couples_pinDraft env w.engine trace hload flag hc with
    ⟨left, right, hplans, hst⟩ | ⟨left, right, hst⟩
  · rename_i a b c c'
    rw [left, right]
    rcases a with error | p <;> rcases b with error' | q
    · dsimp only
      rw [show error = error' from hplans]
      exact ⟨rfl, h.atCursor hst⟩
    · cases hplans
    · cases hplans
    · dsimp only
      have hcommit := (h.atCursor hst).commit fate.main (show p.Alike q from hplans)
      by_cases hok : fate.main.ok = true
      · rw [if_pos hok, if_pos hok]
        exact ⟨rfl, hcommit.settlePin env hplans⟩
      · rw [if_neg hok, if_neg hok]
        exact ⟨rfl, hcommit⟩
  · rw [left, right]
    exact ⟨rfl, h.atCursor hst⟩

theorem Twin.compactInternal (h : Twin w v) (fate : Fate) (workspaceId : Bytes) (force : Bool) :
    Parallel (PoorguyMem.compactInternal env fate w workspaceId force)
      (PoorguyMem.compactInternal env fate v workspaceId force) := by
  obtain ⟨trace, htrace⟩ := h.engine
  have hc : SameTick w.cursor v.cursor := h.tick
  unfold PoorguyMem.compactInternal
  dsimp only
  rw [htrace, MemoryEngine.options_withTrace]
  by_cases hskip : (!force && !isOverHighWatermark w.engine.options fate.usageBefore) = true
  · rw [if_pos hskip, if_pos hskip]
    exact ⟨rfl, h⟩
  rw [if_neg hskip, if_neg hskip]
  rcases couples_compactDraft env w.engine trace workspaceId hc with
    ⟨left, right, ⟨hnow, hplan⟩, hst⟩ | ⟨left, right, hst⟩
  · rename_i d e c c'
    obtain ⟨nowMs, p⟩ := d
    obtain ⟨nowMs', q⟩ := e
    cases hnow
    rw [left, right]
    dsimp only at hplan ⊢
    have hcursor := h.atCursor hst
    have hcommit := hcursor.commit fate.main hplan
    have hsettled : Twin
        (if (decide (p.writes ≠ []) && fate.main.ok) = true then
          PoorguyMem.settleCompact env p (if p.writes = [] then w.atCursor c
            else (w.atCursor c).commit fate.main p)
          else if p.writes = [] then w.atCursor c else (w.atCursor c).commit fate.main p)
        (if (decide (q.writes ≠ []) && fate.main.ok) = true then
          PoorguyMem.settleCompact env q (if q.writes = [] then v.atCursor c'
            else (v.atCursor c').commit fate.main q)
          else if q.writes = [] then v.atCursor c' else (v.atCursor c').commit fate.main q) := by
      by_cases hp : p.writes = []
      · have hq := hplan.writes.empty.mp hp
        simpa [hp, hq] using hcursor
      · have hq : q.writes ≠ [] := fun hq => hp (hplan.writes.empty.mpr hq)
        by_cases hok : fate.main.ok = true
        · simpa [hp, hq, hok] using hcommit.settleCompact env hplan
        · simpa [hp, hq, hok] using hcommit
    obtain ⟨hclose, hcap⟩ := hsettled.closeCompact workspaceId nowMs fate.usageAfter
    constructor
    · dsimp only
      rw [hcap, hplan.upserts, hplan.removals]
      simp only [hplan.writes.empty, ne_eq]
    · exact hclose
  · rw [left, right]
    exact ⟨rfl, h.atCursor hst⟩

theorem Twin.query (h : Twin w v) (fate : Fate) (input : QueryInput K) :
    (PoorguyMem.perform env fate w (.query input)).2 =
        (PoorguyMem.perform env fate v (.query input)).2 ∧
      Twin (PoorguyMem.perform env fate w (.query input)).1
        (PoorguyMem.perform env fate v (.query input)).1 := by
  obtain ⟨trace, htrace⟩ := h.engine
  unfold PoorguyMem.perform PoorguyMem.query
  dsimp only
  by_cases hws : input.workspaceId = []
  · rw [if_pos hws, if_pos hws]
    exact ⟨rfl, h⟩
  rw [if_neg hws, if_neg hws, htrace, ← h.tick, MemoryEngine.toResident_withTrace]
  have hadmits : admitHits (w.engine.withTrace trace) = admitHits w.engine := by
    funext input nowMs used hits
    induction hits generalizing used with
    | nil => rfl
    | cons hit hits ih => rw [admitHits, admitHits, ih, ih, MemoryEngine.toResident_withTrace]
  rw [hadmits]
  constructor
  · rfl
  · constructor
    · rfl
    · exact ⟨trace, rfl⟩
    · exact h.tables

/-- The record ids of a call are its caller's. -/
def Call.NamesRecords : Call K → Prop
  | .write input => ∀ recIn ∈ input.records, recIn.recordId ≠ []
  | _ => True

theorem Twin.perform (h : Twin w v) (fate : Fate) {call : Call K} (hids : call.NamesRecords) :
    (PoorguyMem.perform env fate w call).2 = (PoorguyMem.perform env fate v call).2 ∧
      Twin (PoorguyMem.perform env fate w call).1 (PoorguyMem.perform env fate v call).1 := by
  cases call with
  | write input =>
    obtain ⟨hreply, htwin⟩ := h.write env fate hids
    constructor
    · exact congrArg (fun output => Option.elim output Reply.threw Reply.write) hreply
    · exact htwin
  | query input => exact h.query env fate input
  | pin workspaceId memoryId flag =>
    obtain ⟨hreply, htwin⟩ := h.pin env fate workspaceId memoryId flag
    constructor
    · exact congrArg (fun result => Option.elim result Reply.threw Reply.pin) hreply
    · exact htwin
  | compact workspaceId =>
    obtain ⟨hreply, htwin⟩ := h.compactInternal env fate workspaceId true
    constructor
    · exact congrArg (fun output => Option.elim output Reply.threw Reply.compact) hreply
    · exact htwin
  | gc =>
    obtain ⟨hreply, htwin⟩ := h.compactInternal env fate [] false
    constructor
    · exact congrArg (fun output => Option.elim output Reply.threw Reply.compact) hreply
    · exact htwin

/-! ### Failed calls -/

/-- Nothing but the trace has changed. -/
structure Untouched (w w' : World K) : Prop where
  engine : ∃ trace, w'.engine = w.engine.withTrace trace
  store : w'.store = w.store

omit [Field K] [LinearOrder K] in
theorem Untouched.refl (w : World K) : Untouched w w :=
  ⟨⟨⟨w.engine.localSeq, w.engine.gcLastRunMs, w.engine.capacityBlocked⟩, rfl⟩, rfl⟩

omit [Field K] [LinearOrder K] in
theorem untouched_atCursor (w : World K) (c : Cursor) : Untouched w (w.atCursor c) :=
  ⟨⟨⟨c.localSeq, w.engine.gcLastRunMs, w.engine.capacityBlocked⟩, rfl⟩, rfl⟩

omit [Field K] [LinearOrder K] in
theorem Untouched.commit {w' : World K} (h : Untouched w w') {outcome : BatchOutcome}
    (hwhole : outcome.Whole) (hfail : outcome.ok = false) (plan : Plan K) :
    Untouched w (w'.commit outcome plan) where
  engine := h.engine
  store := (Store.batchWrite_of_whole_failed w'.store hwhole hfail plan.writes).trans h.store

theorem Untouched.closeCompact {w' : World K} (h : Untouched w w') (workspaceId : Bytes)
    (nowMs : UInt64) (usage : StoreUsage) :
    Untouched w (PoorguyMem.closeCompact workspaceId nowMs usage w') := by
  obtain ⟨⟨trace, htrace⟩, hstore⟩ := h
  refine ⟨⟨⟨trace.localSeq, nowMs,
    (PoorguyMem.closeCompact workspaceId nowMs usage w').engine.capacityBlocked⟩, ?_⟩, hstore⟩
  rw [PoorguyMem.closeCompact, htrace]
  rfl

/-- A call that may write to the store. -/
def Call.Writes : Call K → Prop
  | .query _ => False
  | _ => True

theorem untouched_compactInternal {fate : Fate} (hwhole : fate.main.Whole)
    (hfail : fate.main.ok = false) (workspaceId : Bytes) (force : Bool) :
    Untouched w (compactInternal env fate w workspaceId force).1 := by
  unfold compactInternal
  dsimp only
  split
  · exact .refl w
  · split
    · exact untouched_atCursor w _
    · rename_i nowMs plan c _
      dsimp only
      rw [hfail, Bool.and_false, if_neg Bool.false_ne_true]
      apply Untouched.closeCompact
      split
      · exact untouched_atCursor w c
      · exact (untouched_atCursor w c).commit hwhole hfail plan

/-- A batch that fails without effect leaves the engine and the store as they were. -/
theorem untouched_perform {fate : Fate} (hwhole : fate.main.Whole) (hfail : fate.main.ok = false)
    {call : Call K} (hcall : call.Writes) : Untouched w (perform env fate w call).1 := by
  cases call with
  | query input => cases hcall
  | compact workspaceId => exact untouched_compactInternal env hwhole hfail workspaceId true
  | gc => exact untouched_compactInternal env hwhole hfail [] false
  | write input =>
    change Untouched w (write env fate w input).1
    unfold write
    split
    · exact .refl w
    · split
      · exact .refl w
      · split
        · exact untouched_atCursor w _
        · rename_i draft c _
          dsimp only
          split
          · exact untouched_atCursor w c
          · rw [hfail, if_neg Bool.false_ne_true]
            exact (untouched_atCursor w c).commit hwhole hfail draft.plan
  | pin workspaceId memoryId flag =>
    change Untouched w (pin env fate w workspaceId memoryId flag).1
    unfold pin
    split
    · exact untouched_atCursor w _
    · exact untouched_atCursor w _
    · rename_i plan c _
      dsimp only
      rw [hfail, if_neg Bool.false_ne_true]
      exact (untouched_atCursor w c).commit hwhole hfail plan

/-- What the engine replies to a list of calls, each with what it meets. -/
def replies (env : Platform K) (w : World K) (calls : List (Call K × Fate)) : List (Reply K) :=
  Runs.replies (fun w c => (perform env c.2 w c.1).1) (fun w c => (perform env c.2 w c.1).2)
    w calls

theorem Twin.replies (h : Twin w v) {calls : List (Call K × Fate)}
    (hids : ∀ c ∈ calls, c.1.NamesRecords) :
    PoorguyMem.replies env w calls = PoorguyMem.replies env v calls :=
  Runs.replies_eq_of_related (R := Twin) (P := fun c => c.1.NamesRecords)
    (fun _ _ c hc htwin => htwin.perform env c.2 hc) h hids

/-- A call whose batch fails without effect leaves no trace in what is resident and in
the store, and from there on the engine replies as though the call had not been made. The
other run goes on at the same clock readings. -/
theorem failed_call_leaves_no_trace (env : Platform K) (w : World K) (call : Call K)
    (hcall : call.Writes) (fate : Fate) (hwhole : fate.main.Whole) (hfail : fate.main.ok = false) :
    let after := (perform env fate w call).1
    after.engine.toResident = w.engine.toResident ∧ after.store = w.store ∧
      ∀ later : List (Call K × Fate), (∀ c ∈ later, c.1.NamesRecords) →
        replies env after later = replies env { w with tick := after.tick } later := by
  have h : Untouched w (perform env fate w call).1 :=
    untouched_perform env hwhole hfail hcall
  obtain ⟨⟨trace, htrace⟩, hstore⟩ := h
  refine ⟨?_, hstore, ?_⟩
  · rw [htrace]
    rfl
  · intro later hids
    symm
    apply Twin.replies env _ hids
    constructor
    · rfl
    · exact ⟨trace, htrace⟩
    · intro ns _
      rw [hstore]

end Steps

section Examples
open Reference

/-- A write is refused, and a write, a pin and a query follow. -/
theorem refused_write_leaves_no_trace :
    let after := (perform (platform ticking) refused initial
      (put (ascii "w") (ascii "a") (ascii "x"))).1
    let later : List (Call ℚ × Fate) :=
      [(put (ascii "w") (ascii "b") (ascii "y"), applied),
        (.pin (ascii "w") (ascii "b") true, applied)]
    after.engine.toResident = initial.engine.toResident ∧ after.store = initial.store ∧
      replies (platform ticking) after later =
        replies (platform ticking) { initial with tick := after.tick } later := by
  have h := failed_call_leaves_no_trace (platform ticking) initial
    (put (ascii "w") (ascii "a") (ascii "x")) trivial refused (fun _ => rfl) rfl
  refine ⟨h.1, h.2.1, h.2.2 _ ?_⟩
  intro c hc
  fin_cases hc
  · intro recIn hrecIn
    rw [List.mem_singleton.mp hrecIn]
    decide
  · trivial

end Examples

end PoorguyMem
