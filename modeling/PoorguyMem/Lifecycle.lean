import PoorguyMem.Answers
import PoorguyMem.Batches
import PoorguyMem.Pinning
import PoorguyMem.PinQuota

/-!
# The life of a memory

What a call may do to a name can be read off the call: a write may put any live
record there, a pin sets the flag of the record that is there, a compaction turns
an unpinned live record into a tombstone and drops a tombstone, and nothing else
touches the name. Evictions and restarts are not on this list: they change what
is resident, not what is stored.
-/

namespace PoorguyMem

open ByteString

variable {K : Type}

/-- What a step may do to a name. -/
inductive Deed where
  | nothing
  | write
  | pin (flag : Bool)
  | compact
  deriving DecidableEq

/-- A pin looks the record up by one key in memory and by another in the store. -/
def Call.deed (workspaceId id : Bytes) : Call K → Deed
  | .write input =>
    if input.workspaceId = workspaceId ∧
        ∃ recIn ∈ input.records, recIn.recordId = id ∨ recIn.recordId = [] then .write
    else .nothing
  | .query _ => .nothing
  | .pin workspaceId' memoryId flag =>
    if recordMapKey workspaceId' memoryId = recordMapKey workspaceId id ∨
        buildDocKey workspaceId' memoryId = buildDocKey workspaceId id then .pin flag
    else .nothing
  | .compact workspaceId' =>
    if workspaceId' = [] ∨ workspaceId' = workspaceId then .compact else .nothing
  | .gc => .compact

def Step.deed (workspaceId id : Bytes) : Step K → Deed
  | .call c _ => c.deed workspaceId id
  | .restart none _ _ => .nothing
  | .restart (some (c, _)) _ _ => c.deed workspaceId id

/-- A record without the fields that a pin, a compaction or a query sets. -/
def MemoryRecord.body [Zero K] (r : MemoryRecord K) : MemoryRecord K :=
  { r with
    pinned := false
    tombstone := false
    updatedAtMs := 0
    version := 0
    sizeBytes := 0
    lastAccessMs := 0
    hitCount := 0
    importanceScore := 0
    tier := []
    nodeId := []
    ttlS := 0 }

theorem MemoryRecord.body_of_withoutAccess [Zero K] {r d : MemoryRecord K}
    (h : r.withoutAccess = d.withoutAccess) : r.body = d.body := by
  have hmask : ∀ x : MemoryRecord K, x.withoutAccess.body = x.body := fun _ => rfl
  rw [← hmask r, h, hmask]

section LifeCycle
variable [Zero K]

/-- The moves of the life cycle, on what is stored for a name. -/
inductive Evolves : Deed → Option (MemoryRecord K) → Option (MemoryRecord K) → Prop
  | stay {deed : Deed} {stored : Option (MemoryRecord K)} : Evolves deed stored stored
  | written {stored : Option (MemoryRecord K)} {r : MemoryRecord K} (live : r.tombstone = false) :
      Evolves .write stored (some r)
  | pinned {flag : Bool} {d r : MemoryRecord K} (kept : r.body = d.body)
      (tombstone : r.tombstone = d.tombstone) (pinned : r.pinned = flag) :
      Evolves (.pin flag) (some d) (some r)
  | buried {d r : MemoryRecord K} (kept : r.body = d.body) (live : d.tombstone = false)
      (unpinned : d.pinned = false) (dead : r.tombstone = true) :
      Evolves .compact (some d) (some r)
  | dropped {d : MemoryRecord K} (dead : d.tombstone = true) : Evolves .compact (some d) none

/-- A live pinned record with a given body. -/
def PinnedWith (body : MemoryRecord K) (stored : Option (MemoryRecord K)) : Prop :=
  ∃ d, stored = some d ∧ d.body = body ∧ d.tombstone = false ∧ d.pinned = true

/-- Nothing is stored but a tombstone. -/
def Dead (stored : Option (MemoryRecord K)) : Prop := ∀ d, stored = some d → d.tombstone = true

/-- A live pinned record stays one, with its body, until it is written or unpinned. -/
theorem PinnedWith.evolves {body : MemoryRecord K} {deed : Deed}
    {before after : Option (MemoryRecord K)} (h : PinnedWith body before)
    (hevolves : Evolves deed before after) (hwrite : deed ≠ .write)
    (hunpin : deed ≠ .pin false) : PinnedWith body after := by
  obtain ⟨d, hd, hbody, hlive, hpinned⟩ := h
  cases hevolves with
  | stay => exact ⟨d, hd, hbody, hlive, hpinned⟩
  | written => exact absurd rfl hwrite
  | @pinned flag d' r kept tombstone pinned =>
    obtain rfl := Option.some.inj hd
    refine ⟨r, rfl, kept.trans hbody, tombstone.trans hlive, ?_⟩
    cases flag with
    | false => exact absurd rfl hunpin
    | true => exact pinned
  | buried kept live unpinned =>
    obtain rfl := Option.some.inj hd
    rw [hpinned] at unpinned
    cases unpinned
  | dropped dead =>
    obtain rfl := Option.some.inj hd
    rw [hlive] at dead
    cases dead

/-- What is dead stays so until it is written. -/
theorem Dead.evolves {deed : Deed} {before after : Option (MemoryRecord K)} (h : Dead before)
    (hevolves : Evolves deed before after) (hwrite : deed ≠ .write) : Dead after := by
  cases hevolves with
  | stay => exact h
  | written => exact absurd rfl hwrite
  | @pinned flag d r kept tombstone =>
    intro r' hr'
    obtain rfl := Option.some.inj hr'
    exact tombstone.trans (h d rfl)
  | buried kept live unpinned dead =>
    intro r' hr'
    obtain rfl := Option.some.inj hr'
    exact dead
  | dropped =>
    intro r' hr'
    cases hr'

end LifeCycle

/-! ### What a call does to a row -/

section Steps
variable [Field K] [LinearOrder K] {env : Platform K} {w : World K} {workspaceId id : Bytes}

omit [LinearOrder K] in
theorem recordAt_applyItems {items : List (LogItem K)} {docs : Table} {documents : Documents K}
    (hitems : ∀ item ∈ items, Plain item.record.workspaceId item.record.id ∧
      RoundTrips env item.record)
    (hdocs : ∀ w id, Plain w id → docs.recordAt env w id = documents w id)
    (hname : Plain workspaceId id) :
    (docs.apply (items.map (·.docEntry env))).recordAt env workspaceId id =
      documents.applyAll (items.map (·.change)) workspaceId id := by
  induction items generalizing docs documents with
  | nil => exact hdocs workspaceId id hname
  | cons item rest ih =>
    obtain ⟨hplain, hround⟩ := hitems item List.mem_cons_self
    refine ih (fun i hi => hitems i (List.mem_cons_of_mem _ hi)) fun v x hvx => ?_
    rw [recordAt_applyEntry hplain hround hvx, hdocs v x hvx]
    rfl

/-- The rows after the batch of a call are those before with its changes made. -/
theorem Consistent.recordAt_batch (hlaw : env.Lawful) (h : Consistent env w) {call : Call K}
    {fate : Fate} (hsound : Sound env w call fate) {request : Request K}
    (hsome : (prepare env fate w call).1 = some request) (hname : Plain workspaceId id) :
    ((w.store.batchWrite fate.main request.plan.writes).table docNs).recordAt env workspaceId id =
      Documents.applyAll ((w.store.table docNs).recordAt env) (committed env w call fate)
        workspaceId id := by
  rw [committed]
  split
  · rename_i hok
    obtain ⟨-, hdrafts⟩ := h.prepared hlaw call fate
    obtain ⟨items, hd⟩ := hdrafts _ hsome
    have hadmits : call.Admits Plain :=
      Call.Workspaces.admits hsound.plain fun w id hw hws hid => ⟨hws, hid, hw⟩
    have hnames := hd.named hlaw h.sourced hadmits
    have hitems := h.formed_items hsound hsome hd
    rw [hsome, Option.elim_some, hd.changes, Store.batchWrite_of_ok w.store hok, Store.table_apply,
      hd.logs.docs]
    exact recordAt_applyItems (fun item hitem => ⟨hnames item hitem, (hitems item hitem).2⟩)
      (fun _ _ _ => rfl) hname
  · rename_i hfailed
    rw [Store.batchWrite_of_whole_failed _ hsound.whole (by simpa using hfailed)]
    rfl

theorem Consistent.recordAt_call (hlaw : env.Lawful) (h : Consistent env w) {call : Call K}
    {fate : Fate} (hsound : Sound env w call fate) (hname : Plain workspaceId id) :
    (((perform env fate w call).1.store.table docNs).recordAt env workspaceId id =
      Documents.applyAll ((w.store.table docNs).recordAt env) (committed env w call fate)
        workspaceId id) := by
  have hout := perform_outcome env fate w call
  generalize (perform env fate w call).1 = w' at hout ⊢
  cases hout with
  | idle none agrees =>
    rw [agrees.store, committed_of_none none]
    rfl
  | @queried input isQuery =>
    obtain rfl := isQuery
    rw [(query_spec env w input).store, committed_of_none rfl]
    rfl
  | failed some failed agrees =>
    rw [agrees.store]
    exact h.recordAt_batch hlaw hsound some hname
  | committed some ok settled =>
    rw [settled.table _ docNs_ne_routeMetaNs]
    exact h.recordAt_batch hlaw hsound some hname

theorem Consistent.recordAt_interrupt (hlaw : env.Lawful) (h : Consistent env w) {call : Call K}
    {fate : Fate} (hsound : Sound env w call fate) (hname : Plain workspaceId id) :
    ((PoorguyMem.interrupt env w call fate).store.table docNs).recordAt env workspaceId id =
      Documents.applyAll ((w.store.table docNs).recordAt env) (committed env w call fate)
        workspaceId id := by
  rcases interrupt_cases env w call fate with ⟨hnone, heq⟩ | ⟨request, hsome, heq⟩ <;> rw [heq]
  · rw [committed_of_none hnone]
    rfl
  · exact h.recordAt_batch hlaw hsound hsome hname

omit [LinearOrder K] in
/-- What a run has stored for a name, where a resident record has that name. -/
theorem Consistent.stored_held (h : Consistent env w) {k : Bytes} {r : MemoryRecord K}
    (hr : w.engine.records[k]? = some r) :
    k = recordMapKey r.workspaceId r.id ∧ ∃ d,
      (w.store.table docNs).recordAt env r.workspaceId r.id = some d ∧
        r.withoutAccess = d.withoutAccess := by
  obtain ⟨rfl, hname⟩ := h.sourced.held k r hr
  have hbacked := h.coherent r.workspaceId r.id hname
  rw [hr] at hbacked
  generalize (w.store.table docNs).recordAt env r.workspaceId r.id = stored at hbacked ⊢
  cases hbacked with
  | held same => exact ⟨rfl, _, rfl, same⟩

omit [LinearOrder K] in
/-- A pin that loads a record names it by one of its two keys. -/
theorem Consistent.stored_loaded (h : Consistent env w) {workspaceId' memoryId : Bytes}
    {loaded : MemoryRecord K}
    (hload : loadRecord env w.engine w.store.reader workspaceId' memoryId = .ok loaded) :
    (recordMapKey workspaceId' memoryId = recordMapKey loaded.workspaceId loaded.id ∨
      buildDocKey workspaceId' memoryId = buildDocKey loaded.workspaceId loaded.id) ∧
    ∃ d, (w.store.table docNs).recordAt env loaded.workspaceId loaded.id = some d ∧
      loaded.withoutAccess = d.withoutAccess := by
  rcases loadRecord_cases hload with hheld | ⟨-, v, hv, hd⟩
  · obtain ⟨hkey, hstored⟩ := h.stored_held hheld
    exact ⟨Or.inl hkey, hstored⟩
  · obtain ⟨d, hrow⟩ := h.durable.docs _ v hv
    rw [hrow.value, hrow.roundTrips] at hd
    obtain rfl := Option.some.inj hd
    exact ⟨Or.inr hrow.key, d, hrow.recordAt hv, rfl⟩

omit [Field K] [LinearOrder K] in
theorem deed_of_compacts {call : Call K} {scope : Bytes} (hcall : call.compacts = some scope)
    {candidate : MemoryRecord K} (hscope : inScope scope candidate = true) :
    call.deed candidate.workspaceId candidate.id = .compact := by
  cases call with
  | write input => cases hcall
  | query input => cases hcall
  | pin _ _ _ => cases hcall
  | gc => rfl
  | compact scope' =>
    obtain rfl := Option.some.inj hcall
    rw [inScope, Bool.or_eq_true, decide_eq_true_iff, decide_eq_true_iff] at hscope
    exact if_pos (hscope.imp_right Eq.symm)

/-- A change that a call produces is a move of the life cycle. -/
theorem Consistent.evolves_produced (h : Consistent env w) {call : Call K} {nowMs : UInt64}
    {change : Change K} (hprod : Produces env w nowMs call change) :
    Evolves (call.deed change.record.workspaceId change.record.id)
      ((w.store.table docNs).recordAt env change.record.workspaceId change.record.id)
      change.value := by
  cases hprod with
  | @new input recIn id pinned workspace mem accepted =>
    have hdeed : (Call.write input).deed input.workspaceId id = .write := by
      refine if_pos ⟨rfl, recIn, mem, ?_⟩
      by_cases hid : recIn.recordId = []
      · exact Or.inr hid
      · exact Or.inl (accepted.named hid).symm
    change Evolves ((Call.write input).deed input.workspaceId id) _ _
    rw [hdeed]
    exact .written rfl
  | @pinned workspaceId' memoryId flag loaded load =>
    obtain ⟨hkeys, d, hd, hsame⟩ := h.stored_loaded load
    have hdeed : (Call.pin (K := K) workspaceId' memoryId flag).deed loaded.workspaceId loaded.id =
        .pin flag := if_pos hkeys
    change Evolves ((Call.pin workspaceId' memoryId flag).deed loaded.workspaceId loaded.id)
      ((w.store.table docNs).recordAt env loaded.workspaceId loaded.id) _
    rw [hdeed, hd]
    have hbody : (pinnedRecord w.engine loaded flag nowMs).body = loaded.body := rfl
    have hdead := congrArg MemoryRecord.tombstone hsame
    exact .pinned (hbody.trans (MemoryRecord.body_of_withoutAccess hsame)) hdead rfl
  | @tombstoned _ scope k candidate compacts held hscope unpinned live =>
    obtain ⟨-, d, hd, hsame⟩ := h.stored_held held
    change Evolves (call.deed candidate.workspaceId candidate.id)
      ((w.store.table docNs).recordAt env candidate.workspaceId candidate.id) _
    rw [deed_of_compacts compacts hscope, hd]
    have hbody : (tombstoneOf w.engine candidate nowMs).body = candidate.body := rfl
    have hlive := congrArg MemoryRecord.tombstone hsame
    have hpinned := congrArg MemoryRecord.pinned hsame
    exact .buried (hbody.trans (MemoryRecord.body_of_withoutAccess hsame)) (hlive.symm.trans live)
      (hpinned.symm.trans unpinned) rfl
  | @dropped _ scope k candidate compacts held hscope dead =>
    obtain ⟨-, d, hd, hsame⟩ := h.stored_held held
    change Evolves (call.deed candidate.workspaceId candidate.id)
      ((w.store.table docNs).recordAt env candidate.workspaceId candidate.id) _
    rw [deed_of_compacts compacts hscope, hd]
    exact .dropped ((congrArg MemoryRecord.tombstone hsame).symm.trans dead)

omit [Field K] [LinearOrder K] in
/-- After some changes a document is what it was, or what one of them has left. -/
theorem Documents.applyAll_cases (documents : Documents K) (changes : List (Change K))
    (workspaceId id : Bytes) :
    documents.applyAll changes workspaceId id = documents workspaceId id ∨
      ∃ change ∈ changes, change.record.workspaceId = workspaceId ∧ change.record.id = id ∧
        documents.applyAll changes workspaceId id = change.value := by
  induction changes generalizing documents with
  | nil => exact Or.inl rfl
  | cons change rest ih =>
    rcases ih (documents.apply change) with hrest | ⟨c, hc, hws, hid, hvalue⟩
    · by_cases hnamed : change.record.workspaceId = workspaceId ∧ change.record.id = id
      · refine Or.inr ⟨change, List.mem_cons_self, hnamed.1, hnamed.2, hrest.trans ?_⟩
        exact if_pos hnamed
      · exact Or.inl (hrest.trans (if_neg hnamed))
    · exact Or.inr ⟨c, List.mem_cons_of_mem _ hc, hws, hid, hvalue⟩

theorem Consistent.evolves_committed (h : Consistent env w) (call : Call K) (fate : Fate)
    (workspaceId id : Bytes) :
    Evolves (call.deed workspaceId id) ((w.store.table docNs).recordAt env workspaceId id)
      (Documents.applyAll ((w.store.table docNs).recordAt env) (committed env w call fate)
        workspaceId id) := by
  rcases Documents.applyAll_cases ((w.store.table docNs).recordAt env) (committed env w call fate)
      workspaceId id with hsame | ⟨change, hchange, rfl, rfl, hvalue⟩
  · rw [hsame]
    exact .stay
  · rw [hvalue]
    exact h.evolves_produced (committed_produces change hchange)

/-- A step moves every name along the life cycle. -/
theorem Consistent.evolves (hlaw : env.Lawful) (h : Consistent env w) {step : Step K}
    (hsound : step.Sound env w) (hname : Plain workspaceId id) :
    Evolves (step.deed workspaceId id) ((w.store.table docNs).recordAt env workspaceId id)
      (((next env w step).store.table docNs).recordAt env workspaceId id) := by
  rcases step with ⟨call, fate⟩ | ⟨_ | ⟨call, fate⟩, nodeId, options⟩
  · rw [next, h.recordAt_call hlaw hsound hname]
    exact h.evolves_committed call fate workspaceId id
  · rw [next, (restart_spec env w nodeId options).store]
    exact .stay
  · rw [next, (restart_spec env _ nodeId options).store,
      h.recordAt_interrupt hlaw hsound.1 hname]
    exact h.evolves_committed call fate workspaceId id

/-! ### Runs -/

/-- What the moves of some deeds keep of a name is kept by a run of such steps. -/
theorem Consistent.kept (hlaw : env.Lawful) (hsteady : env.Steady)
    {Q : Option (MemoryRecord K) → Prop} {A : Deed → Prop}
    (hQ : ∀ deed before after, Evolves deed before after → A deed → Q before → Q after)
    (hname : Plain workspaceId id) {later : List (Step K)} (h : Consistent env w)
    (hlater : Runs.Along (next env) (fun w step => step.Sound env w) w later)
    (hallowed : ∀ step ∈ later, A (step.deed workspaceId id))
    (hq : Q ((w.store.table docNs).recordAt env workspaceId id)) :
    Q (((Runs.exec (next env) w later).store.table docNs).recordAt env workspaceId id) := by
  induction later generalizing w with
  | nil => exact hq
  | cons step rest ih =>
    refine ih (h.step hlaw hsteady step hlater.1) hlater.2
      (fun s hs => hallowed s (List.mem_cons_of_mem _ hs)) ?_
    exact hQ _ _ _ (h.evolves hlaw hlater.1 hname) (hallowed step List.mem_cons_self) hq

end Steps

section Runs
variable [Field K] [LinearOrder K] {env : Platform K} {workspaceId id : Bytes}

theorem mirrors_of_sound (hlaw : env.Lawful) (nodeId : Bytes) (options : MemoryEngineOptions K)
    {steps : List (Step K)} (hsteps : Runs.Along (next env) (fun w step => step.Sound env w)
      (World.initial nodeId options) steps) :
    Mirrors (Runs.exec (next env) (World.initial nodeId options) steps).engine.toResident := by
  have hadmits : ∀ step ∈ steps, step.Admits Plain := by
    refine Runs.forall_of_along (fun w step hsound => ?_) hsteps
    refine Step.Workspaces.admits ?_ fun w id hw hws hid => ⟨hws, hid, hw⟩
    rcases step with ⟨c, fate⟩ | ⟨_ | ⟨c, fate⟩, _, _⟩
    · exact hsound.plain
    · trivial
    · exact hsound.1.plain
  exact (mirrors_run hlaw names_plain (fun w id hname => hname.2.2.1) nodeId options hadmits).2

end Runs

section Examples
open Reference

/-- All is compacted, and the engine starts anew. -/
def collected : List (Step ℚ) := [.call .gc applied, .restart none (ascii "node") options]

theorem sound_collected : Runs.Along (next (platform ticking))
    (fun w step => step.Sound (platform ticking) w) initial (pinnedHistory ++ collected) :=
  ⟨.of_changes (show 58 ∉ ascii "w" ∧ 47 ∉ ascii "w" by decide) trivial (by decide +kernel)
      (by decide +kernel),
    .of_changes trivial trivial (by decide +kernel) (by decide +kernel),
    .of_changes trivial trivial (by decide +kernel) (by decide +kernel),
    by unfold Step.Sound Later; decide +kernel, trivial⟩

theorem plain_wa : Plain (ascii "w") (ascii "a") := by
  refine ⟨?_, ?_, ?_, ?_⟩ <;> decide

/-- What is stored for the record of the example. -/
def storedA (steps : List (Step ℚ)) : Option (MemoryRecord ℚ) :=
  ((Runs.exec (next (platform ticking)) (World.initial (ascii "node") options)
    steps).store.table docNs).recordAt (platform ticking) (ascii "w") (ascii "a")

/-- The record of the example is deleted. -/
def burial : List (Step ℚ) := written ++ [.call (.compact (ascii "w")) applied]

theorem sound_deletion : Runs.Along (next (platform ticking))
    (fun w step => step.Sound (platform ticking) w) initial
      (burial ++ [.call (.pin (ascii "w") (ascii "a") true) applied]) :=
  ⟨.of_changes (show 58 ∉ ascii "w" ∧ 47 ∉ ascii "w" by decide) trivial (by decide +kernel)
      (by decide +kernel),
    .of_changes trivial trivial (by decide +kernel) (by decide +kernel),
    .of_changes trivial trivial (by decide +kernel) (by decide +kernel), trivial⟩

end Examples

end PoorguyMem
