import PoorguyMem.Reports
import PoorguyMem.Lib.PairedRuns

/-!
# Sequence numbers

A sequence number reaches the event it is drawn for and the checkpoint after it,
and nothing else: two engines that differ in the number, and in what a
compaction notes about itself, build batches from one clock that make the same
changes in memory and differ in their log rows alone.
-/

namespace PoorguyMem

open ByteString Throwing

variable {K : Type}

/-! ### Batches -/

/-- The namespaces whose rows carry sequence numbers. -/
def logNamespaces : List Bytes := [eventsNs, projectionCkptNs]

/-- Two batches that differ in their log rows alone. -/
structure SameRows (a b : List WriteEntry) : Prop where
  empty : a = [] ↔ b = []
  rows : ∀ ns, ns ∉ logNamespaces → Store.restrict ns a = Store.restrict ns b

theorem SameRows.refl (a : List WriteEntry) : SameRows a a := ⟨Iff.rfl, fun _ _ => rfl⟩

theorem SameRows.append {a b c d : List WriteEntry} (h : SameRows a b) (h' : SameRows c d) :
    SameRows (a ++ c) (b ++ d) where
  empty := by rw [List.append_eq_nil_iff, List.append_eq_nil_iff, h.empty, h'.empty]
  rows ns hns := by
    rw [Store.restrict_append, Store.restrict_append, h.rows ns hns, h'.rows ns hns]

def Logged (entry : WriteEntry) : Prop := entry.entry.nameSpace ∈ logNamespaces

theorem restrict_logged {rows : List WriteEntry} (h : ∀ e ∈ rows, Logged e) {ns : Bytes}
    (hns : ns ∉ logNamespaces) : Store.restrict ns rows = [] := by
  apply restrict_eq_nil
  rintro e he rfl
  exact hns (h e he)

/-- Log rows do not matter. -/
theorem sameRows_logged {e e' : WriteEntry} {rows rows' : List WriteEntry} (he : Logged e)
    (he' : Logged e') (h : ∀ x ∈ rows, Logged x) (h' : ∀ x ∈ rows', Logged x) :
    SameRows (e :: rows) (e' :: rows') where
  empty := by simp
  rows ns hns := by
    rw [restrict_logged (List.forall_mem_cons.mpr ⟨he, h⟩) hns,
      restrict_logged (List.forall_mem_cons.mpr ⟨he', h'⟩) hns]

theorem logged_checkpoint (env : Platform K) (workspaceId eventKey : Bytes) (ts : UInt64) :
    ∀ e ∈ appendProjectionCheckpoint env workspaceId eventKey ts, Logged e := by
  intro e he
  rw [appendProjectionCheckpoint] at he
  split at he
  · cases he
  · rw [List.mem_singleton.mp he]
    exact List.mem_cons_of_mem _ List.mem_cons_self

/-- The plans make the same changes in memory and write the same rows. -/
structure Plan.Alike (p q : Plan K) : Prop where
  upserts : p.upserts = q.upserts
  removals : p.removals = q.removals
  writes : SameRows p.writes q.writes

theorem Plan.Alike.refl (p : Plan K) : p.Alike p := ⟨rfl, rfl, .refl _⟩

theorem Plan.Alike.actions {p q : Plan K} (h : p.Alike q) : p.actions = q.actions := by
  rw [Plan.actions, Plan.actions, h.upserts, h.removals]

theorem Plan.Alike.applyInMemory [Field K] [LinearOrder K] {p q : Plan K} (h : p.Alike q)
    (env : Platform K) (resident : Resident K) :
    p.applyInMemory env resident = q.applyInMemory env resident := by
  rw [Plan.applyInMemory, Plan.applyInMemory, h.upserts, h.removals]

/-! ### Programs that do not look at the sequence number -/

/-- The clock readings taken so far are the same; the sequence numbers need not be. -/
def SameTick (c d : Cursor) : Prop := c.tick = d.tick

/-- The program returns the same value from cursors that agree in the clock. -/
def Blind {α : Type} (p : Program Cursor α) : Prop :=
  ∀ c d, SameTick c d → Couples p p c d (fun a b c' d' => a = b ∧ SameTick c' d') SameTick

theorem Blind.couples {α : Type} {p : Program Cursor α} (h : Blind p) {c d : Cursor}
    (hcd : SameTick c d) {Q : α → α → Cursor → Cursor → Prop}
    (hQ : ∀ a c' d', SameTick c' d' → Q a a c' d') : Couples p p c d Q SameTick := by
  apply (h c d hcd).mono
  · rintro a _ c' d' ⟨rfl, h'⟩
    exact hQ a c' d' h'
  · exact fun _ _ h' => h'

theorem blind_pure {α : Type} (a : α) : Blind (pure a : Program Cursor α) :=
  fun _ _ h => couples_pure ⟨rfl, h⟩

theorem blind_bind {α β : Type} {p : Program Cursor α} {f : α → Program Cursor β} (hp : Blind p)
    (hf : ∀ a, Blind (f a)) : Blind (p >>= f) :=
  fun _ _ h => couples_bind (hp.couples h fun a _ _ h' => hf a _ _ h')

theorem blind_ofOption {α : Type} (o : Option α) : Blind (ofOption o : Program Cursor α) :=
  fun _ _ h => couples_ofOption (fun _ => ⟨rfl, h⟩) h

theorem blind_nowMs (env : Platform K) : Blind env.nowMs := by
  intro c d h
  apply couples_advance
  constructor
  · exact congrArg env.clock h
  · exact congrArg (· + 1) h

theorem blind_currentTick : Blind currentTick :=
  fun _ _ h => couples_advance ⟨h, h⟩

theorem blind_foldlM {α β : Type} {step : β → α → Program Cursor β} (h : ∀ b x, Blind (step b x))
    (xs : List α) (b : β) : Blind (xs.foldlM step b) := by
  induction xs generalizing b with
  | nil => exact blind_pure b
  | cons x xs ih =>
    rw [List.foldlM_cons]
    exact blind_bind (h b x) ih

theorem blind_persistRecord [Field K] [LinearOrder K] (env : Platform K)
    (records : StringMap (MemoryRecord K)) (r : MemoryRecord K) :
    Blind (persistRecord env records r) := by
  apply blind_bind (blind_ofOption _)
  intro text
  exact blind_bind blind_currentTick fun t => blind_pure _

theorem blind_deleteRecordStorage (env : Platform K) (r : MemoryRecord K) :
    Blind (deleteRecordStorage env r) := by
  apply blind_bind blind_currentTick
  intro t
  apply blind_bind (blind_nowMs env)
  intro docTs
  apply blind_bind (blind_nowMs env)
  intro vecCodeTs
  apply blind_bind (blind_nowMs env)
  intro vecFpTs
  apply blind_foldlM
  intro writes term
  exact blind_bind (blind_nowMs env) fun ts => blind_pure _

/-- The rows of two events with their checkpoints do not differ where it matters. -/
def SameLog (env : Platform K) (a b : WriteEntry × Bytes) : Prop :=
  ∀ workspaceId ts, SameRows (a.1 :: appendProjectionCheckpoint env workspaceId a.2 ts)
    (b.1 :: appendProjectionCheckpoint env workspaceId b.2 ts)

/-- The sequence number goes into the event and its key alone. -/
theorem couples_appendProjectionEvent (env : Platform K) (nodeId : Bytes) (r : MemoryRecord K)
    (opType : OpType) (reason : Bytes) {c d : Cursor} (h : SameTick c d) :
    Couples (appendProjectionEvent env nodeId r opType reason)
      (appendProjectionEvent env nodeId r opType reason) c d
      (fun a b c' d' => SameLog env a b ∧ SameTick c' d') SameTick := by
  apply couples_bind
  apply (blind_nowMs env).couples h
  intro nowMs c' d' h'
  apply couples_bind
  apply couples_advance
  apply couples_bind
  apply couples_ofOption
  · intro payload
    apply couples_pure
    constructor
    · intro workspaceId ts
      exact sameRows_logged List.mem_cons_self List.mem_cons_self
        (logged_checkpoint env _ _ _) (logged_checkpoint env _ _ _)
    · exact h'
  · exact h'

/-! ### Drafts -/

/-- What a failed call may have changed in the engine. -/
structure Trace where
  localSeq : Nat
  gcLastRunMs : UInt64
  capacityBlocked : Bool

def MemoryEngine.withTrace (engine : MemoryEngine K) (trace : Trace) : MemoryEngine K :=
  { engine with
    localSeq := trace.localSeq
    gcLastRunMs := trace.gcLastRunMs
    capacityBlocked := trace.capacityBlocked }

@[simp] theorem MemoryEngine.toResident_withTrace (engine : MemoryEngine K) (trace : Trace) :
    (engine.withTrace trace).toResident = engine.toResident := rfl

@[simp] theorem MemoryEngine.options_withTrace (engine : MemoryEngine K) (trace : Trace) :
    (engine.withTrace trace).options = engine.options := rfl

@[simp] theorem MemoryEngine.nodeId_withTrace (engine : MemoryEngine K) (trace : Trace) :
    (engine.withTrace trace).nodeId = engine.nodeId := rfl

/-- The drafts of two writes, but for the log rows. -/
structure WriteDraft.Alike (d e : WriteDraft K) : Prop where
  plan : d.plan.Alike e.plan
  rest : e = { d with plan := e.plan }

theorem WriteDraft.Alike.warn {d e : WriteDraft K} (h : d.Alike e) (warning : Bytes) :
    (d.warn warning).Alike (e.warn warning) := by
  obtain ⟨hplan, hrest⟩ := h
  rw [hrest]
  exact ⟨hplan, rfl⟩

theorem WriteDraft.Alike.output {d e : WriteDraft K} (h : d.Alike e) (ok : Bool)
    (generation : Nat) (warnings : List Bytes) :
    d.output ok generation warnings = e.output ok generation warnings := by
  rw [h.rest]
  rfl

section Drafts
variable [Field K] [LinearOrder K]

theorem governPin_alike (options : MemoryEngineOptions K) {d e : WriteDraft K} (h : d.Alike e)
    (pin : Bool) (id : Bytes) :
    (governPin options d pin id).1 = (governPin options e pin id).1 ∧
      (governPin options d pin id).2.Alike (governPin options e pin id).2 := by
  have hactive : e.projectedActive = d.projectedActive := by rw [h.rest]
  have hpinned : e.projectedPinned = d.projectedPinned := by rw [h.rest]
  unfold governPin
  rw [hactive, hpinned]
  split
  · exact ⟨rfl, h⟩
  · split
    · exact ⟨rfl, h.warn _⟩
    · split
      · exact ⟨rfl, h.warn _⟩
      · exact ⟨rfl, h⟩

omit [Field K] [LinearOrder K] in
theorem suppressedBy_withTrace (engine : MemoryEngine K) (trace : Trace) (input : WriteInput K)
    (recIn : WriteRecordInput K) :
    suppressedBy (engine.withTrace trace) input recIn = suppressedBy engine input recIn := rfl

theorem newRecord_withTrace (engine : MemoryEngine K) (trace : Trace) (input : WriteInput K)
    (recIn : WriteRecordInput K) (nowMs : UInt64) (id : Bytes) (pinned : Bool) :
    newRecord (engine.withTrace trace) input recIn nowMs id pinned =
      newRecord engine input recIn nowMs id pinned := rfl

theorem couples_writeRecord (env : Platform K) (engine : MemoryEngine K) (trace : Trace)
    (input : WriteInput K) {recIn : WriteRecordInput K} (hid : recIn.recordId ≠ [])
    {d e : WriteDraft K} (h : d.Alike e) {c c' : Cursor} (hc : SameTick c c') :
    Couples (writeRecord env engine input d recIn)
      (writeRecord env (engine.withTrace trace) input e recIn) c c'
      (fun a b s t => a.Alike b ∧ SameTick s t) SameTick := by
  unfold writeRecord
  rw [suppressedBy_withTrace]
  by_cases hcontent : recIn.content = []
  · rw [if_pos hcontent, if_pos hcontent]
    exact couples_pure ⟨h.warn _, hc⟩
  rw [if_neg hcontent, if_neg hcontent]
  rcases suppressedBy engine input recIn with _ | id
  · dsimp only
    rw [inputRecordId, if_neg hid]
    apply couples_bind
    apply couples_pure
    obtain ⟨hpin, hgoverned⟩ := governPin_alike engine.options h recIn.pin recIn.recordId
    rw [MemoryEngine.options_withTrace]
    rcases hd : governPin engine.options d recIn.pin recIn.recordId with ⟨pinned, d'⟩
    rcases he : governPin engine.options e recIn.pin recIn.recordId with ⟨pinned', e'⟩
    rw [hd, he] at hpin hgoverned
    dsimp only at hpin hgoverned ⊢
    have hnow : e'.nowMs = d'.nowMs := by rw [hgoverned.rest]
    rw [← hpin, hnow, newRecord_withTrace, MemoryEngine.toResident_withTrace,
      MemoryEngine.nodeId_withTrace]
    by_cases hsize : engine.options.maxRecordBytes <
      (newRecord engine input recIn d'.nowMs recIn.recordId pinned).sizeBytes
    · rw [if_pos hsize, if_pos hsize]
      exact couples_pure ⟨hgoverned.warn _, hc⟩
    rw [if_neg hsize, if_neg hsize]
    apply couples_bind
    apply (blind_persistRecord env _ _).couples hc
    intro rows s t hst
    apply couples_bind
    apply (couples_appendProjectionEvent env _ _ _ _ hst).mono
    · rintro ⟨event, eventKey⟩ ⟨event', eventKey'⟩ s' t' ⟨hlog, hst'⟩
      apply couples_pure
      constructor
      · obtain ⟨hplan, hrest⟩ := hgoverned
        rw [hrest]
        constructor
        · constructor
          · exact congrArg (· ++ _) hplan.upserts
          · exact hplan.removals
          · exact (hplan.writes.append (.refl rows)).append (hlog _ _)
        · rfl
      · exact hst'
    · exact fun _ _ hst' => hst'
  · apply couples_pure
    constructor
    · obtain ⟨hplan, hrest⟩ := h
      rw [hrest]
      exact ⟨hplan, rfl⟩
    · exact hc

theorem couples_writeDraft (env : Platform K) (engine : MemoryEngine K) (trace : Trace)
    {input : WriteInput K} (hids : ∀ recIn ∈ input.records, recIn.recordId ≠ [])
    {c c' : Cursor} (hc : SameTick c c') :
    Couples (writeDraft env engine input) (writeDraft env (engine.withTrace trace) input) c c'
      (fun a b s t => a.Alike b ∧ SameTick s t) SameTick := by
  apply couples_bind
  apply (blind_nowMs env).couples hc
  intro nowMs s t hst
  dsimp only
  apply couples_foldlM (I := fun a b s t => WriteDraft.Alike a b ∧ SameTick s t)
  · rintro recIn hrecIn d e s t ⟨h, hst⟩
    exact couples_writeRecord env engine trace input (hids recIn hrecIn) h hst
  · exact ⟨⟨.refl _, rfl⟩, hst⟩

/-- The plans a pin comes to, or the error on both sides. -/
def AlikePlans : Except Bytes (Plan K) → Except Bytes (Plan K) → Prop
  | .ok p, .ok q => p.Alike q
  | .error a, .error b => a = b
  | _, _ => False

theorem couples_pinDraft (env : Platform K) (engine : MemoryEngine K) (trace : Trace)
    {store store' : StoreReader} {workspaceId memoryId : Bytes}
    (hload : loadRecord env (engine.withTrace trace) store' workspaceId memoryId =
      loadRecord env engine store workspaceId memoryId) (flag : Bool) {c c' : Cursor}
    (hc : SameTick c c') :
    Couples (pinDraft env engine store workspaceId memoryId flag)
      (pinDraft env (engine.withTrace trace) store' workspaceId memoryId flag) c c'
      (fun a b s t => AlikePlans a b ∧ SameTick s t) SameTick := by
  unfold pinDraft
  rw [hload]
  rcases loadRecord env engine store workspaceId memoryId with error | loaded
  · exact couples_pure ⟨rfl, hc⟩
  · dsimp only
    have hrefusal : pinRefusal (engine.withTrace trace) workspaceId loaded flag =
        pinRefusal engine workspaceId loaded flag := rfl
    rw [hrefusal]
    rcases pinRefusal engine workspaceId loaded flag with _ | error
    · dsimp only
      apply couples_bind
      apply (blind_nowMs env).couples hc
      intro nowMs s t hst
      apply couples_bind
      apply (blind_persistRecord env _ _).couples hst
      intro rows s t hst
      apply couples_bind
      apply (couples_appendProjectionEvent env _ _ _ _ hst).mono
      · rintro ⟨event, eventKey⟩ ⟨event', eventKey'⟩ s' t' ⟨hlog, hst'⟩
        apply couples_bind
        apply (blind_nowMs env).couples hst'
        intro ckptMs s t hst
        apply couples_pure
        constructor
        · constructor
          · rfl
          · rfl
          · exact (SameRows.refl rows).append (hlog _ _)
        · exact hst
      · exact fun _ _ hst' => hst'
    · exact couples_pure ⟨rfl, hc⟩

theorem couples_tombstoneRecord (env : Platform K) (engine : MemoryEngine K) (trace : Trace)
    (nowMs : UInt64) (maxBatch : Nat) {p q : Plan K} (h : p.Alike q) (candidate : MemoryRecord K) {c c' : Cursor}
    (hc : SameTick c c') :
    Couples (tombstoneRecord env engine nowMs maxBatch p candidate)
      (tombstoneRecord env (engine.withTrace trace) nowMs maxBatch q candidate) c c'
      (fun a b s t => a.Alike b ∧ SameTick s t) SameTick := by
  unfold tombstoneRecord
  rw [h.actions]
  split
  · exact couples_pure ⟨h, hc⟩
  · apply couples_bind
    apply (blind_persistRecord env _ _).couples hc
    intro rows s t hst
    apply couples_bind
    apply (couples_appendProjectionEvent env _ _ _ _ hst).mono
    · rintro ⟨event, eventKey⟩ ⟨event', eventKey'⟩ s' t' ⟨hlog, hst'⟩
      apply couples_pure
      constructor
      · constructor
        · exact congrArg (· ++ _) h.upserts
        · exact h.removals
        · exact (h.writes.append (.refl rows)).append (hlog _ _)
      · exact hst'
    · exact fun _ _ hst' => hst'

omit [Field K] [LinearOrder K] in
theorem couples_deleteTombstone (env : Platform K) (engine : MemoryEngine K) (trace : Trace)
    (nowMs : UInt64) (maxBatch : Nat) {p q : Plan K} (h : p.Alike q) (candidate : MemoryRecord K) {c c' : Cursor}
    (hc : SameTick c c') :
    Couples (deleteTombstone env engine nowMs maxBatch p candidate)
      (deleteTombstone env (engine.withTrace trace) nowMs maxBatch q candidate) c c'
      (fun a b s t => a.Alike b ∧ SameTick s t) SameTick := by
  unfold deleteTombstone
  rw [h.actions, MemoryEngine.options_withTrace]
  split
  · exact couples_pure ⟨h, hc⟩
  · apply couples_bind
    apply (blind_deleteRecordStorage env _).couples hc
    intro rows s t hst
    apply couples_bind
    apply (couples_appendProjectionEvent env _ _ _ _ hst).mono
    · rintro ⟨event, eventKey⟩ ⟨event', eventKey'⟩ s' t' ⟨hlog, hst'⟩
      apply couples_pure
      constructor
      · constructor
        · exact h.upserts
        · exact congrArg (· ++ _) h.removals
        · exact (h.writes.append (.refl rows)).append (hlog _ _)
      · exact hst'
    · exact fun _ _ hst' => hst'

theorem couples_compactDraft (env : Platform K) (engine : MemoryEngine K) (trace : Trace)
    (workspaceId : Bytes) {c c' : Cursor} (hc : SameTick c c') :
    Couples (compactDraft env engine workspaceId)
      (compactDraft env (engine.withTrace trace) workspaceId) c c'
      (fun a b s t => (a.nowMs = b.nowMs ∧ a.plan.Alike b.plan) ∧ SameTick s t) SameTick := by
  apply couples_bind
  apply (blind_nowMs env).couples hc
  intro nowMs s t hst
  apply couples_bind
  apply blind_currentTick.couples hst
  intro tick s t hst
  dsimp only
  apply couples_bind
  apply (couples_foldlM (I := fun a b s t => Plan.Alike a b ∧ SameTick s t)
    (fun r _ p q s t h => couples_tombstoneRecord env engine trace nowMs _ h.1 r h.2)
    ⟨.refl Plan.empty, hst⟩).mono
  · rintro p q s' t' ⟨hplan, hst'⟩
    rw [MemoryEngine.options_withTrace]
    split
    · apply couples_bind
      apply (couples_foldlM (I := fun a b s t => Plan.Alike a b ∧ SameTick s t)
        (fun r _ p q s t h => couples_deleteTombstone env engine trace nowMs _ h.1 r h.2)
        ⟨hplan, hst'⟩).mono
      · rintro p' q' s'' t'' ⟨hplan', hst''⟩
        exact couples_pure ⟨⟨rfl, hplan'⟩, hst''⟩
      · exact fun _ _ h => h
    · exact couples_pure ⟨⟨rfl, hplan⟩, hst'⟩
  · exact fun _ _ h => h

end Drafts

end PoorguyMem
