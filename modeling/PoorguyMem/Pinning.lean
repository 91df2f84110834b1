import PoorguyMem.WideQueries
import PoorguyMem.Suppression
import PoorguyMem.Victims

/-!
# Pins

`Pin` loads a record, wherever it is, changes a few of its fields and stores it. It
does not look at the tombstone flag, so a deleted record can be pinned: the call
succeeds, and the record stays deleted. Every other record is live, durable, resident
and indexed after a pin that succeeds, and a pin that is refused changes nothing.
-/

namespace PoorguyMem

open ByteString Throwing HybridRetriever

variable {K : Type}

/-- The filter of queries for pinned records. -/
def onlyPinned : QueryFilter := ⟨[], [], [], 0, 0, true⟩

section Pins
variable [Field K] [LinearOrder K] {env : Platform K} {fate : Fate} {w : World K}
  {workspaceId memoryId : Bytes}

/-- A record as it was before a pin and as it is afterwards: live, pinned, with its content,
durable, resident and indexed, and in the answer to every wide query for pinned records
before it expires. -/
structure Pinned (env : Platform K) (w w' : World K) (workspaceId memoryId : Bytes)
    (before after : MemoryRecord K) : Prop where
  loaded : loadRecord env w.engine w.store.reader workspaceId memoryId = .ok before
  resident : w'.engine.records[recordMapKey workspaceId memoryId]? = some after
  pinned : after.pinned = true
  live : after.tombstone = false
  content : after.content = before.content
  tags : after.tags = before.tags
  metadata : after.metadata = before.metadata
  sessionId : after.sessionId = before.sessionId
  dedupKey : after.dedupKey = before.dedupKey
  durable : Stores env w' workspaceId memoryId after
  indexed : ∃ doc, w'.engine.retriever.docAt workspaceId memoryId = some doc ∧
    doc.record.withoutAccess = after.withoutAccess
  vector : (w'.engine.retriever.vectorAt workspaceId memoryId).isSome = true
  found : ∀ (t : Nat) (input : QueryInput K), input.workspaceId = workspaceId →
    input.filters = onlyPinned → Wide w'.engine.retriever input →
    isExpired after (env.clock (t + 1)) = false →
    ∃ hit ∈ (query env { w' with tick := t } input).2.hits, hit.memoryId = memoryId

/-- A pin that returns true has taken effect, and one that returns false has left
everything but the counters of readings and events. -/
structure PinsHonestly (env : Platform K) (fate : Fate) (w : World K)
    (workspaceId memoryId : Bytes) : Prop where
  effective : (pin env fate w workspaceId memoryId true).2 = some (.ok ()) →
    ∃ before after, Pinned env w (pin env fate w workspaceId memoryId true).1 workspaceId memoryId
      before after
  refused : ∀ error, (pin env fate w workspaceId memoryId true).2 = some (.error error) →
    ∃ c, (pin env fate w workspaceId memoryId true).1 = w.atCursor c

/-- A tombstone that is found is refused for another reason: the quota or the ratio, a
record that cannot be written, or a batch that fails. -/
def PinsNoTombstone (env : Platform K) (fate : Fate) (w : World K)
    (workspaceId memoryId : Bytes) : Prop :=
  ∀ r, loadRecord env w.engine w.store.reader workspaceId memoryId = .ok r → r.tombstone = true →
    pinRefusal w.engine workspaceId r true ≠ none ∨ (recordTree env r).writable = false ∨
      fate.main.ok = false

/-! ### What a pin does -/

theorem writable_pinnedRecord (env : Platform K) (engine : MemoryEngine K) (r : MemoryRecord K)
    (flag : Bool) (nowMs : UInt64) :
    (recordTree env (pinnedRecord engine r flag nowMs)).writable = (recordTree env r).writable := by
  rw [writable_eq, writable_eq]
  rfl

/-- A pin of a record that is loaded and not refused stores it, unless it cannot be written. -/
theorem holds_pinDraft_loaded {loaded : MemoryRecord K} {flag : Bool} (c : Cursor)
    (hload : loadRecord env w.engine w.store.reader workspaceId memoryId = .ok loaded)
    (hrefusal : pinRefusal w.engine workspaceId loaded flag = none) :
    Holds (pinDraft env w.engine w.store.reader workspaceId memoryId flag) c
      (fun out _ => (recordTree env loaded).writable = true ∧ ∃ plan, out = .ok plan ∧
        plan.upserts = [pinnedRecord w.engine loaded flag (env.clock c.tick)] ∧
        plan.removals = [])
      (fun _ => (recordTree env loaded).writable = false) := by
  have hsame := writable_pinnedRecord env w.engine loaded flag (env.clock c.tick)
  have hjam : (recordTree env (pinnedRecord w.engine loaded flag (env.clock c.tick))).writable =
      false → ∀ _ : Cursor, (recordTree env loaded).writable = false := by
    intro hw _
    rwa [← hsame]
  simp only [pinDraft, hload, hrefusal]
  apply holds_bind
  apply holds_advance
  cases hw : (recordTree env loaded).writable with
  | false =>
    refine holds_bind ((holds_persistRecord _ _ _).mono ?_ fun _ _ => rfl)
    rintro rows c' ⟨-, hwritable, -⟩
    cases hw.symm.trans (hsame.symm.trans hwritable)
  | true =>
    have hnot : (recordTree env (pinnedRecord w.engine loaded flag (env.clock c.tick))).writable =
        false → ∀ _ : Cursor, true = false := by
      intro hfalse _
      cases hfalse.symm.trans (hsame.trans hw)
    refine holds_bind ((holds_persistRecord_or_unwritable _ _ hnot).mono ?_ fun _ hE => hE)
    intro rows c' _
    refine holds_bind ((holds_appendProjectionEvent_or_unwritable _ _ _ _ hnot).mono ?_
      fun _ hE => hE)
    intro event c'' _
    refine holds_bind (holds_advance (holds_pure ⟨rfl, _, rfl, rfl, rfl⟩))

/-- A pin that has drawn up its batch. -/
structure Pinning (env : Platform K) (w : World K) (workspaceId memoryId : Bytes) (flag : Bool)
    (loaded : MemoryRecord K) (plan : Plan K) (c : Cursor) : Prop where
  load : loadRecord env w.engine w.store.reader workspaceId memoryId = .ok loaded
  admitted : pinRefusal w.engine workspaceId loaded flag = none
  writable : (recordTree env loaded).writable = true
  draft : pinDraft env w.engine w.store.reader workspaceId memoryId flag w.cursor =
    (some (.ok plan), c)
  upserts : plan.upserts = [pinnedRecord w.engine loaded flag (env.clock w.tick)]
  removals : plan.removals = []

/-- What comes of drawing up a pin. -/
inductive PinDrawn (env : Platform K) (w : World K) (workspaceId memoryId : Bytes) (flag : Bool) :
    Prop
  | missing {e error : Bytes} {c : Cursor}
      (load : loadRecord env w.engine w.store.reader workspaceId memoryId = .error e)
      (draft : pinDraft env w.engine w.store.reader workspaceId memoryId flag w.cursor =
        (some (.error error), c))
  | refused {loaded : MemoryRecord K} {error : Bytes} {c : Cursor}
      (load : loadRecord env w.engine w.store.reader workspaceId memoryId = .ok loaded)
      (refusal : pinRefusal w.engine workspaceId loaded flag ≠ none)
      (draft : pinDraft env w.engine w.store.reader workspaceId memoryId flag w.cursor =
        (some (.error error), c))
  | unwritable {loaded : MemoryRecord K} {c : Cursor}
      (load : loadRecord env w.engine w.store.reader workspaceId memoryId = .ok loaded)
      (unwritable : (recordTree env loaded).writable = false)
      (draft : pinDraft env w.engine w.store.reader workspaceId memoryId flag w.cursor = (none, c))
  | drawn {loaded : MemoryRecord K} {plan : Plan K} {c : Cursor}
      (pinning : Pinning env w workspaceId memoryId flag loaded plan c)

theorem pinDrawn (env : Platform K) (w : World K) (workspaceId memoryId : Bytes) (flag : Bool) :
    PinDrawn env w workspaceId memoryId flag := by
  cases hload : loadRecord env w.engine w.store.reader workspaceId memoryId with
  | error e =>
    apply PinDrawn.missing hload 
    rw [pinDraft, hload]
    rfl
  | ok loaded =>
    cases hrefusal : pinRefusal w.engine workspaceId loaded flag with
    | some error =>
      apply PinDrawn.refused hload (by rw [hrefusal]; simp) 
      rw [pinDraft, hload]
      dsimp only
      rw [hrefusal]
      rfl
    | none =>
      have hdraft := holds_pinDraft_loaded w.cursor hload hrefusal
      rcases hrun : pinDraft env w.engine w.store.reader workspaceId memoryId flag w.cursor with
        ⟨_ | out, c⟩
      · exact .unwritable hload (hdraft.thrown c hrun) hrun
      · obtain ⟨hw, plan, rfl, hupserts, hremovals⟩ := hdraft.returned out c hrun
        exact .drawn ⟨hload, hrefusal, hw, hrun, hupserts, hremovals⟩

theorem pin_eq_refused {flag : Bool} {error : Bytes} {c : Cursor}
    (h : pinDraft env w.engine w.store.reader workspaceId memoryId flag w.cursor =
      (some (.error error), c)) :
    pin env fate w workspaceId memoryId flag = (w.atCursor c, some (.error error)) := by
  rw [pin, h]

theorem pin_eq_thrown {flag : Bool} {c : Cursor}
    (h : pinDraft env w.engine w.store.reader workspaceId memoryId flag w.cursor = (none, c)) :
    pin env fate w workspaceId memoryId flag = (w.atCursor c, none) := by
  rw [pin, h]

section Drawn
variable {flag : Bool} {loaded : MemoryRecord K} {plan : Plan K} {c : Cursor}

theorem Pinning.failed (h : Pinning env w workspaceId memoryId flag loaded plan c)
    (hwhole : fate.main.Whole) (hfailed : fate.main.ok = false) :
    pin env fate w workspaceId memoryId flag = (w.atCursor c, some (.error fate.main.error)) := by
  rw [pin, h.draft]
  dsimp only
  rw [hfailed, if_neg Bool.false_ne_true, World.commit,
    Store.batchWrite_of_whole_failed _ hwhole hfailed]

theorem Pinning.succeeded (h : Pinning env w workspaceId memoryId flag loaded plan c)
    (hok : fate.main.ok = true) :
    pin env fate w workspaceId memoryId flag =
      (settlePin env plan ((w.atCursor c).commit fate.main plan), some (.ok ())) := by
  rw [pin, h.draft]
  dsimp only
  rw [if_pos hok]

omit [LinearOrder K] in
/-- A pin loads the record of its own name. -/
theorem names_loaded_of_clean (hlaw : env.Lawful) (hS : Sourced env Plain w)
    (hclean : Clean workspaceId)
    (hload : loadRecord env w.engine w.store.reader workspaceId memoryId = .ok loaded) :
    loaded.workspaceId = workspaceId ∧ loaded.id = memoryId ∧ Plain workspaceId memoryId := by
  have hplain := hS.names_loaded hlaw hload
  obtain ⟨hws, hid⟩ : workspaceId = loaded.workspaceId ∧ memoryId = loaded.id := by
    rcases loadRecord_cases hload with hheld | ⟨-, v, hv, hd⟩
    · obtain ⟨hk, -⟩ := hS.held _ _ hheld
      exact recordMapKey_inj hclean.1 hplain.2.2.1 hk
    · obtain ⟨r, hk, hvalue, hw, hname⟩ := hS.docs _ _ hv
      obtain ⟨hws, hid⟩ := (deserialize_serialize hlaw hw (hvalue ▸ hd)).1.names
      rw [hws, hid]
      exact buildDocKey_inj hclean.2 hname.2.2.2 hk
  subst hws hid
  exact ⟨rfl, rfl, hplain⟩

/-- After a pin the record is resident: a pinned record is not evicted. -/
theorem Pinning.resident (h : Pinning env w workspaceId memoryId true loaded plan c)
    (fate : Fate) (hlaw : env.Lawful) (hS : Sourced env Plain w) (hclean : Clean workspaceId) :
    (settlePin env plan ((w.atCursor c).commit fate.main plan)).engine.records[recordMapKey
      workspaceId memoryId]? = some (pinnedRecord w.engine loaded true (env.clock w.tick)) := by
  obtain ⟨rfl, rfl, hplain⟩ := names_loaded_of_clean hlaw hS hclean h.load
  generalize hr : pinnedRecord w.engine loaded true (env.clock w.tick) = r
  have hnames : r.workspaceId = loaded.workspaceId ∧ r.id = loaded.id ∧ r.pinned = true := by
    subst hr
    exact ⟨rfl, rfl, rfl⟩
  have happly : plan.applyInMemory env w.engine.toResident =
      w.engine.toResident.upsertRecordInMemory env r := by
    rw [Plan.applyInMemory, h.upserts, h.removals, hr]
    rfl
  have hkeys := (preserved_held env).upsert w.engine.toResident r hS.held
    (by rw [hnames.1, hnames.2.1]; exact hplain)
  have hput : (plan.applyInMemory env w.engine.toResident).records[recordMapKey
      loaded.workspaceId loaded.id]? = some r := by
    rw [happly, Resident.records_upsert, lookup_insert, hnames.1, hnames.2.1, if_pos rfl]
  have hevicts := evicts_enforceResidentHardLimit env
    ((w.atCursor c).commit fate.main plan).engine.residentLimitBytes
    (plan.applyInMemory env w.engine.toResident) c.tick
  rcases hevicts.lookup (by rw [happly]; exact fun k r' hr' => (hkeys k r' hr').1) hput with
    hkept | ⟨-, hunpinned⟩
  · exact hkept
  · cases hunpinned.symm.trans hnames.2.2

/-- After a pin the document row is the record's text. -/
theorem Pinning.durable (h : Pinning env w workspaceId memoryId flag loaded plan c)
    (hlaw : env.Lawful) (hS : Sourced env Plain w) (hclean : Clean workspaceId)
    (hok : fate.main.ok = true) :
    Stores env (settlePin env plan ((w.atCursor c).commit fate.main plan)) workspaceId memoryId
      (pinnedRecord w.engine loaded flag (env.clock w.tick)) := by
  obtain ⟨rfl, rfl, -⟩ := names_loaded_of_clean hlaw hS hclean h.load
  have hnamed : ∀ r, loadRecord env w.engine w.store.reader loaded.workspaceId loaded.id = .ok r →
      r.workspaceId ≠ [] :=
    fun r hr => names_plain.workspace_ne (hS.names_loaded hlaw hr)
  obtain ⟨-, hplan⟩ := (holds_pinDraft env flag hnamed).returned _ c h.draft
  obtain ⟨items, hd⟩ := hplan plan rfl
  have hchanges := hd.changes
  rw [Plan.changes, h.upserts, h.removals] at hchanges
  obtain ⟨item, rfl, hitem⟩ := List.map_eq_singleton_iff.mp hchanges.symm
  have hwritable := hd.logs.writable item List.mem_cons_self
  obtain ⟨change, docTs, reading, seq, opType, reason, nodeId, ckptTs⟩ := item
  obtain rfl := hitem
  refine ⟨rfl, rfl, ?_⟩
  change ∃ v, ((w.store.batchWrite fate.main plan.writes).table docNs)[_]? = some v ∧ _
  rw [Store.batchWrite_of_ok _ hok, Store.table_apply, hd.logs.docs]
  refine ⟨_, (lookup_insert _ _ _ _).trans (if_pos rfl), ?_⟩
  exact serializeRecord_eq_some.mpr ⟨hwritable, rfl⟩

end Drawn

omit [Field K] [LinearOrder K] in
theorem passesFilter_onlyPinned {r : MemoryRecord K} (hpinned : r.pinned = true)
    (hlive : r.tombstone = false) : passesFilter r onlyPinned = true := by
  simp [passesFilter, onlyPinned, hpinned, hlive]

/-- A pin of a live record that succeeds takes effect. -/
theorem Pinning.effective {loaded : MemoryRecord K} {plan : Plan K} {c : Cursor}
    (h : Pinning env w workspaceId memoryId true loaded plan c) (hlaw : env.Lawful)
    (hS : Sourced env Plain w) (hclean : Clean workspaceId) (hok : fate.main.ok = true)
    (hlive : loaded.tombstone = false)
    (hmirrors : Mirrors (settlePin env plan
      ((w.atCursor c).commit fate.main plan)).engine.toResident) :
    Pinned env w (settlePin env plan ((w.atCursor c).commit fate.main plan)) workspaceId memoryId
      loaded (pinnedRecord w.engine loaded true (env.clock w.tick)) := by
  have hresident := h.resident fate hlaw hS hclean
  have hdurable := h.durable hlaw hS hclean hok
  obtain ⟨hws, hid, hplain⟩ := names_loaded_of_clean hlaw hS hclean h.load
  generalize hafter : pinnedRecord w.engine loaded true (env.clock w.tick) = after at *
  have hfields : after.workspaceId = workspaceId ∧ after.id = memoryId ∧ after.pinned = true ∧
      after.tombstone = false := by
    subst hafter
    exact ⟨hws, hid, rfl, hlive⟩
  generalize settlePin env plan ((w.atCursor c).commit fate.main plan) = w' at *
  have hdoc := hmirrors.docs workspaceId memoryId hclean.1
  have hlookup : w'.engine.toResident.liveAt workspaceId memoryId = some after := by
    rw [Resident.liveAt, hresident, Option.filter_some, hfields.2.2.2]
    rfl
  rw [hlookup, Option.map_some] at hdoc
  obtain ⟨doc, hdoc, hsame⟩ := Option.map_eq_some_iff.mp hdoc
  have hvector : (w'.engine.retriever.vectorAt workspaceId memoryId).isSome = true := by
    rw [hmirrors.vectors workspaceId memoryId hclean.1, hdoc]
    rfl
  have hdocPinned : doc.record.pinned = true :=
    (congrArg MemoryRecord.pinned hsame).trans hfields.2.2.1
  have hdocLive : doc.record.tombstone = false :=
    (congrArg MemoryRecord.tombstone hsame).trans hfields.2.2.2
  have hdocName : doc.record.id = memoryId := (congrArg MemoryRecord.id hsame).trans hfields.2.1
  constructor
  case loaded => exact h.load
  case resident => exact hresident
  case pinned => exact hfields.2.2.1
  case live => exact hfields.2.2.2
  case durable => exact hdurable
  case indexed => exact ⟨doc, hdoc, hsame⟩
  case vector => exact hvector
  case found =>
    rintro t input rfl hfilters hwide hfresh
    apply Wide.mem_hits (w := { w' with tick := t }) hwide hdoc hvector hdocName
    · rw [hfilters]
      exact passesFilter_onlyPinned hdocPinned hdocLive
    · intro r hr
      obtain rfl := Option.some.inj (hresident.symm.trans hr)
      exact hfresh
  all_goals
    subst hafter
    rfl

/-- After every run over workspaces without separators, a pin that returns true takes effect
and one that returns false changes nothing if and only if no tombstone is pinned. -/
theorem pin_takes_effect_iff (hlaw : env.Lawful) (nodeId : Bytes)
    (options : MemoryEngineOptions K) (steps : List (Step K))
    (hsteps : ∀ step ∈ steps, step.Workspaces Clean) (hclean : Clean workspaceId)
    (hwhole : fate.main.Whole) :
    let w := Runs.exec (next env) (World.initial nodeId options) steps
    PinsHonestly env fate w workspaceId memoryId ↔
      PinsNoTombstone env fate w workspaceId memoryId := by
  intro w
  have hadmits : ∀ step ∈ steps ++ [.call (.pin workspaceId memoryId true) fate],
      step.Admits Plain := by
    intro step hstep
    rcases List.mem_append.mp hstep with hstep | hstep
    · exact (hsteps step hstep).admits fun _ _ hw hws hid => ⟨hws, hid, hw⟩
    · obtain rfl := List.mem_singleton.mp hstep
      trivial
  have hS : Sourced env Plain w :=
    ((preserved_held env).run hlaw names_plain
      (fun k r hr => absurd hr (by simp [Resident.empty]))
      (fun step hstep => hadmits step (List.mem_append_left _ hstep))
      (sourced_initial nodeId options)
      fun k r hr => absurd hr (by simp [World.initial, MemoryEngine.new, Resident.empty])).1
  have hmirrors : Mirrors (pin env fate w workspaceId memoryId true).1.engine.toResident := by
    have hrun := (mirrors_run hlaw names_plain (fun _ _ h => h.2.2.1) nodeId options hadmits).2
    rwa [Runs.exec_append] at hrun
  constructor
  · -- a tombstone that is stored stays a tombstone
    rintro ⟨heffective, -⟩ r hload hdead
    by_contra hnone
    push Not at hnone
    obtain ⟨hadmitted, hwritable, hok⟩ := hnone
    rw [ne_eq, Bool.not_eq_false] at hok
    cases pinDrawn env w workspaceId memoryId true with
    | missing hload' => cases hload.symm.trans hload'
    | refused hload' hrefusal =>
      obtain rfl := Except.ok.inj (hload.symm.trans hload')
      exact hrefusal hadmitted
    | unwritable hload' hjam =>
      obtain rfl := Except.ok.inj (hload.symm.trans hload')
      exact hwritable hjam
    | drawn hpinning =>
      obtain rfl := Except.ok.inj (hload.symm.trans hpinning.load)
      have hresident := hpinning.resident fate hlaw hS hclean
      obtain ⟨before, after, hpinned⟩ := heffective (by rw [hpinning.succeeded hok])
      have hafter := hpinned.resident
      rw [hpinning.succeeded hok] at hafter
      obtain rfl := Option.some.inj (hresident.symm.trans hafter)
      cases hpinned.live.symm.trans hdead
  · intro hnone
    have refused : ∀ {result : Option (Except Bytes Unit)} {c : Cursor},
        pin env fate w workspaceId memoryId true = (w.atCursor c, result) →
        result ≠ some (.ok ()) → PinsHonestly env fate w workspaceId memoryId := by
      intro result c heq hresult
      constructor
      · intro hok
        rw [heq] at hok
        exact absurd hok hresult
      · intro error _
        exact ⟨c, by rw [heq]⟩
    cases pinDrawn env w workspaceId memoryId true with
    | missing _ hdraft => exact refused (pin_eq_refused hdraft) (by simp)
    | refused _ _ hdraft => exact refused (pin_eq_refused hdraft) (by simp)
    | unwritable _ _ hdraft => exact refused (pin_eq_thrown hdraft) (by simp)
    | drawn hpinning =>
      rename_i loaded plan c
      cases hok : fate.main.ok with
      | false => exact refused (hpinning.failed hwhole hok) (by simp)
      | true =>
        have hlive : loaded.tombstone = false := by
          by_contra hdead
          rw [Bool.not_eq_false] at hdead
          rcases hnone loaded hpinning.load hdead with hrefusal | hjam | hfailed
          · exact hrefusal hpinning.admitted
          · cases hjam.symm.trans hpinning.writable
          · cases hfailed.symm.trans hok
        rw [hpinning.succeeded hok] at hmirrors
        constructor
        · intro _
          rw [hpinning.succeeded hok]
          exact ⟨_, _, hpinning.effective hlaw hS hclean hok hlive hmirrors⟩
        · intro error herror
          rw [hpinning.succeeded hok] at herror
          cases herror

end Pins

section Examples
open Reference

/-- A record is written. -/
def written : List (Step ℚ) := [.call (put (ascii "w") (ascii "a") (ascii "hello")) applied]

/-- A record is written and deleted, and another one is written. -/
def deletion : List (Step ℚ) :=
  written ++ [.call (.compact (ascii "w")) applied,
    .call (put (ascii "w") (ascii "b") (ascii "hello")) applied]

/-- The deleted record is pinned, and stays deleted. -/
theorem not_pinsHonestly_deletion :
    ¬ PinsHonestly (platform ticking) applied
      (Runs.exec (next (platform ticking)) Reference.initial deletion) (ascii "w") (ascii "a") := by
  rintro ⟨heffective, -⟩
  have hok : (pin (platform ticking) applied
      (Runs.exec (next (platform ticking)) Reference.initial deletion) (ascii "w") (ascii "a")
        true).2.map (·.toOption) = some (some ()) := by decide +kernel
  have hdead : ∀ r, (pin (platform ticking) applied
      (Runs.exec (next (platform ticking)) Reference.initial deletion) (ascii "w") (ascii "a")
        true).1.engine.records[recordMapKey (ascii "w") (ascii "a")]? = some r →
      r.tombstone = true := by
    rw [← Option.all_eq_true]
    decide +kernel
  obtain ⟨_ | ok, hresult, hok⟩ := Option.map_eq_some_iff.mp hok
  · cases hok
  obtain ⟨before, after, hpinned⟩ := heffective hresult
  cases hpinned.live.symm.trans (hdead after hpinned.resident)

theorem pin_takes_effect_written :
    PinsHonestly (platform ticking) applied
        (Runs.exec (next (platform ticking)) Reference.initial written) (ascii "w") (ascii "a") ↔
      PinsNoTombstone (platform ticking) applied
        (Runs.exec (next (platform ticking)) Reference.initial written) (ascii "w") (ascii "a") := by
  have hclean : Clean (ascii "w") := ⟨by decide, by decide⟩
  refine pin_takes_effect_iff (lawful_platform ticking) (ascii "node") options written ?_ hclean
    trivial
  intro step hstep
  obtain rfl := List.mem_singleton.mp hstep
  exact hclean

end Examples

end PoorguyMem
