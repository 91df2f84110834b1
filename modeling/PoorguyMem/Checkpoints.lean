import PoorguyMem.Replay

/-!
# Warmup without checkpoints

A checkpoint lets a warmup skip events whose records the documents already hold.
Replayed all the same, such an event changes nothing where its record is not newer
than the document, nor brings anything back where a later tombstone of its name is
newer than it. Calls of one millisecond break this: a `Write` starts again at
version one, and the event of a pin before it outranks it.
-/

namespace PoorguyMem

open ByteString LastWriter

variable {K : Type}

/-- The store with other checkpoints. -/
def Store.withCheckpoints (store : Store) (rows : Table) : Store :=
  ⟨Function.update store.table projectionCkptNs rows⟩

theorem Store.table_withCheckpoints (store : Store) (rows : Table) {ns : Bytes}
    (h : ns ≠ projectionCkptNs) : (store.withCheckpoints rows).table ns = store.table ns :=
  Function.update_of_ne h ..

section Warmups
variable [Field K] [LinearOrder K] {env : Platform K}

/-- The live records after a warmup of a new engine without a memory budget. -/
def warmedUp (env : Platform K) (store : Store) (nodeId : Bytes) (options : MemoryEngineOptions K)
    (tick : Nat) (key : Bytes) : Option (MemoryRecord K) :=
  ((warmup env store.reader (MemoryEngine.new nodeId { options with memBudgetMb := 0 })
    tick).engine.records[key]?).filter fun r => !r.tombstone

/-- A warmup ends with the same live records whatever the checkpoints are. -/
def CheckpointsOptional (env : Platform K) (store : Store) : Prop :=
  ∀ (rows : Table) nodeId options tick key,
    warmedUp env (store.withCheckpoints rows) nodeId options tick key =
      warmedUp env store nodeId options tick key

/-- A warmup without a budget ends with what it recovers. -/
theorem records_warmup {nodeId : Bytes} {options : MemoryEngineOptions K}
    (hlimit : (MemoryEngine.new nodeId options).residentLimitBytes = 0) (store : Store) (tick : Nat) :
    (warmup env store.reader (MemoryEngine.new nodeId options) tick).engine.records =
      (recovered env store).records := by
  have hrestart := restart_eq env ⟨MemoryEngine.new nodeId options, store, tick⟩ nodeId options
  have hkept : (recovered env store).enforceResidentHardLimit env 0 tick =
      (recovered env store, tick) := if_pos rfl
  rw [hlimit, hkept, restart] at hrestart
  exact congrArg (fun w => w.engine.records) hrestart

theorem warmedUp_eq (store : Store) (nodeId : Bytes) (options : MemoryEngineOptions K) (tick : Nat)
    (key : Bytes) : warmedUp env store nodeId options tick key =
      ((recovered env store).records[key]?).filter fun r => !r.tombstone := by
  rw [warmedUp, records_warmup]
  simp [MemoryEngine.residentLimitBytes, MemoryEngine.new]

theorem loadedRows_withCheckpoints (store : Store) (rows : Table) :
    loadedRows env (store.withCheckpoints rows) = loadedRows env store := by
  rw [loadedRows, loadedRows, Store.scan_all, Store.scan_all,
    Store.table_withCheckpoints store rows docNs_ne_projectionCkptNs]

theorem recovered_withCheckpoints (store : Store) (rows : Table) :
    recovered env (store.withCheckpoints rows) = (store.scan eventsNs [] [] 0).entries.foldl
      (replayEvent env (storedCheckpoints env (store.withCheckpoints rows)))
      (loadedRows env store) := by
  rw [recovered, loadedRows_withCheckpoints, Store.scan_all, Store.scan_all,
    Store.table_withCheckpoints store rows eventsNs_ne_projectionCkptNs]

end Warmups

/-! ### Stamps that do not go back -/

section Relations
variable [Field K]

/-- An event of a name is not newer than the record logged last, and a live one is
older than a tombstone. -/
def Settles (x l : MemoryRecord K) : Prop :=
  isIncomingNewer l x = false ∧
    (l.tombstone = true → x.tombstone = false → isIncomingNewer x l = true)

/-- The record is not older than the one logged before it. -/
def NotOlder (l r : MemoryRecord K) : Prop := isIncomingNewer r l = false

instance : DecidableRel (NotOlder : MemoryRecord K → MemoryRecord K → Prop) :=
  fun l r => inferInstanceAs (Decidable (isIncomingNewer r l = false))

theorem keeps_settles : Keeps (Settles : MemoryRecord K → MemoryRecord K → Prop) NotOlder := by
  have hranked := ranked_isIncomingNewer (K := K)
  constructor
  case same =>
    refine fun x => ⟨hranked.irrefl x, fun hdead hlive => ?_⟩
    cases hdead.symm.trans hlive
  case congr =>
    rintro x l r ⟨hle, hlt⟩ heq
    rw [Settles, ← isIncomingNewer_congr heq rfl, ← isIncomingNewer_congr rfl heq,
      ← (fields_of_essence heq).2.2.2.2.1]
    exact ⟨hle, hlt⟩
  case newer =>
    rintro x l r ⟨hle, -⟩ hnewer
    have hlt : isIncomingNewer x r = true := hranked.newer_of_newer hle hnewer
    exact ⟨hranked.asymm x r hlt, fun _ _ => hlt⟩
  case written =>
    rintro x l r ⟨hle, -⟩ hnot hlive
    refine ⟨hranked.trans r l x hnot hle, fun hdead => ?_⟩
    cases hdead.symm.trans hlive

end Relations

/-! ### Warmups of a run -/

section Runs
variable [Field K] [LinearOrder K] {env : Platform K} {t : Chronicle K}

/-- What the rows load under a name is its document. -/
theorem Recorded.lookup_loadedRows {R : MemoryRecord K → MemoryRecord K → Prop} (hlaw : env.Lawful)
    (h : Recorded env R t) {workspaceId id : Bytes} (hname : Plain workspaceId id) :
    ((loadedRows env t.world.store).records[recordMapKey workspaceId id]?).map MemoryRecord.essence =
      (t.documents workspaceId id).map MemoryRecord.essence := by
  have hload := h.journal.reloads hlaw h.tracked.sourced h.tracked.represents
  have hbacks := backs_loadedRows hlaw h.tracked.sourced h.tracked.represents hload
  rcases hr : (loadedRows env t.world.store).records[recordMapKey workspaceId id]? with _ | r
  · rcases hdoc : t.documents workspaceId id with _ | d
    · rfl
    · have hsome := isSome_loadedRows hlaw h.tracked.represents hload hdoc
      change ((loadedRows env t.world.store).records[_]?).isSome = true at hsome
      rw [hr] at hsome
      cases hsome
  · obtain ⟨d, hd, hess⟩ := hbacks.held workspaceId id r hname hr
    change t.documents workspaceId id = some d at hd
    rw [hd, Option.map_some, Option.map_some, hess]

/-- In every run whose writes log no record older than the one logged before it, the
checkpoints make no difference to a warmup. -/
theorem checkpoints_optional (hlaw : env.Lawful) (hsteady : env.Steady) (nodeId : Bytes)
    (options : MemoryEngineOptions K) (steps : List (Step K))
    (hsteps : Runs.Along (Chronicle.next env) (fun t step => step.Legible env NotOlder t)
      (Chronicle.initial nodeId options) steps) :
    CheckpointsOptional env (Runs.exec (next env) (World.initial nodeId options) steps).store := by
  have hrun := recorded_run hlaw hsteady keeps_settles nodeId options hsteps
  have hworld := Chronicle.exec_world env (Chronicle.initial nodeId options) steps
  change _ = Runs.exec (next env) (World.initial nodeId options) steps at hworld
  rw [← hworld]
  generalize Runs.exec (Chronicle.next env) (Chronicle.initial nodeId options) steps = t at hrun
  have hchron := hrun.journal.chronicled
  have hload := hrun.journal.reloads hlaw hrun.tracked.sourced hrun.tracked.represents
  intro rows nodeId' options' tick key
  rw [warmedUp_eq, warmedUp_eq, recovered_withCheckpoints, recovered_eq_of_skipped hload.skipped,
    lookup_replay]
  generalize hckpts : storedCheckpoints env (t.world.store.withCheckpoints rows) = checkpoints
  rcases hoffers : offersAt env checkpoints key (t.world.store.scan eventsNs [] [] 0).entries with
    _ | ⟨b₀, rest⟩
  · rfl
  · rw [← hoffers]
    have hb₀ : b₀ ∈ offersAt env checkpoints key (t.world.store.scan eventsNs [] [] 0).entries := by
      rw [hoffers]
      exact List.mem_cons_self
    obtain ⟨x₀, l, -, -, hname, rfl, hl, -⟩ := hchron.of_mem_offersAt hlaw hb₀
    generalize x₀.workspaceId = workspaceId at hname hl ⊢
    generalize x₀.id = id at hname hl ⊢
    have hloaded := hrun.lookup_loadedRows hlaw hname
    rcases hdoc : t.documents workspaceId id with _ | d
    · -- a document that is gone is a tombstone to every record the replay brings back
      rw [hdoc, Option.map_none, Option.map_eq_none_iff] at hloaded
      rw [hloaded]
      rcases ha : offerAll isIncomingNewer none (offersAt env checkpoints
        (recordMapKey workspaceId id) (t.world.store.scan eventsNs [] [] 0).entries) with _ | a
      · rfl
      · rcases mem_of_offerAll ha with hnone | hmem
        · cases hnone
        · obtain ⟨x, l', k, hess, hplain, hkey, hl', hsettles, hcovered, hlast⟩ :=
            hchron.of_mem_offersAt hlaw hmem
          obtain ⟨hws, hid⟩ := recordMapKey_inj hplain.2.2.1 hname.2.2.1 hkey
          rw [hws, hid] at hl'
          obtain rfl := Option.some.inj (hl.symm.trans hl')
          obtain ⟨hlws, hlid, -⟩ := hchron.last _ _ l hl
          have huncovered : isCovered checkpoints l.workspaceId k = false := by
            rw [hlws, ← hws]
            exact hcovered
          obtain ⟨b, hb, hbl⟩ := hlast.exists_offer hlaw huncovered
          rw [hlws, hlid] at hb
          have hbest := (not_newer_offerAll ranked_isIncomingNewer ha).2 b hb
          rw [isIncomingNewer_congr hess hbl] at hbest
          have hdead : a.tombstone = true := by
            rcases hlive : a.tombstone with _ | _
            · have hxlive : x.tombstone = false := by
                rw [← (fields_of_essence hess).2.2.2.2.1, hlive]
              rw [hsettles.2 (hrun.journal.filed.buried _ _ l hl hdoc) hxlive] at hbest
              cases hbest
            · rfl
          rw [Option.filter_some, hdead]
          rfl
    · -- no event is newer than the document
      obtain rfl := Option.some.inj ((hrun.journal.filed.current _ _ d hdoc).symm.trans hl)
      rw [hdoc, Option.map_some] at hloaded
      obtain ⟨r, hr, hrl⟩ := Option.map_eq_some_iff.mp hloaded
      rw [hr, offerAll_of_not_newer]
      intro b hb
      obtain ⟨x, l', k, hess, hplain, hkey, hl', hsettles, -⟩ := hchron.of_mem_offersAt hlaw hb
      obtain ⟨hws, hid⟩ := recordMapKey_inj hplain.2.2.1 hname.2.2.1 hkey
      rw [hws, hid] at hl'
      obtain rfl := Option.some.inj (hl.symm.trans hl')
      rw [isIncomingNewer_congr hrl hess]
      exact hsettles.1

end Runs

section Examples
open Reference

/-- A record is written, pinned and released within one millisecond, and compacted away. -/
def compactedAway : List (Step ℚ) :=
  [.call (put (ascii "w") (ascii "a") (ascii "x")) applied,
    .call (.pin (ascii "w") (ascii "a") true) applied,
    .call (.pin (ascii "w") (ascii "a") false) applied,
    .call (.compact (ascii "w")) applied]

theorem steady_stopped : (platform stopped).Steady := fun _ _ _ => UInt64.le_refl _

theorem legible_compactedAway : Runs.Along (Chronicle.next (platform stopped))
    (fun t step => step.Legible (platform stopped) NotOlder t)
    (Chronicle.initial (ascii "node") options) compactedAway := by
  have hclean : Clean (ascii "w") := ⟨by decide, by decide⟩
  refine ⟨.of_decided hclean ?_, .of_decided hclean ?_, .of_decided hclean ?_,
    .of_decided hclean ?_, trivial⟩
  all_goals decide +kernel

theorem checkpoints_optional_compactedAway : CheckpointsOptional (platform stopped)
    (Runs.exec (next (platform stopped)) initial compactedAway).store :=
  checkpoints_optional (lawful_platform stopped) steady_stopped (ascii "node") options compactedAway
    legible_compactedAway

/-- A pinned record is overwritten within the millisecond of its pin. -/
def overwritten : World ℚ := Runs.exec (next (platform stopped)) initial
  [.call (put (ascii "w") (ascii "a") (ascii "x")) applied,
    .call (.pin (ascii "w") (ascii "a") true) applied,
    .call (put (ascii "w") (ascii "a") (ascii "y")) applied]

theorem not_checkpointsOptional_overwritten :
    ¬ CheckpointsOptional (platform stopped) overwritten.store := by
  intro h
  have hwith : (warmedUp (platform stopped) overwritten.store (ascii "node") options 0
      (recordMapKey (ascii "w") (ascii "a"))).map (·.content) = some (ascii "y") := by
    decide +kernel
  have hwithout : (warmedUp (platform stopped) (overwritten.store.withCheckpoints ∅) (ascii "node")
      options 0 (recordMapKey (ascii "w") (ascii "a"))).map (·.content) = some (ascii "x") := by
    decide +kernel
  rw [h ∅ (ascii "node") options 0 (recordMapKey (ascii "w") (ascii "a")), hwith] at hwithout
  exact absurd hwithout (by decide)

end Examples

end PoorguyMem
