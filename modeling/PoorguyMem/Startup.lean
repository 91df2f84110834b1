import PoorguyMem.EloqStore
import PoorguyMem.Agreement

/-!
# Starting over a partitioned store

A whole scan goes through all partitions and ends at the first that was never
written. So a startup loads what is stored exactly where every partition has
been written; elsewhere the scan fails, and since its error says that a resource
was not found, the engine takes the namespace for an empty one.
-/

namespace PoorguyMem

open ByteString

variable {K : Type}

namespace EloqStoreAdapter

/-- No key is stored in two partitions. -/
def Distributed (adapter : EloqStoreAdapter) : Prop :=
  ∀ p q key, p < adapter.numPartitions → q < adapter.numPartitions →
    (adapter.store.read p key).isSome → (adapter.store.read q key).isSome → p = q

/-- An entry of a namespace, in whichever partition it is stored. -/
def Stores (adapter : EloqStoreAdapter) (e : KeyValueEntry) : Prop :=
  ∃ pid < adapter.numPartitions,
    adapter.store.read pid (composeKey e.nameSpace e.key) = some ⟨e.value, e.ts⟩

/-- What the loop of a whole scan collects from the partitions before `n`. -/
def collected (adapter : EloqStoreAdapter) (nameSpace : Bytes) (n : Nat) : List KeyValueEntry :=
  (List.range n).flatMap (foundIn adapter.store nameSpace)

variable {adapter : EloqStoreAdapter} {nameSpace : Bytes}

theorem mem_collected {n : Nat} {e : KeyValueEntry} : e ∈ adapter.collected nameSpace n ↔
    e.nameSpace = nameSpace ∧ ∃ pid < n,
      adapter.store.read pid (composeKey nameSpace e.key) = some ⟨e.value, e.ts⟩ := by
  rw [collected, List.mem_flatMap]
  simp only [List.mem_range, mem_foundIn]
  constructor
  · rintro ⟨pid, hpid, hns, hread⟩
    exact ⟨hns, pid, hpid, hread⟩
  · rintro ⟨hns, pid, hpid, hread⟩
    exact ⟨pid, hpid, hns, hread⟩

theorem Distributed.pairwise_collected (h : adapter.Distributed) :
    (adapter.collected nameSpace adapter.numPartitions).Pairwise fun a b => a.key ≠ b.key := by
  rw [collected, List.pairwise_flatMap]
  refine ⟨fun pid _ => ?_, ?_⟩
  · refine List.Pairwise.filterMap (R := fun a b => ¬ compare a.1 b.1 = .eq) _ ?_
      Std.ExtTreeMap.distinct_keys_toList
    intro a b hab e he e' he' hkey
    obtain ⟨-, rfl⟩ := rowEntry_eq_some.mp he
    obtain ⟨-, rfl⟩ := rowEntry_eq_some.mp he'
    exact hab (by rw [hkey]; exact Std.compare_self)
  · refine List.Pairwise.imp_of_mem ?_ (List.pairwise_lt_range (n := adapter.numPartitions))
    intro p q hp hq hpq e he e' he' hkey
    have hread := (mem_foundIn.mp he).2
    have hread' := (mem_foundIn.mp he').2
    rw [hkey] at hread
    refine Nat.ne_of_lt hpq (h p q (composeKey nameSpace e'.key) (List.mem_range.mp hp)
      (List.mem_range.mp hq) ?_ ?_)
    · rw [hread]
      rfl
    · rw [hread']
      rfl

/-- A whole scan over written partitions collects everything. -/
theorem scan_of_written (hstarted : adapter.started = true)
    (h : ∀ pid < adapter.numPartitions, (adapter.store.partition pid).isSome) :
    adapter.scan nameSpace [] [] 0 =
      ⟨((adapter.collected nameSpace adapter.numPartitions).insertionSort
        fun l r => entryBefore r l = false).destutter fun kept entry => kept.key ≠ entry.key, []⟩ := by
  have hloop := scanLoop_written nameSpace [] []
    fun pid hpid => h pid (List.mem_range.mp hpid)
  rw [List.append_nil, List.nil_append, scanLoop] at hloop
  rw [scan, hstarted]
  simp only [Bool.not_true, Bool.false_eq_true, if_false, if_true, hloop, Nat.lt_irrefl]
  rfl

/-- A whole scan ends at the first partition that was never written. -/
theorem scan_of_unwritten (hstarted : adapter.started = true) {pid : Nat}
    (hpid : pid < adapter.numPartitions) (hnone : adapter.store.partition pid = none)
    (hbefore : ∀ q < pid, (adapter.store.partition q).isSome) :
    ∀ nameSpace, adapter.scan nameSpace [] [] 0 =
      ⟨adapter.collected nameSpace pid, scanError pid .notFound⟩ := by
  intro nameSpace
  obtain ⟨rest, hrange, -⟩ := range_split hpid
  have hloop := scanLoop_written nameSpace (pid :: rest) []
    fun q hq => hbefore q (List.mem_range.mp hq)
  rw [scanLoop_unwritten hnone, List.nil_append] at hloop
  rw [scan, hstarted]
  simp only [Bool.not_true, Bool.false_eq_true, if_false, if_true, hrange, hloop]
  rfl

/-- Either all partitions were written, or one is the first that was not. -/
theorem written_or_first (adapter : EloqStoreAdapter) :
    (∀ pid < adapter.numPartitions, (adapter.store.partition pid).isSome) ∨
      ∃ pid < adapter.numPartitions, adapter.store.partition pid = none ∧
        ∀ q < pid, (adapter.store.partition q).isSome := by
  by_cases h : ∃ pid, pid < adapter.numPartitions ∧ adapter.store.partition pid = none
  · obtain ⟨hlt, hnone⟩ := Nat.find_spec h
    refine Or.inr ⟨Nat.find h, hlt, hnone, fun q hq => ?_⟩
    rw [Option.isSome_iff_ne_none]
    exact fun hq' => Nat.find_min h hq ⟨Nat.lt_trans hq hlt, hq'⟩
  · refine Or.inl fun pid hpid => ?_
    rw [Option.isSome_iff_ne_none]
    exact fun hnone => h ⟨pid, hpid, hnone⟩

/-- The entries of a whole scan are stored ones. -/
theorem stores_of_mem_scan {e : KeyValueEntry} (h : e ∈ (adapter.scan nameSpace [] [] 0).entries) :
    e.nameSpace = nameSpace ∧ adapter.Stores e := by
  have of_collected : ∀ n ≤ adapter.numPartitions, e ∈ adapter.collected nameSpace n →
      e.nameSpace = nameSpace ∧ adapter.Stores e := by
    intro n hn hmem
    obtain ⟨hns, pid, hpid, hread⟩ := mem_collected.mp hmem
    exact ⟨hns, pid, Nat.lt_of_lt_of_le hpid hn, hns ▸ hread⟩
  cases hstarted : adapter.started with
  | false =>
    rw [scan, hstarted] at h
    cases h
  | true =>
    rcases adapter.written_or_first with hall | ⟨pid, hpid, hnone, hbefore⟩
    · rw [scan_of_written hstarted hall] at h
      have hsorted := (List.destutter_sublist _ _).subset h
      exact of_collected _ (Nat.le_refl _) ((List.mem_insertionSort _).mp hsorted)
    · rw [scan_of_unwritten hstarted hpid hnone hbefore] at h
      exact of_collected pid (Nat.le_of_lt hpid) h

/-- A distributed store has one entry for a key of a namespace. -/
theorem Distributed.entry_eq (h : adapter.Distributed) {e e' : KeyValueEntry}
    (he : adapter.Stores e) (he' : adapter.Stores e') (hns : e'.nameSpace = e.nameSpace)
    (hkey : e'.key = e.key) : e' = e := by
  obtain ⟨p, hp, hread⟩ := he
  obtain ⟨q, hq, hread'⟩ := he'
  rw [hns, hkey] at hread'
  obtain rfl := h p q _ hp hq (by rw [hread]; rfl) (by rw [hread']; rfl)
  obtain ⟨hvalue, hts⟩ := StoredValue.mk.inj (Option.some.inj (hread'.symm.trans hread))
  obtain ⟨ns, key, value, ts⟩ := e
  obtain ⟨ns', key', value', ts'⟩ := e'
  simp_all

/-- The scans of a namespace find all entries and report no error. -/
def ScansAll (adapter : EloqStoreAdapter) (nameSpace : Bytes) : Prop :=
  (adapter.scan nameSpace [] [] 0).error = [] ∧
    ∀ e : KeyValueEntry, e.nameSpace = nameSpace → adapter.Stores e →
      e ∈ (adapter.scan nameSpace [] [] 0).entries

theorem scansAll_of_written (hstarted : adapter.started = true) (hdist : adapter.Distributed)
    (h : ∀ pid < adapter.numPartitions, (adapter.store.partition pid).isSome)
    (nameSpace : Bytes) : adapter.ScansAll nameSpace := by
  have hperm := List.perm_insertionSort (fun l r : KeyValueEntry => entryBefore r l = false)
    (adapter.collected nameSpace adapter.numPartitions)
  have hpairwise := (hperm.pairwise_iff fun {a b} hab => Ne.symm hab).mpr
    hdist.pairwise_collected
  rw [ScansAll, scan_of_written hstarted h]
  refine ⟨rfl, fun e hns ⟨pid, hpid, hread⟩ => ?_⟩
  dsimp only
  rw [List.destutter_of_isChain _ _ hpairwise.isChain, hperm.mem_iff, mem_collected]
  exact ⟨hns, pid, hpid, hns ▸ hread⟩

end EloqStoreAdapter

/-! ### Warmup -/

section Warmup
variable [Field K] [LinearOrder K] {env : Platform K}

/-- What is resident after a replay was there before, or an event gave it. -/
theorem lookup_foldl_replayEvent {checkpoints : StringMap Bytes} {events : List KeyValueEntry}
    {s : Resident K} {k : Bytes} {r : MemoryRecord K}
    (h : (events.foldl (replayEvent env checkpoints) s).records[k]? = some r) :
    s.records[k]? = some r ∨ ∃ e ∈ events, ∃ incoming,
      eventRecord env checkpoints e = some incoming ∧ r = fillDefaults incoming := by
  induction events generalizing s with
  | nil => exact Or.inl h
  | cons e rest ih =>
    rcases ih h with hold | ⟨e', he', hgiven⟩
    · rcases hinc : eventRecord env checkpoints e with _ | incoming
      · rw [replayEvent, hinc] at hold
        exact Or.inl hold
      · have hstep : (replayEvent env checkpoints s e).records = s.records ∨
            (replayEvent env checkpoints s e).records = s.records.insert
              (recordMapKey (fillDefaults incoming).workspaceId (fillDefaults incoming).id)
              (fillDefaults incoming) := by
          unfold replayEvent
          rw [hinc]
          dsimp only
          split
          · split
            · exact Or.inr (Resident.records_upsert ..)
            · exact Or.inl rfl
          · split
            · exact Or.inr (Resident.records_upsert ..)
            · exact Or.inl rfl
        rcases hstep with hsame | hput
        · rw [hsame] at hold
          exact Or.inl hold
        · rw [hput, lookup_insert] at hold
          split at hold
          · exact Or.inr ⟨e, List.mem_cons_self, incoming, hinc, (Option.some.inj hold).symm⟩
          · exact Or.inl hold
    · exact Or.inr ⟨e', List.mem_cons_of_mem _ he', hgiven⟩

/-- A replay takes nothing out. -/
theorem isSome_foldl_replayEvent {checkpoints : StringMap Bytes} {events : List KeyValueEntry}
    {s : Resident K} {k : Bytes} (h : s.records[k]?.isSome) :
    (events.foldl (replayEvent env checkpoints) s).records[k]?.isSome := by
  have put : ∀ (b : Bool) (s : Resident K) r, s.records[k]?.isSome →
      (if b = true then s.upsertRecordInMemory env r else s).records[k]?.isSome := by
    intro b s r hs
    split
    · rw [Resident.records_upsert, lookup_insert]
      split
      · rfl
      · exact hs
    · exact hs
  induction events generalizing s with
  | nil => exact h
  | cons e rest ih =>
    refine ih ?_
    unfold replayEvent
    split
    · exact h
    · exact put _ s _ h

end Warmup

/-- A record that is loaded for a row: its own, or that of another row or of an
event for the same name. -/
def EloqStoreAdapter.LoadedFor [One K] (env : Platform K) (adapter : EloqStoreAdapter)
    (e : KeyValueEntry) (r held : MemoryRecord K) : Prop :=
  held = r ∨
    (∃ e', e'.nameSpace = docNs ∧ e'.key ≠ e.key ∧ adapter.Stores e' ∧
      rowRecord env e' = some held) ∨
    ∃ e' incoming, e'.nameSpace = eventsNs ∧ adapter.Stores e' ∧
      eventRecord env (readCheckpoints env (adapter.scan projectionCkptNs [] [] 0).entries) e' =
        some incoming ∧ held = fillDefaults incoming

section Startup
variable [Field K] [LinearOrder K] {env : Platform K} {adapter : EloqStoreAdapter}

/-- A startup without a memory budget loads every row that decodes with its names. -/
structure EloqStoreAdapter.LoadsAll (env : Platform K) (adapter : EloqStoreAdapter) : Prop where
  scans : ∀ nameSpace, adapter.ScansAll nameSpace
  resident : ∀ (nodeId : Bytes) (options : MemoryEngineOptions K) tick, options.memBudgetMb = 0 →
    let res := warmup env (adapter.reader env) (MemoryEngine.new nodeId options) tick
    res.error = none ∧
      ∀ e r, e.nameSpace = docNs → adapter.Stores e → rowRecord env e = some r →
        ∃ held, res.engine.records[recordMapKey r.workspaceId r.id]? = some held ∧
          adapter.LoadedFor env e r held

/-- A warmup whose scans report no error, and evict nothing. -/
theorem warmup_of_scans (env : Platform K) (h : ∀ nameSpace, (adapter.scan nameSpace [] [] 0).error = [])
    (nodeId : Bytes) {options : MemoryEngineOptions K} (hbudget : options.memBudgetMb = 0)
    (tick : Nat) :
    let res := warmup env (adapter.reader env) (MemoryEngine.new nodeId options) tick
    res.error = none ∧ res.engine.toResident =
      (adapter.scan eventsNs [] [] 0).entries.foldl
        (replayEvent env (readCheckpoints env (adapter.scan projectionCkptNs [] [] 0).entries))
        ((adapter.scan docNs [] [] 0).entries.foldl (loadRow env) Resident.empty) := by
  have hscan : ∀ ns, scanOrMissing ((adapter.reader env).scan ns [] [] 0) =
      .ok (adapter.scan ns [] [] 0).entries := by
    intro ns
    rw [scanOrMissing, if_pos (by exact h ns)]
    rfl
  have hlimit : (MemoryEngine.new nodeId options).residentLimitBytes = 0 := by
    rw [MemoryEngine.residentLimitBytes, MemoryEngine.new, hbudget]
    rfl
  simp only [warmup, hscan, replayProjectionEvents, hlimit, Resident.enforceResidentHardLimit,
    if_true]
  exact ⟨trivial, rfl⟩

/-- A startup over an adapter with distributed rows loads everything exactly where
the adapter runs and every partition has been written. -/
theorem startup_loads_all_iff (env : Platform K) (hdist : adapter.Distributed) :
    adapter.LoadsAll env ↔ adapter.started = true ∧
      ∀ pid < adapter.numPartitions, (adapter.store.partition pid).isSome := by
  constructor
  · intro h
    have herror := (h.scans docNs).1
    cases hstarted : adapter.started with
    | false =>
      rw [EloqStoreAdapter.scan, hstarted] at herror
      cases herror
    | true =>
      refine ⟨rfl, ?_⟩
      rcases adapter.written_or_first with hall | ⟨pid, hpid, hnone, hbefore⟩
      · exact hall
      · rw [EloqStoreAdapter.scan_of_unwritten hstarted hpid hnone hbefore] at herror
        simp [EloqStoreAdapter.scanError, ascii] at herror
  · rintro ⟨hstarted, hall⟩
    have hscans : ∀ ns, adapter.ScansAll ns :=
      EloqStoreAdapter.scansAll_of_written hstarted hdist hall
    refine ⟨hscans, fun nodeId options tick hbudget => ?_⟩
    obtain ⟨herror, hres⟩ := warmup_of_scans env (fun ns => (hscans ns).1) nodeId hbudget tick
    refine ⟨herror, fun e r hns hstores hrow => ?_⟩
    have hmem := (hscans docNs).2 e hns hstores
    have hsome : (warmup env (adapter.reader env) (MemoryEngine.new nodeId options)
        tick).engine.toResident.records[recordMapKey r.workspaceId r.id]?.isSome := by
      rw [hres]
      exact isSome_foldl_replayEvent (isSome_of_mem_loadRow hmem hrow)
    obtain ⟨held, hheld⟩ := Option.isSome_iff_exists.mp hsome
    refine ⟨held, hheld, ?_⟩
    rw [hres] at hheld
    rcases lookup_foldl_replayEvent hheld with hloaded | ⟨e', he', incoming, hinc, hfill⟩
    · rcases lookup_foldl_loadRow hloaded with hnone | ⟨e', he', hrow', -⟩
      · exact absurd hnone (by simp [Resident.empty])
      · obtain ⟨hns', hstores'⟩ := EloqStoreAdapter.stores_of_mem_scan he'
        by_cases hkey : e'.key = e.key
        · obtain rfl := hdist.entry_eq hstores hstores' (hns'.trans hns.symm) hkey
          exact Or.inl (Option.some.inj (hrow'.symm.trans hrow))
        · exact Or.inr (Or.inl ⟨e', hns', hkey, hstores', hrow'⟩)
    · obtain ⟨hns', hstores'⟩ := EloqStoreAdapter.stores_of_mem_scan he'
      exact Or.inr (Or.inr ⟨e', incoming, hns', hstores', hinc, hfill⟩)

end Startup

section Examples
open Reference

def helloRecord : MemoryRecord ℚ :=
  newRecord (MemoryEngine.new (ascii "node") options)
    ⟨ascii "w", [], [recordInput (ascii "a") (ascii "hello") []], ascii "upsert"⟩
    (recordInput (ascii "a") (ascii "hello") []) 1000 (ascii "a") false

/-- A partition that holds the document of one record. -/
def helloRows : Table :=
  (∅ : Table).insert (composeKey docNs (buildDocKey (ascii "w") (ascii "a")))
    ⟨recordText (platform ticking) helloRecord, 1000⟩

/-- An adapter that runs over these partitions. -/
def adapterOver (partitions : List (Option Table)) (h : 0 < partitions.length) :
    EloqStoreAdapter where
  started := true
  numPartitions := partitions.length
  numPartitions_pos := h
  store := ⟨fun pid => (partitions[pid]?).join, fun limit _ rows => rows.take limit⟩

theorem startup_loads_hello :
    (adapterOver [some helloRows] (by decide)).LoadsAll (platform ticking) := by
  refine (startup_loads_all_iff (platform ticking) ?_).mpr ⟨rfl, by decide⟩
  intro p q key hp hq _ _
  exact (Nat.lt_one_iff.mp hp).trans (Nat.lt_one_iff.mp hq).symm

/-- The document lies in the second of two partitions, and the first is unwritten. -/
theorem startup_misses_hello :
    ¬ (adapterOver [none, some helloRows] (by decide)).LoadsAll (platform ticking) := by
  intro h
  exact absurd (h.scans docNs).1 (by decide)

end Examples

end PoorguyMem
