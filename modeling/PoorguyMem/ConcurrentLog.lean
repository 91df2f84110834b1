import PoorguyMem.InFlight
import PoorguyMem.Accounting
import PoorguyMem.Lib.Tickets

/-!
# The event log under concurrency

Requests that are in flight at the same time draw the sequence numbers of their events
from one counter, and their batches reach the store in any order. Since no two events
have the same number, none takes the place of another: the event rows are the events of
the batches, each of them once.
-/

namespace PoorguyMem

open ByteString Tickets

variable {K : Type}

/-! ### Keys and rows -/

/-- An event key ends in its sequence number, whatever its workspace. -/
theorem seq_of_buildEventKey {w v : Bytes} {ts seq ts' seq' : UInt64}
    (h : buildEventKey w ts seq = buildEventKey v ts' seq') : seq = seq' := by
  have htail : zeroPadUint64 seq = zeroPadUint64 seq' := by
    refine List.append_inj_right' h ?_
    rw [length_zeroPadUint64, length_zeroPadUint64]
  have hcmp := compare_zeroPadUint64 seq seq'
  rw [htail, Std.compare_self, eq_comm, Nat.compare_eq_eq] at hcmp
  exact UInt64.toNat_inj.mp hcmp

/-- A table that is filled by upserts of different keys holds each of them. -/
theorem Table.lookup_apply_empty {writes : List WriteEntry}
    (hops : ∀ e ∈ writes, e.op = .upsert) (hkeys : (writes.map (·.entry.key)).Nodup) (k : Bytes)
    (v : StoredValue) : (Table.apply ∅ writes)[k]? = some v ↔
      ∃ e ∈ writes, e.entry.key = k ∧ v = ⟨e.entry.value, e.entry.ts⟩ := by
  induction writes using List.reverseRecOn with
  | nil => simp [Table.apply]
  | append_singleton writes e ih =>
    rw [List.map_append, List.nodup_append] at hkeys
    have ih := ih (fun x hx => hops x (List.mem_append_left _ hx)) hkeys.1
    have hop : e.op = .upsert := hops e (by simp)
    have happly : Table.apply ∅ (writes ++ [e]) =
        (Table.apply ∅ writes).insert e.entry.key ⟨e.entry.value, e.entry.ts⟩ := by
      rw [Table.apply, List.foldl_append, List.foldl_cons, List.foldl_nil, applyEntry, hop]
      rfl
    rw [happly, lookup_insert]
    split
    · rename_i hk
      constructor
      · intro hv
        exact ⟨e, by simp, hk, (Option.some.inj hv).symm⟩
      · rintro ⟨x, hx, hxk, rfl⟩
        rcases List.mem_append.mp hx with hold | hnew
        · exact absurd (hxk.trans hk.symm)
            (hkeys.2.2 _ (List.mem_map_of_mem hold) _ (by simp))
        · obtain rfl := List.mem_singleton.mp hnew
          rfl
    · rename_i hk
      rw [ih]
      constructor
      · rintro ⟨x, hx, hxk⟩
        exact ⟨x, List.mem_append_left _ hx, hxk⟩
      · rintro ⟨x, hx, hxk, hv⟩
        rcases List.mem_append.mp hx with hold | hnew
        · exact ⟨x, hold, hxk, hv⟩
        · obtain rfl := List.mem_singleton.mp hnew
          exact absurd hxk hk

section Steps
variable [Field K] [LinearOrder K]

namespace Interleaved

/-- The events that reach the store with a step. -/
def publishes (p : Interleaved K) : Act K → List WriteEntry
  | .store i =>
    match p.flying i with
    | some f =>
      if f.storedAt = none then
        f.fate.main.effective (Store.restrict eventsNs f.request.plan.writes)
      else []
    | none => []
  | .start _ _ _ => []
  | .apply _ => []

/-- The events that reach the store in a run, in the order in which they do. -/
def eventLog (env : Platform K) (p : Interleaved K) : List (Act K) → List WriteEntry
  | [] => []
  | act :: rest => p.publishes act ++ eventLog env (p.next env act) rest

/-- The events stored so far and those of the batches that are drawn up. -/
structure Ledger (env : Platform K) (p : Interleaved K) (log : List WriteEntry)
    (published : List (LogItem K)) (held : Nat → Option (List (LogItem K))) : Prop where
  issued : Issued LogItem.seq p.world.engine.localSeq published held
  log_eq : log = published.map (·.eventEntry env)
  flying : ∀ i f, p.flying i = some f → f.storedAt = none → ∃ items, held i = some items ∧
    Store.restrict eventsNs f.request.plan.writes = items.map (·.eventEntry env)
  table : p.world.store.table eventsNs = Table.apply ∅ log

variable {env : Platform K} {p : Interleaved K} {log : List WriteEntry}
  {published : List (LogItem K)} {held : Nat → Option (List (LogItem K))} {i : Nat}

omit [Field K] [LinearOrder K] in
theorem ledger_initial (env : Platform K) (nodeId : Bytes) (options : MemoryEngineOptions K) :
    (Interleaved.initial nodeId options).Ledger env [] [] (fun _ => none) where
  issued := issued_empty _
  log_eq := rfl
  flying _ _ h := by cases h
  table := rfl

/-- A call that starts draws new numbers for the events of its batch. -/
theorem Ledger.start (hlaw : env.Lawful) {P : Bytes → Bytes → Prop} (hP : Names P)
    (hS : Sourced env P p.world) (h : p.Ledger env log published held) (call : Call K)
    (fate : Fate) : ∃ held', (p.start env i call fate).Ledger env log published held' := by
  obtain ⟨hbefore, hdrafts⟩ := prepare_spec fate (hS.named hlaw hP) call
  rw [Interleaved.start]
  rcases hprep : prepare env fate p.world call with ⟨_ | request, c⟩ <;> dsimp only
  · have hnone : (prepare env fate p.world call).1 = none := by rw [hprep]
    have hout := perform_outcome env fate p.world call
    refine ⟨held, ?_, h.log_eq, h.flying, ?_⟩
    · refine h.issued.advance ?_
      change p.world.engine.localSeq ≤ (perform env fate p.world call).1.engine.localSeq
      generalize (perform env fate p.world call).1 = w' at hout ⊢
      cases hout with
      | idle none agrees =>
        rw [agrees.seq]
        exact hbefore.seq
      | queried =>
        rw [(query_spec env p.world _).seq]
      | failed some => rw [hnone] at some; cases some
      | committed some => rw [hnone] at some; cases some
    · change (perform env fate p.world call).1.store.table eventsNs = _
      generalize (perform env fate p.world call).1 = w' at hout ⊢
      cases hout with
      | idle none agrees =>
        rw [agrees.store]
        exact h.table
      | queried =>
        rw [(query_spec env p.world _).store]
        exact h.table
      | failed some => rw [hnone] at some; cases some
      | committed some => rw [hnone] at some; cases some
  · obtain ⟨items, hd⟩ := hdrafts request (by rw [hprep])
    rw [hprep] at hd
    have hnodup : (items.map LogItem.seq).Nodup := by
      refine List.pairwise_map.mpr (hd.logs.ordered.imp ?_)
      rintro a b ⟨-, hseq⟩
      omega
    refine ⟨Function.update held i (some items), ?_, h.log_eq, ?_, h.table⟩
    · exact h.issued.draw i hnodup hd.before.seq fun e he =>
        ⟨(hd.logs.stamped e he).after_seq, (hd.logs.stamped e he).before_seq⟩
    · intro j g hj hread
      rcases flying_update hj with ⟨hg, rfl⟩ | ⟨hold, hji⟩
      · obtain rfl := Option.some.inj hg
        exact ⟨items, Function.update_self .., hd.logs.events⟩
      · obtain ⟨items', hheld, hevents⟩ := h.flying j g hold hread
        exact ⟨items', (Function.update_of_ne hji ..).trans hheld, hevents⟩

omit [Field K] [LinearOrder K] in
theorem effective_events (env : Platform K) (outcome : BatchOutcome) (items : List (LogItem K)) :
    ∃ some : List (LogItem K), some.Sublist items ∧
      outcome.effective (items.map (·.eventEntry env)) = some.map (·.eventEntry env) := by
  cases outcome with
  | applied => exact ⟨items, List.Sublist.refl _, rfl⟩
  | failed error kept =>
    refine ⟨items.filter (kept ∘ (·.eventEntry env)), List.filter_sublist, ?_⟩
    rw [BatchOutcome.effective, List.filter_map]

/-- A batch publishes its events, or those of them that a failed batch has applied. -/
theorem Ledger.store (h : p.Ledger env log published held) {f : InFlight K}
    (hf : p.flying i = some f) (hread : f.storedAt = none) :
    ∃ published' held', (p.store i f).Ledger env
      (log ++ f.fate.main.effective (Store.restrict eventsNs f.request.plan.writes))
      published' held' := by
  obtain ⟨items, hheld, hevents⟩ := h.flying i f hf hread
  obtain ⟨taken, hsub, htaken⟩ := effective_events env f.fate.main items
  rw [hevents, htaken]
  have hissued := h.issued.publish hheld hsub
  have htable : (p.world.commit f.fate.main f.request.plan).store.table eventsNs =
      Table.apply ∅ (log ++ taken.map (·.eventEntry env)) := by
    refine (Store.table_batchWrite ..).trans ?_
    rw [h.table, hevents, htaken, Table.apply, Table.apply, Table.apply, List.foldl_append]
  have hflying : ∀ {o : Option (InFlight K)}, (∀ g, o = some g → g.storedAt ≠ none) → ∀ j g,
      Function.update p.flying i o j = some g → g.storedAt = none → ∃ items',
        Function.update held i none j = some items' ∧
          Store.restrict eventsNs g.request.plan.writes = items'.map (·.eventEntry env) := by
    intro o ho j g hj hgread
    rcases flying_update hj with ⟨hg, -⟩ | ⟨hold, hji⟩
    · exact absurd hgread (ho g hg)
    · obtain ⟨items', hheld', hevents'⟩ := h.flying j g hold hgread
      exact ⟨items', (Function.update_of_ne hji ..).trans hheld', hevents'⟩
  refine ⟨published ++ taken, Function.update held i none, ?_⟩
  rw [Interleaved.store]
  split
  · refine ⟨hissued, by rw [h.log_eq, List.map_append], hflying ?_, htable⟩
    rintro g hg
    obtain rfl := Option.some.inj hg
    simp
  · have hagrees := agrees_abandon f.fate f.request (p.world.commit f.fate.main f.request.plan)
    refine ⟨?_, by rw [h.log_eq, List.map_append], hflying (fun g hg => by cases hg), ?_⟩
    · have hseq := hagrees.seq
      change Issued _ (abandon f.fate f.request _).engine.localSeq _ _
      rw [hseq]
      exact hissued
    · change (abandon f.fate f.request _).store.table eventsNs = _
      rw [hagrees.store]
      exact htable

theorem Ledger.apply (h : p.Ledger env log published held) (i : Nat) (f : InFlight K) (t : Nat) :
    (p.apply env i f t).Ledger env log published held := by
  have hsettled := settle_spec env f.fate f.request p.world
  refine ⟨?_, h.log_eq, ?_, ?_⟩
  · change Issued _ (settle env f.fate f.request p.world).engine.localSeq _ _
    rw [hsettled.seq]
    exact h.issued
  · intro j g hj hread
    rcases flying_update hj with ⟨hg, -⟩ | ⟨hold, -⟩
    · cases hg
    · exact h.flying j g hold hread
  · exact (hsettled.table _ eventsNs_ne_routeMetaNs).trans h.table

omit [Field K] [LinearOrder K] in
theorem publishes_store {f : InFlight K} (hf : p.flying i = some f) (hread : f.storedAt = none) :
    p.publishes (.store i) =
      f.fate.main.effective (Store.restrict eventsNs f.request.plan.writes) := by
  rw [publishes, hf]
  exact if_pos hread

/-- A step adds to the events what its batch publishes. -/
theorem Ledger.next (hlaw : env.Lawful) {P : Bytes → Bytes → Prop} (hP : Names P)
    (hS : Sourced env P p.world) (h : p.Ledger env log published held) (act : Act K) :
    ∃ published' held', (p.next env act).Ledger env (log ++ p.publishes act) published' held' := by
  cases act with
  | start i call fate =>
    rw [publishes, List.append_nil]
    cases hf : p.flying i with
    | none =>
      rw [next_start hf]
      exact ⟨published, h.start hlaw hP hS call fate⟩
    | some f =>
      rw [Interleaved.next, hf]
      exact ⟨published, held, h⟩
  | store i =>
    cases hf : p.flying i with
    | none =>
      rw [(next_idle hf).1, publishes, hf, List.append_nil]
      exact ⟨published, held, h⟩
    | some f =>
      cases hread : f.storedAt with
      | none =>
        rw [next_store hf hread, publishes_store hf hread]
        exact h.store hf hread
      | some t =>
        rw [Interleaved.next, publishes, hf]
        dsimp only
        rw [if_neg (by simp [hread]), if_neg (by simp [hread]), List.append_nil]
        exact ⟨published, held, h⟩
  | apply i =>
    rw [publishes, List.append_nil]
    cases hf : p.flying i with
    | none =>
      rw [(next_idle hf).2]
      exact ⟨published, held, h⟩
    | some f =>
      cases hstored : f.storedAt with
      | none =>
        rw [Interleaved.next, hf]
        dsimp only
        rw [hstored]
        exact ⟨published, held, h⟩
      | some t =>
        rw [next_apply hf hstored]
        exact ⟨published, held, h.apply i f t⟩

theorem Ledger.run (hlaw : env.Lawful) (hsound : p.Sound env fun w id => w ≠ [] ∧ id ≠ [])
    (h : p.Ledger env log published held) (acts : List (Act K)) :
    ∃ published' held', (Runs.exec (Interleaved.next env) p acts).Ledger env
      (log ++ p.eventLog env acts) published' held' := by
  induction acts generalizing p log published held with
  | nil =>
    rw [eventLog, List.append_nil]
    exact ⟨published, held, h⟩
  | cons act rest ih =>
    obtain ⟨published', held', hnext⟩ := h.next hlaw names_nonempty hsound.sourced act
    rw [eventLog, ← List.append_assoc]
    refine ih (hsound.next hlaw names_nonempty ?_) hnext
    cases act with
    | start i call fate => exact Step.admits_nonempty (.call call fate)
    | store i => trivial
    | apply i => trivial

omit [Field K] [LinearOrder K] in
/-- Events of different numbers have different keys. -/
theorem Ledger.nodup_keys (h : p.Ledger env log published held)
    (hseq : p.world.engine.localSeq < 2 ^ 64) : (log.map (·.entry.key)).Nodup := by
  rw [h.log_eq, List.map_map]
  have hnodup := List.pairwise_map.mp h.issued.nodup
  refine List.pairwise_map.mpr (hnodup.imp_of_mem ?_)
  intro a b ha hb hne hkey
  have hofNat : UInt64.ofNat a.seq = UInt64.ofNat b.seq := seq_of_buildEventKey hkey
  have hale := h.issued.bound a ha
  have hble := h.issued.bound b hb
  have htoNat := congrArg UInt64.toNat hofNat
  rw [UInt64.toNat_ofNat_of_lt' (by simp [UInt64.size]; omega),
    UInt64.toNat_ofNat_of_lt' (by simp [UInt64.size]; omega)] at htoNat
  exact hne htoNat

end Interleaved

/-- In every interleaving of requests that draws fewer than 2^64 numbers, whatever becomes of
their batches, the keys of the events that reach the store are distinct, and the event rows
are exactly these events: none is lost, none is overwritten and none is there twice. -/
theorem concurrent_event_log {env : Platform K} (hlaw : env.Lawful) (nodeId : Bytes)
    (options : MemoryEngineOptions K) (acts : List (Act K))
    (hseq : (Runs.exec (Interleaved.next env) (Interleaved.initial nodeId options)
      acts).world.engine.localSeq < 2 ^ 64) :
    let p := Runs.exec (Interleaved.next env) (Interleaved.initial nodeId options) acts
    let log := (Interleaved.initial nodeId options).eventLog env acts
    (log.map (·.entry.key)).Nodup ∧
      ∀ (k : Bytes) v, (p.world.store.table eventsNs)[k]? = some v ↔
        ∃ e ∈ log, e.entry.key = k ∧ v = ⟨e.entry.value, e.entry.ts⟩ := by
  intro p log
  obtain ⟨published, held, h⟩ := (Interleaved.ledger_initial env nodeId options).run hlaw
    (sound_initial env _ nodeId options) acts
  rw [List.nil_append] at h
  have hkeys := h.nodup_keys hseq
  refine ⟨hkeys, fun k v => ?_⟩
  rw [h.table]
  refine Table.lookup_apply_empty (fun e he => ?_) hkeys k v
  rw [h.log_eq] at he
  obtain ⟨item, -, rfl⟩ := List.mem_map.mp he
  rfl

end Steps

section Examples
open Reference

/-- Two writes are drawn up before the batch of either, and the second one is stored first. -/
def crossedWrites : List (Act ℚ) :=
  [.start 0 (put (ascii "w") (ascii "a") (ascii "one")) applied,
    .start 1 (put (ascii "w") (ascii "b") (ascii "two")) applied,
    .store 1, .store 0, .apply 0, .apply 1]

theorem concurrent_event_log_crossed_writes :
    let log := (Interleaved.initial (ascii "node") options).eventLog (platform stopped) crossedWrites
    log.length = 2 ∧ (log.map (·.entry.key)).Nodup :=
  ⟨by decide +kernel, (concurrent_event_log (lawful_platform stopped) (ascii "node") options crossedWrites
    (by decide +kernel)).1⟩

end Examples

end PoorguyMem
