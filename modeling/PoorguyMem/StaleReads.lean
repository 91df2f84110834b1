import PoorguyMem.InFlight
import PoorguyMem.Pinning

/-!
# Stale reads

A pin writes back the record that it has read, and a compaction tombstones or deletes the
ones of its snapshot. Neither looks again before its batch or its update in memory, so a
`Write` that comes in between is undone, unless the pin has read the same content.
-/

namespace PoorguyMem

open ByteString

variable {K : Type}

/-- A call that writes records which it has read. -/
def Call.rewrites : Call K → Bool
  | .pin _ _ _ => true
  | .compact _ => true
  | .gc => true
  | .write _ => false
  | .query _ => false

/-- The last record that a `Write` has left under a name since a time. -/
def latestWrite (log : List (Nat × MemoryRecord K)) (since : Nat) (workspaceId id : Bytes) :
    Option (MemoryRecord K) :=
  ((log.filter fun entry => since < entry.1 && entry.2.workspaceId = workspaceId &&
    entry.2.id = id).getLast?).map Prod.snd

/-- A change that neither replaces the content of a record nor tombstones or deletes it. -/
def Change.Keeps (change : Change K) (r : MemoryRecord K) : Prop :=
  ∃ r', change = .put r' ∧ r'.tombstone = false ∧ r'.content = r.content

/-- The changes of a request keep what the `Write`s have left since it read. -/
def InFlight.KeepsWrites (log : List (Nat × MemoryRecord K)) (f : InFlight K) : Prop :=
  ∀ change ∈ f.changes, ∀ r,
    latestWrite log f.started change.record.workspaceId change.record.id = some r →
    change.Keeps r

section Stale
variable [Field K] [LinearOrder K]

/-- No `Write` has left a record under a name that the request changes since it read, unless
it is a pin that has read a live record with the same content. -/
def InFlight.Current (env : Platform K) (log : List (Nat × MemoryRecord K)) (f : InFlight K) :
    Prop :=
  match f.call with
  | .pin workspaceId memoryId _ =>
    ∀ loaded, loadRecord env f.seen.engine f.seen.store.reader workspaceId memoryId = .ok loaded →
      ∀ r, latestWrite log f.started loaded.workspaceId loaded.id = some r →
        loaded.tombstone = false ∧ loaded.content = r.content
  | _ => ∀ change ∈ f.changes,
      latestWrite log f.started change.record.workspaceId change.record.id = none

/-- A condition on the batches that pins and compactions commit, with the records of the
`Write`s whose batches came before, and on their updates in memory, with the records of
those that were applied before. -/
def Act.Rewriting (Q : List (Nat × MemoryRecord K) → InFlight K → Prop) (p : Interleaved K) :
    Act K → Prop
  | .start _ _ _ => True
  | .store i => ∀ f, p.flying i = some f → f.storedAt = none → f.fate.main.ok = true →
      f.call.rewrites = true → Q p.written f
  | .apply i => ∀ f, p.flying i = some f → f.storedAt ≠ none → f.call.rewrites = true →
      Q p.shown f

variable {env : Platform K} {P : Bytes → Bytes → Prop} {f : InFlight K}
  {items : List (LogItem K)}

/-- A pin in flight puts the record that it has read. -/
theorem InFlight.Drawn.pinned (h : f.Drawn env P items) {workspaceId memoryId : Bytes}
    {flag : Bool} (hcall : f.call = .pin workspaceId memoryId flag) : ∃ loaded,
    loadRecord env f.seen.engine f.seen.store.reader workspaceId memoryId = .ok loaded ∧
      f.changes = [.put (pinnedRecord f.seen.engine loaded flag (env.clock f.seen.tick))] := by
  have hprep := h.prepared
  rw [hcall] at hprep
  change (preparePin env f.seen workspaceId memoryId flag).1 = _ at hprep
  rw [preparePin] at hprep
  cases pinDrawn env f.seen workspaceId memoryId flag with
  | missing _ hdraft =>
    rw [hdraft] at hprep
    cases hprep
  | refused _ _ hdraft =>
    rw [hdraft] at hprep
    cases hprep
  | unwritable _ _ hdraft =>
    rw [hdraft] at hprep
    cases hprep
  | drawn hpinning =>
    rename_i loaded plan c
    refine ⟨loaded, hpinning.load, ?_⟩
    rw [hpinning.draft] at hprep
    rw [InFlight.changes, ← Option.some.inj hprep]
    change plan.changes = _
    rw [Plan.changes, hpinning.upserts, hpinning.removals]
    rfl

/-- What a compaction in flight changes is tombstoned or deleted. -/
theorem InFlight.Drawn.compacted (h : f.Drawn env P items) {workspaceId : Bytes}
    (hcall : f.call.compacts = some workspaceId) {change : Change K} (hchange : change ∈ f.changes)
    (r : MemoryRecord K) : ¬ change.Keeps r := by
  obtain ⟨c, hd⟩ := h.drafted
  rw [InFlight.changes, hd.changes] at hchange
  obtain ⟨item, hitem, rfl⟩ := List.mem_map.mp hchange
  obtain ⟨j, -, -, hprod⟩ := hd.produced item hitem
  rintro ⟨r', hput, hlive, -⟩
  rw [hput] at hprod
  generalize f.call = call at hcall hprod
  cases hprod with
  | new => cases hcall
  | pinned => cases hcall
  | tombstoned => cases hlive

/-- A request keeps the `Write`s since it read if and only if what it read is current. -/
theorem InFlight.Drawn.keepsWrites_iff (h : f.Drawn env P items)
    (hcall : f.call.rewrites = true) (log : List (Nat × MemoryRecord K)) :
    f.KeepsWrites log ↔ f.Current env log := by
  have compact : ∀ workspaceId, f.call.compacts = some workspaceId →
      (f.KeepsWrites log ↔ ∀ change ∈ f.changes,
        latestWrite log f.started change.record.workspaceId change.record.id = none) := by
    intro workspaceId hcompacts
    constructor
    · intro hkeeps change hchange
      rw [Option.eq_none_iff_forall_ne_some]
      intro r hr
      exact h.compacted hcompacts hchange r (hkeeps change hchange r hr)
    · intro hnone change hchange r hr
      cases (hnone change hchange).symm.trans hr
  rw [InFlight.Current]
  cases hc : f.call with
  | write input =>
    rw [hc] at hcall
    cases hcall
  | query input =>
    rw [hc] at hcall
    cases hcall
  | compact workspaceId => exact compact workspaceId (by rw [hc]; rfl)
  | gc => exact compact [] (by rw [hc]; rfl)
  | pin workspaceId memoryId flag =>
    obtain ⟨loaded, hload, hchanges⟩ := h.pinned hc
    have hkeeps : ∀ r, Change.Keeps
        (.put (pinnedRecord f.seen.engine loaded flag (env.clock f.seen.tick))) r ↔
          loaded.tombstone = false ∧ loaded.content = r.content := by
      intro r
      constructor
      · rintro ⟨r', hput, hlive, hcontent⟩
        obtain rfl := Change.put.inj hput
        exact ⟨hlive, hcontent⟩
      · rintro ⟨hlive, hcontent⟩
        exact ⟨_, rfl, hlive, hcontent⟩
    rw [InFlight.KeepsWrites, hchanges]
    constructor
    · intro hall loaded' hload' r hr
      obtain rfl := Except.ok.inj (hload.symm.trans hload')
      exact (hkeeps r).mp (hall _ List.mem_cons_self r hr)
    · intro hcurrent change hchange r hr
      obtain rfl := List.mem_singleton.mp hchange
      exact (hkeeps r).mpr (hcurrent loaded hload r hr)

omit [Field K] [LinearOrder K] in
theorem latestWrite_eq_none {log : List (Nat × MemoryRecord K)} {since : Nat}
    (h : ∀ entry ∈ log, entry.1 ≤ since) (workspaceId id : Bytes) :
    latestWrite log since workspaceId id = none := by
  have hnone : log.filter (fun entry => since < entry.1 && entry.2.workspaceId = workspaceId &&
      entry.2.id = id) = [] := by
    rw [List.filter_eq_nil_iff]
    intro entry hentry
    have hle := h entry hentry
    simp only [Bool.and_eq_true, decide_eq_true_eq, not_and]
    omega
  rw [latestWrite, hnone]
  rfl

omit [LinearOrder K] in
/-- What was read after all the `Write`s is current. -/
theorem InFlight.current_of_le {log : List (Nat × MemoryRecord K)}
    (h : ∀ entry ∈ log, entry.1 ≤ f.started) : f.Current env log := by
  rw [InFlight.Current]
  split
  · intro loaded _ r hr
    cases (latestWrite_eq_none h _ _).symm.trans hr
  · exact fun change _ => latestWrite_eq_none h _ _

theorem Act.rewriting_iff {p : Interleaved K} (h : p.Sound env P) (act : Act K) :
    act.Rewriting InFlight.KeepsWrites p ↔ act.Rewriting (InFlight.Current env) p := by
  cases act with
  | start i call fate => exact Iff.rfl
  | store i =>
    refine forall_congr' fun f => forall_congr' fun hf => forall_congr' fun _ =>
      forall_congr' fun _ => forall_congr' fun hcall => ?_
    obtain ⟨items, hdrawn⟩ := h.flying i f hf
    exact hdrawn.keepsWrites_iff hcall p.written
  | apply i =>
    refine forall_congr' fun f => forall_congr' fun hf => forall_congr' fun _ =>
      forall_congr' fun hcall => ?_
    obtain ⟨items, hdrawn⟩ := h.flying i f hf
    exact hdrawn.keepsWrites_iff hcall p.shown

/-- In every interleaving of requests, no pin and no compaction undoes a `Write` that came
after its read if and only if what each of them has read is current. -/
theorem no_lost_writes_iff (hlaw : env.Lawful) (nodeId : Bytes) (options : MemoryEngineOptions K)
    (acts : List (Act K)) :
    Runs.Along (Interleaved.next env) (fun p act => act.Rewriting InFlight.KeepsWrites p)
        (Interleaved.initial nodeId options) acts ↔
      Runs.Along (Interleaved.next env) (fun p act => act.Rewriting (InFlight.Current env) p)
        (Interleaved.initial nodeId options) acts := by
  have hstep : ∀ (p : Interleaved K) act, p.Sound env (fun w id => w ≠ [] ∧ id ≠ []) →
      (p.next env act).Sound env fun w id => w ≠ [] ∧ id ≠ [] := by
    intro p act h
    apply h.next hlaw names_nonempty
    cases act with
    | start i call fate =>
      cases call with
      | write input => exact fun id hws hid => ⟨hws, hid⟩
      | _ => trivial
    | store i => trivial
    | apply i => trivial
  have hinitial := sound_initial env (fun w id => w ≠ [] ∧ id ≠ []) nodeId options
  constructor
  · intro h
    exact Runs.along_of_invariant (fun p act _ => hstep p act)
      (fun p act hkeeps hsound => (act.rewriting_iff hsound).mp hkeeps) h hinitial
  · intro h
    exact Runs.along_of_invariant (fun p act _ => hstep p act)
      (fun p act hcurrent hsound => (act.rewriting_iff hsound).mpr hcurrent) h hinitial

end Stale

section Examples
open Reference

/-- A record is written. Then one thread reads it for a pin, and another one writes it anew. -/
def overtaken : List (Act ℚ) :=
  [.start 0 (put (ascii "w") (ascii "a") (ascii "hello")) applied, .store 0, .apply 0,
    .start 1 (.pin (ascii "w") (ascii "a") true) applied,
    .start 2 (put (ascii "w") (ascii "a") (ascii "x")) applied, .store 2, .apply 2]

/-- The batch of the pin brings the old content back. -/
theorem not_keepsWrites_overtaken : ¬ Runs.Along (Interleaved.next (platform ticking))
    (fun p act => act.Rewriting InFlight.KeepsWrites p)
    (Interleaved.initial (ascii "node") options) (overtaken ++ [.store 1]) := by
  intro h
  obtain ⟨hlast, -⟩ := (Runs.along_append.mp h).2
  generalize hp : Runs.exec (Interleaved.next (platform ticking))
    (Interleaved.initial (ascii "node") options) overtaken = p at hlast
  have hflying : (p.flying 1).map (fun f => f.storedAt.isNone && f.fate.main.ok &&
      f.call.rewrites && decide (f.changes.map (fun change => (change.record.content,
        (latestWrite p.written f.started change.record.workspaceId change.record.id).map
          (·.content))) = [(ascii "hello", some (ascii "x"))])) = some true := by
    rw [← hp]
    decide +kernel
  obtain ⟨f, hf, hfields⟩ := Option.map_eq_some_iff.mp hflying
  simp only [Bool.and_eq_true, decide_eq_true_eq] at hfields
  obtain ⟨⟨⟨hread, hok⟩, hcall⟩, hcontents⟩ := hfields
  obtain ⟨change, hchanges, hboth⟩ := List.map_eq_singleton_iff.mp hcontents
  obtain ⟨hcontent, hlater⟩ := Prod.mk.inj hboth
  obtain ⟨r, hr, hnew⟩ := Option.map_eq_some_iff.mp hlater
  have hmem : change ∈ f.changes := by
    rw [hchanges]
    exact List.mem_cons_self
  obtain ⟨r', rfl, -, hsame⟩ := hlast f hf (Option.isNone_iff_eq_none.mp hread) hok hcall change hmem r hr
  have hold : r'.content = ascii "hello" := hcontent
  rw [hold, hnew] at hsame
  exact absurd hsame (by decide)

/-- A record is written, and then pinned. -/
def inTurn : List (Act ℚ) :=
  [.start 0 (put (ascii "w") (ascii "a") (ascii "hello")) applied, .store 0, .apply 0,
    .start 1 (.pin (ascii "w") (ascii "a") true) applied, .store 1, .apply 1]

theorem no_lost_writes_inTurn : Runs.Along (Interleaved.next (platform ticking))
    (fun p act => act.Rewriting InFlight.KeepsWrites p)
    (Interleaved.initial (ascii "node") options) inTurn := by
  have stored : ∀ (p : Interleaved ℚ) i, ((p.flying i).all fun f => !f.call.rewrites ||
      p.written.all fun entry => entry.1 ≤ f.started) = true →
      (Act.store i).Rewriting (InFlight.Current (platform ticking)) p := by
    intro p i h f hf _ _ hcall
    rw [hf, Option.all_some, hcall] at h
    exact InFlight.current_of_le (by simpa using h)
  have applied : ∀ (p : Interleaved ℚ) i, ((p.flying i).all fun f => !f.call.rewrites ||
      p.shown.all fun entry => entry.1 ≤ f.started) = true →
      (Act.apply i).Rewriting (InFlight.Current (platform ticking)) p := by
    intro p i h f hf _ hcall
    rw [hf, Option.all_some, hcall] at h
    exact InFlight.current_of_le (by simpa using h)
  refine (no_lost_writes_iff (lawful_platform ticking) (ascii "node") options inTurn).mpr
    ⟨trivial, stored _ 0 ?_, applied _ 0 ?_, trivial, stored _ 1 ?_, applied _ 1 ?_, trivial⟩
  · decide +kernel
  · decide +kernel
  · decide +kernel
  · decide +kernel

end Examples

end PoorguyMem
