import PoorguyMem.CommitOrder
import PoorguyMem.Lib.Progress

/-!
# The garbage collection thread

`RunGcLoop` waits on a condition variable until a write or a pin asks for a compaction,
the engine shuts down, or 30 seconds are over. The flags are atomic and set without the
mutex of the condition variable, so that a notification may come between the test of the
flags and the wait, and is lost then. No request is lost for that: the flag stays set, and
the wait comes to an end.
-/

namespace PoorguyMem

open ByteString

variable {K : Type}

/-- Where the collector is in `RunGcLoop`. -/
inductive GcPhase where
  /-- There is no thread. -/
  | off
  /-- Before the test of `gc_stop_` at the head of the loop. -/
  | testing
  /-- With the lock, before the predicate of the wait. -/
  | checking
  /-- The predicate was false, and the thread is about to block. -/
  | parking
  | parked
  | woken
  /-- After the wait, before the second test of `gc_stop_`. -/
  | leaving
  | resetting
  /-- Before `CompactInternal`. -/
  | ready
  /-- The batch of the compaction is drawn up. -/
  | compacting
  | applying
  | finished
  deriving DecidableEq

/-- What a thread has to do after a `Write` or a `Pin`, in `MaybeScheduleGc`. -/
inductive Errand where
  | none
  | schedule
  | notify
  deriving DecidableEq

/-- The requests in flight with the collector, whose thread has the number 0. The last
three fields count the requests for a compaction, those among them that came before the
last compaction began, and the compactions. -/
structure Collector (K : Type) where
  requests : Interleaved K
  errand : Nat → Errand
  running : Bool
  stop : Bool
  requested : Bool
  phase : GcPhase
  joined : Bool
  asked : Nat
  covered : Nat
  begun : Nat

inductive GcEvent (K : Type) where
  | client (act : Act K)
  | schedule (i : Nat) (usage : StoreUsage)
  | notify (i : Nat)
  /-- A step of the collector; where it blocks, the 30 seconds are over. -/
  | collect (fate : Fate)
  | spurious
  | shutdown
  | notifyAll
  | join

def GcPhase.wake : GcPhase → GcPhase
  | .parked => .woken
  | phase => phase

theorem GcPhase.wake_spec (phase : GcPhase) :
    phase.wake = phase ∨ phase = .parked ∧ phase.wake = .woken := by
  cases phase <;> decide

/-- How many steps a collector that finds a request is from its next compaction. -/
def GcPhase.toCompaction : GcPhase → Nat
  | .ready => 0
  | .resetting => 1
  | .leaving => 2
  | .checking => 3
  | .woken => 4
  | .testing => 4
  | .parked => 5
  | .applying => 5
  | .parking => 6
  | .compacting => 6
  | .off => 0
  | .finished => 0

theorem GcPhase.toCompaction_lt (phase : GcPhase) : phase.toCompaction < 7 := by
  cases phase <;> decide

/-- How many steps a collector that is to stop is from its last one. -/
def GcPhase.toEnd : GcPhase → Nat
  | .testing => 0
  | .leaving => 0
  | .checking => 1
  | .applying => 1
  | .woken => 2
  | .parked => 2
  | .compacting => 2
  | .parking => 3
  | .ready => 3
  | .resetting => 4
  | .off => 0
  | .finished => 0

theorem GcPhase.toEnd_lt (phase : GcPhase) : phase.toEnd < 5 := by
  cases phase <;> decide

/-- The request of a `Write` or of a `Pin` that is about to be applied. -/
def Act.endsChange (p : Interleaved K) : Act K → Bool
  | .apply i =>
    match p.flying i with
    | some f =>
      f.storedAt.isSome && match f.call with
        | .write _ => true
        | .pin _ _ _ => true
        | _ => false
    | none => false
  | _ => false

namespace Collector
section Steps
variable [Field K] [LinearOrder K]

def initial (nodeId : Bytes) (options : MemoryEngineOptions K) : Collector K where
  requests := Interleaved.initial nodeId options
  errand := fun _ => .none
  running := options.enableTombstoneGc
  stop := false
  requested := false
  phase := if options.enableTombstoneGc then .testing else .off
  joined := false
  asked := 0
  covered := 0
  begun := 0

def client (env : Platform K) (s : Collector K) (act : Act K) : Collector K :=
  if act.thread = 0 ∨ s.errand act.thread ≠ .none then s
  else
    { s with
      requests := s.requests.next env act
      errand := if act.endsChange s.requests then Function.update s.errand act.thread .schedule
        else s.errand }

/-- The first half of `MaybeScheduleGc`. -/
def schedule (s : Collector K) (i : Nat) (usage : StoreUsage) : Collector K :=
  match s.errand i with
  | .schedule =>
    if s.running && isOverHighWatermark s.requests.world.engine.options usage then
      { s with
        errand := Function.update s.errand i .notify
        requested := true
        asked := s.asked + 1 }
    else { s with errand := Function.update s.errand i .none }
  | _ => s

def notify (s : Collector K) (i : Nat) : Collector K :=
  match s.errand i with
  | .notify => { s with errand := Function.update s.errand i .none, phase := s.phase.wake }
  | _ => s

def collect (env : Platform K) (s : Collector K) (fate : Fate) : Collector K :=
  match s.phase with
  | .off => s
  | .testing => { s with phase := if s.stop then .finished else .checking }
  | .checking => { s with phase := if s.stop || s.requested then .leaving else .parking }
  | .parking => { s with phase := .parked }
  | .parked => { s with phase := .leaving }
  | .woken => { s with phase := .checking }
  | .leaving => { s with phase := if s.stop then .finished else .resetting }
  | .resetting => { s with requested := false, phase := .ready }
  | .ready =>
    let requests := s.requests.next env (.start 0 .gc fate)
    { s with
      requests := requests
      phase := if (requests.flying 0).isSome then .compacting else .testing
      covered := s.asked
      begun := s.begun + 1 }
  | .compacting =>
    let requests := s.requests.next env (.store 0)
    { s with
      requests := requests
      phase := if (requests.flying 0).isSome then .applying else .testing }
  | .applying => { s with requests := s.requests.next env (.apply 0), phase := .testing }
  | .finished => s

/-- `Shutdown` joins the thread where there is one. -/
def next (env : Platform K) (s : Collector K) : GcEvent K → Collector K
  | .client act => s.client env act
  | .schedule i usage => s.schedule i usage
  | .notify i => s.notify i
  | .collect fate => s.collect env fate
  | .spurious => { s with phase := s.phase.wake }
  | .shutdown => { s with stop := true }
  | .notifyAll => if s.stop then { s with phase := s.phase.wake } else s
  | .join => if s.stop && (s.phase = .off || s.phase = .finished) then { s with joined := true } else s

/-! ### What the other threads do to the collector -/

/-- The steps of the collector. -/
def isCollect : GcEvent K → Bool
  | .collect _ => true
  | _ => false

def isShutdown : GcEvent K → Bool
  | .shutdown => true
  | _ => false

/-- A step of another thread may wake the collector, and it may set a flag. -/
structure Aside (s s' : Collector K) : Prop where
  phase : s'.phase = s.phase ∨ s'.phase = s.phase.wake
  begun : s'.begun = s.begun
  covered : s'.covered = s.covered
  requested : s.requested = true → s'.requested = true
  stop : s.stop = true → s'.stop = true
  asked : s'.asked = s.asked ∨ s'.requested = true
  asked_le : s.asked ≤ s'.asked
  running : s'.running = s.running
  asks : s'.requested = true → s.requested = true ∨ s.running = true
  joined : s'.joined = true → s.joined = true ∨
    s.stop = true ∧ (s.phase = .off ∨ s.phase = .finished)

omit [Field K] [LinearOrder K] in
theorem aside_refl (s : Collector K) : s.Aside s :=
  ⟨Or.inl rfl, rfl, rfl, id, id, Or.inl rfl, Nat.le_refl _, rfl, Or.inl, Or.inl⟩

variable {env : Platform K} {s : Collector K}

theorem aside_next (env : Platform K) (s : Collector K) {event : GcEvent K}
    (h : isCollect event = false) : s.Aside (s.next env event) := by
  cases event with
  | client act =>
    rw [next, client]
    split
    · exact s.aside_refl
    · exact ⟨Or.inl rfl, rfl, rfl, id, id, Or.inl rfl, Nat.le_refl _, rfl, Or.inl, Or.inl⟩
  | schedule i usage =>
    rw [next, schedule]
    split
    · split
      · rename_i hover
        rw [Bool.and_eq_true] at hover
        exact ⟨Or.inl rfl, rfl, rfl, fun _ => rfl, id, Or.inr rfl, Nat.le_succ _, rfl,
        fun _ => Or.inr hover.1, Or.inl⟩
      · exact ⟨Or.inl rfl, rfl, rfl, id, id, Or.inl rfl, Nat.le_refl _, rfl, Or.inl, Or.inl⟩
    · exact s.aside_refl
  | notify i =>
    rw [next, notify]
    split
    · exact ⟨Or.inr rfl, rfl, rfl, id, id, Or.inl rfl, Nat.le_refl _, rfl, Or.inl, Or.inl⟩
    · exact s.aside_refl
  | collect fate => cases h
  | spurious => exact ⟨Or.inr rfl, rfl, rfl, id, id, Or.inl rfl, Nat.le_refl _, rfl, Or.inl, Or.inl⟩
  | shutdown => exact ⟨Or.inl rfl, rfl, rfl, id, fun _ => rfl, Or.inl rfl, Nat.le_refl _, rfl, Or.inl, Or.inl⟩
  | notifyAll =>
    rw [next]
    split
    · exact ⟨Or.inr rfl, rfl, rfl, id, id, Or.inl rfl, Nat.le_refl _, rfl, Or.inl, Or.inl⟩
    · exact s.aside_refl
  | join =>
    rw [next]
    split
    · rename_i hended
      rw [Bool.and_eq_true, Bool.or_eq_true, decide_eq_true_iff, decide_eq_true_iff] at hended
      exact ⟨Or.inl rfl, rfl, rfl, id, id, Or.inl rfl, Nat.le_refl _, rfl, Or.inl,
        fun _ => Or.inr hended⟩
    · exact s.aside_refl

theorem stop_next {event : GcEvent K} (h : isShutdown event = false) :
    (s.next env event).stop = s.stop := by
  cases event with
  | client act =>
    rw [next, client]
    split <;> rfl
  | schedule i usage =>
    rw [next, schedule]
    split
    · split <;> rfl
    · rfl
  | notify i =>
    rw [next, notify]
    split <;> rfl
  | collect fate =>
    rw [next, collect]
    split <;> rfl
  | spurious => rfl
  | shutdown => cases h
  | notifyAll =>
    rw [next]
    split <;> rfl
  | join =>
    rw [next]
    split <;> rfl

omit [Field K] [LinearOrder K] in
theorem eq_collect {event : GcEvent K} (h : isCollect event = true) :
    ∃ fate, event = .collect fate := by
  cases event with
  | collect fate => exact ⟨fate, rfl⟩
  | _ => cases h

theorem asked_collect (s : Collector K) (fate : Fate) :
    (s.collect env fate).asked = s.asked := by
  rw [collect]
  split <;> rfl

theorem covered_collect (env : Platform K) (s : Collector K) (fate : Fate) :
    (s.collect env fate).covered = s.covered ∨ (s.collect env fate).covered = s.asked := by
  rw [collect]
  split <;> first | exact Or.inl rfl | exact Or.inr rfl

/-! ### Requests for a compaction -/

theorem phase_aside (env : Platform K) (s : Collector K) {event : GcEvent K}
    (hcollect : isCollect event = false) :
    (s.next env event).phase = s.phase ∨ s.phase = .parked ∧
      (s.next env event).phase = .woken := by
  rcases (aside_next env s hcollect).phase with hsame | hwoken
  · exact Or.inl hsame
  · rw [hwoken]
    exact s.phase.wake_spec

/-- A collector that has found a request, or is going to. -/
structure Called (s : Collector K) : Prop where
  stop : s.stop = false
  wanted : s.requested = true ∨ s.phase = .ready
  alive : s.phase ≠ .off ∧ s.phase ≠ .finished

theorem Called.aside (h : s.Called) {event : GcEvent K} (hcollect : isCollect event = false)
    (hshutdown : isShutdown event = false) : (s.next env event).Called ∧
      (s.next env event).phase.toCompaction ≤ s.phase.toCompaction := by
  have haside := aside_next env s hcollect
  have hphase := phase_aside env s hcollect
  refine ⟨⟨(stop_next hshutdown).trans h.stop, ?_, ?_⟩, ?_⟩
  · rcases h.wanted with hrequested | hready
    · exact Or.inl (haside.requested hrequested)
    · rcases hphase with hsame | ⟨hparked, -⟩
      · exact Or.inr (hsame.trans hready)
      · rw [hready] at hparked
        cases hparked
  · rcases hphase with hsame | ⟨-, hwoken⟩
    · rw [hsame]
      exact h.alive
    · rw [hwoken]
      decide
  · rcases hphase with hsame | ⟨hparked, hwoken⟩
    · rw [hsame]
    · rw [hwoken, hparked]
      decide

/-- A step of the collector takes it nearer to the compaction, or begins it. -/
theorem Called.collect (h : s.Called) (env : Platform K) (fate : Fate) :
    (s.collect env fate).asked = s.asked ∧
      ((s.collect env fate).covered = s.asked ∨ (s.collect env fate).Called ∧
        (s.collect env fate).phase.toCompaction < s.phase.toCompaction) := by
  obtain ⟨hstop, hwanted, halive⟩ := h
  refine ⟨asked_collect s fate, ?_⟩
  have hrequested : s.phase ≠ .ready → s.requested = true := fun hne =>
    hwanted.resolve_right hne
  rw [Collector.collect]
  cases hphase : s.phase with dsimp only
  | off => exact absurd hphase halive.1
  | finished => exact absurd hphase halive.2
  | ready => exact Or.inl rfl
  | resetting => exact Or.inr ⟨⟨hstop, Or.inr rfl, by simp⟩, by decide⟩
  | testing =>
    have hreq := hrequested (by simp [hphase])
    refine Or.inr ⟨⟨hstop, Or.inl hreq, ?_⟩, ?_⟩ <;> simp [hstop, GcPhase.toCompaction]
  | checking =>
    have hreq := hrequested (by simp [hphase])
    refine Or.inr ⟨⟨hstop, Or.inl hreq, ?_⟩, ?_⟩ <;> simp [hreq, GcPhase.toCompaction]
  | parking =>
    have hreq := hrequested (by simp [hphase])
    exact Or.inr ⟨⟨hstop, Or.inl hreq, by simp⟩, by decide⟩
  | parked =>
    have hreq := hrequested (by simp [hphase])
    exact Or.inr ⟨⟨hstop, Or.inl hreq, by simp⟩, by decide⟩
  | woken =>
    have hreq := hrequested (by simp [hphase])
    exact Or.inr ⟨⟨hstop, Or.inl hreq, by simp⟩, by decide⟩
  | leaving =>
    have hreq := hrequested (by simp [hphase])
    refine Or.inr ⟨⟨hstop, Or.inl hreq, ?_⟩, ?_⟩ <;> simp [hstop, GcPhase.toCompaction]
  | compacting =>
    have hreq := hrequested (by simp [hphase])
    refine Or.inr ⟨⟨hstop, Or.inl hreq, ?_⟩, ?_⟩ <;> split <;> simp [GcPhase.toCompaction]
  | applying =>
    have hreq := hrequested (by simp [hphase])
    exact Or.inr ⟨⟨hstop, Or.inl hreq, by simp⟩, by decide⟩

/-- The first `n` requests came before a compaction that has begun. -/
def Covers (n : Nat) (s : Collector K) : Prop := n ≤ s.covered ∧ n ≤ s.asked

theorem ranks_compaction (env : Platform K) (n : Nat) :
    Progress.Ranks (next env) isCollect (fun event => isShutdown event = false)
      (fun s => s.Called ∧ n ≤ s.asked) (Covers n) (fun s => s.phase.toCompaction) where
  stable s event _ hgoal := by
    cases hcollect : isCollect event with
    | false =>
      have haside := aside_next env s hcollect
      exact ⟨hgoal.1.trans haside.covered.ge, hgoal.2.trans haside.asked_le⟩
    | true =>
      obtain ⟨fate, rfl⟩ := eq_collect hcollect
      refine ⟨?_, hgoal.2.trans (asked_collect s fate).ge⟩
      rcases covered_collect env s fate with hsame | hall
      · exact hgoal.1.trans hsame.ge
      · exact hgoal.2.trans hall.ge
  keeps s event hshutdown h := by
    cases hcollect : isCollect event with
    | false =>
      exact Or.inr ⟨(h.1.aside hcollect hshutdown).1,
        h.2.trans (aside_next env s hcollect).asked_le⟩
    | true =>
      obtain ⟨fate, rfl⟩ := eq_collect hcollect
      obtain ⟨hasked, hcovered | ⟨hcalled, -⟩⟩ := h.1.collect env fate
      · exact Or.inl ⟨h.2.trans hcovered.ge, h.2.trans hasked.ge⟩
      · exact Or.inr ⟨hcalled, h.2.trans hasked.ge⟩
  turn s event _ h hcollect := by
    obtain ⟨fate, rfl⟩ := eq_collect hcollect
    obtain ⟨hasked, hcovered | ⟨-, hlt⟩⟩ := h.1.collect env fate
    · exact Or.inl ⟨h.2.trans hcovered.ge, h.2.trans hasked.ge⟩
    · exact Or.inr hlt
  other s event hshutdown h hcollect := Or.inr (h.1.aside hcollect hshutdown).2

/-- What holds of the flags in every run. -/
structure Kept (s : Collector K) : Prop where
  answered : s.requested = true ∨ s.phase = .ready ∨ s.covered = s.asked
  requested : s.requested = true → s.phase ≠ .off
  finished : s.phase = .finished → s.stop = true
  off : s.phase = .off → s.running = false ∧ s.begun = 0
  running : s.running = false → s.phase = .off
  joined : s.joined = true → s.stop = true ∧ (s.phase = .off ∨ s.phase = .finished)

omit [Field K] [LinearOrder K] in
theorem kept_initial (nodeId : Bytes) (options : MemoryEngineOptions K) :
    (Collector.initial nodeId options).Kept := by
  refine ⟨Or.inr (Or.inr rfl), fun h => (by cases h), ?_, ?_, ?_, fun h => (by cases h)⟩ <;>
    cases hgc : options.enableTombstoneGc <;> simp [Collector.initial, hgc]

theorem Kept.aside (h : s.Kept) {event : GcEvent K} (hcollect : isCollect event = false) :
    (s.next env event).Kept := by
  have haside := aside_next env s hcollect
  have hphase := phase_aside env s hcollect
  have hoff : (s.next env event).phase = .off ↔ s.phase = .off := by
    rcases hphase with hsame | ⟨hparked, hwoken⟩
    · rw [hsame]
    · rw [hwoken, hparked]
      decide
  have hfinished : (s.next env event).phase = .finished ↔ s.phase = .finished := by
    rcases hphase with hsame | ⟨hparked, hwoken⟩
    · rw [hsame]
    · rw [hwoken, hparked]
      decide
  constructor
  · rcases haside.asked with hasked | hrequested
    · rw [hasked, haside.covered]
      rcases h.answered with hrequested | hready | hcovered
      · exact Or.inl (haside.requested hrequested)
      · refine Or.inr (Or.inl ?_)
        rcases hphase with hsame | ⟨hparked, -⟩
        · exact hsame.trans hready
        · rw [hready] at hparked
          cases hparked
      · exact Or.inr (Or.inr hcovered)
    · exact Or.inl hrequested
  · intro hrequested hgone
    rcases haside.asks hrequested with hbefore | hrunning
    · exact h.requested hbefore (hoff.mp hgone)
    · have hnot := (h.off (hoff.mp hgone)).1
      rw [hrunning] at hnot
      cases hnot
  · exact fun hend => haside.stop (h.finished (hfinished.mp hend))
  · intro hgone
    rw [haside.running, haside.begun]
    exact h.off (hoff.mp hgone)
  · intro hrunning
    rw [haside.running] at hrunning
    exact hoff.mpr (h.running hrunning)
  · intro hjoined
    rw [hoff, hfinished]
    rcases haside.joined hjoined with hbefore | ⟨hstop, hend⟩
    · exact ⟨haside.stop (h.joined hbefore).1, (h.joined hbefore).2⟩
    · exact ⟨haside.stop hstop, hend⟩

omit [Field K] [LinearOrder K] in
/-- The collector may move on where it is not at an end or about to compact. -/
theorem Kept.moves (h : s.Kept) (requests : Interleaved K) {phase : GcPhase}
    (hlive : s.phase ≠ .off ∧ s.phase ≠ .finished ∧ s.phase ≠ .ready) (hoff : phase ≠ .off)
    (hfinished : phase = .finished → s.stop = true) :
    Kept { s with requests := requests, phase := phase } := by
  refine ⟨?_, fun _ => hoff, hfinished, fun hgone => absurd hgone hoff, ?_, ?_⟩
  · rcases h.answered with hrequested | hready | hcovered
    · exact Or.inl hrequested
    · exact absurd hready hlive.2.2
    · exact Or.inr (Or.inr hcovered)
  · exact fun hnot => absurd (h.running hnot) hlive.1
  · intro hjoined
    rcases (h.joined hjoined).2 with hgone | hend
    · exact absurd hgone hlive.1
    · exact absurd hend hlive.2.1

theorem Kept.collect (h : s.Kept) (env : Platform K) (fate : Fate) :
    (s.collect env fate).Kept := by
  have hlive : ∀ {phase : GcPhase}, s.phase = phase → phase ≠ .off → phase ≠ .finished →
      (s.running = false → False) ∧ (s.joined = true → False) := by
    intro phase hphase hoff hfinished
    refine ⟨fun hnot => hoff (hphase.symm.trans (h.running hnot)), fun hjoined => ?_⟩
    rcases (h.joined hjoined).2 with hgone | hend
    · exact hoff (hphase.symm.trans hgone)
    · exact hfinished (hphase.symm.trans hend)
  rw [Collector.collect]
  cases hphase : s.phase with dsimp only
  | off => exact h
  | finished => exact h
  | resetting =>
    obtain ⟨hrunning, hjoined⟩ := hlive hphase (by decide) (by decide)
    exact ⟨Or.inr (Or.inl rfl), fun hr => (by cases hr), fun hp => (by cases hp),
      fun hp => (by cases hp), fun hr => (hrunning hr).elim, fun hj => (hjoined hj).elim⟩
  | ready =>
    obtain ⟨hrunning, hjoined⟩ := hlive hphase (by decide) (by decide)
    refine ⟨Or.inr (Or.inr rfl), fun _ => ?_, ?_, ?_, fun hr => (hrunning hr).elim,
      fun hj => (hjoined hj).elim⟩ <;> split <;> simp
  | testing =>
    refine h.moves s.requests (by simp [hphase]) ?_ ?_ <;> cases s.stop <;> simp
  | checking =>
    refine h.moves s.requests (by simp [hphase]) ?_ ?_ <;> split <;> simp
  | leaving =>
    refine h.moves s.requests (by simp [hphase]) ?_ ?_ <;> cases s.stop <;> simp
  | compacting =>
    refine h.moves _ (by simp [hphase]) ?_ ?_ <;> split <;> simp
  | parking => exact h.moves s.requests (by simp [hphase]) (by simp) (by simp)
  | parked => exact h.moves s.requests (by simp [hphase]) (by simp) (by simp)
  | woken => exact h.moves s.requests (by simp [hphase]) (by simp) (by simp)
  | applying => exact h.moves _ (by simp [hphase]) (by simp) (by simp)

theorem Kept.next (h : s.Kept) (event : GcEvent K) : (s.next env event).Kept := by
  cases hcollect : isCollect event with
  | false => exact h.aside hcollect
  | true =>
    obtain ⟨fate, rfl⟩ := eq_collect hcollect
    exact h.collect env fate

theorem kept_run (env : Platform K) (nodeId : Bytes) (options : MemoryEngineOptions K)
    (events : List (GcEvent K)) :
    (Runs.exec (Collector.next env) (Collector.initial nodeId options) events).Kept :=
  Runs.invariant_of_forall (R := fun _ => True) (fun _ event _ h => h.next event)
    (fun _ _ => trivial) (kept_initial nodeId options)

/-! ### Shutdown -/

/-- Compactions that have begun, with the one that the collector is past the last test of
`gc_stop_` for. -/
def committedTo (s : Collector K) : Nat :=
  s.begun + if s.phase = .resetting ∨ s.phase = .ready then 1 else 0

theorem committedTo_aside {event : GcEvent K} (hcollect : isCollect event = false) :
    (s.next env event).committedTo = s.committedTo := by
  have haside := aside_next env s hcollect
  rw [committedTo, committedTo, haside.begun]
  rcases haside.phase with hsame | hwoken
  · rw [hsame]
  · rw [hwoken]
    rcases s.phase.wake_spec with hsame | ⟨hparked, hwoken⟩
    · rw [hsame]
    · rw [hwoken, hparked]
      simp

theorem committedTo_collect (hstop : s.stop = true) (fate : Fate) :
    (s.collect env fate).committedTo ≤ s.committedTo := by
  rw [collect]
  cases hphase : s.phase with dsimp only
  | ready =>
    simp only [committedTo, hphase]
    split <;> simp
  | compacting =>
    simp only [committedTo, hphase]
    split <;> simp
  | _ => simp [committedTo, hphase, hstop]

/-- Once the engine shuts down, at most one more compaction begins. -/
theorem begun_run_le (hstop : s.stop = true) (events : List (GcEvent K)) :
    (Runs.exec (next env) s events).begun ≤ s.begun + 1 := by
  have hrun : (Runs.exec (next env) s events).stop = true ∧
      (Runs.exec (next env) s events).committedTo ≤ s.committedTo := by
    refine Runs.invariant_of_forall (I := fun s' : Collector K => s'.stop = true ∧ s'.committedTo ≤ s.committedTo)
      (R := fun _ => True) ?_ (fun _ _ => trivial) ⟨hstop, Nat.le_refl _⟩
    rintro s' event - ⟨hstop', hle⟩
    cases hcollect : isCollect event with
    | false =>
      exact ⟨(aside_next env s' hcollect).stop hstop', (committedTo_aside hcollect).trans_le hle⟩
    | true =>
      obtain ⟨fate, rfl⟩ := eq_collect hcollect
      exact ⟨(stop_next (by rfl)).trans hstop', (committedTo_collect hstop' fate).trans hle⟩
  have hle := hrun.2
  rw [committedTo, committedTo] at hle
  split at hle <;> split at hle <;> omega

/-- A collector that is to stop. -/
structure Stopping (s : Collector K) : Prop where
  stop : s.stop = true
  alive : s.phase ≠ .off

theorem Stopping.collect (h : s.Stopping) (env : Platform K) (fate : Fate) :
    (s.collect env fate).phase = .finished ∨ (s.collect env fate).Stopping ∧
      (s.collect env fate).phase.toEnd < s.phase.toEnd := by
  obtain ⟨hstop, halive⟩ := h
  rw [Collector.collect]
  cases hphase : s.phase with dsimp only
  | off => exact absurd hphase halive
  | finished => exact Or.inl hphase
  | testing => exact Or.inl (by simp [hstop])
  | leaving => exact Or.inl (by simp [hstop])
  | checking =>
    refine Or.inr ⟨⟨hstop, ?_⟩, ?_⟩ <;> simp [hstop, GcPhase.toEnd]
  | ready =>
    refine Or.inr ⟨⟨hstop, ?_⟩, ?_⟩ <;> split <;> simp [GcPhase.toEnd]
  | compacting =>
    refine Or.inr ⟨⟨hstop, ?_⟩, ?_⟩ <;> split <;> simp [GcPhase.toEnd]
  | resetting => exact Or.inr ⟨⟨hstop, by simp⟩, by decide⟩
  | parking => exact Or.inr ⟨⟨hstop, by simp⟩, by decide⟩
  | parked => exact Or.inr ⟨⟨hstop, by simp⟩, by decide⟩
  | woken => exact Or.inr ⟨⟨hstop, by simp⟩, by decide⟩
  | applying => exact Or.inr ⟨⟨hstop, by simp⟩, by decide⟩

theorem ranks_end (env : Platform K) :
    Progress.Ranks (next env) isCollect (fun _ => True) Stopping
      (fun s => s.phase = .finished) (fun s => s.phase.toEnd) where
  stable s event _ hgoal := by
    cases hcollect : isCollect event with
    | false =>
      rcases phase_aside env s hcollect with hsame | ⟨hparked, -⟩
      · exact hsame.trans hgoal
      · rw [hgoal] at hparked
        cases hparked
    | true =>
      obtain ⟨fate, rfl⟩ := eq_collect hcollect
      rw [next, collect, hgoal]
      exact hgoal
  keeps s event _ h := by
    cases hcollect : isCollect event with
    | false =>
      refine Or.inr ⟨(aside_next env s hcollect).stop h.stop, ?_⟩
      rcases phase_aside env s hcollect with hsame | ⟨-, hwoken⟩
      · rw [hsame]
        exact h.alive
      · rw [hwoken]
        decide
    | true =>
      obtain ⟨fate, rfl⟩ := eq_collect hcollect
      exact (h.collect env fate).imp_right And.left
  turn s event _ h hcollect := by
    obtain ⟨fate, rfl⟩ := eq_collect hcollect
    exact (h.collect env fate).imp_right And.right
  other s event _ h hcollect := by
    refine Or.inr ?_
    rcases phase_aside env s hcollect with hsame | ⟨hparked, hwoken⟩
    · rw [hsame]
    · rw [hwoken, hparked]
      decide

/-- Where there is no collector any more, none of its steps does anything. -/
theorem begun_run_of_ended (hended : s.phase = .off ∨ s.phase = .finished)
    (events : List (GcEvent K)) : (Runs.exec (Collector.next env) s events).begun = s.begun := by
  have hrun : ((Runs.exec (Collector.next env) s events).phase = .off ∨
      (Runs.exec (Collector.next env) s events).phase = .finished) ∧
      (Runs.exec (Collector.next env) s events).begun = s.begun := by
    refine Runs.invariant_of_forall (R := fun _ => True)
      (I := fun s' : Collector K => (s'.phase = .off ∨ s'.phase = .finished) ∧ s'.begun = s.begun)
      ?_ (fun _ _ => trivial) ⟨hended, rfl⟩
    rintro s' event - ⟨hended', hbegun⟩
    cases hcollect : isCollect event with
    | false =>
      refine ⟨?_, (aside_next env s' hcollect).begun.trans hbegun⟩
      rcases phase_aside env s' hcollect with hsame | ⟨hparked, -⟩
      · rw [hsame]
        exact hended'
      · rcases hended' with hgone | hend
        · rw [hgone] at hparked
          cases hparked
        · rw [hend] at hparked
          cases hparked
    | true =>
      obtain ⟨fate, rfl⟩ := eq_collect hcollect
      rcases hended' with hgone | hend
      · rw [Collector.next, Collector.collect, hgone]
        exact ⟨Or.inl hgone, hbegun⟩
      · rw [Collector.next, Collector.collect, hend]
        exact ⟨Or.inr hend, hbegun⟩
  exact hrun.2

/-! ### The compactions among the requests -/

/-- What a step does as a request in flight. -/
def acts (s : Collector K) : GcEvent K → List (Act K)
  | .client act => if act.thread = 0 ∨ s.errand act.thread ≠ .none then [] else [act]
  | .collect fate =>
    match s.phase with
    | .ready => [.start 0 .gc fate]
    | .compacting => [.store 0]
    | .applying => [.apply 0]
    | _ => []
  | _ => []

def trace (env : Platform K) (s : Collector K) : List (GcEvent K) → List (Act K)
  | [] => []
  | event :: rest => s.acts event ++ trace env (s.next env event) rest

theorem requests_next (env : Platform K) (s : Collector K) (event : GcEvent K) :
    (s.next env event).requests = Runs.exec (Interleaved.next env) s.requests (s.acts event) := by
  cases event with
  | client act =>
    rw [Collector.next, client, acts]
    split <;> rfl
  | schedule i usage =>
    rw [Collector.next, schedule]
    split
    · split <;> rfl
    · rfl
  | notify i =>
    rw [Collector.next, notify]
    split <;> rfl
  | collect fate =>
    rw [Collector.next, Collector.collect, acts]
    cases s.phase <;> rfl
  | spurious => rfl
  | shutdown => rfl
  | notifyAll =>
    rw [Collector.next]
    split <;> rfl
  | join =>
    rw [Collector.next]
    split <;> rfl

theorem requests_run (env : Platform K) (s : Collector K) (events : List (GcEvent K)) :
    (Runs.exec (Collector.next env) s events).requests =
      Runs.exec (Interleaved.next env) s.requests (s.trace env events) := by
  induction events generalizing s with
  | nil => rfl
  | cons event rest ih =>
    rw [Runs.exec_cons, ih, trace, Runs.exec_append, requests_next]

/-- The request in flight of the collector's thread goes with its phase. -/
def Holds (phase : GcPhase) (flying : Option (InFlight K)) : Prop :=
  match phase with
  | .compacting => ∃ f, flying = some f ∧ f.call = .gc ∧ f.storedAt = none
  | .applying => ∃ f t, flying = some f ∧ f.call = .gc ∧ f.storedAt = some t
  | _ => flying = none

/-- A call that starts draws up a batch, or it is done. -/
theorem flying_start (env : Platform K) {p : Interleaved K} {i : Nat} (hfree : p.flying i = none) (call : Call K)
    (fate : Fate) : (p.next env (.start i call fate)).flying i = none ∨
      ∃ f, (p.next env (.start i call fate)).flying i = some f ∧ f.call = call ∧
        f.storedAt = none := by
  rw [Interleaved.next_start hfree, Interleaved.start]
  rcases prepare env fate p.world call with ⟨_ | request, c⟩
  · exact Or.inl hfree
  · exact Or.inr ⟨_, Function.update_self .., rfl, rfl⟩

theorem flying_store (env : Platform K) {p : Interleaved K} {i : Nat} {f : InFlight K} (hf : p.flying i = some f)
    (hread : f.storedAt = none) : (p.next env (.store i)).flying i = none ∨
      ∃ g t, (p.next env (.store i)).flying i = some g ∧ g.call = f.call ∧
        g.storedAt = some t := by
  rw [Interleaved.next_store hf hread, Interleaved.store]
  split
  · exact Or.inr ⟨_, p.time, Function.update_self .., rfl, rfl⟩
  · exact Or.inl (Function.update_self ..)

theorem flying_apply {p : Interleaved K} {i : Nat} {f : InFlight K} {t : Nat}
    (hf : p.flying i = some f) (hstored : f.storedAt = some t) :
    (p.next env (.apply i)).flying i = none := by
  rw [Interleaved.next_apply hf hstored]
  exact Function.update_self ..

theorem flying_aside {event : GcEvent K} (hcollect : isCollect event = false) :
    (s.next env event).requests.flying 0 = s.requests.flying 0 := by
  rw [requests_next]
  cases event with
  | client act =>
    rw [acts]
    split
    · rfl
    · rename_i hclient
      exact flying_next_of_ne _ act fun hthread => hclient (Or.inl hthread)
  | collect fate => cases hcollect
  | _ => rfl

theorem holds_collect (h : Holds s.phase (s.requests.flying 0)) (fate : Fate) :
    Holds (s.collect env fate).phase ((s.collect env fate).requests.flying 0) := by
  rw [Collector.collect]
  cases hphase : s.phase <;> rw [hphase] at h <;> dsimp only
  case ready =>
    rcases flying_start env h .gc fate with hnone | ⟨f, hf, hcall, hread⟩
    · rw [hnone]
      exact rfl
    · rw [hf]
      exact ⟨f, rfl, hcall, hread⟩
  case compacting =>
    obtain ⟨f, hf, hcall, hread⟩ := h
    rcases flying_store env hf hread with hnone | ⟨g, t, hg, hsame, hstored⟩
    · rw [hnone]
      exact rfl
    · rw [hg]
      exact ⟨g, t, rfl, hsame.trans hcall, hstored⟩
  case applying =>
    obtain ⟨f, t, hf, -, hstored⟩ := h
    exact flying_apply hf hstored
  case off => rw [hphase]; exact h
  case finished => rw [hphase]; exact h
  case testing => cases s.stop <;> exact h
  case leaving => cases s.stop <;> exact h
  case checking => cases s.stop || s.requested <;> exact h
  all_goals exact h

theorem holds_next (h : Holds s.phase (s.requests.flying 0)) (event : GcEvent K) :
    Holds (s.next env event).phase ((s.next env event).requests.flying 0) := by
  cases hcollect : isCollect event with
  | false =>
    rw [flying_aside hcollect]
    rcases phase_aside env s hcollect with hsame | ⟨hparked, hwoken⟩
    · rw [hsame]
      exact h
    · rw [hwoken]
      rw [hparked] at h
      exact h
  | true =>
    obtain ⟨fate, rfl⟩ := eq_collect hcollect
    exact holds_collect h fate

theorem running_next (env : Platform K) (s : Collector K) (event : GcEvent K) :
    (s.next env event).running = s.running := by
  cases hcollect : isCollect event with
  | false => exact (aside_next env s hcollect).running
  | true =>
    obtain ⟨fate, rfl⟩ := eq_collect hcollect
    rw [Collector.next, Collector.collect]
    split <;> rfl

theorem running_run (env : Platform K) (s : Collector K) (events : List (GcEvent K)) :
    (Runs.exec (Collector.next env) s events).running = s.running :=
  Runs.invariant_of_forall (R := fun _ => True) (I := fun s' : Collector K => s'.running = s.running)
    (fun s' event _ h => (running_next env s' event).trans h) (fun _ _ => trivial) rfl

end Steps

end Collector

section Runs
variable [Field K] [LinearOrder K]

/-- No request for a compaction is lost, though its notification may be: in every run and
whatever is in flight, seven steps of the collector after a request a compaction has begun
since, unless the engine shuts down. -/
theorem gc_requests_covered (env : Platform K) (nodeId : Bytes) (options : MemoryEngineOptions K)
    (hgc : options.enableTombstoneGc = true) (events later : List (GcEvent K))
    (hstop : (Runs.exec (Collector.next env) (Collector.initial nodeId options) events).stop = false)
    (hlater : ∀ event ∈ later, Collector.isShutdown event = false)
    (hturns : 7 ≤ later.countP Collector.isCollect) :
    let s := Runs.exec (Collector.next env) (Collector.initial nodeId options) events
    s.asked ≤ (Runs.exec (Collector.next env) s later).covered := by
  intro s
  have hkept : s.Kept := Collector.kept_run env nodeId options events
  have hrunning : s.running = true := (Collector.running_run env _ events).trans hgc
  have hoff : s.phase ≠ .off := fun hgone => by
    have hnot := (hkept.off hgone).1
    rw [hrunning] at hnot
    cases hnot
  have hfinished : s.phase ≠ .finished := fun hend => by
    have hstopped := hkept.finished hend
    rw [hstop] at hstopped
    cases hstopped
  have hranks := Collector.ranks_compaction env s.asked
  have hcalled : s.requested = true ∨ s.phase = .ready →
      Collector.Covers s.asked (Runs.exec (Collector.next env) s later) := fun hwanted =>
    hranks.reaches hlater ⟨⟨hstop, hwanted, hoff, hfinished⟩, Nat.le_refl _⟩
      (s.phase.toCompaction_lt.trans_le hturns)
  rcases hkept.answered with hrequested | hready | hcovered
  · exact (hcalled (Or.inl hrequested)).1
  · exact (hcalled (Or.inr hready)).1
  · exact (hranks.stays hlater ⟨hcovered.ge, Nat.le_refl _⟩).1

/-- After a shutdown at most one more compaction begins, the collector ends within five of its
steps, and nothing is compacted once it is joined. -/
theorem gc_shutdown_ends (env : Platform K) (nodeId : Bytes) (options : MemoryEngineOptions K)
    (events later : List (GcEvent K))
    (hstop : (Runs.exec (Collector.next env) (Collector.initial nodeId options) events).stop = true) :
    let s := Runs.exec (Collector.next env) (Collector.initial nodeId options) events
    let s' := Runs.exec (Collector.next env) s later
    s'.begun ≤ s.begun + 1 ∧
      (5 ≤ later.countP Collector.isCollect → s'.phase = .off ∨ s'.phase = .finished) ∧
      (s.joined = true → s'.begun = s.begun) := by
  intro s s'
  have hkept : s.Kept := Collector.kept_run env nodeId options events
  have hkept' : s'.Kept := by
    have hrun := Collector.kept_run env nodeId options (events ++ later)
    rw [Runs.exec_append] at hrun
    exact hrun
  refine ⟨Collector.begun_run_le hstop later, fun hturns => ?_,
    fun hjoined => Collector.begun_run_of_ended (hkept.joined hjoined).2 later⟩
  by_cases hoff : s.phase = .off
  · refine Or.inl (hkept'.running ?_)
    exact (Collector.running_run env s later).trans (hkept.off hoff).1
  · exact Or.inr ((Collector.ranks_end env).reaches (fun _ _ => trivial) ⟨hstop, hoff⟩
      (s.phase.toEnd_lt.trans_le hturns))

/-- The engine with its collector is an interleaving of requests: the collector's are those of
a thread that has one compaction in flight at a time, and takes its steps in order. -/
theorem collector_interleaves (env : Platform K) (nodeId : Bytes)
    (options : MemoryEngineOptions K) (events : List (GcEvent K)) :
    let s := Runs.exec (Collector.next env) (Collector.initial nodeId options) events
    s.requests = Runs.exec (Interleaved.next env) (Interleaved.initial nodeId options)
        ((Collector.initial nodeId options).trace env events) ∧
      Collector.Holds s.phase (s.requests.flying 0) ∧
      (options.enableTombstoneGc = false → s.begun = 0) := by
  intro s
  refine ⟨Collector.requests_run env _ events, ?_, fun hgc => ?_⟩
  · refine Runs.invariant_of_forall (R := fun _ => True)
      (I := fun s : Collector K => Collector.Holds s.phase (s.requests.flying 0))
      (fun s event _ h => Collector.holds_next h event) (fun _ _ => trivial) ?_
    rw [Collector.initial]
    cases options.enableTombstoneGc <;> exact rfl
  · have hkept : s.Kept := Collector.kept_run env nodeId options events
    have hrunning : s.running = false := (Collector.running_run env _ events).trans hgc
    exact (hkept.off (hkept.running hrunning)).2

end Runs

section Examples
open Reference

/-- A write asks for a compaction while the collector is about to block, and notifies nobody. -/
def missedNotification : List (GcEvent ℚ) :=
  [.collect applied, .collect applied,
    .client (.start 1 (put (ascii "w") (ascii "a") (ascii "hello")) applied),
    .client (.store 1), .client (.apply 1), .schedule 1 ⟨0, 20 * 1024 * 1024 * 1024, 0⟩, .notify 1,
    .collect applied]

/-- The collector blocks until its time is over, and goes once through its loop. -/
def sevenSteps : List (GcEvent ℚ) := List.replicate 7 (.collect applied)

theorem asked_missed : (Runs.exec (Collector.next (platform ticking))
    (Collector.initial (ascii "node") options) missedNotification).asked = 1 := by decide +kernel

theorem stop_missed : (Runs.exec (Collector.next (platform ticking))
    (Collector.initial (ascii "node") options) missedNotification).stop = false := by
  decide +kernel

theorem gc_request_covered_missed :
    1 ≤ (Runs.exec (Collector.next (platform ticking)) (Runs.exec (Collector.next
      (platform ticking)) (Collector.initial (ascii "node") options) missedNotification)
      sevenSteps).covered :=
  asked_missed.ge.trans (gc_requests_covered (platform ticking) (ascii "node") options rfl
    missedNotification sevenSteps stop_missed (by decide) (by decide))

/-- The engine shuts down in that state. -/
def shutDown : List (GcEvent ℚ) := missedNotification ++ [.shutdown, .notifyAll]

theorem stop_shutDown : (Runs.exec (Collector.next (platform ticking))
    (Collector.initial (ascii "node") options) shutDown).stop = true := by
  decide +kernel

theorem gc_shutdown_ends_missed :
    (Runs.exec (Collector.next (platform ticking)) (Runs.exec (Collector.next
      (platform ticking)) (Collector.initial (ascii "node") options) shutDown)
      sevenSteps).begun ≤ (Runs.exec (Collector.next (platform ticking))
        (Collector.initial (ascii "node") options) shutDown).begun + 1 := by
  obtain ⟨hbegun, -, -⟩ := gc_shutdown_ends (platform ticking) (ascii "node") options shutDown
    sevenSteps stop_shutDown
  exact hbegun

end Examples

end PoorguyMem
