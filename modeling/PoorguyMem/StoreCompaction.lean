import PoorguyMem.Dispatcher
import PoorguyMem.Lib.Progress

/-!
# Compaction of the store

`TriggerStoreCompactAsync` starts a thread that compacts the partitions one after the
other, and answers at once. One mutex guards the flag of a running job and the thread
object, which is joined before it is used again. A thread object that is assigned while
its thread can still be joined ends the process; this never happens, each accepted job
compacts every partition once, and no caller waits for ever.
-/

namespace PoorguyMem

open ByteString

/-- Where a thread is in `RunCompactWorker`. -/
inductive WorkerPhase where
  /-- Before the request for a partition, or behind the last one. -/
  | compacting (pid : Nat)
  /-- With the lock, before it takes back `compact_running_`. -/
  | clearing
  /-- With the lock, after that. -/
  | leaving
  | ending
  | exited
  deriving DecidableEq

structure CompactWorker where
  jobId : Nat
  partitionCount : Nat
  phase : WorkerPhase
  succeeded : Nat
  failed : Nat
  deriving DecidableEq

/-- Where a caller is in `TriggerStoreCompactAsync`, while it has the lock. -/
inductive TriggerPhase where
  | checking | joining | starting
  deriving DecidableEq

inductive CompactHolder where
  | trigger (i : Nat) (phase : TriggerPhase)
  | worker
  deriving DecidableEq

/-- What the adapter keeps for compactions: the options it goes by, the holder of
`compact_mu_`, `compact_running_`, the thread in `compact_worker_` while it can be joined, and
`compact_job_id_`. The last three fields record whether the process was ended, which requests
were sent and what was answered. -/
structure StoreCompactor where
  started : Bool
  appendMode : Bool
  fileAmplifyFactor : Nat
  partitionCount : Nat
  holder : Option CompactHolder
  running : Bool
  worker : Option CompactWorker
  jobId : Nat
  terminated : Bool
  requests : List (Nat × Nat)
  replies : List (Nat × StoreCompactTriggerResult)

/-- A call, a step of the caller with the lock, or a step of the thread, with the outcome of
its request. -/
inductive CompactEvent where
  | call (i : Nat)
  | proceed
  | work (ok : Bool)

namespace StoreCompactor

def initial (started appendMode : Bool) (fileAmplifyFactor partitionCount : Nat) :
    StoreCompactor where
  started := started
  appendMode := appendMode
  fileAmplifyFactor := fileAmplifyFactor
  partitionCount := partitionCount
  holder := none
  running := false
  worker := none
  jobId := 0
  terminated := false
  requests := []
  replies := []

def reply (s : StoreCompactor) (i : Nat) (out : StoreCompactTriggerResult) : StoreCompactor :=
  { s with holder := none, replies := s.replies ++ [(i, out)] }

/-- The part of `TriggerStoreCompactAsync` before the lock. -/
def call (s : StoreCompactor) (i : Nat) : StoreCompactor :=
  if !s.started then
    { s with replies := s.replies ++ [(i, ⟨false, true, false, true, 0,
      ascii "eloqstore is not started"⟩)] }
  else if !s.appendMode || s.fileAmplifyFactor = 0 then
    { s with replies := s.replies ++ [(i, ⟨false, true, false, true, 0,
      ascii "eloqstore compact noop: append mode disabled or file amplify factor is zero"⟩)] }
  else if s.holder = none then { s with holder := some (.trigger i .checking) }
  else s

def proceed (s : StoreCompactor) : StoreCompactor :=
  match s.holder with
  | some (.trigger i .checking) =>
    if s.running then
      s.reply i ⟨false, false, true, true, 0, ascii "eloqstore compact already running"⟩
    else if s.worker.isSome then { s with holder := some (.trigger i .joining) }
    else { s with holder := some (.trigger i .starting) }
  | some (.trigger i .joining) =>
    match s.worker with
    | some w =>
      if w.phase = .exited then
        { s with holder := some (.trigger i .starting), worker := none }
      else s
    | none => s
  | some (.trigger i .starting) =>
    reply { s with
      running := true
      worker := some ⟨s.jobId + 1, s.partitionCount, .compacting 0, 0, 0⟩
      jobId := s.jobId + 1
      terminated := s.terminated || s.worker.isSome } i
      ⟨true, false, false, true, s.partitionCount, ascii "eloqstore compact scheduled"⟩
  | some .worker => s
  | none => s

def work (s : StoreCompactor) (ok : Bool) : StoreCompactor :=
  match s.worker with
  | none => s
  | some w =>
    match w.phase with
    | .compacting pid =>
      if pid < w.partitionCount then
        { s with
          worker := some { w with
            phase := .compacting (pid + 1)
            succeeded := w.succeeded + if ok then 1 else 0
            failed := w.failed + if ok then 0 else 1 }
          requests := s.requests ++ [(w.jobId, pid)] }
      else if s.holder = none then
        { s with holder := some .worker, worker := some { w with phase := .clearing } }
      else s
    | .clearing => { s with running := false, worker := some { w with phase := .leaving } }
    | .leaving => { s with holder := none, worker := some { w with phase := .ending } }
    | .ending => { s with worker := some { w with phase := .exited } }
    | .exited => s

def next (s : StoreCompactor) : CompactEvent → StoreCompactor
  | .call i => s.call i
  | .proceed => s.proceed
  | .work ok => s.work ok

/-! ### The invariant -/

/-- The requests of a job, and those of the first `jobs` jobs. -/
def jobRequests (jobId partitionCount : Nat) : List (Nat × Nat) :=
  (List.range partitionCount).map fun pid => (jobId, pid)

def allRequests (partitionCount jobs : Nat) : List (Nat × Nat) :=
  (List.range jobs).flatMap fun job => jobRequests (job + 1) partitionCount

theorem allRequests_succ (n jobs : Nat) :
    allRequests n (jobs + 1) = allRequests n jobs ++ jobRequests (jobs + 1) n := by
  rw [allRequests, List.range_succ, List.flatMap_append, List.flatMap_singleton]
  rfl

/-- What is sent where the last job is at a phase. -/
def sentBy (partitionCount jobs : Nat) : WorkerPhase → List (Nat × Nat)
  | .compacting pid => allRequests partitionCount (jobs - 1) ++ jobRequests jobs pid
  | _ => allRequests partitionCount jobs

/-- How many partitions a job at a phase is through with. -/
def partitionsDone (partitionCount : Nat) : WorkerPhase → Nat
  | .compacting pid => pid
  | _ => partitionCount

/-- The flag, the lock and what is sent go with the phase of the thread. -/
structure WorkerSound (s : StoreCompactor) (w : CompactWorker) : Prop where
  job : w.jobId = s.jobId
  numbered : 0 < s.jobId
  count : w.partitionCount = s.partitionCount
  bound : ∀ pid, w.phase = .compacting pid → pid ≤ s.partitionCount
  running : s.running = true ↔ (∃ pid, w.phase = .compacting pid) ∨ w.phase = .clearing
  holder : s.holder = some .worker ↔ w.phase = .clearing ∨ w.phase = .leaving
  requests : s.requests = sentBy s.partitionCount s.jobId w.phase
  counted : w.succeeded + w.failed = partitionsDone s.partitionCount w.phase

structure Sound (s : StoreCompactor) : Prop where
  safe : s.terminated = false
  worker : ∀ w, s.worker = some w → s.WorkerSound w
  idle : s.worker = none → s.running = false ∧ s.holder ≠ some .worker ∧
    s.requests = allRequests s.partitionCount s.jobId
  joining : ∀ i, s.holder = some (.trigger i .joining) → s.running = false ∧ s.worker ≠ none
  starting : ∀ i, s.holder = some (.trigger i .starting) → s.worker = none
  accepted : s.replies.countP (fun r => r.2.triggered) = s.jobId

theorem sound_initial (started appendMode : Bool) (fileAmplifyFactor partitionCount : Nat) :
    (initial started appendMode fileAmplifyFactor partitionCount).Sound where
  safe := rfl
  worker _ h := by cases h
  idle _ := ⟨rfl, by simp [initial], rfl⟩
  joining _ h := by cases h
  starting _ h := by cases h
  accepted := rfl

variable {s : StoreCompactor}

/-- The lock passes between callers. -/
theorem Sound.setHolder (h : s.Sound) (hfree : s.holder ≠ some .worker)
    {o : Option CompactHolder} (hother : o ≠ some .worker)
    (hjoining : ∀ i, o = some (.trigger i .joining) → s.running = false ∧ s.worker ≠ none)
    (hstarting : ∀ i, o = some (.trigger i .starting) → s.worker = none) :
    Sound { s with holder := o } where
  safe := h.safe
  worker w hw := by
    have hworker := h.worker w hw
    exact { hworker with
      holder := iff_of_false hother fun hphase => hfree (hworker.holder.mpr hphase) }
  idle hnone := ⟨(h.idle hnone).1, hother, (h.idle hnone).2.2⟩
  joining := hjoining
  starting := hstarting
  accepted := h.accepted

/-- An answer other than an accepted job changes nothing else. -/
theorem Sound.answer (h : s.Sound) (i : Nat) {out : StoreCompactTriggerResult}
    (hout : out.triggered = false) : Sound { s with replies := s.replies ++ [(i, out)] } where
  safe := h.safe
  worker w hw := { h.worker w hw with }
  idle := h.idle
  joining := h.joining
  starting := h.starting
  accepted := by simpa [hout] using h.accepted

theorem Sound.call (h : s.Sound) (i : Nat) : (s.call i).Sound := by
  rw [StoreCompactor.call]
  split
  · exact h.answer i rfl
  · split
    · exact h.answer i rfl
    · split
      · rename_i hfree
        refine h.setHolder (by simp [hfree]) (by simp) ?_ ?_ <;> simp
      · exact h

theorem Sound.proceed (h : s.Sound) : s.proceed.Sound := by
  rw [StoreCompactor.proceed]
  split
  · rename_i i hholder
    have hfree : s.holder ≠ some .worker := by simp [hholder]
    split
    · exact (h.setHolder hfree (o := none) (by simp) (by simp) (by simp)).answer i rfl
    · rename_i hidle
      split
      · rename_i hsome
        refine h.setHolder hfree (by simp) (fun j _ => ⟨by simpa using hidle, ?_⟩) (by simp)
        exact Option.isSome_iff_ne_none.mp hsome
      · rename_i hnone
        refine h.setHolder hfree (by simp) (by simp) fun j _ => ?_
        simpa using hnone
  · rename_i i hholder
    have hrunning := (h.joining i hholder).1
    split
    · rename_i w hw
      split
      · rename_i hexited
        have hworker := h.worker w hw
        have hrequests := hworker.requests
        rw [hexited] at hrequests
        exact ⟨h.safe, fun _ h => (by cases h), fun _ => ⟨hrunning, by simp, hrequests⟩, by simp,
          fun _ _ => rfl, h.accepted⟩
      · exact h
    · exact h
  · rename_i i hholder
    have hnone := h.starting i hholder
    obtain ⟨hrunning, hfree, hrequests⟩ := h.idle hnone
    constructor
    · simp [reply, h.safe, hnone]
    · intro w hw
      obtain rfl := Option.some.inj hw
      refine ⟨rfl, Nat.succ_pos _, rfl, ?_, by simp [reply], by simp [reply], ?_, rfl⟩
      · intro pid hpid
        obtain rfl := WorkerPhase.compacting.inj hpid
        exact Nat.zero_le _
      · change s.requests = allRequests s.partitionCount (s.jobId + 1 - 1) ++ []
        rw [hrequests, List.append_nil, Nat.add_sub_cancel]
    · exact fun hn => by cases hn
    · exact fun _ hh => by cases hh
    · exact fun _ hh => by cases hh
    · simpa [reply] using h.accepted
  · exact h
  · exact h

/-- The thread goes on, with the lock held by whom its phase says. -/
theorem Sound.advance (h : s.Sound) {w w' : CompactWorker} (hw : s.worker = some w)
    {running : Bool} {o : Option CompactHolder} {requests : List (Nat × Nat)}
    (hworker : WorkerSound { s with
      running := running, holder := o, worker := some w', requests := requests } w')
    (hrunning : running = true → s.running = true)
    (hholder : o = s.holder ∨ o = none ∨ o = some .worker) :
    Sound { s with running := running, holder := o, worker := some w', requests := requests } := by
  constructor
  · exact h.safe
  · intro x hx
    obtain rfl := Option.some.inj hx
    exact hworker
  · exact fun hnone => by cases hnone
  · intro i hi
    refine ⟨?_, by simp⟩
    rcases hholder with rfl | rfl | rfl
    · have hnot := (h.joining i hi).1
      cases hr : running with
      | false => rfl
      | true =>
        rw [hrunning hr] at hnot
        cases hnot
    · cases hi
    · cases hi
  · intro i hi
    rcases hholder with rfl | rfl | rfl
    · have hnone := h.starting i hi
      rw [hw] at hnone
      cases hnone
    · cases hi
    · cases hi
  · exact h.accepted

theorem jobRequests_succ (jobId pid : Nat) :
    jobRequests jobId (pid + 1) = jobRequests jobId pid ++ [(jobId, pid)] := by
  rw [jobRequests, List.range_succ, List.map_append]
  rfl

theorem Sound.work (h : s.Sound) (ok : Bool) : (s.work ok).Sound := by
  rw [StoreCompactor.work]
  split
  · exact h
  rename_i w hw
  obtain ⟨hjob, hnumbered, hcount, hbound, hrunning, hholder, hrequests, hcounted⟩ := h.worker w hw
  have hnotHolder : ∀ {phase : WorkerPhase}, w.phase = phase → phase ≠ .clearing →
      phase ≠ .leaving → s.holder ≠ some .worker := by
    intro phase hphase hnotClearing hnotLeaving hheld
    rcases hholder.mp hheld with hclearing | hleaving
    · exact hnotClearing (hphase.symm.trans hclearing)
    · exact hnotLeaving (hphase.symm.trans hleaving)
  cases hphase : w.phase with dsimp only
  | compacting pid =>
    rw [hphase] at hrequests hcounted
    have hruns : s.running = true := hrunning.mpr (Or.inl ⟨pid, hphase⟩)
    split
    · rename_i hlt
      refine h.advance hw ⟨hjob, hnumbered, hcount, ?_, ?_, ?_, ?_, ?_⟩ id (Or.inl rfl)
      · intro pid' hpid'
        obtain rfl := WorkerPhase.compacting.inj hpid'
        exact Nat.succ_le_of_lt (hlt.trans_eq hcount)
      · exact iff_of_true hruns (Or.inl ⟨pid + 1, rfl⟩)
      · exact iff_of_false (hnotHolder hphase (by simp) (by simp)) (by simp)
      · change s.requests ++ [(w.jobId, pid)] = allRequests s.partitionCount (s.jobId - 1) ++
          jobRequests s.jobId (pid + 1)
        rw [hrequests, jobRequests_succ, hjob, sentBy, List.append_assoc]
      · change w.succeeded + (if ok then 1 else 0) + (w.failed + if ok then 0 else 1) = pid + 1
        change w.succeeded + w.failed = pid at hcounted
        cases ok <;> simp <;> omega
    · rename_i hge
      split
      · have hpid : pid = s.partitionCount := by
          have hle := hbound pid hphase
          omega
        refine h.advance hw ⟨hjob, hnumbered, hcount, ?_, ?_, ?_, ?_, ?_⟩ id (Or.inr (Or.inr rfl))
        · exact fun pid' hpid' => by cases hpid'
        · exact iff_of_true hruns (Or.inr rfl)
        · exact iff_of_true rfl (Or.inl rfl)
        · have hsucc := allRequests_succ s.partitionCount (s.jobId - 1)
          rw [Nat.sub_add_cancel hnumbered] at hsucc
          exact hrequests.trans (by rw [sentBy, hpid, ← hsucc]; rfl)
        · exact hcounted.trans hpid
      · exact h
  | clearing =>
    rw [hphase] at hrequests hcounted
    exact h.advance hw ⟨hjob, hnumbered, hcount, fun _ hp => (by cases hp), by simp,
      iff_of_true (hholder.mpr (Or.inl hphase)) (Or.inr rfl), hrequests, hcounted⟩
      (fun hr => by cases hr) (Or.inl rfl)
  | leaving =>
    rw [hphase] at hrequests hcounted
    exact h.advance hw ⟨hjob, hnumbered, hcount, fun _ hp => (by cases hp), by simp [hrunning, hphase],
      by simp, hrequests, hcounted⟩ id (Or.inr (Or.inl rfl))
  | ending =>
    rw [hphase] at hrequests hcounted
    exact h.advance hw ⟨hjob, hnumbered, hcount, fun _ hp => (by cases hp), by simp [hrunning, hphase],
      iff_of_false (hnotHolder hphase (by simp) (by simp)) (by simp), hrequests, hcounted⟩ id
      (Or.inl rfl)
  | exited => exact h

theorem Sound.next (h : s.Sound) (event : CompactEvent) : (s.next event).Sound := by
  cases event with
  | call i => exact h.call i
  | proceed => exact h.proceed
  | work ok => exact h.work ok

theorem sound_run (started appendMode : Bool) (fileAmplifyFactor partitionCount : Nat)
    (events : List CompactEvent) : (Runs.exec StoreCompactor.next
      (initial started appendMode fileAmplifyFactor partitionCount) events).Sound :=
  Runs.invariant_of_forall (R := fun _ => True) (fun _ event _ h => h.next event)
    (fun _ _ => trivial) (sound_initial started appendMode fileAmplifyFactor partitionCount)

/-! ### Progress -/

/-- A call for a new compaction. -/
def isCall : CompactEvent → Bool
  | .call _ => true
  | _ => false

def phaseWeight (partitionCount : Nat) : WorkerPhase → Nat
  | .compacting pid => partitionCount - pid + 4
  | .clearing => 3
  | .leaving => 2
  | .ending => 1
  | .exited => 0

def holderWeight (partitionCount : Nat) : Option CompactHolder → Nat
  | some (.trigger _ .checking) => partitionCount + 7
  | some (.trigger _ .joining) => partitionCount + 6
  | some (.trigger _ .starting) => partitionCount + 5
  | some .worker => 0
  | none => 0

/-- What is left to do for the caller that has the lock and for the thread. -/
def weight (s : StoreCompactor) : Nat :=
  holderWeight s.partitionCount s.holder +
    s.worker.elim 0 fun w => phaseWeight s.partitionCount w.phase

/-- The lock is free, and no thread is at work. -/
def Settled (s : StoreCompactor) : Prop :=
  s.holder = none ∧ ∀ w, s.worker = some w → w.phase = .exited

theorem Sound.proceed_falls (h : s.Sound) (hholder : s.holder ≠ none ∧ s.holder ≠ some .worker)
    (hended : ∀ i, s.holder = some (.trigger i .joining) → ∃ w, s.worker = some w ∧
      w.phase = .exited) : s.proceed.weight < s.weight := by
  obtain ⟨hnone, hworker⟩ := hholder
  rw [StoreCompactor.proceed, weight, weight]
  rcases hh : s.holder with _ | ⟨i, _ | _ | _⟩ | _
  · exact absurd hh hnone
  · dsimp only
    split
    · simp [reply, holderWeight]
    · split <;> simp [holderWeight]
  · obtain ⟨w, hw, hexited⟩ := hended i hh
    simp [hw, hexited, holderWeight, phaseWeight]
  · have hnone := h.starting i hh
    simp [reply, hnone, holderWeight, phaseWeight]
  · exact absurd hh hworker

theorem Sound.work_falls (h : s.Sound) {w : CompactWorker} (hw : s.worker = some w)
    (hlive : w.phase ≠ .exited)
    (hlock : ∀ pid, w.phase = .compacting pid → pid < s.partitionCount ∨ s.holder = none)
    (ok : Bool) : (s.work ok).weight < s.weight := by
  have hworker := h.worker w hw
  rw [StoreCompactor.work, hw]
  dsimp only
  cases hphase : w.phase with dsimp only
  | compacting pid =>
    have hcount := hworker.count
    split
    · rename_i hlt
      simp only [weight, hw, hphase, Option.elim_some, phaseWeight]
      omega
    · rename_i hge
      have hfree : s.holder = none := by
        rcases hlock pid hphase with hlt | hfree
        · exact absurd (hlt.trans_eq hcount.symm) hge
        · exact hfree
      rw [if_pos hfree]
      simp only [weight, hw, hphase, Option.elim_some, phaseWeight, hfree, holderWeight]
      omega
  | clearing => simp [weight, hw, hphase, phaseWeight]
  | leaving =>
    have hheld := hworker.holder.mpr (Or.inr hphase)
    simp [weight, hw, hphase, phaseWeight, hheld, holderWeight]
  | ending => simp [weight, hw, hphase, phaseWeight]
  | exited => exact absurd hphase hlive

theorem ne_of_weight {s' : StoreCompactor} (h : s'.weight < s.weight) : s' ≠ s := by
  rintro rfl
  exact Nat.lt_irrefl _ h

/-- A caller with the lock does nothing only while it waits for the thread to end. -/
theorem Sound.proceed_cases (h : s.Sound) : s.proceed = s ∨ s.proceed.weight < s.weight := by
  rcases hh : s.holder with _ | ⟨i, phase⟩ | _
  · exact Or.inl (by rw [StoreCompactor.proceed, hh])
  · by_cases hwaits : phase = .joining ∧ ∀ w, s.worker = some w → w.phase ≠ .exited
    · obtain ⟨rfl, hlive⟩ := hwaits
      refine Or.inl ?_
      rw [StoreCompactor.proceed, hh]
      dsimp only
      split
      · rename_i w hw
        exact if_neg (hlive w hw)
      · rfl
    · refine Or.inr (h.proceed_falls (by simp [hh]) fun j hj => ?_)
      rw [hh] at hj
      obtain ⟨rfl, rfl⟩ := CompactHolder.trigger.inj (Option.some.inj hj)
      simpa using hwaits
  · exact Or.inl (by rw [StoreCompactor.proceed, hh])

theorem Sound.work_cases (h : s.Sound) (ok : Bool) :
    s.work ok = s ∨ (s.work ok).weight < s.weight := by
  rcases hw : s.worker with _ | w
  · exact Or.inl (by rw [StoreCompactor.work, hw])
  · by_cases hexited : w.phase = .exited
    · exact Or.inl (by rw [StoreCompactor.work, hw]; dsimp only; rw [hexited])
    · by_cases hblocked : ∃ pid, w.phase = .compacting pid ∧ s.partitionCount ≤ pid ∧
        s.holder ≠ none
      · obtain ⟨pid, hphase, hle, hheld⟩ := hblocked
        refine Or.inl ?_
        have hcount := (h.worker w hw).count
        rw [StoreCompactor.work, hw]
        dsimp only
        rw [hphase]
        dsimp only
        rw [if_neg (by omega), if_neg hheld]
      · refine Or.inr (h.work_falls hw hexited (fun pid hphase => ?_) ok)
        by_contra hnot
        push Not at hnot
        exact hblocked ⟨pid, hphase, hnot⟩

/-- As long as the lock is held or a thread is at work, one of them can go on. -/
theorem Sound.enabled (h : s.Sound) (hnot : ¬ s.Settled) :
    s.proceed ≠ s ∨ s.work true ≠ s := by
  rcases hh : s.holder with _ | ⟨i, phase⟩ | _
  · -- the lock is free, so that the thread can take it
    have hlive : ∃ w, s.worker = some w ∧ w.phase ≠ .exited := by
      by_contra hended
      push Not at hended
      exact hnot ⟨hh, hended⟩
    obtain ⟨w, hw, hphase⟩ := hlive
    exact Or.inr (ne_of_weight (h.work_falls hw hphase (fun _ _ => Or.inr hh) true))
  · by_cases hwaits : phase = .joining ∧ ∀ w, s.worker = some w → w.phase ≠ .exited
    · -- a thread that is joined needs the lock no more
      obtain ⟨rfl, hlive⟩ := hwaits
      obtain ⟨hidle, hsome⟩ := h.joining i hh
      obtain ⟨w, hw⟩ := Option.ne_none_iff_exists'.mp hsome
      refine Or.inr (ne_of_weight (h.work_falls hw (hlive w hw) (fun pid hphase => ?_) true))
      have hruns := (h.worker w hw).running.mpr (Or.inl ⟨pid, hphase⟩)
      rw [hidle] at hruns
      cases hruns
    · refine Or.inl (ne_of_weight (h.proceed_falls (by simp [hh]) fun j hj => ?_))
      rw [hh] at hj
      obtain ⟨rfl, rfl⟩ := CompactHolder.trigger.inj (Option.some.inj hj)
      simpa using hwaits
  · have hsome : s.worker ≠ none := fun hnone => (h.idle hnone).2.1 hh
    obtain ⟨w, hw⟩ := Option.ne_none_iff_exists'.mp hsome
    have hphase := (h.worker w hw).holder.mp hh
    refine Or.inr (ne_of_weight (h.work_falls hw ?_ (fun pid hpid => ?_) true))
    · rcases hphase with hclearing | hleaving
      · simp [hclearing]
      · simp [hleaving]
    · rcases hphase with hclearing | hleaving
      · rw [hclearing] at hpid
        cases hpid
      · rw [hleaving] at hpid
        cases hpid

theorem settles : Progress.Settles StoreCompactor.next (fun event => isCall event = false)
    Sound Settled weight where
  keeps _ event _ h := h.next event
  falls s event hevent h := by
    cases event with
    | call i => cases hevent
    | proceed => exact h.proceed_cases
    | work ok => exact h.work_cases ok
  enabled s h hnot := by
    rcases h.enabled hnot with hproceed | hwork
    · exact ⟨.proceed, rfl, hproceed⟩
    · exact ⟨.work true, rfl, hwork⟩

theorem weight_le (s : StoreCompactor) : s.weight ≤ 2 * s.partitionCount + 11 := by
  have hholder : holderWeight s.partitionCount s.holder ≤ s.partitionCount + 7 := by
    rcases s.holder with _ | ⟨i, _ | _ | _⟩ | _ <;> simp [holderWeight]
  have hworker : (s.worker.elim 0 fun w => phaseWeight s.partitionCount w.phase) ≤
      s.partitionCount + 4 := by
    rcases s.worker with _ | w
    · simp
    · rw [Option.elim_some]
      cases w.phase <;> simp [phaseWeight]
  rw [weight]
  omega

end StoreCompactor

/-- In every run of calls and threads no thread object is assigned while its thread can be
joined, each accepted call has one job, and the jobs one after the other have asked once for
each partition, in order and whatever fails, but for the part that the running job has left. -/
theorem store_compaction_jobs (started appendMode : Bool)
    (fileAmplifyFactor partitionCount : Nat) (events : List CompactEvent) :
    let s := Runs.exec StoreCompactor.next
      (StoreCompactor.initial started appendMode fileAmplifyFactor partitionCount) events
    s.terminated = false ∧ s.replies.countP (fun r => r.2.triggered) = s.jobId ∧
      (s.running = false → s.requests = StoreCompactor.allRequests s.partitionCount s.jobId) ∧
      (s.running = true → ∃ pid ≤ s.partitionCount,
        s.requests = StoreCompactor.allRequests s.partitionCount (s.jobId - 1) ++
          StoreCompactor.jobRequests s.jobId pid) := by
  intro s
  have h : s.Sound := StoreCompactor.sound_run started appendMode fileAmplifyFactor partitionCount
    events
  refine ⟨h.safe, h.accepted, fun hidle => ?_, fun hruns => ?_⟩
  · rcases hw : s.worker with _ | w
    · exact (h.idle hw).2.2
    · have hworker := h.worker w hw
      have hnot : ¬ ((∃ pid, w.phase = .compacting pid) ∨ w.phase = .clearing) := fun hphase => by
        have hruns := hworker.running.mpr hphase
        rw [hidle] at hruns
        cases hruns
      rw [hworker.requests]
      cases hphase : w.phase with
      | compacting pid => exact absurd (Or.inl ⟨pid, hphase⟩) hnot
      | clearing => rfl
      | leaving => rfl
      | ending => rfl
      | exited => rfl
  · rcases hw : s.worker with _ | w
    · have hidle := (h.idle hw).1
      rw [hruns] at hidle
      cases hidle
    · have hworker := h.worker w hw
      rcases hworker.running.mp hruns with ⟨pid, hphase⟩ | hphase
      · exact ⟨pid, hworker.bound pid hphase, hworker.requests.trans (by rw [hphase]; rfl)⟩
      · refine ⟨s.partitionCount, Nat.le_refl _, hworker.requests.trans ?_⟩
        have hsucc := StoreCompactor.allRequests_succ s.partitionCount (s.jobId - 1)
        rw [Nat.sub_add_cancel hworker.numbered] at hsucc
        rw [hphase, ← hsucc]
        rfl

/-- In every run, callers with the lock and threads take at most `2 * n + 11` more steps for `n`
partitions before the next call, and they come to rest only when the lock is free and no thread
is at work: nobody waits for ever. -/
theorem store_compaction_settles (started appendMode : Bool)
    (fileAmplifyFactor partitionCount : Nat) (events : List CompactEvent) :
    let s := Runs.exec StoreCompactor.next
      (StoreCompactor.initial started appendMode fileAmplifyFactor partitionCount) events
    (∀ later : List CompactEvent, Runs.Along StoreCompactor.next (fun s event =>
        StoreCompactor.isCall event = false ∧ s.next event ≠ s) s later →
        later.length ≤ 2 * s.partitionCount + 11) ∧
      ((∀ event, StoreCompactor.isCall event = false → s.next event = s) → s.Settled) ∧
      ∃ later : List CompactEvent, (∀ event ∈ later, StoreCompactor.isCall event = false) ∧
        (Runs.exec StoreCompactor.next s later).Settled := by
  intro s
  have h : s.Sound := StoreCompactor.sound_run started appendMode fileAmplifyFactor partitionCount
    events
  refine ⟨fun later hlater => ?_, StoreCompactor.settles.done_of_stuck h,
    StoreCompactor.settles.finishes h⟩
  have hle := StoreCompactor.settles.length_le hlater h
  have hweight := s.weight_le
  omega

end PoorguyMem
