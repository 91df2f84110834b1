import PoorguyMem.Documents

/-!
# Requests in flight

Client requests run on several threads, and the garbage collector on one of its own. No
lock is held from what a request reads to its batch, nor from its batch to its update in
memory. So a request takes three steps, and those of other requests can come in between.
-/

namespace PoorguyMem

open ByteString

variable {K : Type}

/-- A request that has drawn up its batch from what it saw, with the time at which it did,
and that of its batch once that is committed. -/
structure InFlight (K : Type) where
  call : Call K
  fate : Fate
  seen : World K
  request : Request K
  started : Nat
  storedAt : Option Nat

/-- The engine with its store, and the requests in flight by their threads. The other fields
record what has happened: the documents in the order of the batches and in that of the
updates in memory, and the records of the `Write`s with the times of their batches, in the
same two orders. -/
structure Interleaved (K : Type) where
  world : World K
  flying : Nat → Option (InFlight K)
  time : Nat
  documents : Documents K
  applied : Documents K
  written : List (Nat × MemoryRecord K)
  shown : List (Nat × MemoryRecord K)

/-- A request reads, its batch is written, and what it stored is applied in memory. -/
inductive Act (K : Type) where
  | start (i : Nat) (call : Call K) (fate : Fate)
  | store (i : Nat)
  | apply (i : Nat)

def InFlight.changes (f : InFlight K) : List (Change K) := f.request.plan.changes

/-- The records that a `Write` stores. -/
def InFlight.puts (f : InFlight K) : List (MemoryRecord K) :=
  match f.call with
  | .write _ => f.request.plan.upserts
  | _ => []

section Steps
variable [Field K] [LinearOrder K]

namespace Interleaved

def initial (nodeId : Bytes) (options : MemoryEngineOptions K) : Interleaved K where
  world := World.initial nodeId options
  flying := fun _ => none
  time := 0
  documents := Documents.empty
  applied := Documents.empty
  written := []
  shown := []

/-- A call that draws up no batch ends with its first step. -/
def start (env : Platform K) (p : Interleaved K) (i : Nat) (call : Call K) (fate : Fate) :
    Interleaved K :=
  match prepare env fate p.world call with
  | (none, _) => { p with world := (perform env fate p.world call).1, time := p.time + 1 }
  | (some request, c) =>
    { p with
      world := p.world.atCursor c
      flying := Function.update p.flying i
        (some ⟨call, fate, p.world, request, p.time, none⟩)
      time := p.time + 1 }

/-- A request whose batch fails ends there. -/
def store (p : Interleaved K) (i : Nat) (f : InFlight K) : Interleaved K :=
  let world := p.world.commit f.fate.main f.request.plan
  if f.fate.main.ok then
    { p with
      world := world
      flying := Function.update p.flying i (some { f with storedAt := some p.time })
      time := p.time + 1
      documents := p.documents.applyAll f.changes
      written := p.written ++ f.puts.map fun r => (p.time, r) }
  else
    { p with
      world := abandon f.fate f.request world
      flying := Function.update p.flying i none
      time := p.time + 1 }

def apply (env : Platform K) (p : Interleaved K) (i : Nat) (f : InFlight K) (storedAt : Nat) :
    Interleaved K :=
  { p with
    world := settle env f.fate f.request p.world
    flying := Function.update p.flying i none
    time := p.time + 1
    applied := p.applied.applyAll f.changes
    shown := p.shown ++ f.puts.map fun r => (storedAt, r) }

/-- A thread has one request in flight, and takes its steps in their order. -/
def next (env : Platform K) (p : Interleaved K) : Act K → Interleaved K
  | .start i call fate =>
    match p.flying i with
    | none => p.start env i call fate
    | some _ => p
  | .store i =>
    match p.flying i with
    | some f => if f.storedAt = none then p.store i f else p
    | none => p
  | .apply i =>
    match p.flying i with
    | some f => f.storedAt.elim p (p.apply env i f)
    | none => p

end Interleaved

/-! ### A request that is alone -/

/-- A call that has drawn up its batch ends in one of two ways. -/
theorem perform_of_prepared {env : Platform K} {fate : Fate} {w : World K} {call : Call K}
    {request : Request K} {c : Cursor} (h : prepare env fate w call = (some request, c)) :
    (perform env fate w call).1 =
      let w' := (w.atCursor c).commit fate.main request.plan
      if fate.main.ok then settle env fate request w' else abandon fate request w' := by
  have compact : ∀ workspaceId force,
      prepareCompact env fate w workspaceId force = (some request, c) →
      (compactInternal env fate w workspaceId force).1 =
        let w' := (w.atCursor c).commit fate.main request.plan
        if fate.main.ok then settle env fate request w' else abandon fate request w' := by
    intro workspaceId force hprep
    rw [prepareCompact] at hprep
    split at hprep
    · cases hprep
    · rename_i hskip
      rcases hrun : compactDraft env w.engine workspaceId w.cursor with ⟨_ | ⟨nowMs, plan⟩, c'⟩ <;>
        rw [hrun] at hprep <;> dsimp only at hprep
      · cases hprep
      · by_cases hempty : plan.writes = []
        · rw [if_pos hempty] at hprep
          cases hprep
        · rw [if_neg hempty] at hprep
          cases hprep
          rw [compactInternal, if_neg hskip, hrun]
          dsimp only
          rw [if_neg hempty]
          simp only [hempty, ne_eq, not_false_eq_true, decide_true, Bool.true_and]
          split <;> rfl
  cases call with
  | query input => cases h
  | write input =>
    change prepareWrite env w input = _ at h
    rw [prepareWrite] at h
    split at h
    · cases h
    · rename_i hvalid
      rw [not_or] at hvalid
      rcases hrun : writeDraft env w.engine input w.cursor with ⟨_ | draft, c'⟩ <;>
        rw [hrun] at h <;> dsimp only at h
      · cases h
      · by_cases hempty : draft.plan.writes = []
        · rw [if_pos hempty] at h
          cases h
        · rw [if_neg hempty] at h
          cases h
          rw [perform, write, if_neg hvalid.1, if_neg hvalid.2, hrun]
          dsimp only
          rw [if_neg hempty]
          split <;> rfl
  | pin workspaceId memoryId flag =>
    change preparePin env w workspaceId memoryId flag = _ at h
    rw [preparePin] at h
    rcases hrun : pinDraft env w.engine w.store.reader workspaceId memoryId flag w.cursor with
      ⟨_ | error | plan, c'⟩ <;> rw [hrun] at h <;> dsimp only at h
    · cases h
    · cases h
    · cases h
      rw [perform, pin, hrun]
      dsimp only
      split <;> rfl
  | compact workspaceId => exact compact workspaceId true h
  | gc => exact compact [] false h

namespace Interleaved
variable {env : Platform K} {p : Interleaved K} {i : Nat} {call : Call K} {fate : Fate}

theorem next_start (h : p.flying i = none) :
    p.next env (.start i call fate) = p.start env i call fate := by
  rw [next, h]

theorem next_store {f : InFlight K} (h : p.flying i = some f) (hread : f.storedAt = none) :
    p.next env (.store i) = p.store i f := by
  rw [next, h]
  dsimp only
  rw [if_pos hread]

theorem next_apply {f : InFlight K} {t : Nat} (h : p.flying i = some f) (hstored : f.storedAt = some t) :
    p.next env (.apply i) = p.apply env i f t := by
  rw [next, h]
  dsimp only
  rw [hstored, Option.elim_some]

theorem next_idle (h : p.flying i = none) :
    p.next env (.store i) = p ∧ p.next env (.apply i) = p := by
  rw [next, next, h]
  exact ⟨rfl, rfl⟩

/-- The three steps of a request, one right after the other, are the call. -/
theorem world_alone (env : Platform K) (p : Interleaved K) (h : p.flying i = none) (call : Call K)
    (fate : Fate) :
    (Runs.exec (next env) p [.start i call fate, .store i, .apply i]).world =
      (perform env fate p.world call).1 := by
  rw [Runs.exec_cons, Runs.exec_cons, Runs.exec_cons, Runs.exec_nil, next_start h, start]
  rcases hprep : prepare env fate p.world call with ⟨_ | request, c⟩ <;> dsimp only
  · have hidle : ∀ q : Interleaved K, q.flying = p.flying →
        q.next env (.store i) = q ∧ q.next env (.apply i) = q :=
      fun q hq => next_idle (hq ▸ h)
    obtain ⟨hstore, happly⟩ := hidle
      { p with world := (perform env fate p.world call).1, time := p.time + 1 } rfl
    rw [hstore, happly]
  · rw [perform_of_prepared hprep, next_store (Function.update_self ..) rfl, store]
    dsimp only
    by_cases hok : fate.main.ok = true
    · rw [if_pos hok, if_pos hok, next_apply (Function.update_self ..) rfl]
      rfl
    · rw [if_neg hok, if_neg hok, (next_idle (Function.update_self ..)).2]

end Interleaved

/-! ### What is in flight -/

/-- A request in flight has drawn up its batch from what it saw, and the names it changes
satisfy `P`. -/
structure InFlight.Drawn (env : Platform K) (P : Bytes → Bytes → Prop) (f : InFlight K)
    (items : List (LogItem K)) : Prop where
  prepared : (prepare env f.fate f.seen f.call).1 = some f.request
  drafted : ∃ c, Drafted env f.seen f.call c f.request.plan items
  named : ∀ item ∈ items, P item.record.workspaceId item.record.id

theorem InFlight.Drawn.named_changes {env : Platform K} {P : Bytes → Bytes → Prop} {f : InFlight K}
    {items : List (LogItem K)} (h : f.Drawn env P items) :
    ∀ change ∈ f.changes, P change.record.workspaceId change.record.id := by
  intro change hchange
  obtain ⟨c, hd⟩ := h.drafted
  rw [InFlight.changes, hd.changes] at hchange
  obtain ⟨item, hitem, rfl⟩ := List.mem_map.mp hchange
  exact h.named item hitem

/-- The invariant of interleaved requests. -/
structure Interleaved.Sound (env : Platform K) (P : Bytes → Bytes → Prop) (p : Interleaved K) :
    Prop where
  sourced : Sourced env P p.world
  flying : ∀ i f, p.flying i = some f → ∃ items, f.Drawn env P items

/-- A condition on the calls that are started and on the fates of their batches. -/
def Act.Starts (Q : Call K → Fate → Prop) : Act K → Prop
  | .start _ call fate => Q call fate
  | .store _ => True
  | .apply _ => True

section Sound
variable {env : Platform K} {P : Bytes → Bytes → Prop} {p : Interleaved K} {i : Nat}

theorem sound_initial (env : Platform K) (P : Bytes → Bytes → Prop) (nodeId : Bytes)
    (options : MemoryEngineOptions K) : (Interleaved.initial nodeId options).Sound env P :=
  ⟨sourced_initial nodeId options, fun i f h => by cases h⟩

omit [Field K] [LinearOrder K] in
theorem flying_update {flying : Nat → Option (InFlight K)} {o : Option (InFlight K)} {j : Nat}
    {g : InFlight K} (h : Function.update flying i o j = some g) :
    o = some g ∧ j = i ∨ flying j = some g ∧ j ≠ i := by
  by_cases hji : j = i
  · rw [hji, Function.update_self] at h
    exact Or.inl ⟨h, hji⟩
  · rw [Function.update_of_ne hji] at h
    exact Or.inr ⟨h, hji⟩

theorem Interleaved.Sound.start (hlaw : env.Lawful) (hP : Names P) (h : p.Sound env P)
    {call : Call K} (hcall : call.Admits P) (fate : Fate) :
    (p.start env i call fate).Sound env P := by
  rw [Interleaved.start]
  rcases hprep : prepare env fate p.world call with ⟨_ | request, c⟩ <;> dsimp only
  · exact ⟨(h.sourced.call hlaw hP hcall (perform_outcome env fate p.world call)).1, h.flying⟩
  · constructor
    · exact h.sourced.of_tables h.sourced.held rfl rfl
    · intro j g hj
      rcases flying_update hj with ⟨hg, -⟩ | ⟨hold, -⟩
      · obtain rfl := Option.some.inj hg
        obtain ⟨items, hd⟩ := (prepare_spec fate (h.sourced.named hlaw hP) call).2 request
          (by rw [hprep])
        exact ⟨items, by rw [hprep], ⟨_, hd⟩, hd.named hlaw h.sourced hcall⟩
      · exact h.flying j g hold

theorem Interleaved.Sound.store (h : p.Sound env P) {f : InFlight K} (hf : p.flying i = some f) :
    (p.store i f).Sound env P := by
  obtain ⟨items, hprep, ⟨c, hd⟩, hnames⟩ := h.flying i f hf
  have hsourced : Sourced env P (p.world.commit f.fate.main f.request.plan) :=
    h.sourced.commit p.world.cursor hd hnames f.fate.main
  rw [Interleaved.store]
  split
  · refine ⟨hsourced, fun j g hj => ?_⟩
    rcases flying_update hj with ⟨hg, -⟩ | ⟨hold, -⟩
    · obtain rfl := Option.some.inj hg
      exact ⟨items, hprep, ⟨c, hd⟩, hnames⟩
    · exact h.flying j g hold
  · have hagrees := agrees_abandon f.fate f.request (p.world.commit f.fate.main f.request.plan)
    have hresident := hagrees.resident
    refine ⟨hsourced.of_tables ?_ (by rw [hagrees.store]) (by rw [hagrees.store]), ?_⟩
    · change ∀ (k : Bytes) r, (abandon f.fate f.request _).engine.toResident.records[k]? = some r → _
      rw [hresident]
      exact hsourced.held
    · intro j g hj
      rcases flying_update hj with ⟨hg, -⟩ | ⟨hold, -⟩
      · cases hg
      · exact h.flying j g hold

theorem Interleaved.Sound.apply (h : p.Sound env P) {f : InFlight K} (hf : p.flying i = some f)
    (t : Nat) : (p.apply env i f t).Sound env P := by
  obtain ⟨items, -, ⟨c, hd⟩, hnames⟩ := h.flying i f hf
  have hsettled := settle_spec env f.fate f.request p.world
  have hup := (Updates.applyPlan (s := p.world.engine.toResident) hd hnames).evicts
    hsettled.resident
  constructor
  · exact h.sourced.of_tables ((preserved_held env).updates hup h.sourced.held)
      (hsettled.table _ docNs_ne_routeMetaNs) (hsettled.table _ eventsNs_ne_routeMetaNs)
  · intro j g hj
    rcases flying_update hj with ⟨hg, -⟩ | ⟨hold, -⟩
    · cases hg
    · exact h.flying j g hold

/-- What a step of some request does. -/
theorem Interleaved.next_induction {Q : Interleaved K → Prop} (env : Platform K) (p : Interleaved K)
    (act : Act K) (idle : Q p)
    (start : ∀ i call fate, act = .start i call fate → p.flying i = none →
      Q (p.start env i call fate))
    (store : ∀ i f, act = .store i → p.flying i = some f → f.storedAt = none → Q (p.store i f))
    (apply : ∀ i f t, act = .apply i → p.flying i = some f → f.storedAt = some t →
      Q (p.apply env i f t)) : Q (p.next env act) := by
  cases act with
  | start i call fate =>
    cases hf : p.flying i with
    | none =>
      rw [next_start hf]
      exact start i call fate rfl hf
    | some f =>
      rw [next, hf]
      exact idle
  | store i =>
    cases hf : p.flying i with
    | none =>
      rw [(next_idle hf).1]
      exact idle
    | some f =>
      cases ht : f.storedAt with
      | none =>
        rw [next_store hf ht]
        exact store i f rfl hf ht
      | some t =>
        rw [next, hf]
        dsimp only
        rw [if_neg (by simp [ht])]
        exact idle
  | apply i =>
    cases hf : p.flying i with
    | none =>
      rw [(next_idle hf).2]
      exact idle
    | some f =>
      cases ht : f.storedAt with
      | none =>
        rw [next, hf]
        dsimp only
        rw [ht]
        exact idle
      | some t =>
        rw [next_apply hf ht]
        exact apply i f t rfl hf ht

theorem Interleaved.Sound.next (hlaw : env.Lawful) (hP : Names P) (h : p.Sound env P) {act : Act K}
    (hact : act.Starts fun call _ => call.Admits P) : (p.next env act).Sound env P := by
  apply Interleaved.next_induction env p act h
  · rintro i call fate rfl -
    exact h.start hlaw hP hact fate
  · rintro i f rfl hf -
    exact h.store hf
  · rintro i f t rfl hf -
    exact h.apply hf t

end Sound

end Steps

end PoorguyMem
