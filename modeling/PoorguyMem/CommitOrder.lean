import PoorguyMem.InFlight
import PoorguyMem.Lib.TwoPhase

/-!
# The order of batches and updates

Requests write their batches in one order and apply them in memory in another. The rows
hold what the last batch has left under each name, and memory what the last update has. So
the two agree where these leave the same, which they do as long as no request writes a
batch for a name while another one for it has yet to be applied.
-/

namespace PoorguyMem

open ByteString TwoPhase

variable {K : Type}

/-! ### What is applied last -/

/-- What is resident was put by the last update of its name. -/
def Caches (applied : Documents K) (s : Resident K) : Prop :=
  ∀ workspaceId id r, Plain workspaceId id → s.records[recordMapKey workspaceId id]? = some r →
    ∃ d, applied workspaceId id = some d ∧ r.withoutAccess = d.withoutAccess

theorem caches_empty : Caches (Documents.empty : Documents K) Resident.empty := by
  intro workspaceId id r _ hr
  simp [Resident.empty] at hr

theorem Caches.evicts {applied : Documents K} {s s' : Resident K} (h : Caches applied s)
    (he : Evicts s s') : Caches applied s' :=
  fun workspaceId id r hname hr => h workspaceId id r hname (he.subset hr)

theorem Caches.access {applied : Documents K} {s s' : Resident K} (h : Caches applied s)
    (hacc : AccessOnly s.records s'.records) : Caches applied s' := by
  intro workspaceId id r hname hr
  obtain ⟨r₀, hr₀, hsame⟩ := hacc.lookup hr
  obtain ⟨d, hd, heq⟩ := h workspaceId id r₀ hname hr₀
  exact ⟨d, hd, hsame.trans heq⟩

theorem Caches.applyAll [Field K] [LinearOrder K] {env : Platform K} {changes : List (Change K)}
    {applied : Documents K} {s : Resident K} (h : Caches applied s)
    (hchanges : ∀ change ∈ changes, Plain change.record.workspaceId change.record.id) :
    Caches (applied.applyAll changes) (changes.foldl (Resident.applyChange env) s) := by
  induction changes generalizing applied s with
  | nil => exact h
  | cons change rest ih =>
    refine ih ?_ fun c hc => hchanges c (List.mem_cons_of_mem _ hc)
    intro workspaceId id r hname hr
    rw [lookup_applyChange s (hchanges change List.mem_cons_self) hname] at hr
    rw [Documents.apply]
    split at hr
    · rename_i hsame
      rw [if_pos hsame]
      exact ⟨r, hr, rfl⟩
    · rename_i hother
      rw [if_neg hother]
      exact h workspaceId id r hname hr

/-- What the row of a record decodes to. -/
def reread [One K] (env : Platform K) (r : MemoryRecord K) : Option (MemoryRecord K) :=
  deserializeRecord env (recordText env r)

theorem Represents.recordAt [One K] {env : Platform K} {rows : Table} {documents : Documents K}
    (h : Represents env rows documents) {workspaceId id : Bytes} (hname : Plain workspaceId id) :
    rows.recordAt env workspaceId id = (documents workspaceId id).bind (reread env) := by
  have hdecoded := congrArg (Option.bind · (deserializeRecord env)) (h.row workspaceId id hname)
  simp only [Option.bind_map] at hdecoded
  exact hdecoded

namespace Interleaved

/-- A record that the last update of its name has put in memory is not there: it was evicted. -/
def Evicted (p : Interleaved K) (workspaceId id : Bytes) : Prop :=
  (p.applied workspaceId id).isSome = true ∧
    p.world.engine.records[recordMapKey workspaceId id]? = none

section Agreement
variable [Field K]

/-- Under each name that was not evicted, memory has the record that its row decodes to, apart
from accesses. -/
def Agrees (env : Platform K) (p : Interleaved K) : Prop :=
  ∀ workspaceId id, Plain workspaceId id → ¬ p.Evicted workspaceId id →
    p.world.engine.records[recordMapKey workspaceId id]?.map MemoryRecord.withoutAccess =
      ((p.world.store.table docNs).recordAt env workspaceId id).map MemoryRecord.withoutAccess

/-- Under each such name, the last update has left what the row of the last batch decodes to. -/
def InOrder (env : Platform K) (p : Interleaved K) : Prop :=
  ∀ workspaceId id, Plain workspaceId id → ¬ p.Evicted workspaceId id →
    (p.applied workspaceId id).map MemoryRecord.withoutAccess =
      ((p.documents workspaceId id).bind (reread env)).map MemoryRecord.withoutAccess

end Agreement

variable [Field K] [LinearOrder K] {env : Platform K} {p : Interleaved K} {i : Nat}

/-- The invariant of requests with whole batches. -/
structure Followed (env : Platform K) (p : Interleaved K) : Prop where
  sound : p.Sound env Plain
  whole : ∀ i f, p.flying i = some f → f.fate.main.Whole
  represents : Represents env (p.world.store.table docNs) p.documents
  caches : Caches p.applied p.world.engine.toResident

theorem followed_initial (env : Platform K) (nodeId : Bytes) (options : MemoryEngineOptions K) :
    (Interleaved.initial nodeId options).Followed env where
  sound := sound_initial env Plain nodeId options
  whole i f h := by cases h
  represents := represents_empty env
  caches := caches_empty

/-- A call that starts leaves the rows, and in memory it notes accesses at most. -/
theorem Followed.start (hlaw : env.Lawful) (h : p.Followed env) {call : Call K}
    (hcall : call.Mentions Clean) {fate : Fate} (hwhole : fate.main.Whole) :
    (p.start env i call fate).Followed env := by
  have hsound := h.sound.start (i := i) hlaw names_plain hcall.workspaces.plain fate
  have hout := perform_outcome env fate p.world call
  rw [Interleaved.start] at hsound ⊢
  rcases hprep : prepare env fate p.world call with ⟨_ | request, c⟩ <;>
    rw [hprep] at hsound <;> dsimp only at hsound ⊢
  · refine ⟨hsound, h.whole, ?_, ?_⟩ <;> dsimp only <;>
      generalize (perform env fate p.world call).1 = w' at hout ⊢ <;> cases hout
    case refine_1.idle _ agrees =>
      rw [agrees.store]
      exact h.represents
    case refine_1.queried input _ =>
      rw [(query_spec env p.world input).store]
      exact h.represents
    case refine_2.idle _ agrees =>
      rw [agrees.resident]
      exact h.caches
    case refine_2.queried input _ =>
      obtain ⟨records, hacc, hres⟩ := (query_spec env p.world input).resident
      refine h.caches.access ?_
      rw [hres]
      exact hacc
    all_goals
      rename_i hsome _ _
      rw [hprep] at hsome
      cases hsome
  · refine ⟨hsound, fun j g hj => ?_, h.represents, h.caches⟩
    rcases flying_update hj with ⟨hg, -⟩ | ⟨hold, -⟩
    · obtain rfl := Option.some.inj hg
      exact hwhole
    · exact h.whole j g hold

/-- A batch changes the rows as it changes the documents. -/
theorem Followed.store (h : p.Followed env) {f : InFlight K} (hf : p.flying i = some f) :
    (p.store i f).Followed env := by
  have hsound := h.sound.store hf
  have hwhole := h.whole i f hf
  obtain ⟨items, -, ⟨c, hd⟩, hnames⟩ := h.sound.flying i f hf
  rw [Interleaved.store] at hsound ⊢
  by_cases hok : f.fate.main.ok = true
  · rw [if_pos hok] at hsound ⊢
    refine ⟨hsound, fun j g hj => ?_, ?_, h.caches⟩
    · rcases flying_update hj with ⟨hg, -⟩ | ⟨hold, -⟩
      · obtain rfl := Option.some.inj hg
        exact hwhole
      · exact h.whole j g hold
    · change Represents env ((p.world.store.batchWrite f.fate.main f.request.plan.writes).table
        docNs) (p.documents.applyAll f.request.plan.changes)
      rw [hd.changes, Store.batchWrite_of_ok _ hok, Store.table_apply, hd.logs.docs]
      exact h.represents.applyItems hnames hd.logs.writable
  · rw [if_neg hok] at hsound ⊢
    have hagrees := agrees_abandon f.fate f.request
      (p.world.commit f.fate.main f.request.plan)
    refine ⟨hsound, fun j g hj => ?_, ?_, ?_⟩
    · rcases flying_update hj with ⟨hg, -⟩ | ⟨hold, -⟩
      · cases hg
      · exact h.whole j g hold
    · dsimp only
      rw [hagrees.store]
      change Represents env ((p.world.store.batchWrite f.fate.main f.request.plan.writes).table
        docNs) p.documents
      rw [Store.batchWrite_of_whole_failed _ hwhole (by simpa using hok)]
      exact h.represents
    · dsimp only
      rw [hagrees.resident]
      exact h.caches

/-- An update in memory leaves the rows. -/
theorem Followed.apply (h : p.Followed env) {f : InFlight K} (hf : p.flying i = some f) (t : Nat) :
    (p.apply env i f t).Followed env := by
  obtain ⟨items, hdrawn⟩ := h.sound.flying i f hf
  have hsettled := settle_spec env f.fate f.request p.world
  refine ⟨h.sound.apply hf t, fun j g hj => ?_, ?_, ?_⟩
  · rcases flying_update hj with ⟨hg, -⟩ | ⟨hold, -⟩
    · cases hg
    · exact h.whole j g hold
  · rw [Interleaved.apply]
    dsimp only
    rw [hsettled.table _ docNs_ne_routeMetaNs]
    exact h.represents
  · refine Caches.evicts ?_ hsettled.resident
    rw [Plan.applyInMemory_eq]
    exact h.caches.applyAll hdrawn.named_changes

theorem Followed.next (hlaw : env.Lawful) (h : p.Followed env) {act : Act K}
    (hact : act.Starts fun call fate => call.Mentions Clean ∧ fate.main.Whole) :
    (p.next env act).Followed env := by
  apply Interleaved.next_induction env p act h
  · rintro i call fate rfl -
    exact h.start hlaw hact.1 hact.2
  · rintro i f rfl hf -
    exact h.store hf
  · rintro i f t rfl hf -
    exact h.apply hf t

/-- Memory agrees with the rows if and only if the last updates have left what the last batches
have. -/
theorem Followed.agrees_iff (h : p.Followed env) : p.Agrees env ↔ p.InOrder env := by
  refine forall_congr' fun workspaceId => forall_congr' fun id => forall_congr' fun hname =>
    forall_congr' fun hkept => ?_
  have hmemory : p.world.engine.records[recordMapKey workspaceId id]?.map
      MemoryRecord.withoutAccess =
        (p.applied workspaceId id).map MemoryRecord.withoutAccess := by
    rcases hr : p.world.engine.records[recordMapKey workspaceId id]? with _ | r
    · have hnone : p.applied workspaceId id = none := by
        rw [← Option.not_isSome_iff_eq_none]
        exact fun hsome => hkept ⟨hsome, hr⟩
      rw [hnone]
    · obtain ⟨d, hd, hsame⟩ := h.caches workspaceId id r hname hr
      rw [hd, Option.map_some, Option.map_some, hsame]
  rw [hmemory, h.represents.recordAt hname]

end Interleaved

/-! ### One name at a time -/

/-- What some changes leave at the names they change. -/
def lastChange : List (Change K) → Bytes × Bytes → Option (Option (MemoryRecord K))
  | [], _ => none
  | change :: rest, name =>
    match lastChange rest name with
    | some value => some value
    | none => if change.record.workspaceId = name.1 ∧ change.record.id = name.2 then
        some change.value else none

theorem lastChange_named {changes : List (Change K)} {name : Bytes × Bytes}
    {value : Option (MemoryRecord K)} (h : lastChange changes name = some value) :
    ∃ change ∈ changes, (change.record.workspaceId, change.record.id) = name := by
  induction changes with
  | nil => cases h
  | cons change rest ih =>
    rw [lastChange] at h
    split at h
    · rename_i value' hrest
      obtain ⟨later, hlater, hname⟩ := ih (hrest.trans h)
      exact ⟨later, List.mem_cons_of_mem _ hlater, hname⟩
    · split at h
      · rename_i hname
        exact ⟨change, List.mem_cons_self, Prod.ext hname.1 hname.2⟩
      · cases h

/-- The documents as a map of names. -/
def Documents.at (documents : Documents K) (name : Bytes × Bytes) : Option (MemoryRecord K) :=
  documents name.1 name.2

theorem Documents.at_applyAll (documents : Documents K) (changes : List (Change K)) :
    (documents.applyAll changes).at = override documents.at (lastChange changes) := by
  funext name
  induction changes generalizing documents with
  | nil => rfl
  | cons change rest ih =>
    refine (ih (documents.apply change)).trans ?_
    rw [override, override, lastChange]
    cases lastChange rest name with
    | some value => rfl
    | none =>
      rw [Documents.at, Documents.apply]
      split <;> rfl

/-- Two requests that change no name in common. -/
def InFlight.Apart (f g : InFlight K) : Prop :=
  ∀ a ∈ f.changes, ∀ b ∈ g.changes,
    ¬ (a.record.workspaceId = b.record.workspaceId ∧ a.record.id = b.record.id)

/-- A batch of records that survive the codec, for names that no request which has yet to apply
its own changes. -/
def Act.Separate [One K] (env : Platform K) (p : Interleaved K) : Act K → Prop
  | .start _ _ _ => True
  | .store i => ∀ f, p.flying i = some f → f.storedAt = none → f.fate.main.ok = true →
      (∀ change ∈ f.changes, RoundTrips env change.record) ∧
        ∀ j g, p.flying j = some g → g.storedAt ≠ none → f.Apart g
  | .apply _ => True

/-- What a request that has written its batch has yet to apply. -/
def owed (o : Option (InFlight K)) : Option (Bytes × Bytes → Option (Option (MemoryRecord K))) :=
  o.bind fun f => f.storedAt.map fun _ => lastChange f.changes

namespace Interleaved
variable [Field K] [LinearOrder K] {env : Platform K} {p : Interleaved K} {i : Nat}

/-- Memory has what the batches have left, but for what is owed. -/
structure Orderly (env : Platform K) (p : Interleaved K) : Prop where
  settling : TwoPhase.Settling p.documents.at p.applied.at (owed ∘ p.flying)
  roundTrips : ∀ workspaceId id d, p.documents workspaceId id = some d → RoundTrips env d

omit [LinearOrder K] in
theorem orderly_initial (env : Platform K) (nodeId : Bytes) (options : MemoryEngineOptions K) :
    (Interleaved.initial nodeId options).Orderly env where
  settling := settling_refl _
  roundTrips workspaceId id d h := by cases h

omit [Field K] [LinearOrder K] in
theorem owed_update (flying : Nat → Option (InFlight K)) (i : Nat) {o : Option (InFlight K)}
    (h : owed o = owed (flying i)) : owed ∘ Function.update flying i o = owed ∘ flying := by
  rw [Function.comp_update, h]
  exact Function.update_eq_self i (owed ∘ flying)

theorem Orderly.start (h : p.Orderly env) (hfree : p.flying i = none) (call : Call K) (fate : Fate) :
    (p.start env i call fate).Orderly env := by
  rw [Interleaved.start]
  split
  · exact ⟨h.settling, h.roundTrips⟩
  · refine ⟨?_, h.roundTrips⟩
    rw [owed_update p.flying i (by rw [hfree]; rfl)]
    exact h.settling

theorem Orderly.store (h : p.Orderly env) {f : InFlight K} (hf : p.flying i = some f)
    (hread : f.storedAt = none) (hseparate : (Act.store i).Separate env p) :
    (p.store i f).Orderly env := by
  have hnone : owed (p.flying i) = none := by
    rw [hf, owed, Option.bind_some, hread, Option.map_none]
  rw [Interleaved.store]
  by_cases hok : f.fate.main.ok = true
  · obtain ⟨hround, hapart⟩ := hseparate f hf hread hok
    rw [if_pos hok]
    constructor
    · dsimp only
      rw [Function.comp_update, Documents.at_applyAll]
      refine h.settling.begin hnone ?_
      intro j update name value hj hvalue
      obtain ⟨g, hg, hstored⟩ := Option.bind_eq_some_iff.mp hj
      obtain ⟨t, ht, rfl⟩ := Option.map_eq_some_iff.mp hstored
      rw [Option.eq_none_iff_forall_ne_some]
      intro value' hvalue'
      obtain ⟨a, ha, hname⟩ := lastChange_named hvalue
      obtain ⟨b, hb, hname'⟩ := lastChange_named hvalue'
      have hsame := Prod.mk.inj (hname.trans hname'.symm)
      exact hapart j g hg (by simp [ht]) a ha b hb hsame
    · intro workspaceId id d hd
      rcases Documents.mem_of_applyAll hd with hold | hput
      · exact h.roundTrips workspaceId id d hold
      · exact hround (.put d) hput
  · rw [if_neg hok]
    refine ⟨?_, h.roundTrips⟩
    dsimp only
    rw [owed_update p.flying i (o := none) hnone.symm]
    exact h.settling

theorem Orderly.apply (h : p.Orderly env) {f : InFlight K} (hf : p.flying i = some f) {t : Nat}
    (hstored : f.storedAt = some t) : (p.apply env i f t).Orderly env := by
  refine ⟨?_, h.roundTrips⟩
  rw [Interleaved.apply]
  dsimp only
  rw [Function.comp_update, Documents.at_applyAll]
  refine h.settling.finish ?_
  rw [Function.comp_apply, hf, owed, Option.bind_some, hstored, Option.map_some]

theorem Orderly.next (h : p.Orderly env) {act : Act K} (hact : act.Separate env p) :
    (p.next env act).Orderly env := by
  apply Interleaved.next_induction env p act h
  · rintro i call fate rfl hfree
    exact h.start hfree call fate
  · rintro i f rfl hf hread
    exact h.store hf hread hact
  · rintro i f t rfl hf hstored
    exact h.apply hf hstored

omit [LinearOrder K] in
/-- Once every request has been applied, memory has what the batches have left. -/
theorem Orderly.inOrder (h : p.Orderly env) (hdone : ∀ i, p.flying i = none) : p.InOrder env := by
  have heq := h.settling.eq fun i => by rw [Function.comp_apply, hdone i]; rfl
  intro workspaceId id _ _
  have hname : p.applied workspaceId id = p.documents workspaceId id := congrFun heq (workspaceId, id)
  rw [hname]
  cases hd : p.documents workspaceId id with
  | none => rfl
  | some d =>
    have hround : reread env d = some d := h.roundTrips workspaceId id d hd
    rw [Option.bind_some, hround]

end Interleaved

/-- The thread of a step. -/
def Act.thread : Act K → Nat
  | .start i _ _ => i
  | .store i => i
  | .apply i => i

section Threads
variable [Field K] [LinearOrder K] {env : Platform K}

theorem flying_next_of_ne (p : Interleaved K) (act : Act K) {j : Nat} (h : act.thread ≠ j) :
    (p.next env act).flying j = p.flying j := by
  apply Interleaved.next_induction (Q := fun q => q.flying j = p.flying j) env p act rfl
  · rintro i call fate rfl -
    rw [Interleaved.start]
    split
    · rfl
    · exact Function.update_of_ne (Ne.symm h) ..
  · rintro i f rfl - -
    rw [Interleaved.store]
    split <;> exact Function.update_of_ne (Ne.symm h) ..
  · rintro i f t rfl - -
    exact Function.update_of_ne (Ne.symm h) ..

/-- No thread but those of the steps has a request in flight. -/
theorem flying_of_forall_ne (nodeId : Bytes) (options : MemoryEngineOptions K) (acts : List (Act K))
    {j : Nat} (h : ∀ act ∈ acts, act.thread ≠ j) :
    (Runs.exec (Interleaved.next env) (Interleaved.initial nodeId options) acts).flying j = none :=
  Runs.invariant_of_forall (I := fun p => p.flying j = none)
    (fun p act hact hp => (flying_next_of_ne p act hact).trans hp) h rfl

theorem flying_eq_none (nodeId : Bytes) (options : MemoryEngineOptions K) (acts : List (Act K))
    (h : (acts.all fun act => ((Runs.exec (Interleaved.next env)
      (Interleaved.initial nodeId options) acts).flying act.thread).isNone) = true) (j : Nat) :
    (Runs.exec (Interleaved.next env) (Interleaved.initial nodeId options) acts).flying j = none := by
  by_cases hj : ∃ act ∈ acts, act.thread = j
  · obtain ⟨act, hact, rfl⟩ := hj
    exact Option.isNone_iff_eq_none.mp (List.all_eq_true.mp h act hact)
  · push Not at hj
    exact flying_of_forall_ne nodeId options acts hj

end Threads

/-- In every interleaving of requests, memory agrees with the rows if and only if the last update
of each name has left what the last batch has. It does once all requests are done, if no batch
was for a name that another request had yet to apply. -/
theorem concurrent_agreement [Field K] [LinearOrder K] {env : Platform K} (hlaw : env.Lawful)
    (nodeId : Bytes) (options : MemoryEngineOptions K) (acts : List (Act K))
    (hacts : ∀ act ∈ acts, act.Starts fun call fate => call.Mentions Clean ∧ fate.main.Whole) :
    let p := Runs.exec (Interleaved.next env) (Interleaved.initial nodeId options) acts
    (p.Agrees env ↔ p.InOrder env) ∧
      (Runs.Along (Interleaved.next env) (fun p act => act.Separate env p)
          (Interleaved.initial nodeId options) acts →
        (∀ i, p.flying i = none) → p.Agrees env) := by
  have hstep : ∀ (p : Interleaved K) act,
      (act.Starts fun call fate => call.Mentions Clean ∧ fate.main.Whole) → p.Followed env →
      (p.next env act).Followed env := fun p act hact h => h.next hlaw hact
  have hfollowed : (Runs.exec (Interleaved.next env) (Interleaved.initial nodeId options)
      acts).Followed env :=
    Runs.invariant_of_forall (I := Interleaved.Followed env) hstep hacts
      (Interleaved.followed_initial env nodeId options)
  refine ⟨hfollowed.agrees_iff, fun hseparate hdone => hfollowed.agrees_iff.mpr ?_⟩
  have horder : ∀ (p : Interleaved K) act, act.Separate env p → p.Orderly env →
      (p.next env act).Orderly env := fun p act hact h => h.next hact
  have horderly : (Runs.exec (Interleaved.next env) (Interleaved.initial nodeId options)
      acts).Orderly env :=
    Runs.invariant (I := Interleaved.Orderly env) horder hseparate
      (Interleaved.orderly_initial env nodeId options)
  exact horderly.inOrder hdone

section Examples
open Reference

/-- Two threads write a record under one name, and the one whose batch came first is the last
to apply it. -/
def swapped : List (Act ℚ) :=
  [.start 1 (put (ascii "w") (ascii "a") (ascii "x")) Reference.applied,
    .start 2 (put (ascii "w") (ascii "a") (ascii "y")) Reference.applied,
    .store 1, .store 2, .apply 2, .apply 1]

/-- Both requests are done, and memory has another record than the row. -/
theorem not_agrees_swapped :
    let p := Runs.exec (Interleaved.next (platform ticking))
      (Interleaved.initial (ascii "node") options) swapped
    (∀ i, p.flying i = none) ∧ ¬ p.Agrees (platform ticking) := by
  constructor
  · apply flying_eq_none
    decide +kernel
  · intro hagrees
    generalize hp : Runs.exec (Interleaved.next (platform ticking))
      (Interleaved.initial (ascii "node") options) swapped = p at hagrees
    have hheld : p.world.engine.records[recordMapKey (ascii "w") (ascii "a")]?.map (·.content) =
        some (ascii "x") := by
      rw [← hp]
      decide +kernel
    have hrow : ((p.world.store.table docNs).recordAt (platform ticking) (ascii "w")
        (ascii "a")).map (·.content) = some (ascii "y") := by
      rw [← hp]
      decide +kernel
    obtain ⟨r, hr, hx⟩ := Option.map_eq_some_iff.mp hheld
    obtain ⟨d, hd, hy⟩ := Option.map_eq_some_iff.mp hrow
    have hsame := hagrees (ascii "w") (ascii "a")
      ⟨by decide, by decide, by decide, by decide⟩ fun hevicted => by
      cases hr.symm.trans hevicted.2
    rw [hr, hd, Option.map_some, Option.map_some] at hsame
    have hcontent : r.withoutAccess.content = d.withoutAccess.content :=
      congrArg MemoryRecord.content (Option.some.inj hsame)
    change r.content = d.content at hcontent
    rw [hx, hy] at hcontent
    exact absurd hcontent (by decide)

/-- The same for records under two names. -/
def alongside : List (Act ℚ) :=
  [.start 1 (put (ascii "w") (ascii "a") (ascii "x")) Reference.applied,
    .start 2 (put (ascii "w") (ascii "b") (ascii "y")) Reference.applied,
    .store 1, .store 2, .apply 2, .apply 1]

theorem agrees_alongside : (Runs.exec (Interleaved.next (platform ticking))
    (Interleaved.initial (ascii "node") options) alongside).Agrees (platform ticking) := by
  -- a batch whose request is apart from the others, of which there are two at most
  have separate : ∀ acts i, (∀ act ∈ acts, act.thread = 1 ∨ act.thread = 2) →
      (((Runs.exec (Interleaved.next (platform ticking)) (Interleaved.initial (ascii "node") options)
        acts).flying i).all fun f => f.changes.all (fun change =>
          decide (RoundTrips (platform ticking) change.record)) && [1, 2].all fun j =>
            ((Runs.exec (Interleaved.next (platform ticking))
              (Interleaved.initial (ascii "node") options) acts).flying j).all fun g =>
                g.storedAt.isNone || f.changes.all fun a => g.changes.all fun b =>
                  !(decide (a.record.workspaceId = b.record.workspaceId) &&
                    decide (a.record.id = b.record.id))) = true →
      (Act.store i).Separate (platform ticking) (Runs.exec (Interleaved.next (platform ticking))
        (Interleaved.initial (ascii "node") options) acts) := by
    intro acts i hthreads h f hf _ _
    rw [hf, Option.all_some, Bool.and_eq_true] at h
    refine ⟨by simpa using h.1, fun j g hg hstored a ha b hb => ?_⟩
    have hj : j ∈ [1, 2] := by
      by_contra hne
      rw [flying_of_forall_ne] at hg
      · cases hg
      · rintro act hact rfl
        exact hne (by simpa using hthreads act hact)
    have hapart := List.all_eq_true.mp h.2 j hj
    rw [hg, Option.all_some, Bool.or_eq_true, Option.isNone_iff_eq_none] at hapart
    have hnames := List.all_eq_true.mp (List.all_eq_true.mp (hapart.resolve_left hstored) a ha) b hb
    simpa [or_iff_not_imp_left] using hnames
  refine (concurrent_agreement (lawful_platform ticking) (ascii "node") options alongside ?_).2 ?_ ?_
  · have hclean : Clean (ascii "w") := ⟨by decide, by decide⟩
    intro act hact
    fin_cases hact
    · exact ⟨hclean, trivial⟩
    · exact ⟨hclean, trivial⟩
    · trivial
    · trivial
    · trivial
    · trivial
  · exact ⟨trivial, trivial, separate (alongside.take 2) 1 (by decide) (by decide +kernel),
      separate (alongside.take 3) 2 (by decide) (by decide +kernel), trivial, trivial, trivial⟩
  · apply flying_eq_none
    decide +kernel

end Examples

end PoorguyMem
