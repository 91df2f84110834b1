import PoorguyMem.Batches
import PoorguyMem.Stamps

/-!
# The event log of a run

Beside the documents of a run stands the record that was logged last under each
name, which a deletion does not take away. Every event carries a record that is
related to the last one of its name, by a relation that survives whatever the
calls log next, and the last one has an event of its own.
-/

namespace PoorguyMem

open ByteString

variable {K : Type}

/-! ### Advancing -/

/-- A change as the log keeps it: a deletion logs its record. -/
def Change.logged (change : Change K) : Change K := .put change.record

/-- Every record stands to the one logged before it under its name as `A` says. -/
def Advancing (A : MemoryRecord K → MemoryRecord K → Prop) :
    Documents K → List (Change K) → Prop
  | _, [] => True
  | logged, change :: rest =>
    (∀ l ∈ logged change.record.workspaceId change.record.id, A l change.record) ∧
      Advancing A (logged.apply change.logged) rest

instance decidableAdvancing (A : MemoryRecord K → MemoryRecord K → Prop) [DecidableRel A] :
    ∀ (logged : Documents K) (changes : List (Change K)), Decidable (Advancing A logged changes)
  | _, [] => inferInstanceAs (Decidable True)
  | logged, change :: rest =>
    have := decidableAdvancing A (logged.apply change.logged) rest
    inferInstanceAs (Decidable (_ ∧ _))

theorem Advancing.mono {A B : MemoryRecord K → MemoryRecord K → Prop} {logged : Documents K}
    {changes : List (Change K)} (h : Advancing A logged changes)
    (imp : ∀ change ∈ changes, ∀ l, A l change.record → B l change.record) :
    Advancing B logged changes := by
  induction changes generalizing logged with
  | nil => trivial
  | cons change rest ih =>
    refine ⟨fun l hl => imp change List.mem_cons_self l (h.1 l hl), ?_⟩
    exact ih h.2 fun c hc => imp c (List.mem_cons_of_mem _ hc)

/-- Changes that log one record under a name need only advance what was there before. -/
theorem advancing_of_agree {A : MemoryRecord K → MemoryRecord K → Prop} (refl : ∀ r, A r r)
    {logged : Documents K} {changes : List (Change K)}
    (hagree : ∀ c ∈ changes, ∀ d ∈ changes, c.record.workspaceId = d.record.workspaceId →
      c.record.id = d.record.id → c.record = d.record)
    (h : ∀ c ∈ changes, ∀ l, logged c.record.workspaceId c.record.id = some l → A l c.record) :
    Advancing A logged changes := by
  induction changes generalizing logged with
  | nil => trivial
  | cons change rest ih =>
    refine ⟨h change List.mem_cons_self, ih ?_ ?_⟩
    · exact fun c hc d hd =>
        hagree c (List.mem_cons_of_mem _ hc) d (List.mem_cons_of_mem _ hd)
    · intro c hc l hl
      rw [Documents.apply] at hl
      split at hl
      · rename_i hsame
        have heq := hagree change List.mem_cons_self c (List.mem_cons_of_mem _ hc) hsame.1 hsame.2
        obtain rfl := Option.some.inj hl
        rw [← heq]
        exact refl change.record
      · exact h c (List.mem_cons_of_mem _ hc) l hl

/-- The documents are among the records logged last, and what is logged last of a
document that is gone is a tombstone. -/
structure Filed (documents logged : Documents K) : Prop where
  current : ∀ w id d, documents w id = some d → logged w id = some d
  buried : ∀ w id l, logged w id = some l → documents w id = none → l.tombstone = true

theorem Filed.applyAll {documents logged : Documents K} {changes : List (Change K)}
    (h : Filed documents logged) (hdrop : ∀ r, .drop r ∈ changes → r.tombstone = true) :
    Filed (documents.applyAll changes) (logged.applyAll (changes.map Change.logged)) := by
  induction changes generalizing documents logged with
  | nil => exact h
  | cons change rest ih =>
    refine ih ⟨fun w id d hd => ?_, fun w id l hl hnone => ?_⟩ fun r hr =>
      hdrop r (List.mem_cons_of_mem _ hr)
    · rw [Documents.apply] at hd ⊢
      split at hd
      · rename_i hsame
        rw [if_pos (by exact hsame)]
        cases change with
        | put r => exact hd
        | drop r => cases hd
      · rename_i hother
        rw [if_neg (by exact hother)]
        exact h.current w id d hd
    · rw [Documents.apply] at hl hnone
      split at hnone
      · rename_i hsame
        rw [if_pos (by exact hsame)] at hl
        cases change with
        | put r => cases hnone
        | drop r =>
          obtain rfl := Option.some.inj hl
          exact hdrop _ List.mem_cons_self
      · rename_i hother
        rw [if_neg (by exact hother)] at hl
        exact h.buried w id l hl hnone

section Relations
variable [Zero K]

/-- How calls log: the same record again, a newer one, or a live one that `W` admits. -/
def Advances (W : MemoryRecord K → MemoryRecord K → Prop) (l r : MemoryRecord K) : Prop :=
  l.essence = r.essence ∨ isIncomingNewer l r = true ∨ W l r ∧ r.tombstone = false

/-- A relation of the events of a name to the record logged last that every call keeps. -/
structure Keeps (R W : MemoryRecord K → MemoryRecord K → Prop) : Prop where
  same : ∀ x, R x x
  congr : ∀ x l r, R x l → l.essence = r.essence → R x r
  newer : ∀ x l r, R x l → isIncomingNewer l r = true → R x r
  written : ∀ x l r, R x l → W l r → r.tombstone = false → R x r

theorem Keeps.advance {R W : MemoryRecord K → MemoryRecord K → Prop} (hR : Keeps R W)
    {x l r : MemoryRecord K} (h : R x l) (hadv : Advances W l r) : R x r := by
  rcases hadv with hsame | hnewer | ⟨hwritten, hlive⟩
  · exact hR.congr x l r h hsame
  · exact hR.newer x l r h hnewer
  · exact hR.written x l r h hwritten hlive

end Relations

/-! ### Events -/

section Events
variable [One K]

/-- The row of an event that can be read back. -/
structure EventRow (env : Platform K) (item : LogItem K) (k : Bytes) (v : StoredValue) : Prop where
  key : k = item.eventKey env
  value : v.value = env.json.print (item.eventTree env)
  named : Plain item.record.workspaceId item.record.id
  writable : (recordTree env item.record).writable = true
  decodes : (deserializeRecord env (recordText env item.record)).isSome = true
  parses : (env.json.parse v.value).isSome = true

/-- The row of the record logged last, and it is not before the key `k`. -/
def LastRow (env : Platform K) (events : Table) (l : MemoryRecord K) (k : Bytes) : Prop :=
  ∃ (k' : Bytes) (v' : StoredValue) (item : LogItem K), events[k']? = some v' ∧
    EventRow env item k' v' ∧ item.record = l ∧ le k k' = true

/-- The event rows with the records logged last. -/
structure Chronicled (env : Platform K) (R : MemoryRecord K → MemoryRecord K → Prop) (c : Cursor)
    (events : Table) (logged : Documents K) : Prop where
  rows : ∀ (k : Bytes) v, events[k]? = some v → ∃ item l, EventRow env item k v ∧
    (∃ ts seq, k = buildEventKey item.record.workspaceId ts seq ∧ Passed env c ts seq) ∧
    logged item.record.workspaceId item.record.id = some l ∧ R item.record l ∧
    LastRow env events l k
  last : ∀ w id l, logged w id = some l → l.workspaceId = w ∧ l.id = id ∧
    ∃ k, LastRow env events l k

end Events

section Extension
variable [Field K] {env : Platform K} {R W : MemoryRecord K → MemoryRecord K → Prop}
  {c c' : Cursor} {events : Table} {logged : Documents K} {item : LogItem K}

/-- The item is stamped after every event that is logged. -/
theorem Chronicled.key_ne (h : Chronicled env R c events logged) (hlog : Loggable env item)
    (hws : 47 ∉ item.record.workspaceId) (htick : c.tick ≤ item.reading)
    (hseq : c.localSeq < item.seq) {k : Bytes} {v : StoredValue} (hv : events[k]? = some v) :
    item.eventKey env ≠ k := by
  rintro rfl
  obtain ⟨old, -, hrow, ⟨ts, seq, hkey, hpassed⟩, -⟩ := h.rows _ v hv
  rw [LogItem.eventKey, hlog.eventMs] at hkey
  obtain ⟨-, rfl, rfl⟩ := buildEventKey_inj hws hrow.named.2.2.2 hkey
  rcases hpassed.drawn with hdrawn | hlater
  · rw [UInt64.toNat_ofNat_of_lt' hlog.seq_lt] at hdrawn
    omega
  · exact UInt64.lt_irrefl _ (hlater item.reading htick)

/-- An item that advances what was logged extends the log. -/
theorem Chronicled.extend (hsteady : env.Steady) (hR : Keeps R W)
    (h : Chronicled env R c events logged) (hlog : Loggable env item)
    (hrow : EventRow env item (item.eventKey env)
      ⟨env.json.print (item.eventTree env), item.eventMs env⟩)
    (htick : c.tick ≤ item.reading) (hseq : c.localSeq < item.seq)
    (hadv : ∀ l ∈ logged item.record.workspaceId item.record.id, Advances W l item.record) :
    Chronicled env R item.cursor (events.applyEntry (item.eventEntry env))
      (logged.apply item.change.logged) := by
  have hbefore : c.Before item.cursor := ⟨Nat.le_succ_of_le htick, Nat.le_of_lt hseq⟩
  let row : StoredValue := ⟨env.json.print (item.eventTree env), item.eventMs env⟩
  have hevents : ∀ k : Bytes, (events.applyEntry (item.eventEntry env))[k]? =
      if item.eventKey env = k then some row else events[k]? :=
    fun k => lookup_insert events (item.eventKey env) k row
  have hlogged : ∀ w id, logged.apply item.change.logged w id =
      if item.record.workspaceId = w ∧ item.record.id = id then some item.record
      else logged w id := fun w id => rfl
  have hlast : ∀ k, le k (item.eventKey env) = true →
      LastRow env (events.applyEntry (item.eventEntry env)) item.record k := by
    intro k hle
    exact ⟨item.eventKey env, row, item, by rw [hevents, if_pos rfl], hrow, rfl, hle⟩
  -- the rows that are there stay
  have hstays : ∀ {l : MemoryRecord K} {k : Bytes}, LastRow env events l k →
      LastRow env (events.applyEntry (item.eventEntry env)) l k := by
    rintro l k ⟨k', v', old, hv', hold⟩
    have hne := h.key_ne hlog hrow.named.2.2.2 htick hseq hv'
    exact ⟨k', v', old, by rw [hevents, if_neg hne, hv'], hold⟩
  constructor
  · intro k v hv
    rw [hevents] at hv
    split at hv
    · rename_i hkey
      obtain rfl := Option.some.inj hv
      obtain rfl := hkey
      refine ⟨item, item.record, hrow, ⟨item.eventMs env, UInt64.ofNat item.seq, rfl, ?_, ?_⟩, ?_,
        hR.same item.record, hlast _ (le_refl _)⟩
      · exact ⟨item.reading, Nat.lt_succ_self _, by rw [hlog.eventMs]; exact UInt64.le_refl _⟩
      · left
        rw [UInt64.toNat_ofNat_of_lt' hlog.seq_lt]
        exact Nat.le_refl _
      · rw [hlogged, if_pos ⟨rfl, rfl⟩]
    · obtain ⟨old, l, hold, ⟨ts, seq, hkey, hpassed⟩, hl, hrel, hrest⟩ := h.rows k v hv
      have hpassed' := hpassed.mono hbefore
      by_cases hsame : item.record.workspaceId = old.record.workspaceId ∧
          item.record.id = old.record.id
      · refine ⟨old, item.record, hold, ⟨ts, seq, hkey, hpassed'⟩, ?_, ?_, hlast k ?_⟩
        · rw [hlogged, if_pos hsame]
        · rw [← hsame.1, ← hsame.2] at hl
          exact hR.advance hrel (hadv l hl)
        · rw [hkey, ← hsame.1, LogItem.eventKey, hlog.eventMs]
          exact hpassed.buildEventKey_le hsteady htick hseq hlog.seq_lt _
      · refine ⟨old, l, hold, ⟨ts, seq, hkey, hpassed'⟩, ?_, hrel, hstays hrest⟩
        rw [hlogged, if_neg hsame, hl]
  · intro w id l hl
    rw [hlogged] at hl
    split at hl
    · rename_i hsame
      obtain rfl := Option.some.inj hl
      exact ⟨hsame.1, hsame.2, item.eventKey env, hlast _ (le_refl _)⟩
    · obtain ⟨hws, hid, k, hrest⟩ := h.last w id l hl
      exact ⟨hws, hid, k, hstays hrest⟩

theorem Chronicled.imp (h : Chronicled env R c events logged)
    (himp : ∀ ts seq, Passed env c ts seq → Passed env c' ts seq) :
    Chronicled env R c' events logged where
  rows k v hv := by
    obtain ⟨item, l, hrow, ⟨ts, seq, hkey, hpassed⟩, hl⟩ := h.rows k v hv
    exact ⟨item, l, hrow, ⟨ts, seq, hkey, himp ts seq hpassed⟩, hl⟩
  last := h.last

/-- A batch of items that advance in order extends the log. -/
theorem Chronicled.applyItems (hsteady : env.Steady) (hR : Keeps R W) {items : List (LogItem K)}
    (h : Chronicled env R c events logged) (hlog : ∀ item ∈ items, Loggable env item)
    (hrows : ∀ item ∈ items, EventRow env item (item.eventKey env)
      ⟨env.json.print (item.eventTree env), item.eventMs env⟩)
    (hstamped : ∀ item ∈ items, item.Stamped c c')
    (hordered : items.Pairwise fun a b => a.reading < b.reading ∧ a.seq < b.seq)
    (hadv : Advancing (Advances W) logged (items.map (·.change))) (hc : c.Before c') :
    Chronicled env R c' (events.apply (items.map (·.eventEntry env)))
      (logged.applyAll ((items.map (·.change)).map Change.logged)) := by
  induction items generalizing c events logged with
  | nil => exact h.imp fun _ _ hpassed => hpassed.mono hc
  | cons item items ih =>
    have hstamp := hstamped item List.mem_cons_self
    obtain ⟨hhead, htail⟩ := List.pairwise_cons.mp hordered
    refine ih (h.extend hsteady hR (hlog item List.mem_cons_self) (hrows item List.mem_cons_self)
      hstamp.after_tick hstamp.after_seq hadv.1) (fun i hi => hlog i (List.mem_cons_of_mem _ hi))
      (fun i hi => hrows i (List.mem_cons_of_mem _ hi)) ?_ htail hadv.2
      ⟨hstamp.before_tick, hstamp.before_seq⟩
    intro i hi
    have hi' := hstamped i (List.mem_cons_of_mem _ hi)
    exact ⟨(hhead i hi).1, hi'.before_tick, (hhead i hi).2, hi'.before_seq⟩

end Extension

/-! ### Runs -/

/-- A run with the records it has logged last. -/
structure Chronicle (K : Type) where
  traced : Traced K
  logged : Documents K

namespace Chronicle

def world (t : Chronicle K) : World K := t.traced.world

def documents (t : Chronicle K) : Documents K := t.traced.documents

def next [Field K] [LinearOrder K] (env : Platform K) (t : Chronicle K) (step : Step K) :
    Chronicle K where
  traced := t.traced.next env step
  logged := t.logged.applyAll ((step.committed env t.world).map Change.logged)

def initial (nodeId : Bytes) (options : MemoryEngineOptions K) : Chronicle K :=
  ⟨Traced.initial nodeId options, Documents.empty⟩

/-- The world of a chronicled run is the world of the run. -/
theorem exec_world [Field K] [LinearOrder K] (env : Platform K) (t : Chronicle K)
    (steps : List (Step K)) : (Runs.exec (Chronicle.next env) t steps).world =
      Runs.exec (PoorguyMem.next env) t.world steps := by
  induction steps generalizing t with
  | nil => rfl
  | cons step rest ih => exact ih (t.next env step)

end Chronicle

section Journal
variable [Field K] [LinearOrder K]

/-- What the store of a run says of the documents and of the records logged last. -/
structure Journal (env : Platform K) (R : MemoryRecord K → MemoryRecord K → Prop) (w : World K)
    (documents logged : Documents K) : Prop where
  covered : Covered env w.cursor (w.store.table eventsNs) (w.store.table projectionCkptNs)
  chronicled : Chronicled env R w.cursor (w.store.table eventsNs) logged
  decodes : ∀ ws id d, documents ws id = some d →
    (deserializeRecord env (recordText env d)).isSome = true
  dated : ∀ ws id l, logged ws id = some l → ∃ i < w.tick, l.updatedAtMs ≤ env.clock i
  filed : Filed documents logged

/-- What a call of a run meets: a workspace free of separators, a batch that is applied
whole or not at all, records and events whose texts can be read back, no wrap of
`local_seq_` or of a version, and in a `Write` records that `W` admits after those
logged before them. -/
structure Legible (env : Platform K) (W : MemoryRecord K → MemoryRecord K → Prop)
    (t : Chronicle K) (call : Call K) (fate : Fate) : Prop where
  clean : call.Mentions Clean
  whole : fate.main.Whole
  decodes : ∀ change ∈ committed env t.world call fate,
    (deserializeRecord env (recordText env change.record)).isSome = true
  parses : ∀ e ∈ (prepare env fate t.world call).1.elim []
    fun request => Store.restrict eventsNs request.plan.writes,
    (env.json.parse e.entry.value).isSome = true
  seq_lt : (prepare env fate t.world call).2.localSeq < 2 ^ 64
  version : ∀ change ∈ committed env t.world call fate, change.record.version ≠ 0
  advancing : ∀ input, call = .write input →
    Advancing W t.logged (committed env t.world call fate)

variable {env : Platform K} {R W : MemoryRecord K → MemoryRecord K → Prop} {t : Chronicle K}
  {w w' : World K} {documents logged : Documents K} {call : Call K} {fate : Fate}

omit [LinearOrder K] in
theorem Journal.of_tables (h : Journal env R w documents logged)
    (htable : ∀ ns, ns ≠ routeMetaNs → w'.store.table ns = w.store.table ns)
    (hc : w.cursor.Before w'.cursor) : Journal env R w' documents logged where
  covered := by
    rw [htable _ eventsNs_ne_routeMetaNs, htable _ projectionCkptNs_ne_routeMetaNs]
    exact h.covered.mono hc
  chronicled := by
    rw [htable _ eventsNs_ne_routeMetaNs]
    exact h.chronicled.imp fun _ _ hpassed => hpassed.mono hc
  decodes := h.decodes
  dated ws id l hl := (h.dated ws id l hl).imp fun _ hi =>
    ⟨Nat.lt_of_lt_of_le hi.1 hc.tick, hi.2⟩
  filed := h.filed

theorem Journal.restart (hsteady : env.Steady) (h : Journal env R w documents logged)
    (hr : Restarted env w w') (hlater : Later env w) : Journal env R w' documents logged := by
  have hcursor : w'.cursor = ⟨w'.tick, 0⟩ := by rw [World.cursor, hr.seq]
  have himp : ∀ ts seq, Passed env w.cursor ts seq → Passed env w'.cursor ts seq := by
    intro ts seq hpassed
    rw [hcursor]
    exact hpassed.restart hsteady hlater hr.tick
  constructor
  case covered =>
    rw [hr.store]
    exact h.covered.imp himp
  case chronicled =>
    rw [hr.store]
    exact h.chronicled.imp himp
  case decodes => exact h.decodes
  case dated =>
    exact fun ws id l hl => (h.dated ws id l hl).imp fun _ hi =>
      ⟨Nat.lt_of_lt_of_le hi.1 hr.tick, hi.2⟩
  case filed => exact h.filed

omit [LinearOrder K] in
/-- A store of a run reloads. -/
theorem Journal.reloads (hlaw : env.Lawful) (h : Journal env R w documents logged)
    (hS : Sourced env Plain w) (hR : Represents env (w.store.table docNs) documents) :
    Reloads env w.store where
  decodes k v hv := by
    obtain ⟨r, rfl, hvalue, hw, hname⟩ := hS.docs k v hv
    have hrow := hR.row r.workspaceId r.id hname
    rw [hv, Option.map_some] at hrow
    obtain ⟨d, hd, htext⟩ := Option.map_eq_some_iff.mp hrow.symm
    rw [← htext]
    exact h.decodes _ _ d hd
  skipped _ he := h.covered.eventRecord_eq_none hlaw he

/-! ### What calls log -/

/-- A record is produced at the reading of its call, and one that is dropped before. -/
theorem Journal.dated_produced (hsteady : env.Steady)
    (h : Journal env R t.world t.documents t.logged) (hT : Tracked env t.traced)
    {change : Change K} (hprod : Produces env t.world (env.clock t.world.tick) call change) :
    change.record.updatedAtMs ≤ env.clock t.world.tick := by
  cases hprod with
  | new => exact UInt64.le_refl _
  | pinned => exact UInt64.le_refl _
  | tombstoned => exact UInt64.le_refl _
  | @dropped _ _ _ candidate _ held =>
    obtain ⟨d, hd, hess⟩ := hT.document_held held
    obtain ⟨i, hi, hle⟩ := h.dated _ _ d (h.filed.current _ _ d hd)
    change candidate.updatedAtMs ≤ _
    rw [(stamp_of_essence hess).1]
    exact UInt64.le_trans hle (hsteady i _ (Nat.le_of_lt hi))

/-- A call that is no `Write` logs a record again, or a newer one. -/
theorem Journal.advances_produced (hlaw : env.Lawful) (hsteady : env.Steady)
    (h : Journal env R t.world t.documents t.logged) (hT : Tracked env t.traced)
    (hcall : ∀ input, call ≠ .write input) {change : Change K}
    (hprod : Produces env t.world (env.clock t.world.tick) call change)
    (hversion : change.record.version ≠ 0) {l : MemoryRecord K}
    (hl : t.logged change.record.workspaceId change.record.id = some l) :
    Advances W l change.record := by
  have bump : ∀ {r d : MemoryRecord K}, t.documents r.workspaceId r.id = some d →
      r.essence = d.essence → ∀ {r' : MemoryRecord K}, r'.updatedAtMs = env.clock t.world.tick →
      r.version < r'.version → t.logged r.workspaceId r.id = some l → isIncomingNewer l r' = true := by
    intro r d hd hess r' htime hlt hl
    obtain rfl := Option.some.inj ((h.filed.current _ _ d hd).symm.trans hl)
    obtain ⟨i, hi, hle⟩ := h.dated _ _ d hl
    refine isIncomingNewer_of_version_lt ?_ ?_
    · rw [htime]
      exact UInt64.le_trans hle (hsteady i _ (Nat.le_of_lt hi))
    · rw [← (stamp_of_essence hess).2.1]
      exact hlt
  cases hprod with
  | new => exact absurd rfl (hcall _)
  | pinned load =>
    obtain ⟨d, hd, hess⟩ := hT.document_loaded hlaw load
    exact Or.inr (Or.inl (bump hd hess rfl (lt_add_one_of_ne_zero hversion) hl))
  | @tombstoned _ _ _ candidate _ held =>
    obtain ⟨d, hd, hess⟩ := hT.document_held held
    have hle : candidate.version ≤ max candidate.version 1 := by
      change candidate.version ≤ if candidate.version ≤ 1 then 1 else candidate.version
      split
      · assumption
      · exact UInt64.le_refl _
    have hlt : candidate.version < max candidate.version 1 + 1 :=
      UInt64.lt_of_le_of_lt hle (lt_add_one_of_ne_zero hversion)
    exact Or.inr (Or.inl (bump hd hess rfl hlt hl))
  | dropped _ held =>
    obtain ⟨d, hd, hess⟩ := hT.document_held held
    obtain rfl := Option.some.inj ((h.filed.current _ _ d hd).symm.trans hl)
    exact Or.inl hess.symm

/-! ### Batches -/

/-- The items of a committed batch can be logged, and their events can be read back. -/
theorem Legible.items (hlaw : env.Lawful) (hsteady : env.Steady) (hL : Legible env W t call fate)
    (hJ : Journal env R t.world t.documents t.logged) (hT : Tracked env t.traced)
    (hok : fate.main.ok = true) {request : Request K}
    (hsome : (prepare env fate t.world call).1 = some request) {items : List (LogItem K)}
    (hd : Drafted env t.world call (prepare env fate t.world call).2 request.plan items) :
    ∀ item ∈ items, Loggable env item ∧ EventRow env item (item.eventKey env)
      ⟨env.json.print (item.eventTree env), item.eventMs env⟩ := by
  intro item hitem
  have hmem : item.change ∈ request.plan.changes := by
    rw [hd.changes]
    exact List.mem_map_of_mem hitem
  have hdecodes := hL.decodes item.change (committed_of_ok hok hsome ▸ hmem)
  have hplain := hd.named hlaw hT.sourced hL.clean.workspaces.plain item hitem
  have hwritable := hd.logs.writable item hitem
  have hstamp := hd.logs.stamped item hitem
  obtain ⟨d, hdecode⟩ := Option.isSome_iff_exists.mp hdecodes
  obtain ⟨-, hcarries⟩ := deserialize_serialize hlaw hwritable hdecode
  refine ⟨⟨hplain.1, ?_, ?_, ?_⟩, ⟨rfl, rfl, hplain, hwritable, hdecodes, ?_⟩⟩
  · have hfield : (ascii "workspace_id", item.record.workspaceId) ∈
        recordFields env item.record := by simp [recordFields]
    exact carries_field hcarries hfield
  · refine UInt64.le_trans (hJ.dated_produced hsteady hT (prepare_produces hsome _ hmem)) ?_
    exact hsteady _ _ hstamp.after_tick
  · exact Nat.lt_of_le_of_lt hstamp.before_seq hL.seq_lt
  · refine hL.parses (item.eventEntry env) ?_
    rw [hsome, Option.elim_some, hd.logs.events]
    exact List.mem_map_of_mem hitem

/-- What a call commits advances what was logged before. -/
theorem Journal.advancing (hlaw : env.Lawful) (hsteady : env.Steady)
    (hL : Legible env W t call fate) (hJ : Journal env R t.world t.documents t.logged)
    (hT : Tracked env t.traced) :
    Advancing (Advances W) t.logged (committed env t.world call fate) := by
  have hprod : ∀ change ∈ committed env t.world call fate,
      Produces env t.world (env.clock t.world.tick) call change := committed_produces
  by_cases hwrite : ∃ input, call = .write input
  · obtain ⟨input, rfl⟩ := hwrite
    refine (hL.advancing input rfl).mono fun change hchange l hadmits => ?_
    have hlive : change.record.tombstone = false := by
      cases hprod change hchange with
      | new => rfl
      | tombstoned compacts => cases compacts
      | dropped compacts => cases compacts
    exact Or.inr (Or.inr ⟨hadmits, hlive⟩)
  · have hcall : ∀ input, call ≠ .write input := fun input heq => hwrite ⟨input, heq⟩
    refine advancing_of_agree (fun r => Or.inl rfl) ?_ ?_
    · intro c hc d hd hws hid
      rw [hT.sourced.produced_agree hcall (hprod c hc) (hprod d hd) hws hid]
    · exact fun c hc l hl => hJ.advances_produced hlaw hsteady hT hcall (hprod c hc)
        (hL.version c hc) hl

/-- A batch keeps the journal, committed or not. -/
theorem Journal.commit (hlaw : env.Lawful) (hsteady : env.Steady) (hR : Keeps R W)
    (hL : Legible env W t call fate) (hJ : Journal env R t.world t.documents t.logged)
    (hT : Tracked env t.traced) {request : Request K}
    (hsome : (prepare env fate t.world call).1 = some request) :
    Journal env R
      ((t.world.atCursor (prepare env fate t.world call).2).commit fate.main request.plan)
      (t.documents.applyAll (committed env t.world call fate))
      (t.logged.applyAll ((committed env t.world call fate).map Change.logged)) := by
  obtain ⟨items, hd⟩ := hT.drafted hlaw call fate hsome
  have hbefore : t.world.cursor.Before (prepare env fate t.world call).2 := hd.before
  by_cases hok : fate.main.ok = true
  · have hadv := hJ.advancing hlaw hsteady hL hT
    have hchanges : committed env t.world call fate = request.plan.changes :=
      committed_of_ok hok hsome
    have hitems := hL.items hlaw hsteady hJ hT hok hsome hd
    have htable : ∀ ns, ((t.world.atCursor (prepare env fate t.world call).2).commit fate.main
        request.plan).store.table ns =
        (t.world.store.table ns).apply (Store.restrict ns request.plan.writes) := by
      intro ns
      refine (congrArg (Store.table · ns) (Store.batchWrite_of_ok t.world.store hok _)).trans ?_
      exact Store.table_apply ..
    constructor
    case covered =>
      rw [htable, htable, hd.logs.events, hd.logs.ckpts]
      exact hJ.covered.applyItems hsteady (fun item hi => (hitems item hi).1) hd.logs.stamped
        hd.logs.ordered hbefore
    case chronicled =>
      rw [htable, hd.logs.events]
      rw [hchanges, hd.changes] at hadv ⊢
      exact hJ.chronicled.applyItems hsteady hR (fun item hi => (hitems item hi).1)
        (fun item hi => (hitems item hi).2) hd.logs.stamped hd.logs.ordered hadv hbefore
    case decodes =>
      intro ws id d hdoc
      rcases Documents.mem_of_applyAll hdoc with hold | hnew
      · exact hJ.decodes ws id d hold
      · exact hL.decodes (.put d) hnew
    case dated =>
      intro ws id l hl
      rcases Documents.mem_of_applyAll hl with hold | hnew
      · exact (hJ.dated ws id l hold).imp fun _ hi => ⟨Nat.lt_of_lt_of_le hi.1 hbefore.tick, hi.2⟩
      · obtain ⟨change, hchange, heq⟩ := List.mem_map.mp hnew
        obtain rfl := Change.put.inj heq
        rw [hchanges] at hchange
        have hle := hJ.dated_produced hsteady hT (prepare_produces hsome change hchange)
        rw [hd.changes] at hchange
        obtain ⟨item, hitem, rfl⟩ := List.mem_map.mp hchange
        have hstamp := hd.logs.stamped item hitem
        exact ⟨t.world.tick, Nat.lt_of_le_of_lt hstamp.after_tick hstamp.before_tick, hle⟩
    case filed =>
      refine hJ.filed.applyAll fun r hr => ?_
      rw [hchanges] at hr
      have hdropped : ∀ change : Change K, Produces env t.world (env.clock t.world.tick) call change →
          change = .drop r → r.tombstone = true := by
        rintro change hprod rfl
        cases hprod
        assumption
      exact hdropped _ (prepare_produces hsome _ hr) rfl
  · have hnone : committed env t.world call fate = [] := by rw [committed, if_neg hok]
    rw [hnone]
    refine hJ.of_tables (fun ns _ => ?_) hbefore
    refine congrArg (Store.table · ns) ?_
    exact Store.batchWrite_of_whole_failed _ hL.whole (by simpa using hok) _

/-- A call keeps the journal. -/
theorem Journal.performed (hlaw : env.Lawful) (hsteady : env.Steady) (hR : Keeps R W)
    (hL : Legible env W t call fate) (hJ : Journal env R t.world t.documents t.logged)
    (hT : Tracked env t.traced) :
    Journal env R (perform env fate t.world call).1
      (t.documents.applyAll (committed env t.world call fate))
      (t.logged.applyAll ((committed env t.world call fate).map Change.logged)) := by
  have hout := perform_outcome env fate t.world call
  have hbefore := (prepare_spec fate (hT.sourced.named hlaw names_plain) call).1
  change t.world.cursor.Before (prepare env fate t.world call).2 at hbefore
  generalize (perform env fate t.world call).1 = w' at hout ⊢
  cases hout with
  | idle none agrees =>
    rw [committed_of_none none]
    refine hJ.of_tables (fun ns _ => by rw [agrees.store]; rfl) ⟨?_, ?_⟩
    · exact hbefore.tick.trans_eq agrees.tick.symm
    · exact hbefore.seq.trans_eq agrees.seq.symm
  | queried isQuery =>
    obtain rfl := isQuery
    rename_i input
    have hq := query_spec env t.world input
    rw [committed_of_none rfl]
    exact hJ.of_tables (fun ns _ => by rw [hq.store]) ⟨hq.tick, Nat.le_of_eq hq.seq.symm⟩
  | failed some _ agrees =>
    refine (hJ.commit hlaw hsteady hR hL hT some).of_tables (fun ns _ => by rw [agrees.store]) ⟨?_, ?_⟩
    · exact Nat.le_of_eq agrees.tick.symm
    · exact Nat.le_of_eq agrees.seq.symm
  | committed some _ settled =>
    refine (hJ.commit hlaw hsteady hR hL hT some).of_tables settled.table ⟨settled.tick, ?_⟩
    exact Nat.le_of_eq settled.seq.symm

theorem Journal.interrupt (hlaw : env.Lawful) (hsteady : env.Steady) (hR : Keeps R W)
    (hL : Legible env W t call fate) (hJ : Journal env R t.world t.documents t.logged)
    (hT : Tracked env t.traced) :
    Journal env R (interrupt env t.world call fate)
      (t.documents.applyAll (committed env t.world call fate))
      (t.logged.applyAll ((committed env t.world call fate).map Change.logged)) := by
  have hbefore := (prepare_spec fate (hT.sourced.named hlaw names_plain) call).1
  change t.world.cursor.Before (prepare env fate t.world call).2 at hbefore
  rcases interrupt_cases env t.world call fate with ⟨hnone, heq⟩ | ⟨request, hsome, heq⟩ <;> rw [heq]
  · rw [committed_of_none hnone]
    exact hJ.of_tables (fun _ _ => rfl) hbefore
  · exact hJ.commit hlaw hsteady hR hL hT hsome

/-- The invariant of chronicled runs. -/
structure Recorded (env : Platform K) (R : MemoryRecord K → MemoryRecord K → Prop)
    (t : Chronicle K) : Prop where
  tracked : Tracked env t.traced
  journal : Journal env R t.world t.documents t.logged

/-- Legible calls, and restarts at a later time. -/
def Step.Legible (env : Platform K) (W : MemoryRecord K → MemoryRecord K → Prop) (t : Chronicle K) :
    Step K → Prop
  | .call c fate => PoorguyMem.Legible env W t c fate
  | .restart none _ _ => Later env t.world
  | .restart (some (c, fate)) _ _ =>
    PoorguyMem.Legible env W t c fate ∧ Later env (PoorguyMem.interrupt env t.world c fate)

theorem Journal.recorded_restart (hlaw : env.Lawful) (hsteady : env.Steady)
    (hJ : Journal env R w documents logged) (hS : Sourced env Plain w)
    (hrep : Represents env (w.store.table docNs) documents) (hlater : Later env w) (nodeId : Bytes)
    (options : MemoryEngineOptions K) :
    Recorded env R ⟨⟨PoorguyMem.restart env w nodeId options, documents⟩, logged⟩ where
  tracked := tracked_restart hlaw hS hrep (hJ.reloads hlaw hS hrep) nodeId options
  journal := hJ.restart hsteady (restart_spec env w nodeId options) hlater

theorem Recorded.step (hlaw : env.Lawful) (hsteady : env.Steady) (hR : Keeps R W) (t : Chronicle K)
    (step : Step K) (hstep : step.Legible env W t) (h : Recorded env R t) :
    Recorded env R (t.next env step) := by
  match step with
  | .call c fate =>
    exact ⟨h.tracked.call hlaw hstep.clean.workspaces hstep.whole,
      h.journal.performed hlaw hsteady hR hstep h.tracked⟩
  | .restart none nodeId options =>
    exact h.journal.recorded_restart hlaw hsteady h.tracked.sourced h.tracked.represents hstep
      nodeId options
  | .restart (some (c, fate)) nodeId options =>
    obtain ⟨hS, hrep⟩ := h.tracked.interrupt hlaw hstep.1.clean.workspaces hstep.1.whole
    exact (h.journal.interrupt hlaw hsteady hR hstep.1 h.tracked).recorded_restart hlaw hsteady hS
      hrep hstep.2 nodeId options

theorem recorded_run (hlaw : env.Lawful) (hsteady : env.Steady) (hR : Keeps R W) (nodeId : Bytes)
    (options : MemoryEngineOptions K) {steps : List (Step K)}
    (hsteps : Runs.Along (Chronicle.next env) (fun t step => step.Legible env W t)
      (Chronicle.initial nodeId options) steps) :
    Recorded env R (Runs.exec (Chronicle.next env) (Chronicle.initial nodeId options) steps) := by
  refine Runs.invariant (fun t step hstep h => h.step hlaw hsteady hR t step hstep) hsteps ?_
  refine ⟨tracked_initial nodeId options, ?_⟩
  have absent : ∀ (ns : Bytes) (k : Bytes) v,
      ((World.initial nodeId options).store.table ns)[k]? = some v → False := by
    intro ns k v hv
    exact absurd hv (by simp [World.initial, Store.empty])
  constructor
  case covered =>
    exact ⟨fun k v hv => (absent _ k v hv).elim, fun k v hv => (absent _ k v hv).elim⟩
  case chronicled =>
    refine ⟨fun k v hv => (absent _ k v hv).elim, fun ws id l hl => ?_⟩
    cases hl
  case decodes =>
    intro ws id d hd
    cases hd
  case dated =>
    intro ws id l hl
    cases hl
  case filed =>
    refine ⟨fun ws id d hd => ?_, fun ws id l hl => ?_⟩
    · cases hd
    · cases hl

end Journal

end PoorguyMem
