import PoorguyMem.EventLog

/-!
# What the events say

A replay of all events ends, under every name, with the newest record that was
logged. Where every `Write` logs a record that is newer than the one it replaces,
that is the one logged last, and the events alone give back the live documents.
Two records of one batch with the same id have the same stamp, and the replay then
keeps the first of them where the store has the second.
-/

namespace PoorguyMem

open ByteString LastWriter

variable {K : Type}

/-! ### Reading events back -/

theorem isCovered_mono {checkpoints : StringMap Bytes} {workspaceId k k' : Bytes}
    (hle : le k k' = true) (h : isCovered checkpoints workspaceId k' = true) :
    isCovered checkpoints workspaceId k = true := by
  rw [isCovered] at h ⊢
  split at h
  · exact le_trans hle h
  · cases h

section Reading
variable [Field K] [LinearOrder K] {env : Platform K} {store : Store} {checkpoints : StringMap Bytes}
  {R : MemoryRecord K → MemoryRecord K → Prop} {c : Cursor} {logged : Documents K}

omit [LinearOrder K] in
/-- An event that is not covered gives its record back. -/
theorem EventRow.eventRecord (hlaw : env.Lawful) {item : LogItem K} {k : Bytes} {v : StoredValue}
    (h : EventRow env item k v) (checkpoints : StringMap Bytes) {e : KeyValueEntry}
    (hkey : e.key = k) (hvalue : e.value = v.value) :
    ∃ x, Reread item.record x ∧ PoorguyMem.eventRecord env checkpoints e =
      if isCovered checkpoints item.record.workspaceId k then none else some x := by
  obtain ⟨json, hjson⟩ := Option.isSome_iff_exists.mp h.parses
  obtain ⟨x, hx⟩ := Option.isSome_iff_exists.mp h.decodes
  have hreread := (deserialize_serialize hlaw h.writable hx).1
  obtain ⟨hws, hid⟩ := hreread.names
  refine ⟨x, hreread, ?_⟩
  rw [PoorguyMem.eventRecord, hvalue, hjson, Option.bind_some]
  rw [h.value] at hjson
  obtain ⟨hjws, hjpayload⟩ := parse_eventTree hlaw item hjson
  dsimp only
  rw [hjws, hjpayload, if_neg h.named.1, hkey, hx, Option.bind_some]
  have hwx : x.workspaceId ≠ [] := hws ▸ h.named.1
  have hix : x.id ≠ [] := hid ▸ h.named.2.1
  simp only [if_neg hwx, if_neg hix, h.named.1, false_or]

omit [LinearOrder K] in
/-- A record a replay offers is the record of an event that is not covered. -/
theorem Chronicled.of_mem_offersAt (hlaw : env.Lawful)
    (h : Chronicled env R c (store.table eventsNs) logged) {key : Bytes} {b : MemoryRecord K}
    (hb : b ∈ offersAt env checkpoints key (store.scan eventsNs [] [] 0).entries) :
    ∃ (r l : MemoryRecord K) (k : Bytes), b.essence = r.essence ∧ Plain r.workspaceId r.id ∧
      recordMapKey r.workspaceId r.id = key ∧ logged r.workspaceId r.id = some l ∧ R r l ∧
      isCovered checkpoints r.workspaceId k = false ∧
      LastRow env (store.table eventsNs) l k := by
  obtain ⟨e, he, x, hx, hkey, rfl⟩ := mem_offersAt.mp hb
  obtain ⟨-, hv⟩ := Store.mem_scan_all.mp he
  obtain ⟨item, l, hrow, -, hl, hrel, hlast⟩ := h.rows _ _ hv
  obtain ⟨y, hreread, hy⟩ := hrow.eventRecord hlaw checkpoints (e := e) rfl rfl
  rw [hx] at hy
  split at hy
  · cases hy
  · rename_i hcovered
    obtain rfl := Option.some.inj hy
    obtain ⟨hws, hid⟩ := hreread.names
    refine ⟨item.record, l, e.key, (essence_fillDefaults x).trans hreread.essence, hrow.named, ?_, hl, hrel,
      by simpa using hcovered, hlast⟩
    rw [← hws, ← hid]
    exact hkey

omit [LinearOrder K] in
/-- The record logged last is offered where its row is not covered. -/
theorem LastRow.exists_offer (hlaw : env.Lawful) {l : MemoryRecord K} {k : Bytes}
    (h : LastRow env (store.table eventsNs) l k)
    (hcovered : isCovered checkpoints l.workspaceId k = false) :
    ∃ b ∈ offersAt env checkpoints (recordMapKey l.workspaceId l.id)
      (store.scan eventsNs [] [] 0).entries, b.essence = l.essence := by
  obtain ⟨k', v, item, hv, hrow, rfl, hle⟩ := h
  let e : KeyValueEntry := ⟨eventsNs, k', v.value, v.ts⟩
  obtain ⟨x, hreread, hx⟩ := hrow.eventRecord hlaw checkpoints (e := e) rfl rfl
  rw [if_neg fun h => by rw [isCovered_mono hle h] at hcovered; cases hcovered] at hx
  obtain ⟨hws, hid⟩ := hreread.names
  refine ⟨fillDefaults x, mem_offersAt.mpr ⟨e, Store.mem_scan_all.mpr ⟨rfl, hv⟩, x, hx, ?_, rfl⟩, ?_⟩
  · rw [hws, hid]
  · exact (essence_fillDefaults x).trans hreread.essence

end Reading

section Documents
variable [Field K] [LinearOrder K] {env : Platform K}
  {R : MemoryRecord K → MemoryRecord K → Prop} {t : Chronicle K}

omit [LinearOrder K] in
/-- The row of a document decodes to it, reread. -/
theorem Recorded.recordAt (hlaw : env.Lawful) (h : Recorded env R t) {workspaceId id : Bytes}
    (hname : Plain workspaceId id) :
    ((t.world.store.table docNs).recordAt env workspaceId id).map MemoryRecord.essence =
      (t.documents workspaceId id).map MemoryRecord.essence := by
  have hrow := h.tracked.represents.row workspaceId id hname
  change ((t.world.store.table docNs)[buildDocKey workspaceId id]?).map StoredValue.value =
    (t.documents workspaceId id).map (recordText env) at hrow
  rw [Table.recordAt]
  rcases hdoc : t.documents workspaceId id with _ | d
  · rw [hdoc, Option.map_none, Option.map_eq_none_iff] at hrow
    rw [hrow]
    rfl
  · rw [hdoc, Option.map_some] at hrow
    obtain ⟨v, hv, htext⟩ := Option.map_eq_some_iff.mp hrow
    obtain ⟨-, -, -, hw⟩ := h.tracked.represents.named _ _ d hdoc
    obtain ⟨d', hd'⟩ := Option.isSome_iff_exists.mp (h.journal.decodes _ _ d hdoc)
    rw [hv, Option.bind_some, htext, hd', Option.map_some, Option.map_some,
      (deserialize_serialize hlaw hw hd').1.essence]

/-- What a replay of all events into an empty engine makes resident. -/
def replayed (env : Platform K) (store : Store) : Resident K :=
  (store.scan eventsNs [] [] 0).entries.foldl (replayEvent env ∅) Resident.empty

/-- The live record of a name. -/
def isLiveAs (workspaceId id : Bytes) (r : MemoryRecord K) : Bool :=
  r.workspaceId = workspaceId && r.id = id && !r.tombstone

/-- The fields of a document the events have to give back. -/
def MemoryRecord.documented (r : MemoryRecord K) : Bytes × List Bytes × Bytes × Bool × UInt64 :=
  (r.content, r.tags, r.dedupKey, r.pinned, r.ttlS)

/-- Under every name the replay has a live record exactly where the documents have a
live row, with the same fields. -/
def EventsReconstruct (env : Platform K) (store : Store) : Prop :=
  ∀ workspaceId id,
    (((replayed env store).records[recordMapKey workspaceId id]?).filter
      (isLiveAs workspaceId id)).map MemoryRecord.documented =
    (((store.table docNs).recordAt env workspaceId id).filter
      (isLiveAs workspaceId id)).map MemoryRecord.documented

/-- An event of a name carries the record logged last, or an older one. -/
def Overtaken (x l : MemoryRecord K) : Prop := x.essence = l.essence ∨ isIncomingNewer x l = true

/-- The record is newer than the one logged before it. -/
def Overtakes (l r : MemoryRecord K) : Prop := isIncomingNewer l r = true

instance : DecidableRel (Overtakes : MemoryRecord K → MemoryRecord K → Prop) :=
  fun l r => inferInstanceAs (Decidable (isIncomingNewer l r = true))

omit [LinearOrder K] in
theorem keeps_overtaken : Keeps (Overtaken : MemoryRecord K → MemoryRecord K → Prop) Overtakes := by
  have newer : ∀ x l r : MemoryRecord K, Overtaken x l → isIncomingNewer l r = true →
      Overtaken x r := by
    rintro x l r (hsame | hold) hnewer
    · exact Or.inr (by rw [isIncomingNewer_congr hsame rfl, hnewer])
    · exact Or.inr (ranked_isIncomingNewer.newer_trans hold hnewer)
  constructor
  case same => exact fun x => Or.inl rfl
  case congr =>
    rintro x l r (hsame | hold) heq
    · exact Or.inl (hsame.trans heq)
    · exact Or.inr (by rw [← isIncomingNewer_congr rfl heq, hold])
  case newer => exact newer
  case written => exact fun x l r hx hnewer _ => newer x l r hx hnewer

omit [LinearOrder K] in
theorem filter_map_congr_essence {o o' : Option (MemoryRecord K)} (workspaceId id : Bytes)
    (h : o.map MemoryRecord.essence = o'.map MemoryRecord.essence) :
    (o.filter (isLiveAs workspaceId id)).map MemoryRecord.documented =
      (o'.filter (isLiveAs workspaceId id)).map MemoryRecord.documented := by
  have hlive : ∀ r : MemoryRecord K, isLiveAs workspaceId id r = isLiveAs workspaceId id r.essence :=
    fun _ => rfl
  have hshown : ∀ r : MemoryRecord K, r.documented = r.essence.documented := fun _ => rfl
  have hboth : ∀ o : Option (MemoryRecord K), (o.filter (isLiveAs workspaceId id)).map
      MemoryRecord.documented = ((o.map MemoryRecord.essence).filter
        (isLiveAs workspaceId id)).map MemoryRecord.documented := by
    intro o
    cases o with
    | none => rfl
    | some r =>
      rw [Option.map_some, Option.filter_some, Option.filter_some, ← hlive]
      split
      · rw [Option.map_some, Option.map_some, hshown]
      · rfl
  rw [hboth, h, ← hboth]

/-- The replay ends with the record logged last under a name. -/
theorem Recorded.lookup_replayed (hlaw : env.Lawful) (h : Recorded env Overtaken t)
    {workspaceId id : Bytes} (hname : Plain workspaceId id) :
    ((replayed env t.world.store).records[recordMapKey workspaceId id]?).map MemoryRecord.essence =
      (t.logged workspaceId id).map MemoryRecord.essence := by
  have hlookup := @lookup_replay _ _ _ env ∅
    (t.world.store.scan eventsNs [] [] 0).entries Resident.empty (recordMapKey workspaceId id)
  have hempty : (Resident.empty : Resident K).records[recordMapKey workspaceId id]? = none := by
    simp [Resident.empty]
  rw [hempty] at hlookup
  rw [replayed, hlookup]
  have hchron := h.journal.chronicled
  -- what is offered at the key is logged under the name
  have hoffers : ∀ b ∈ offersAt env ∅ (recordMapKey workspaceId id)
      (t.world.store.scan eventsNs [] [] 0).entries, ∃ l, t.logged workspaceId id = some l ∧
        Overtaken b l := by
    intro b hb
    obtain ⟨r, l, k, hess, hplain, hkey, hl, hrel, -⟩ := hchron.of_mem_offersAt hlaw hb
    obtain ⟨rfl, rfl⟩ := recordMapKey_inj hplain.2.2.1 hname.2.2.1 hkey
    refine ⟨l, hl, hrel.imp hess.trans fun hold => ?_⟩
    rw [isIncomingNewer_congr hess rfl, hold]
  rcases hl : t.logged workspaceId id with _ | l
  · rcases hheld : offerAll isIncomingNewer none (offersAt env ∅ (recordMapKey workspaceId id)
      (t.world.store.scan eventsNs [] [] 0).entries) with _ | a
    · rfl
    · rcases mem_of_offerAll hheld with hnone | hmem
      · cases hnone
      · obtain ⟨l, hl', -⟩ := hoffers a hmem
        cases hl.symm.trans hl'
  · obtain ⟨rfl, rfl, k, hlast⟩ := hchron.last _ _ l hl
    have huncovered : isCovered ∅ l.workspaceId k = false := by simp [isCovered]
    obtain ⟨b, hb, hbl⟩ := hlast.exists_offer hlaw huncovered
    obtain ⟨a, ha⟩ := Option.isSome_iff_exists.mp
      (@isSome_offerAll _ isIncomingNewer _ none (Or.inr (List.ne_nil_of_mem hb)))
    have hbest := (not_newer_offerAll ranked_isIncomingNewer ha).2 b hb
    rcases mem_of_offerAll ha with hnone | hmem
    · cases hnone
    · obtain ⟨l', hl', hover⟩ := hoffers a hmem
      obtain rfl := Option.some.inj (hl.symm.trans hl')
      rw [ha, Option.map_some, Option.map_some]
      rcases hover with hsame | hold
      · rw [hsame]
      · rw [isIncomingNewer_congr rfl hbl, hold] at hbest
        cases hbest

omit [LinearOrder K] in
/-- A live record under a name of the documents has a name of the run. -/
theorem Recorded.plain_recordAt (hlaw : env.Lawful) (h : Recorded env R t) {workspaceId id : Bytes}
    {d : MemoryRecord K} (hd : ((t.world.store.table docNs).recordAt env workspaceId id).filter
      (isLiveAs workspaceId id) = some d) : Plain workspaceId id := by
  obtain ⟨hd, hlive⟩ := Option.filter_eq_some_iff.mp hd
  obtain ⟨v, hv, hdecode⟩ := Option.bind_eq_some_iff.mp hd
  obtain ⟨r, -, hvalue, hw, hname⟩ := h.tracked.sourced.docs _ v hv
  obtain ⟨hws, hid⟩ := (deserialize_serialize hlaw hw (hvalue ▸ hdecode)).1.names
  simp only [isLiveAs, Bool.and_eq_true, decide_eq_true_eq] at hlive
  rw [← hlive.1.1, ← hlive.1.2, hws, hid]
  exact hname

theorem Recorded.plain_replayed (hlaw : env.Lawful) (h : Recorded env R t) {workspaceId id : Bytes}
    {r : MemoryRecord K} (hr : ((replayed env t.world.store).records[recordMapKey workspaceId id]?).filter
      (isLiveAs workspaceId id) = some r) : Plain workspaceId id := by
  obtain ⟨hr, hlive⟩ := Option.filter_eq_some_iff.mp hr
  rw [replayed, lookup_replay] at hr
  rcases mem_of_offerAll hr with hempty | hmem
  · exact absurd hempty (by simp [Resident.empty])
  · obtain ⟨x, -, -, hess, hname, -⟩ := h.journal.chronicled.of_mem_offersAt hlaw hmem
    obtain ⟨hws, hid, -⟩ := fields_of_essence hess
    simp only [isLiveAs, Bool.and_eq_true, decide_eq_true_eq] at hlive
    rw [← hlive.1.1, ← hlive.1.2, hws, hid]
    exact hname

/-- In every run whose writes log records newer than those logged before them, the
events alone reconstruct the live documents. -/
theorem events_reconstruct_documents (hlaw : env.Lawful) (hsteady : env.Steady) (nodeId : Bytes)
    (options : MemoryEngineOptions K) (steps : List (Step K))
    (hsteps : Runs.Along (Chronicle.next env) (fun t step => step.Legible env Overtakes t)
      (Chronicle.initial nodeId options) steps) :
    EventsReconstruct env (Runs.exec (next env) (World.initial nodeId options) steps).store := by
  have hrun := recorded_run hlaw hsteady keeps_overtaken nodeId options hsteps
  have hworld := Chronicle.exec_world env (Chronicle.initial nodeId options) steps
  change _ = Runs.exec (next env) (World.initial nodeId options) steps at hworld
  rw [← hworld]
  generalize Runs.exec (Chronicle.next env) (Chronicle.initial nodeId options) steps = t at hrun
  intro workspaceId id
  by_cases hname : Plain workspaceId id
  · rw [filter_map_congr_essence workspaceId id (hrun.lookup_replayed hlaw hname),
      filter_map_congr_essence workspaceId id (hrun.recordAt hlaw hname)]
    rcases hdoc : t.documents workspaceId id with _ | d
    · rcases hl : t.logged workspaceId id with _ | l
      · rfl
      · have hdead := hrun.journal.filed.buried _ _ l hl hdoc
        rw [Option.filter_some, isLiveAs, hdead]
        simp
    · rw [hrun.journal.filed.current _ _ d hdoc]
  · have hnone : ∀ {o : Option (MemoryRecord K)}, (∀ r, o = some r → False) → o = none := by
      intro o h
      cases o with
      | none => rfl
      | some r => exact (h r rfl).elim
    rw [hnone fun r hr => hname (hrun.plain_replayed hlaw hr),
      hnone fun d hd => hname (hrun.plain_recordAt hlaw hd)]

end Documents

section Examples
open Reference

/-- A record is written twice and pinned, in milliseconds of their own. -/
def revisions : List (Step ℚ) :=
  [.call (put (ascii "w") (ascii "a") (ascii "x")) applied,
    .call (put (ascii "w") (ascii "a") (ascii "y")) applied,
    .call (.pin (ascii "w") (ascii "a") true) applied,
    .restart none (ascii "node") options]

theorem Legible.of_decided {W : MemoryRecord ℚ → MemoryRecord ℚ → Prop} {env : Platform ℚ}
    {t : Chronicle ℚ} {call : Call ℚ} (clean : call.Mentions Clean)
    (decided : (∀ change ∈ committed env t.world call applied,
        (deserializeRecord env (recordText env change.record)).isSome = true ∧
          change.record.version ≠ 0) ∧
      (∀ e ∈ (prepare env applied t.world call).1.elim []
        fun request => Store.restrict eventsNs request.plan.writes,
        (env.json.parse e.entry.value).isSome = true) ∧
      (prepare env applied t.world call).2.localSeq < 2 ^ 64 ∧
      Advancing W t.logged (committed env t.world call applied)) : Legible env W t call applied :=
  have ⟨records, parses, seq_lt, advancing⟩ := decided
  ⟨clean, trivial, fun change h => (records change h).1, parses, seq_lt,
    fun change h => (records change h).2, fun _ _ => advancing⟩

theorem legible_revisions : Runs.Along (Chronicle.next (platform ticking))
    (fun t step => step.Legible (platform ticking) Overtakes t)
    (Chronicle.initial (ascii "node") options) revisions := by
  have hclean : Clean (ascii "w") := ⟨by decide, by decide⟩
  refine ⟨.of_decided hclean ?_, .of_decided hclean ?_, .of_decided hclean ?_, ?restart, trivial⟩
  case restart =>
    change Later (platform ticking) _
    rw [Later]
    decide +kernel
  all_goals decide +kernel

theorem events_reconstruct_revisions : EventsReconstruct (platform ticking)
    (Runs.exec (next (platform ticking)) initial revisions).store :=
  events_reconstruct_documents (lawful_platform ticking) steady_ticking (ascii "node") options
    revisions legible_revisions

/-- One batch with two records of one id. -/
def repeated : World ℚ := Runs.exec (next (platform ticking)) initial
  [.call (Reference.write (ascii "w") [recordInput (ascii "a") (ascii "x") [],
    recordInput (ascii "a") (ascii "y") []]) applied]

theorem not_eventsReconstruct_repeated : ¬ EventsReconstruct (platform ticking) repeated.store := by
  intro h
  have hdiffer : (((replayed (platform ticking) repeated.store).records[recordMapKey (ascii "w")
        (ascii "a")]?).filter (isLiveAs (ascii "w") (ascii "a"))).map MemoryRecord.documented ≠
      (((repeated.store.table docNs).recordAt (platform ticking) (ascii "w") (ascii "a")).filter
        (isLiveAs (ascii "w") (ascii "a"))).map MemoryRecord.documented := by
    decide +kernel
  exact hdiffer (h (ascii "w") (ascii "a"))

end Examples

end PoorguyMem
