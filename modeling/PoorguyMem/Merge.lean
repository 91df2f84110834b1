import PoorguyMem.Stamps
import PoorguyMem.Accounting

/-!
# Replay as a merge

A replayed event is an offer to the record of its name, and it takes the charge, the
document and the vector of the record along. What they are in the end depends on
which events there are, not on their order or their number: the newest record wins,
and what was resident wins against its equals. The dedup index is not part of this,
since every applied record overwrites the entry of its key.
-/

namespace PoorguyMem

open ByteString LastWriter

variable {K : Type}

/-! ### Ties -/

/-- Records of the same stamp are the same. -/
def StampsDecide (records : List (MemoryRecord K)) : Prop :=
  ∀ a ∈ records, ∀ b ∈ records, a.workspaceId = b.workspaceId → a.id = b.id →
    a.updatedAtMs = b.updatedAtMs → a.version = b.version → a.nodeId = b.nodeId → a = b

/-- Records neither of which is newer have one stamp. -/
theorem stamp_eq_of_tie {a b : MemoryRecord K} (hab : isIncomingNewer a b = false)
    (hba : isIncomingNewer b a = false) :
    a.updatedAtMs = b.updatedAtMs ∧ a.version = b.version ∧ a.nodeId = b.nodeId := by
  rw [isIncomingNewer] at hab hba
  by_cases htime : a.updatedAtMs = b.updatedAtMs
  · rw [if_neg (by simp [htime])] at hab hba
    by_cases hversion : a.version = b.version
    · rw [if_neg (by simp [hversion]), lt_eq_false] at hab hba
      exact ⟨htime, hversion, ByteString.le_antisymm hba hab⟩
    · rw [if_pos (Ne.symm hversion), decide_eq_false_iff_not, UInt64.not_lt] at hab
      rw [if_pos hversion, decide_eq_false_iff_not, UInt64.not_lt] at hba
      exact absurd (UInt64.le_antisymm hba hab) hversion
  · rw [if_pos (Ne.symm htime), decide_eq_false_iff_not, UInt64.not_lt] at hab
    rw [if_pos htime, decide_eq_false_iff_not, UInt64.not_lt] at hba
    exact absurd (UInt64.le_antisymm hba hab) htime

/-! ### What is kept under a name -/

/-- A resident record with its charge and its entries in the index. -/
structure Kept (K : Type) where
  record : MemoryRecord K
  charge : Option Nat
  doc : Option (IndexedDoc K)
  vector : Option (VectorEntry K)

def Resident.keptAt (s : Resident K) (workspaceId id : Bytes) : Option (Kept K) :=
  s.records[recordMapKey workspaceId id]?.map fun r =>
    ⟨r, s.residentChargeBytes[recordMapKey workspaceId id]?, s.retriever.docAt workspaceId id,
      s.retriever.vectorAt workspaceId id⟩

def newerKept (a b : Kept K) : Bool := isIncomingNewer a.record b.record

theorem ranked_newerKept : Ranked (newerKept : Kept K → Kept K → Bool) where
  asymm a b := ranked_isIncomingNewer.asymm a.record b.record
  trans a b c := ranked_isIncomingNewer.trans a.record b.record c.record

section Replay
variable [Field K] [LinearOrder K] {env : Platform K} {checkpoints : StringMap Bytes}

/-- What an update keeps under the name of its record. -/
def keptOf (env : Platform K) (r : MemoryRecord K) : Kept K :=
  ⟨r, some (estimateResidentCharge r),
    if r.tombstone then none else some (HybridRetriever.indexedDoc env r),
    if r.tombstone then none else some (HybridRetriever.vectorEntry env r)⟩

theorem charges_upsert (s : Resident K) (r : MemoryRecord K) :
    (s.upsertRecordInMemory env r).residentChargeBytes =
      s.residentChargeBytes.insert (recordMapKey r.workspaceId r.id) (estimateResidentCharge r) :=
  if_neg (Nat.ne_of_gt (estimateResidentCharge_pos r))

theorem keptAt_upsert (env : Platform K) (s : Resident K) {r : MemoryRecord K}
    (hr : 58 ∉ r.workspaceId) {w : Bytes} (hw : 58 ∉ w) (id : Bytes) : (s.upsertRecordInMemory env r).keptAt w id =
      if r.workspaceId = w ∧ r.id = id then some (keptOf env r) else s.keptAt w id := by
  rw [Resident.keptAt, Resident.records_upsert, charges_upsert, Resident.retriever_upsert,
    HybridRetriever.docAt_index, HybridRetriever.vectorAt_index, lookup_insert, lookup_insert]
  by_cases hname : r.workspaceId = w ∧ r.id = id
  · obtain ⟨rfl, rfl⟩ := hname
    simp [keptOf]
  · have hkey : recordMapKey r.workspaceId r.id ≠ recordMapKey w id :=
      fun h => hname (recordMapKey_inj hr hw h)
    simp only [if_neg hkey, if_neg hname]
    rfl

omit [LinearOrder K] in
/-- The records that the events offer, in order. -/
def offered (env : Platform K) (checkpoints : StringMap Bytes) (events : List KeyValueEntry) :
    List (MemoryRecord K) :=
  events.filterMap (eventRecord env checkpoints)

/-- What the events offer to a name. -/
def offersTo (env : Platform K) (checkpoints : StringMap Bytes) (w id : Bytes)
    (events : List KeyValueEntry) : List (Kept K) :=
  ((offered env checkpoints events).filter fun r => r.workspaceId = w ∧ r.id = id).map fun r =>
    keptOf env (fillDefaults r)

/-- A replayed event is skipped, or its record is put. -/
theorem replayEvent_cases (env : Platform K) (checkpoints : StringMap Bytes) (s : Resident K)
    (event : KeyValueEntry) :
    replayEvent env checkpoints s event = s ∨ ∃ x, eventRecord env checkpoints event = some x ∧
      replayEvent env checkpoints s event = s.upsertRecordInMemory env (fillDefaults x) := by
  rw [replayEvent]
  cases hx : eventRecord env checkpoints event with
  | none => exact Or.inl rfl
  | some x =>
    dsimp only
    split_ifs
    · exact Or.inr ⟨x, rfl, rfl⟩
    · exact Or.inl rfl

theorem keptAt_replayEvent (s : Resident K) {event : KeyValueEntry} {x : MemoryRecord K}
    (hx : eventRecord env checkpoints event = some x) (hcolon : 58 ∉ x.workspaceId)
    {w id : Bytes} (hw : 58 ∉ w) : (replayEvent env checkpoints s event).keptAt w id =
      if x.workspaceId = w ∧ x.id = id then
        offer newerKept (s.keptAt w id) (keptOf env (fillDefaults x))
      else s.keptAt w id := by
  obtain ⟨hws, hid⟩ := names_fillDefaults x
  have hnamed : 58 ∉ (fillDefaults x).workspaceId := hws ▸ hcolon
  have hput := fun s : Resident K => keptAt_upsert env s hnamed hw id
  simp only [hws, hid] at hput
  by_cases hname : x.workspaceId = w ∧ x.id = id
  · rw [if_pos hname]
    obtain ⟨rfl, rfl⟩ := hname
    simp only [replayEvent, hx]
    rcases hheld : s.records[recordMapKey x.workspaceId x.id]? with _ | current
    · rw [if_pos rfl, hput, if_pos ⟨rfl, rfl⟩, Resident.keptAt, hheld]
      rfl
    · have hsame : isIncomingNewer current (fillDefaults x) = isIncomingNewer current x :=
        isIncomingNewer_congr rfl (essence_fillDefaults x)
      have hkept : s.keptAt x.workspaceId x.id = some ⟨current,
          s.residentChargeBytes[recordMapKey x.workspaceId x.id]?,
          s.retriever.docAt x.workspaceId x.id, s.retriever.vectorAt x.workspaceId x.id⟩ := by
        rw [Resident.keptAt, hheld]
        rfl
      have hnewer : ∀ charge doc vector, newerKept ⟨current, charge, doc, vector⟩
          (keptOf env (fillDefaults x)) = isIncomingNewer current x := fun _ _ _ => hsame
      rw [hkept, offer, hnewer]
      dsimp only
      split
      · rw [hput, if_pos ⟨rfl, rfl⟩]
      · exact hkept
  · rw [if_neg hname]
    rcases replayEvent_cases env checkpoints s event with
      hskip | ⟨y, hy, hputs⟩
    · rw [hskip]
    · obtain rfl := Option.some.inj (hx.symm.trans hy)
      rw [hputs, hput, if_neg hname]

/-- What a replay keeps under a name. -/
theorem keptAt_replay (events : List KeyValueEntry) (s : Resident K)
    (hcolon : ∀ r ∈ offered env checkpoints events, 58 ∉ r.workspaceId) {w id : Bytes}
    (hw : 58 ∉ w) : (events.foldl (replayEvent env checkpoints) s).keptAt w id =
      offerAll newerKept (s.keptAt w id) (offersTo env checkpoints w id events) := by
  induction events generalizing s with
  | nil => rfl
  | cons event rest ih =>
    rw [List.foldl_cons]
    rcases hx : eventRecord env checkpoints event with _ | x
    · have hskip : replayEvent env checkpoints s event = s := by rw [replayEvent, hx]
      simp only [offersTo, offered, List.filterMap_cons_none hx] at hcolon ⊢
      rw [hskip]
      exact ih s hcolon
    · simp only [offersTo, offered, List.filterMap_cons_some hx] at hcolon ⊢
      rw [ih _ fun r hr => hcolon r (List.mem_cons_of_mem _ hr),
        keptAt_replayEvent s hx (hcolon x List.mem_cons_self) hw]
      by_cases hname : x.workspaceId = w ∧ x.id = id
      · simp only [if_pos hname, List.filter_cons, decide_eq_true hname, if_true, List.map_cons,
          offerAll, List.foldl_cons]
        rfl
      · simp only [if_neg hname, List.filter_cons, decide_eq_false hname, Bool.false_eq_true,
          if_false]
        rfl

/-- A replay changes nothing at a key that no event is about. -/
theorem untouched_replay (events : List KeyValueEntry) (s : Resident K) {k : Bytes}
    (h : ∀ r ∈ offered env checkpoints events, recordMapKey r.workspaceId r.id ≠ k) :
    (events.foldl (replayEvent env checkpoints) s).records[k]? = s.records[k]? ∧
      (events.foldl (replayEvent env checkpoints) s).residentChargeBytes[k]? =
        s.residentChargeBytes[k]? := by
  induction events generalizing s with
  | nil => exact ⟨rfl, rfl⟩
  | cons event rest ih =>
    have hrest : ∀ r ∈ offered env checkpoints rest, recordMapKey r.workspaceId r.id ≠ k := by
      intro r hr
      obtain ⟨e, he, hx⟩ := List.mem_filterMap.mp hr
      exact h r (List.mem_filterMap.mpr ⟨e, List.mem_cons_of_mem _ he, hx⟩)
    rw [List.foldl_cons, (ih _ hrest).1, (ih _ hrest).2]
    rcases replayEvent_cases env checkpoints s event with
      hskip | ⟨x, hx, hputs⟩
    · rw [hskip]
      exact ⟨rfl, rfl⟩
    · have hne : recordMapKey (fillDefaults x).workspaceId (fillDefaults x).id ≠ k := by
        rw [(names_fillDefaults x).1, (names_fillDefaults x).2]
        exact h x (List.mem_filterMap.mpr ⟨event, List.mem_cons_self, hx⟩)
      rw [hputs, Resident.records_upsert, charges_upsert, lookup_insert_ne _ hne,
        lookup_insert_ne _ hne]
      exact ⟨rfl, rfl⟩

/-- A replay changes no entry of the index under a name that no event is about. -/
theorem unindexed_replay (events : List KeyValueEntry) (s : Resident K) {w id : Bytes}
    (h : ∀ r ∈ offered env checkpoints events, ¬ (r.workspaceId = w ∧ r.id = id)) :
    (events.foldl (replayEvent env checkpoints) s).retriever.docAt w id =
        s.retriever.docAt w id ∧
      (events.foldl (replayEvent env checkpoints) s).retriever.vectorAt w id =
        s.retriever.vectorAt w id := by
  induction events generalizing s with
  | nil => exact ⟨rfl, rfl⟩
  | cons event rest ih =>
    have hrest : ∀ r ∈ offered env checkpoints rest, ¬ (r.workspaceId = w ∧ r.id = id) := by
      intro r hr
      obtain ⟨e, he, hx⟩ := List.mem_filterMap.mp hr
      exact h r (List.mem_filterMap.mpr ⟨e, List.mem_cons_of_mem _ he, hx⟩)
    rw [List.foldl_cons, (ih _ hrest).1, (ih _ hrest).2]
    rcases replayEvent_cases env checkpoints s event with
      hskip | ⟨x, hx, hputs⟩
    · rw [hskip]
      exact ⟨rfl, rfl⟩
    · have hne : ¬ ((fillDefaults x).workspaceId = w ∧ (fillDefaults x).id = id) := by
        rw [(names_fillDefaults x).1, (names_fillDefaults x).2]
        exact h x (List.mem_filterMap.mpr ⟨event, List.mem_cons_self, hx⟩)
      rw [hputs, Resident.retriever_upsert, HybridRetriever.docAt_index,
        HybridRetriever.vectorAt_index, if_neg hne, if_neg hne]
      exact ⟨rfl, rfl⟩

/-! ### The outcome -/

theorem mem_offersTo {w id : Bytes} {events : List KeyValueEntry} {c : Kept K} :
    c ∈ offersTo env checkpoints w id events ↔ ∃ r ∈ offered env checkpoints events,
      (r.workspaceId = w ∧ r.id = id) ∧ keptOf env (fillDefaults r) = c := by
  simp only [offersTo, List.mem_map, List.mem_filter, decide_eq_true_eq, and_assoc]

/-- Equally new offers to a name are the same. -/
theorem StampsDecide.offersTo {events : List KeyValueEntry}
    (h : StampsDecide (offered env checkpoints events)) {w id : Bytes} :
    ∀ a ∈ offersTo env checkpoints w id events, ∀ b ∈ offersTo env checkpoints w id events,
      newerKept a b = false → newerKept b a = false → a = b := by
  intro a ha b hb hab hba
  obtain ⟨r, hr, hname, rfl⟩ := mem_offersTo.mp ha
  obtain ⟨r', hr', hname', rfl⟩ := mem_offersTo.mp hb
  have hsame : ∀ x y : MemoryRecord K, isIncomingNewer (fillDefaults x) (fillDefaults y) =
      isIncomingNewer x y := fun x y =>
    isIncomingNewer_congr (essence_fillDefaults x) (essence_fillDefaults y)
  obtain ⟨htime, hversion, hnode⟩ :=
    stamp_eq_of_tie ((hsame r r').symm.trans hab) ((hsame r' r).symm.trans hba)
  have heq : r = r' := h r hr r' hr' (hname.1.trans hname'.1.symm) (hname.2.trans hname'.2.symm)
    htime hversion hnode
  rw [heq]

/-- What is resident apart from the dedup index. -/
structure SameResidents (s t : Resident K) : Prop where
  records : s.records = t.records
  charges : s.residentChargeBytes = t.residentChargeBytes
  docs : ∀ w id, s.retriever.docAt w id = t.retriever.docAt w id
  vectors : ∀ w id, s.retriever.vectorAt w id = t.retriever.vectorAt w id

omit [LinearOrder K] in
theorem mem_offered_congr {events events' : List KeyValueEntry}
    (hsame : ∀ e, e ∈ events ↔ e ∈ events') (r : MemoryRecord K) :
    r ∈ offered env checkpoints events ↔ r ∈ offered env checkpoints events' := by
  simp only [offered, List.mem_filterMap, hsame]

/-- A name that events are about ends with one entry of everything. -/
theorem kept_replay_congr {events events' : List KeyValueEntry} (s : Resident K)
    (hsame : ∀ e, e ∈ events ↔ e ∈ events')
    (hcolon : ∀ r ∈ offered env checkpoints events, 58 ∉ r.workspaceId)
    (hties : StampsDecide (offered env checkpoints events)) {r : MemoryRecord K}
    (hr : r ∈ offered env checkpoints events) :
    ∃ c, (events.foldl (replayEvent env checkpoints) s).keptAt r.workspaceId r.id = some c ∧
      (events'.foldl (replayEvent env checkpoints) s).keptAt r.workspaceId r.id = some c := by
  have hcolon' : ∀ r ∈ offered env checkpoints events', 58 ∉ r.workspaceId :=
    fun r hr => hcolon r ((mem_offered_congr hsame r).mpr hr)
  have hmem : ∀ c, c ∈ offersTo env checkpoints r.workspaceId r.id events ↔
      c ∈ offersTo env checkpoints r.workspaceId r.id events' := by
    intro c
    simp only [mem_offersTo, mem_offered_congr hsame]
  have hsome : (offerAll newerKept (s.keptAt r.workspaceId r.id)
      (offersTo env checkpoints r.workspaceId r.id events)).isSome = true :=
    isSome_offerAll (Or.inr (List.ne_nil_of_mem (mem_offersTo.mpr ⟨r, hr, ⟨rfl, rfl⟩, rfl⟩)))
  obtain ⟨c, hc⟩ := Option.isSome_iff_exists.mp hsome
  refine ⟨c, ?_, ?_⟩
  · rw [keptAt_replay events s hcolon (hcolon r hr), hc]
  · rw [keptAt_replay events' s hcolon' (hcolon r hr),
      ← offerAll_congr ranked_newerKept hmem hties.offersTo, hc]

omit [Field K] [LinearOrder K] in
theorem Resident.of_keptAt {s : Resident K} {w id : Bytes} {c : Kept K}
    (h : s.keptAt w id = some c) :
    s.records[recordMapKey w id]? = some c.record ∧
      s.residentChargeBytes[recordMapKey w id]? = c.charge ∧
      s.retriever.docAt w id = c.doc ∧ s.retriever.vectorAt w id = c.vector := by
  obtain ⟨r, hr, rfl⟩ := Option.map_eq_some_iff.mp h
  exact ⟨hr, rfl, rfl, rfl⟩

theorem sameResidents_replay {events events' : List KeyValueEntry} (s : Resident K)
    (hsame : ∀ e, e ∈ events ↔ e ∈ events')
    (hcolon : ∀ r ∈ offered env checkpoints events, 58 ∉ r.workspaceId)
    (hties : StampsDecide (offered env checkpoints events)) :
    SameResidents (events.foldl (replayEvent env checkpoints) s)
      (events'.foldl (replayEvent env checkpoints) s) := by
  have hkey : ∀ k : Bytes,
      (events.foldl (replayEvent env checkpoints) s).records[k]? =
          (events'.foldl (replayEvent env checkpoints) s).records[k]? ∧
        (events.foldl (replayEvent env checkpoints) s).residentChargeBytes[k]? =
          (events'.foldl (replayEvent env checkpoints) s).residentChargeBytes[k]? := by
    intro k
    by_cases hk : ∃ r ∈ offered env checkpoints events, recordMapKey r.workspaceId r.id = k
    · obtain ⟨r, hr, rfl⟩ := hk
      obtain ⟨c, hc, hc'⟩ := kept_replay_congr s hsame hcolon hties hr
      obtain ⟨hrec, hcharge, -, -⟩ := Resident.of_keptAt hc
      obtain ⟨hrec', hcharge', -, -⟩ := Resident.of_keptAt hc'
      rw [hrec, hrec', hcharge, hcharge']
      exact ⟨rfl, rfl⟩
    · have hfree : ∀ r ∈ offered env checkpoints events, recordMapKey r.workspaceId r.id ≠ k :=
        fun r hr heq => hk ⟨r, hr, heq⟩
      obtain ⟨hrec, hcharge⟩ := untouched_replay events s hfree
      obtain ⟨hrec', hcharge'⟩ := untouched_replay events' s
        fun r hr => hfree r ((mem_offered_congr hsame r).mpr hr)
      rw [hrec, hrec', hcharge, hcharge']
      exact ⟨rfl, rfl⟩
  have hname : ∀ w id, (events.foldl (replayEvent env checkpoints) s).retriever.docAt w id =
        (events'.foldl (replayEvent env checkpoints) s).retriever.docAt w id ∧
      (events.foldl (replayEvent env checkpoints) s).retriever.vectorAt w id =
        (events'.foldl (replayEvent env checkpoints) s).retriever.vectorAt w id := by
    intro w id
    by_cases hn : ∃ r ∈ offered env checkpoints events, r.workspaceId = w ∧ r.id = id
    · obtain ⟨r, hr, rfl, rfl⟩ := hn
      obtain ⟨c, hc, hc'⟩ := kept_replay_congr s hsame hcolon hties hr
      obtain ⟨-, -, hdoc, hvector⟩ := Resident.of_keptAt hc
      obtain ⟨-, -, hdoc', hvector'⟩ := Resident.of_keptAt hc'
      rw [hdoc, hdoc', hvector, hvector']
      exact ⟨rfl, rfl⟩
    · have hfree : ∀ r ∈ offered env checkpoints events, ¬ (r.workspaceId = w ∧ r.id = id) :=
        fun r hr heq => hn ⟨r, hr, heq⟩
      obtain ⟨hdoc, hvector⟩ := unindexed_replay events s hfree
      obtain ⟨hdoc', hvector'⟩ := unindexed_replay events' s
        fun r hr => hfree r ((mem_offered_congr hsame r).mpr hr)
      rw [hdoc, hdoc', hvector, hvector']
      exact ⟨rfl, rfl⟩
  exact ⟨Std.ExtTreeMap.ext_getElem? fun k => (hkey k).1,
    Std.ExtTreeMap.ext_getElem? fun k => (hkey k).2, fun w id => (hname w id).1,
    fun w id => (hname w id).2⟩

theorem Balanced.replay (events : List KeyValueEntry) {s : Resident K} (h : Balanced s) :
    Balanced (events.foldl (replayEvent env checkpoints) s) := by
  induction events generalizing s with
  | nil => exact h
  | cons event rest ih =>
    rw [List.foldl_cons]
    apply ih
    rcases replayEvent_cases env checkpoints s event with
      hskip | ⟨x, -, hputs⟩
    · rw [hskip]
      exact h
    · rw [hputs]
      exact h.upsert env _

theorem Mirrors.replay (events : List KeyValueEntry) {s : Resident K} (h : Mirrors s)
    (hcolon : ∀ r ∈ offered env checkpoints events, 58 ∉ r.workspaceId) :
    Mirrors (events.foldl (replayEvent env checkpoints) s) := by
  induction events generalizing s with
  | nil => exact h
  | cons event rest ih =>
    rw [List.foldl_cons]
    refine ih ?_ fun r hr => ?_
    · rcases replayEvent_cases env checkpoints s event with
        hskip | ⟨x, hx, hputs⟩
      · rw [hskip]
        exact h
      · rw [hputs]
        apply h.upsert
        rw [(names_fillDefaults x).1]
        exact hcolon x (List.mem_filterMap.mpr ⟨event, List.mem_cons_self, hx⟩)
    · obtain ⟨e, he, hx⟩ := List.mem_filterMap.mp hr
      exact hcolon r (List.mem_filterMap.mpr ⟨e, List.mem_cons_of_mem _ he, hx⟩)

/-- Events whose stamps decide leave the same records, charges and index, in whatever order
and however often they are replayed: under every name the greatest of what was resident and
what the events say, what was resident before its equals. -/
theorem replay_merges {events events' : List KeyValueEntry} (s : Resident K)
    (hsame : ∀ e, e ∈ events ↔ e ∈ events')
    (hcolon : ∀ r ∈ offered env checkpoints events, 58 ∉ r.workspaceId)
    (hties : StampsDecide (offered env checkpoints events)) :
    let t := events.foldl (replayEvent env checkpoints) s
    let t' := events'.foldl (replayEvent env checkpoints) s
    SameResidents t t' ∧ (Balanced s → t.residentUsedBytes = t'.residentUsedBytes) ∧
      (Mirrors s → Mirrors t) ∧
      ∀ w id : Bytes, 58 ∉ w →
        (∀ c, t.keptAt w id = some c → Greatest newerKept (s.keptAt w id)
          (offersTo env checkpoints w id events) c) ∧
        (t.keptAt w id = none →
          s.keptAt w id = none ∧ offersTo env checkpoints w id events = []) := by
  intro t t'
  have hresidents : SameResidents t t' := sameResidents_replay s hsame hcolon hties
  refine ⟨hresidents, ?_, fun hm => hm.replay events hcolon, ?_⟩
  · intro hb
    rw [(hb.replay events).used, (hb.replay events').used]
    exact congrArg MapTotal.total hresidents.charges
  · intro w id hw
    have hkept : (events.foldl (replayEvent env checkpoints) s).keptAt w id = _ :=
      keptAt_replay events s hcolon hw
    constructor
    · intro c hc
      exact greatest_offerAll ranked_newerKept (hkept.symm.trans hc)
    · intro hnone
      exact offerAll_eq_none_iff.mp (hkept.symm.trans hnone)

end Replay

section Examples
open Reference

/-- The events of two writes. -/
def twoEvents : List KeyValueEntry :=
  ((Runs.exec (next (platform ticking)) initial
    [.call (put (ascii "w") (ascii "a") (ascii "x")) applied,
      .call (put (ascii "w") (ascii "b") (ascii "y")) applied]).store.table eventsNs).toList.map
    fun kv => ⟨eventsNs, kv.1, kv.2.value, kv.2.ts⟩

theorem replay_merges_twice :
    SameResidents (twoEvents.foldl (replayEvent (platform ticking) ∅) Resident.empty)
      ((twoEvents.reverse ++ twoEvents).foldl (replayEvent (platform ticking) ∅)
        Resident.empty) := by
  have hids : (offered (platform ticking) ∅ twoEvents).map (fun r => (r.workspaceId, r.id)) =
      [(ascii "w", ascii "a"), (ascii "w", ascii "b")] := by
    decide +kernel
  have hnames : ∀ r ∈ offered (platform ticking) ∅ twoEvents, r.workspaceId = ascii "w" := by
    intro r hr
    have hmem := List.mem_map_of_mem (f := fun r => (r.workspaceId, r.id)) hr
    rw [hids] at hmem
    simp only [List.mem_cons, Prod.mk.injEq, List.not_mem_nil, or_false] at hmem
    rcases hmem with ⟨h, -⟩ | ⟨h, -⟩
    · exact h
    · exact h
  refine (@replay_merges ℚ _ _ _ ∅ _ _ Resident.empty (fun e => ?_) (fun r hr => ?_) ?_).1
  · simp
  · rw [hnames r hr]
    decide
  · intro a ha b hb hws hid _ _ _
    refine List.inj_on_of_nodup_map (f := fun r => (r.workspaceId, r.id)) ?_ ha hb
      (Prod.ext hws hid)
    rw [hids]
    decide

end Examples

end PoorguyMem
