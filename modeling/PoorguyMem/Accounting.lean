import PoorguyMem.Mirror
import PoorguyMem.Lib.MapTotal

/-!
# The resident bytes and their limit

The counter of resident bytes is kept by differences, beside the map of charges
it sums up. Every update keeps the two equal, so none takes off more than the
counter holds. The eviction loop takes a record out with every pass, and where
it ends above the limit only pinned records are left.
-/

namespace PoorguyMem

open ByteString Throwing

variable {K : Type}

/-- The counter is the sum of the charges, and every resident record is charged. -/
structure Balanced (s : Resident K) : Prop where
  used : s.residentUsedBytes = MapTotal.total s.residentChargeBytes
  keys : ∀ k : Bytes, s.residentChargeBytes[k]?.isSome = s.records[k]?.isSome

/-- The charge of the record at a key. -/
def Resident.chargeAt (s : Resident K) (r : MemoryRecord K) : Nat :=
  s.residentChargeBytes.getD (recordMapKey r.workspaceId r.id) 0

/-- A chain of updates none of which takes more off the counter than it holds, and
whose evictions spare the pinned records. -/
inductive Metered [Field K] [LinearOrder K] (env : Platform K) : Resident K → Resident K → Prop
  | refl (s : Resident K) : Metered env s s
  | upsert {s s' : Resident K} {r : MemoryRecord K} (h : Metered env s s')
      (enough : s'.chargeAt r - estimateResidentCharge r ≤ s'.residentUsedBytes) :
      Metered env s (s'.upsertRecordInMemory env r)
  | remove {s s' : Resident K} {r : MemoryRecord K} (h : Metered env s s')
      (enough : s'.chargeAt r ≤ s'.residentUsedBytes) : Metered env s (s'.removeRecordInMemory r)
  | evict {s s' : Resident K} {k : Bytes} {victim : MemoryRecord K} (h : Metered env s s')
      (held : s'.records[k]? = some victim) (unpinned : victim.pinned = false)
      (enough : s'.chargeAt victim ≤ s'.residentUsedBytes) : Metered env s (s'.evict victim)
  | access {s s' : Resident K} {records : StringMap (MemoryRecord K)} (h : Metered env s s')
      (access : AccessOnly s'.records records) : Metered env s { s' with records := records }

/-! ### The updates -/

section Updates

theorem estimateResidentCharge_pos (r : MemoryRecord K) : 0 < estimateResidentCharge r := by
  have hsize := computeRecordSizeBytes_pos r
  rw [estimateResidentCharge]
  split <;> omega

theorem balanced_empty : Balanced (Resident.empty : Resident K) where
  used := rfl
  keys _ := by simp [Resident.empty]

variable {s : Resident K}

theorem Balanced.chargeAt_le (h : Balanced s) (r : MemoryRecord K) :
    s.chargeAt r ≤ s.residentUsedBytes := by
  rw [h.used]
  exact MapTotal.getD_le_total _ _

theorem isSome_insert {V W : Type} {m : StringMap V} {n : StringMap W} {k a : Bytes} {v : V} {x : W}
    (h : ∀ a : Bytes, m[a]?.isSome = n[a]?.isSome) :
    (m.insert k v)[a]?.isSome = (n.insert k x)[a]?.isSome := by
  rw [lookup_insert, lookup_insert]
  split
  · rfl
  · exact h a

theorem isSome_erase {V W : Type} {m : StringMap V} {n : StringMap W} {k a : Bytes}
    (h : ∀ a : Bytes, m[a]?.isSome = n[a]?.isSome) :
    (m.erase k)[a]?.isSome = (n.erase k)[a]?.isSome := by
  rw [lookup_erase, lookup_erase]
  split
  · rfl
  · exact h a

theorem Balanced.upsert [Field K] [LinearOrder K] (env : Platform K) (h : Balanced s)
    (r : MemoryRecord K) : Balanced (s.upsertRecordInMemory env r) := by
  have hne : estimateResidentCharge r ≠ 0 := Nat.ne_of_gt (estimateResidentCharge_pos r)
  have hcharges : (s.upsertRecordInMemory env r).residentChargeBytes =
      s.residentChargeBytes.insert (recordMapKey r.workspaceId r.id) (estimateResidentCharge r) :=
    if_neg hne
  constructor
  · have htotal : MapTotal.total s.residentChargeBytes = s.chargeAt r + _ :=
      MapTotal.total_erase s.residentChargeBytes (recordMapKey r.workspaceId r.id)
    have hsum := h.used
    have hused : (s.upsertRecordInMemory env r).residentUsedBytes =
        if s.chargeAt r ≤ estimateResidentCharge r then
          s.residentUsedBytes + (estimateResidentCharge r - s.chargeAt r)
        else s.residentUsedBytes - (s.chargeAt r - estimateResidentCharge r) := rfl
    rw [hcharges, MapTotal.total_insert, hused]
    split <;> omega
  · intro k
    rw [hcharges, Resident.records_upsert]
    exact isSome_insert h.keys

/-- Erasing a record with its charge keeps the balance. -/
theorem Balanced.erase {s' : Resident K} (h : Balanced s) {r : MemoryRecord K}
    (hrecords : s'.records = s.records.erase (recordMapKey r.workspaceId r.id))
    (hcharges : s'.residentChargeBytes =
      s.residentChargeBytes.erase (recordMapKey r.workspaceId r.id))
    (hused : s'.residentUsedBytes = s.residentUsedBytes - s.chargeAt r) : Balanced s' := by
  constructor
  · have htotal := MapTotal.total_erase s.residentChargeBytes (recordMapKey r.workspaceId r.id)
    have hsum := h.used
    rw [hused, hcharges, Resident.chargeAt]
    omega
  · intro k
    rw [hrecords, hcharges]
    exact isSome_erase h.keys

theorem Balanced.remove (h : Balanced s) (r : MemoryRecord K) :
    Balanced (s.removeRecordInMemory r) := by
  have hrecords := Resident.records_remove s r
  cases hheld : s.records[recordMapKey r.workspaceId r.id]? with
  | some held =>
    refine h.erase hrecords ?_ ?_
    · rw [Resident.removeRecordInMemory, hheld]
    · rw [Resident.removeRecordInMemory, hheld]
      rfl
  | none =>
    -- a record that is not resident has no charge
    have hnone : s.residentChargeBytes[recordMapKey r.workspaceId r.id]? = none := by
      rw [← Option.not_isSome_iff_eq_none, h.keys, hheld]
      exact Bool.false_ne_true
    refine h.erase hrecords ?_ ?_
    · rw [Resident.removeRecordInMemory, hheld]
    · rw [Resident.removeRecordInMemory, hheld, Resident.chargeAt,
        Std.ExtTreeMap.getD_eq_getD_getElem?, hnone]
      rfl

theorem Balanced.evict (h : Balanced s) (victim : MemoryRecord K) : Balanced (s.evict victim) :=
  h.erase rfl rfl rfl

theorem Balanced.access (h : Balanced s) {records : StringMap (MemoryRecord K)}
    (hacc : AccessOnly s.records records) : Balanced { s with records := records } where
  used := h.used
  keys k := by
    rw [h.keys]
    have hk := congrArg Option.isSome (hacc k)
    rw [Option.isSome_map, Option.isSome_map] at hk
    exact hk.symm

variable [Field K] [LinearOrder K] {env : Platform K} {P : Bytes → Bytes → Prop}

/-- Updates of a balanced state are metered, and end in a balanced one. -/
theorem Updates.metered {a b : Resident K} (h : Updates env P a b) (ha : Balanced a) :
    Metered env a b ∧ Balanced b := by
  induction h with
  | refl => exact ⟨.refl _, ha⟩
  | upsert _ _ ih =>
    exact ⟨.upsert ih.1 (Nat.le_trans (Nat.sub_le _ _) (ih.2.chargeAt_le _)), ih.2.upsert env _⟩
  | remove _ _ ih => exact ⟨.remove ih.1 (ih.2.chargeAt_le _), ih.2.remove _⟩
  | evict _ held unpinned ih =>
    exact ⟨.evict ih.1 held unpinned (ih.2.chargeAt_le _), ih.2.evict _⟩
  | access _ access ih => exact ⟨.access ih.1 access, ih.2.access access⟩

end Updates

/-! ### The eviction loop -/

section Loop
variable [Field K] [LinearOrder K] {env : Platform K}

omit [Field K] [LinearOrder K] in
theorem size_erase_lt {V : Type} {m : StringMap V} {k : Bytes} (h : k ∈ m) :
    (m.erase k).size < m.size := by
  have hpos : m.size ≠ 0 := by
    intro hzero
    rw [Std.ExtTreeMap.eq_empty_iff_size_eq_zero.mpr hzero] at h
    exact Std.ExtTreeMap.not_mem_empty h
  rw [Std.ExtTreeMap.size_erase, if_pos (Std.ExtTreeMap.contains_iff_mem.mpr h)]
  omega

/-- The resident records lie at the keys of their names. -/
def AtKeys (s : Resident K) : Prop :=
  ∀ (k : Bytes) r, s.records[k]? = some r → k = recordMapKey r.workspaceId r.id

omit [Field K] [LinearOrder K] in
theorem AtKeys.evict {s : Resident K} (h : AtKeys s) (victim : MemoryRecord K) :
    AtKeys (s.evict victim) := by
  intro k r hr
  change (s.records.erase _)[k]? = some r at hr
  rw [lookup_erase] at hr
  split at hr
  · cases hr
  · exact h k r hr

/-- Where no candidate is found, every record is pinned. -/
theorem pinned_of_pickCandidate_none {t : Nat} {records : StringMap (MemoryRecord K)}
    {nowMs : UInt64} (h : Resident.pickCandidate env t records [] nowMs = none) :
    ∀ (k : Bytes) r, records[k]? = some r → r.pinned = true := by
  have hbetter : ∀ (best : Option (MemoryRecord K)) r,
      Resident.betterCandidate env [] nowMs best r = none → best = none ∧ r.pinned = true := by
    intro best r hnone
    cases hpin : r.pinned <;> cases best
    · simp [Resident.betterCandidate, hpin] at hnone
    · rename_i candidate
      simp only [Resident.betterCandidate, hpin, Bool.false_or, List.contains_nil,
        Bool.false_eq_true, if_false] at hnone
      split at hnone <;> cases hnone
    · exact ⟨rfl, rfl⟩
    · simp [Resident.betterCandidate, hpin] at hnone
  have loop : ∀ (kvs : List (Bytes × MemoryRecord K)) best,
      kvs.foldl (fun best kv => Resident.betterCandidate env [] nowMs best kv.2) best = none →
      best = none ∧ ∀ kv ∈ kvs, kv.2.pinned = true := by
    intro kvs
    induction kvs with
    | nil => exact fun best hnone => ⟨hnone, fun kv hkv => by cases hkv⟩
    | cons kv rest ih =>
      intro best hnone
      obtain ⟨hfirst, hrest⟩ := ih _ hnone
      obtain ⟨hbest, hpin⟩ := hbetter best kv.2 hfirst
      exact ⟨hbest, List.forall_mem_cons.mpr ⟨hpin, hrest⟩⟩
  intro k r hr
  exact (loop _ none h).2 (k, r) ((env.mem_iterate t).mpr hr)

/-- A pass of the loop: it ends, or it evicts a held record. -/
theorem enforceLoop_cases (env : Platform K) {s : Resident K} (h : AtKeys s) (limit tick : Nat) :
    (∀ fuel, (Resident.enforceLoop env [] limit (fuel + 1) s tick).1 = s ∧
        Resident.enforceLoop env [] limit (fuel + 1) s tick =
          Resident.enforceLoop env [] limit 1 s tick) ∧
      (s.residentUsedBytes ≤ limit ∨ ∀ (k : Bytes) r, s.records[k]? = some r → r.pinned = true) ∨
    ∃ victim, recordMapKey victim.workspaceId victim.id ∈ s.records ∧
      ∀ fuel, Resident.enforceLoop env [] limit (fuel + 1) s tick =
        Resident.enforceLoop env [] limit fuel (s.evict victim) (tick + 1) := by
  by_cases hend : s.residentUsedBytes ≤ limit ∨ s.records.isEmpty = true
  · left
    refine ⟨fun fuel => ?_, hend.imp id fun hempty k r hr => ?_⟩
    · rw [Resident.enforceLoop, Resident.enforceLoop, if_pos hend, if_pos hend]
      exact ⟨rfl, rfl⟩
    · rw [Std.ExtTreeMap.isEmpty_iff.mp hempty] at hr
      simp at hr
  · rcases hsel : Resident.selectEvictionCandidate env tick s.records [] (env.clock tick) with
      _ | victim
    · left
      refine ⟨fun fuel => ?_, Or.inr ?_⟩
      · simp only [Resident.enforceLoop, if_neg hend, hsel, and_self]
      · rw [Resident.selectEvictionCandidate] at hsel
        split at hsel
        · cases hsel
        · rename_i hnone
          exact pinned_of_pickCandidate_none hnone
    · right
      obtain ⟨k, hk, -⟩ := Resident.selectEvictionCandidate_mem hsel
      have hmem : recordMapKey victim.workspaceId victim.id ∈ s.records := by
        rw [← h k victim hk, Std.ExtTreeMap.mem_iff_isSome_getElem?, hk]
        rfl
      refine ⟨victim, hmem, fun fuel => ?_⟩
      rw [Resident.enforceLoop, if_neg hend, hsel]
      exact if_pos hmem

/-- The loop ends by itself within as many passes as there are records and one. -/
theorem enforceLoop_terminates {s : Resident K} (h : AtKeys s) (limit tick : Nat) {n fuel : Nat}
    (hn : s.records.size < n) (hfuel : n ≤ fuel) :
    Resident.enforceLoop env [] limit fuel s tick = Resident.enforceLoop env [] limit n s tick := by
  induction n generalizing s tick fuel with
  | zero => exact absurd hn (Nat.not_lt_zero _)
  | succ n ih =>
    obtain ⟨m, rfl⟩ := Nat.exists_eq_add_of_le' (Nat.le_trans (Nat.succ_le_succ (Nat.zero_le n)) hfuel)
    rcases enforceLoop_cases env h limit tick with ⟨hends, -⟩ | ⟨victim, hmem, hstep⟩
    · rw [(hends m).2, (hends n).2]
    · rw [hstep, hstep]
      refine ih (h.evict victim) (tick + 1) ?_ (Nat.le_of_succ_le_succ hfuel)
      have hsize : (s.evict victim).records.size < s.records.size := size_erase_lt hmem
      omega

/-- Where the loop ends above the limit, every record left is pinned. -/
theorem enforceLoop_limited {s : Resident K} (h : AtKeys s) (limit tick : Nat) {n : Nat}
    (hn : s.records.size < n) :
    let s' := (Resident.enforceLoop env [] limit n s tick).1
    s'.residentUsedBytes ≤ limit ∨ ∀ (k : Bytes) r, s'.records[k]? = some r → r.pinned = true := by
  induction n generalizing s tick with
  | zero => exact absurd hn (Nat.not_lt_zero _)
  | succ n ih =>
    rcases enforceLoop_cases env h limit tick with ⟨hends, hlimited⟩ | ⟨victim, hmem, hstep⟩
    · rw [(hends n).1]
      exact hlimited
    · rw [hstep]
      refine ih (h.evict victim) (tick + 1) ?_
      have hsize : (s.evict victim).records.size < s.records.size := size_erase_lt hmem
      omega

/-- What enforcing the limit makes of a state: the loop ends by itself, above the
limit only with pinned records left, and every pinned record stays. -/
structure Enforced (env : Platform K) (limit : Nat) (s s' : Resident K) : Prop where
  terminates : ∃ tick, ∀ fuel, s.records.size < fuel →
    (Resident.enforceLoop env [] limit fuel s tick).1 = s'
  limited : s'.residentUsedBytes ≤ limit ∨
    ∀ (k : Bytes) r, s'.records[k]? = some r → r.pinned = true
  spared : ∀ (k : Bytes) r, s.records[k]? = some r → r.pinned = true → s'.records[k]? = some r

theorem enforced_enforceResidentHardLimit {s : Resident K} (h : AtKeys s) {limit : Nat}
    (hlimit : limit ≠ 0) (tick : Nat) :
    Enforced env limit s (s.enforceResidentHardLimit env limit tick).1 := by
  have hloop : s.enforceResidentHardLimit env limit tick =
      Resident.enforceLoop env [] limit (s.records.size + 1) s tick := if_neg hlimit
  constructor
  · refine ⟨tick, fun fuel hfuel => ?_⟩
    rw [hloop, enforceLoop_terminates h limit tick (Nat.lt_succ_self _) hfuel]
  · rw [hloop]
    exact enforceLoop_limited h limit tick (Nat.lt_succ_self _)
  · intro k r hr hpin
    rcases (evicts_enforceResidentHardLimit env limit s tick).lookup h hr with hkept | ⟨-, hunpinned⟩
    · exact hkept
    · rw [hpin] at hunpinned
      cases hunpinned

end Loop

/-! ### Steps -/

section Steps
variable [Field K] [LinearOrder K] {env : Platform K} {w : World K}

/-- The reply of a `Write` that stored a record, and of a successful `Pin`. -/
def Reply.Stored : Reply K → Prop
  | .write output => output.ok = true ∧ output.storedIds ≠ []
  | .pin result => result = .ok ()
  | _ => False

theorem governPin_storedIds (options : MemoryEngineOptions K)
    (draft : WriteDraft K) (pin : Bool) (id : Bytes) :
    (governPin options draft pin id).2.storedIds = draft.storedIds := by
  rw [governPin]
  split
  · rfl
  · split
    · rfl
    · split <;> rfl

/-- A draft that stores a record has something to write. -/
theorem holds_writeDraft_stored (env : Platform K) (w : World K) (input : WriteInput K) :
    Holds (writeDraft env w.engine input) w.cursor
      (fun draft _ => draft.plan.writes = [] → draft.storedIds = []) (fun _ => True) := by
  refine holds_bind (holds_advance (holds_foldlM ?_ fun _ => rfl))
  intro recIn _ draft c h
  rw [writeRecord]
  split
  · exact holds_pure h
  · split
    · exact holds_pure h
    · refine holds_bind ((holds_any _ _).mono (fun id c₁ _ => ?_) fun _ _ => trivial)
      obtain ⟨hplan, -, -⟩ := governPin_plan w.engine.options draft recIn.pin id
      have hstored := governPin_storedIds w.engine.options draft recIn.pin id
      generalize governPin w.engine.options draft recIn.pin id = governed at hplan hstored
      obtain ⟨pinned, governed⟩ := governed
      dsimp only at hplan hstored ⊢
      split
      · refine holds_pure fun hwrites => ?_
        exact hstored.trans (h (hplan ▸ hwrites))
      · refine holds_bind ((holds_any _ _).mono (fun rows c₂ _ => ?_) fun _ _ => trivial)
        refine holds_bind ((holds_any _ _).mono (fun event c₃ _ => ?_) fun _ _ => trivial)
        refine holds_pure fun hwrites => ?_
        simp at hwrites

/-- A call that stores enforces the limit on what its batch leaves in memory. -/
theorem perform_stored {fate : Fate} {call : Call K}
    (h : (perform env fate w call).2.Stored) :
    ∃ request tick, (prepare env fate w call).1 = some request ∧
      (perform env fate w call).1.engine.residentLimitBytes = w.engine.residentLimitBytes ∧
      (perform env fate w call).1.engine.toResident =
        ((request.plan.applyInMemory env w.engine.toResident).enforceResidentHardLimit env
          w.engine.residentLimitBytes tick).1 := by
  cases call with
  | query input => exact h.elim
  | compact workspaceId =>
    simp only [perform] at h
    cases hout : (compactInternal env fate w workspaceId true).2 <;>
      simp [hout, Reply.Stored] at h
  | gc =>
    simp only [perform] at h
    cases hout : (compactInternal env fate w [] false).2 <;> simp [hout, Reply.Stored] at h
  | write input =>
    simp only [perform, prepare, write, prepareWrite] at h ⊢
    by_cases hws : input.workspaceId = []
    · simp [hws, Reply.Stored] at h
    · by_cases hrecs : input.records = []
      · simp [hws, hrecs, Reply.Stored] at h
      · rw [if_neg (by simp [hws, hrecs])]
        rw [if_neg hws, if_neg hrecs] at h ⊢
        have hdraft := holds_writeDraft_stored env w input
        rcases hrun : writeDraft env w.engine input w.cursor with ⟨_ | draft, c⟩ <;>
          rw [hrun] at h <;> dsimp only at h ⊢
        · simp [Reply.Stored] at h
        · by_cases hempty : draft.plan.writes = []
          · rw [if_pos hempty] at h
            exact absurd (hdraft.returned draft c hrun hempty) h.2
          · rw [if_neg hempty] at h ⊢
            by_cases hok : fate.main.ok = true
            · rw [if_pos hok, if_neg hempty]
              exact ⟨_, _, rfl, rfl, rfl⟩
            · rw [if_neg hok] at h
              exact absurd h.1 (by simp [WriteDraft.output])
  | pin workspaceId memoryId flag =>
    simp only [perform, prepare, pin, preparePin] at h ⊢
    rcases hrun : pinDraft env w.engine w.store.reader workspaceId memoryId flag w.cursor with
      ⟨_ | error | plan, c⟩ <;> rw [hrun] at h <;> dsimp only at h ⊢
    · simp [Reply.Stored] at h
    · simp [Reply.Stored] at h
    · by_cases hok : fate.main.ok = true
      · rw [if_pos hok]
        exact ⟨_, _, rfl, rfl, rfl⟩
      · rw [if_neg hok] at h
        simp [Reply.Stored] at h

/-- The resident state a step works on: a restart starts anew. -/
def Step.start (w : World K) : Step K → Resident K
  | .call _ _ => w.engine.toResident
  | .restart _ _ _ => Resident.empty

/-- What a step makes resident before it enforces the limit. -/
def Step.unlimited (env : Platform K) (w : World K) : Step K → Resident K
  | .call c fate => (prepare env fate w c).1.elim w.engine.toResident fun request =>
      request.plan.applyInMemory env w.engine.toResident
  | .restart none _ _ => recovered env w.store
  | .restart (some (c, fate)) _ _ => recovered env (interrupt env w c fate).store

/-- The steps that enforce the limit: calls that store, and every warmup. -/
def Step.Enforces (env : Platform K) (w : World K) : Step K → Prop
  | .call c fate => (perform env fate w c).2.Stored
  | .restart _ _ _ => True

omit [Field K] [LinearOrder K] in
theorem names_nonempty : Names fun workspaceId id : Bytes => workspaceId ≠ [] ∧ id ≠ [] :=
  ⟨fun h => h.1, fun h => h.2⟩

omit [Field K] [LinearOrder K] in
theorem Step.admits_nonempty (step : Step K) : step.Admits fun w id => w ≠ [] ∧ id ≠ [] := by
  have hcall : ∀ call : Call K, call.Admits fun w id => w ≠ [] ∧ id ≠ [] := by
    intro call
    cases call with
    | write input => exact fun id hws hid => ⟨hws, hid⟩
    | _ => trivial
  match step with
  | .call c _ => exact hcall c
  | .restart none _ _ => trivial
  | .restart (some (c, _)) _ _ => exact hcall c

variable {P : Bytes → Bytes → Prop}

theorem preserved_balanced (env : Platform K) : Preserved env P Balanced where
  upsert _ r h _ := h.upsert env r
  remove _ r h _ := h.remove r
  evict _ _ victim h _ _ := h.evict victim
  access _ _ h hacc := h.access hacc

theorem atKeys_updates {a b : Resident K} (h : Updates env P a b)
    (ha : ∀ (k : Bytes) r, a.records[k]? = some r →
      k = recordMapKey r.workspaceId r.id ∧ P r.workspaceId r.id) : AtKeys b :=
  fun k r hr => ((preserved_held env).updates h ha k r hr).1

theorem restart_enforced (hlaw : env.Lawful) (hP : Names P) (hS : Sourced env P w)
    (nodeId : Bytes) (options : MemoryEngineOptions K)
    (hlimit : (restart env w nodeId options).engine.residentLimitBytes ≠ 0) :
    Enforced env (restart env w nodeId options).engine.residentLimitBytes (recovered env w.store)
      (restart env w nodeId options).engine.toResident := by
  have hkeys : AtKeys (recovered env w.store) :=
    atKeys_updates (updates_recovered hlaw hP hS)
      fun k r hr => absurd hr (by simp [Resident.empty])
  rw [restart_eq] at hlimit ⊢
  exact enforced_enforceResidentHardLimit hkeys hlimit w.tick

/-- A step keeps the counter balanced, and where it enforces the limit it does. -/
theorem Sourced.step_accounted (hlaw : env.Lawful) (hP : Names P) (hS : Sourced env P w)
    (hb : Balanced w.engine.toResident) {step : Step K} (hstep : step.Admits P) :
    Metered env (step.start w) (next env w step).engine.toResident ∧
      (step.Enforces env w → (next env w step).engine.residentLimitBytes ≠ 0 →
        Enforced env (next env w step).engine.residentLimitBytes (step.unlimited env w)
          (next env w step).engine.toResident) := by
  match step with
  | .call call fate =>
    obtain ⟨-, hup⟩ := hS.call hlaw hP hstep (perform_outcome env fate w call)
    refine ⟨(hup.metered hb).1, fun hstored hlimit => ?_⟩
    obtain ⟨request, tick, hsome, hsame, hres⟩ := perform_stored hstored
    obtain ⟨items, hd⟩ := (prepare_spec fate (hS.named hlaw hP) call).2 request hsome
    have hkeys : AtKeys (request.plan.applyInMemory env w.engine.toResident) :=
      atKeys_updates (Updates.applyPlan hd (hd.named hlaw hS hstep)) hS.held
    simp only [next, Step.unlimited, hsome, Option.elim_some] at hlimit ⊢
    rw [hsame] at hlimit ⊢
    rw [hres]
    exact enforced_enforceResidentHardLimit hkeys hlimit tick
  | .restart none nodeId options =>
    obtain ⟨-, hup⟩ := hS.restart hlaw hP (restart_spec env w nodeId options)
    exact ⟨(hup.metered balanced_empty).1,
      fun _ hlimit => restart_enforced hlaw hP hS nodeId options hlimit⟩
  | .restart (some (call, fate)) nodeId options =>
    have hS' := hS.interrupt hlaw hP hstep fate
    obtain ⟨-, hup⟩ := hS'.restart hlaw hP (restart_spec env _ nodeId options)
    exact ⟨(hup.metered balanced_empty).1,
      fun _ hlimit => restart_enforced hlaw hP hS' nodeId options hlimit⟩

/-- In every run the counter of resident bytes is the sum of the charges, which
are kept for exactly the resident records; no step takes more off the counter
than it holds; and a call that stores, or a warmup, ends the eviction loop with
the limit met or only pinned records left, and every pinned record kept. -/
theorem resident_bytes_accounted (hlaw : env.Lawful) (nodeId : Bytes)
    (options : MemoryEngineOptions K) (steps : List (Step K)) :
    let w := Runs.exec (next env) (World.initial nodeId options) steps
    Balanced w.engine.toResident ∧ ∀ step : Step K,
      Metered env (step.start w) (next env w step).engine.toResident ∧
      (step.Enforces env w → (next env w step).engine.residentLimitBytes ≠ 0 →
        Enforced env (next env w step).engine.residentLimitBytes (step.unlimited env w)
          (next env w step).engine.toResident) := by
  intro w
  obtain ⟨hS, hb⟩ : Sourced env (fun w id => w ≠ [] ∧ id ≠ []) w ∧ Balanced w.engine.toResident :=
    (preserved_balanced env).run hlaw names_nonempty balanced_empty
      (fun step _ => step.admits_nonempty) (sourced_initial nodeId options) balanced_empty
  exact ⟨hb, fun step => hS.step_accounted hlaw names_nonempty hb step.admits_nonempty⟩

end Steps

section Examples
open Reference

theorem history_bytes_accounted :
    let w := Runs.exec (next (platform ticking)) initial history
    Balanced w.engine.toResident ∧
      Enforced (platform ticking) w.engine.residentLimitBytes
        (recovered (platform ticking) w.store)
        (next (platform ticking) w (.restart none (ascii "node") options)).engine.toResident := by
  obtain ⟨hb, hsteps⟩ := resident_bytes_accounted (lawful_platform ticking) (ascii "node")
    options history
  exact ⟨hb, (hsteps (.restart none (ascii "node") options)).2 trivial (by decide)⟩

end Examples

end PoorguyMem
