import PoorguyMem.PinQuota
import PoorguyMem.Pinning
import PoorguyMem.ReadYourWrites

/-!
# The pin ratio

A pin is admitted where it fits the ratio with one more live record than there are.
That counts a live record twice which is resident already, and it counts the ones that
the eviction loop takes out after the pin. Where neither is the case, the ratio holds
after every call that pins; otherwise, it holds if it also does without those records.
-/

namespace PoorguyMem

open ByteString Throwing

variable {K : Type}

/-- A live record of a workspace that is not pinned. -/
def isUnpinnedIn (workspaceId : Bytes) (r : MemoryRecord K) : Bool :=
  r.workspaceId = workspaceId && !r.tombstone && !r.pinned

/-- How many records are of a kind. -/
def counted (records : StringMap (MemoryRecord K)) (kind : MemoryRecord K → Bool) : Nat :=
  MapTotal.weight records fun r => if kind r = true then 1 else 0

/-- How many of the records that are put one after the other replace one of a kind. -/
def replaced (kind : MemoryRecord K → Bool) :
    StringMap (MemoryRecord K) → List (MemoryRecord K) → Nat
  | _, [] => 0
  | records, r :: rest =>
    let key := recordMapKey r.workspaceId r.id
    (if records[key]?.any kind = true then 1 else 0) + replaced kind (records.insert key r) rest

section Governance
variable [Field K] [LinearOrder K] {env : Platform K} {fate : Fate} {w : World K}

/-- The pinned records of a workspace are no greater a share of its live records than the
options allow. -/
def RatioKept (w : World K) (workspaceId : Bytes) : Prop :=
  let stats := computeWorkspacePinStats w.engine.records workspaceId
  pinnedRatio stats.pinned stats.active ≤ w.engine.options.maxPinnedRatio

/-- A pin of a live record that was not pinned keeps the ratio. -/
def GovernsPin (env : Platform K) (fate : Fate) (w : World K) (workspaceId memoryId : Bytes) :
    Prop :=
  ∀ before, loadRecord env w.engine w.store.reader workspaceId memoryId = .ok before →
    before.tombstone = false → before.pinned = false →
    (pin env fate w workspaceId memoryId true).2 = some (.ok ()) →
    RatioKept (pin env fate w workspaceId memoryId true).1 workspaceId

/-- A `Write` that stores a pinned record keeps the ratio. -/
def GovernsWrite (env : Platform K) (fate : Fate) (w : World K) (input : WriteInput K) : Prop :=
  ∀ output, (write env fate w input).2 = some output → output.ok = true →
    (∃ r ∈ storedRecords env w input, r.pinned = true) →
    RatioKept (write env fate w input).1 input.workspaceId

/-! ### The condition -/

/-- What is resident once records are put, before anything is evicted. -/
def putAll (env : Platform K) (w : World K) (rs : List (MemoryRecord K)) : Resident K :=
  rs.foldl (Resident.upsertRecordInMemory env) w.engine.toResident

open Classical in
/-- How many live unpinned records of a workspace may be evicted: what does not rank below
them does not fit the limit. -/
noncomputable def atRisk (env : Platform K) (w : World K) (s : Resident K) (workspaceId : Bytes) :
    Nat :=
  counted s.records fun r => decide (isUnpinnedIn workspaceId r = true ∧
    w.engine.residentLimitBytes ≠ 0 ∧
    w.engine.residentLimitBytes < weightBesides s.records (Outranked env w.tick ∅ r))

/-- No live unpinned record is replaced or may be evicted, or the pins fit the ratio without
those that are. -/
def RoomForPins (env : Platform K) (w : World K) (workspaceId : Bytes)
    (rs : List (MemoryRecord K)) : Prop :=
  let stats := computeWorkspacePinStats w.engine.records workspaceId
  let extra := replaced (isUnpinnedIn workspaceId) w.engine.records rs +
    atRisk env w (putAll env w rs) workspaceId
  extra = 0 ∨ ((stats.pinned + rs.countP (·.pinned) : Nat) : K) ≤
    w.engine.options.maxPinnedRatio * ((stats.active + rs.length : Nat) - extra)

/-- A `Write` that stores a pinned record has room for its pins. -/
def WriteHasRoom (env : Platform K) (fate : Fate) (w : World K) (input : WriteInput K) : Prop :=
  fate.main.ok = true → (∃ r ∈ storedRecords env w input, r.pinned = true) →
    RoomForPins env w input.workspaceId (storedRecords env w input)

/-- A pin that is not refused has room. -/
def PinHasRoom (env : Platform K) (fate : Fate) (w : World K) (workspaceId memoryId : Bytes) :
    Prop :=
  ∀ before, loadRecord env w.engine w.store.reader workspaceId memoryId = .ok before →
    before.tombstone = false → before.pinned = false →
    pinRefusal w.engine workspaceId before true = none →
    (recordTree env before).writable = true → fate.main.ok = true →
    RoomForPins env w workspaceId [pinnedRecord w.engine before true (env.clock w.tick)]

end Governance

/-! ### Counting -/

section Counting
variable (records : StringMap (MemoryRecord K)) (kind : MemoryRecord K → Bool)

theorem counted_insert (k : Bytes) (r : MemoryRecord K) :
    counted (records.insert k r) kind + (if records[k]?.any kind = true then 1 else 0) =
      counted records kind + if kind r = true then 1 else 0 := by
  have herase := MapTotal.weight_erase records (fun r => if kind r = true then 1 else 0) k
  have hold : records[k]?.elim 0 (fun r => if kind r = true then 1 else 0) =
      if records[k]?.any kind = true then 1 else 0 := by
    cases records[k]? with
    | none => rfl
    | some _ => rfl
  rw [hold] at herase
  rw [counted, counted, MapTotal.weight_insert, herase]
  omega

/-- The records of a kind after some are put. -/
theorem counted_putAll [Field K] [LinearOrder K] (env : Platform K) (s : Resident K) (rs : List (MemoryRecord K)) :
    counted (rs.foldl (Resident.upsertRecordInMemory env) s).records kind +
        replaced kind s.records rs = counted s.records kind + rs.countP kind := by
  induction rs generalizing s with
  | nil => rfl
  | cons r rest ih =>
    have hrest := ih (s.upsertRecordInMemory env r)
    have hfirst := counted_insert s.records kind (recordMapKey r.workspaceId r.id) r
    rw [Resident.records_upsert] at hrest
    rw [List.foldl_cons, List.countP_cons, replaced]
    omega

theorem counted_le {records records' : StringMap (MemoryRecord K)}
    {kind kind' : MemoryRecord K → Bool}
    (h : ∀ (k : Bytes) r, records[k]? = some r → kind r = true →
      records'[k]? = some r ∧ kind' r = true) : counted records kind ≤ counted records' kind' := by
  apply MapTotal.weight_le
  intro k r hr hcounts
  have hkind : kind r = true := by
    by_contra hnot
    exact hcounts (if_neg hnot)
  obtain ⟨hr', hkind'⟩ := h k r hr hkind
  refine ⟨hr', ?_⟩
  rw [if_pos hkind, if_pos hkind']

theorem counted_split (kind' : MemoryRecord K → Bool) : counted records kind =
    counted records (fun r => kind r && kind' r) +
      counted records fun r => kind r && !kind' r := by
  simp only [counted, MapTotal.weight_ite]
  rw [List.countP_eq_countP_filter_add _ _ kind', List.countP_filter, List.countP_filter]

variable (workspaceId : Bytes)

theorem atRisk_eq_zero [Field K] [LinearOrder K] {env : Platform K} {w : World K}
    (h : w.engine.residentLimitBytes = 0) (s : Resident K) : atRisk env w s workspaceId = 0 := by
  rw [atRisk, counted, MapTotal.weight_ite, List.countP_eq_zero]
  intro r _ hrisk
  exact (of_decide_eq_true hrisk).2.1 h

theorem pinned_stats : (computeWorkspacePinStats records workspaceId).pinned =
    counted records (isPinnedIn workspaceId) := by
  rw [counted, MapTotal.weight_ite, computeWorkspacePinStats, pinStats, liveRecords]
  dsimp only
  rw [List.countP_filter]
  congr 1
  funext x
  rw [isPinnedIn, Bool.and_comm]

/-- The live records of a workspace are the pinned ones and the others. -/
theorem active_stats : (computeWorkspacePinStats records workspaceId).active =
    counted records (isPinnedIn workspaceId) + counted records (isUnpinnedIn workspaceId) := by
  rw [counted, counted, MapTotal.weight_ite, MapTotal.weight_ite, computeWorkspacePinStats, pinStats,
    liveRecords]
  dsimp only
  rw [← List.countP_eq_length_filter, List.countP_eq_countP_filter_add _ _ (·.pinned),
    List.countP_filter, List.countP_filter]
  rfl

end Counting

/-! ### The projected counts -/

section Calls
variable [Field K] [LinearOrder K] [IsStrictOrderedRing K] {env : Platform K} {fate : Fate}
  {w : World K} {input : WriteInput K}

/-- A ratio between zero and one. -/
structure Governed (options : MemoryEngineOptions K) : Prop where
  positive : 0 < options.maxPinnedRatio
  proper : options.maxPinnedRatio < 1

theorem pinnedRatio_le_iff {pinned active : Nat} (hle : pinned ≤ active) {maxRatio : K} (h : 0 < maxRatio) :
    pinnedRatio pinned active ≤ maxRatio ↔ (pinned : K) ≤ maxRatio * active := by
  rw [pinnedRatio]
  split
  · rename_i hzero
    obtain rfl : pinned = 0 := by omega
    simp [hzero, h.le]
  · rename_i hpos
    rw [div_le_iff₀ (by exact_mod_cast Nat.pos_of_ne_zero hpos)]

/-- A pin that is not blocked fits the ratio. -/
theorem le_of_not_blocked {pinned active : Nat} {options : MemoryEngineOptions K}
    (h : Governed options)
    (hblocked : isPinBlockedByRatio pinned (active + 1) options.maxPinnedRatio = false) :
    (pinned : K) ≤ options.maxPinnedRatio * ((active + 1 : Nat) : K) := by
  rw [isPinBlockedByRatio, if_neg (Nat.succ_ne_zero active), if_neg (not_le.mpr h.positive),
    if_neg (not_le.mpr h.proper)] at hblocked
  have hratio := not_lt.mp (of_decide_eq_false hblocked)
  rw [pinnedRatio, if_neg (Nat.succ_ne_zero active)] at hratio
  exact (div_le_iff₀ (by exact_mod_cast Nat.succ_pos active)).mp hratio

theorem governPin_ratio {options : MemoryEngineOptions K} (h : Governed options)
    (draft : WriteDraft K) (pin : Bool) (id : Bytes) :
    (governPin options draft pin id).2.projectedActive = draft.projectedActive ∧
      ((governPin options draft pin id).1 = true →
        ((draft.projectedPinned + 1 : Nat) : K) ≤
          options.maxPinnedRatio * ((draft.projectedActive + 1 : Nat) : K)) := by
  rw [governPin]
  split
  · exact ⟨rfl, fun hpin => by cases hpin⟩
  · split
    · exact ⟨rfl, fun hpin => by cases hpin⟩
    · split
      · exact ⟨rfl, fun hpin => by cases hpin⟩
      · rename_i hadmitted
        exact ⟨rfl, fun _ => le_of_not_blocked h (Bool.eq_false_iff.mpr hadmitted)⟩

/-- The counts of the loop of `Write`: what was counted before and what the batch has, and
the pins fit the ratio of them. -/
structure Shares (w : World K) (input : WriteInput K) (draft : WriteDraft K) : Prop where
  pinned : draft.projectedPinned =
    (computeWorkspacePinStats w.engine.records input.workspaceId).pinned +
      draft.plan.upserts.countP (·.pinned)
  active : draft.projectedActive =
    (computeWorkspacePinStats w.engine.records input.workspaceId).active + draft.plan.upserts.length
  share : (∃ r ∈ draft.plan.upserts, r.pinned = true) →
    (draft.projectedPinned : K) ≤ w.engine.options.maxPinnedRatio * draft.projectedActive

omit [IsStrictOrderedRing K] in
theorem Shares.of_plan {draft draft' : WriteDraft K} (h : Shares w input draft)
    (hplan : draft'.plan = draft.plan) (hpinned : draft'.projectedPinned = draft.projectedPinned)
    (hactive : draft'.projectedActive = draft.projectedActive) : Shares w input draft' where
  pinned := by rw [hpinned, hplan, h.pinned]
  active := by rw [hactive, hplan, h.active]
  share := by rw [hpinned, hactive, hplan]; exact h.share

theorem Shares.accept {draft draft' : WriteDraft K} (h : Shares w input draft)
    (hratio : Governed w.engine.options) {r : MemoryRecord K}
    (hpin : r.pinned = true → ((draft.projectedPinned + 1 : Nat) : K) ≤
      w.engine.options.maxPinnedRatio * ((draft.projectedActive + 1 : Nat) : K))
    (hupserts : draft'.plan.upserts = draft.plan.upserts ++ [r])
    (hpinned : draft'.projectedPinned = draft.projectedPinned + if r.pinned = true then 1 else 0)
    (hactive : draft'.projectedActive = draft.projectedActive + 1) : Shares w input draft' := by
  constructor
  · rw [hpinned, hupserts, List.countP_append, List.countP_singleton, h.pinned, Nat.add_assoc]
  · rw [hactive, hupserts, List.length_append, List.length_singleton, h.active, Nat.add_assoc]
  · intro hany
    rw [hpinned, hactive]
    by_cases hr : r.pinned = true
    · rw [if_pos hr]
      exact hpin hr
    · rw [if_neg hr, Nat.add_zero]
      obtain ⟨r', hr', hpinned'⟩ := hany
      rw [hupserts] at hr'
      rcases List.mem_append.mp hr' with hbefore | hlast
      · have hshare := h.share ⟨r', hbefore, hpinned'⟩
        refine hshare.trans (mul_le_mul_of_nonneg_left ?_ hratio.positive.le)
        exact_mod_cast Nat.le_succ _
      · obtain rfl := List.mem_singleton.mp hlast
        exact absurd hpinned' hr

theorem holds_writeDraft_shares (env : Platform K) (hratio : Governed w.engine.options)
    (input : WriteInput K) :
    Holds (writeDraft env w.engine input) w.cursor (fun draft _ => Shares w input draft)
      (fun _ => True) := by
  refine holds_bind (holds_advance (holds_foldlM ?_ ⟨rfl, rfl, fun h => ?_⟩))
  · intro recIn _ draft c h
    rw [writeRecord]
    split
    · exact holds_pure (h.of_plan rfl rfl rfl)
    · split
      · exact holds_pure (h.of_plan rfl rfl rfl)
      · refine holds_bind ((holds_any _ _).mono (fun id c₁ _ => ?_) fun _ _ => trivial)
        obtain ⟨hplan, -, -⟩ := governPin_plan w.engine.options draft recIn.pin id
        obtain ⟨hpinned, -⟩ := governPin_spec w.engine.options draft recIn.pin id
        obtain ⟨hactive, hadmits⟩ := governPin_ratio hratio draft recIn.pin id
        generalize governPin w.engine.options draft recIn.pin id = governed at *
        obtain ⟨pinned, governed⟩ := governed
        dsimp only at hplan hpinned hactive hadmits ⊢
        have hsame := h.of_plan hplan hpinned hactive
        split
        · exact holds_pure (hsame.of_plan rfl rfl rfl)
        · refine holds_bind ((holds_any _ _).mono (fun rows c₂ _ => ?_) fun _ _ => trivial)
          refine holds_bind ((holds_any _ _).mono (fun event c₃ _ => ?_) fun _ _ => trivial)
          refine holds_pure (hsame.accept hratio ?_ rfl rfl rfl)
          rw [hpinned, hactive]
          exact hadmits
  · obtain ⟨r, hr, -⟩ := h
    cases hr

/-! ### What stays -/

/-- A call that puts live records of a workspace and enforces the limit. -/
structure Puts (env : Platform K) (w w' : World K) (workspaceId : Bytes)
    (rs : List (MemoryRecord K)) (t : Nat) : Prop where
  live : ∀ r ∈ rs, r.workspaceId = workspaceId ∧ r.tombstone = false
  options : w'.engine.options = w.engine.options
  later : w.tick ≤ t
  resident : w'.engine.toResident =
    ((putAll env w rs).enforceResidentHardLimit env w.engine.residentLimitBytes t).1

section Put
variable {w' : World K} {workspaceId : Bytes} {rs : List (MemoryRecord K)} {t : Nat}

omit [IsStrictOrderedRing K] in
theorem Puts.evicts (h : Puts env w w' workspaceId rs t) : EvictsRanked env
    w.engine.residentLimitBytes w.tick (putAll env w rs) w'.engine.toResident := by
  rw [h.resident]
  exact (evictsRanked_enforceResidentHardLimit env _ _ t).mono h.later

omit [IsStrictOrderedRing K] in
/-- No pinned record is evicted. -/
theorem Puts.pinned_eq (h : Puts env w w' workspaceId rs t) (hkeys : AtKeys (putAll env w rs)) :
    counted w'.engine.records (isPinnedIn workspaceId) =
      counted (putAll env w rs).records (isPinnedIn workspaceId) := by
  apply Nat.le_antisymm
  · exact counted_le fun k r hr hkind => ⟨h.evicts.evicts.subset hr, hkind⟩
  · apply counted_le
    intro k r hr hkind
    rcases h.evicts.evicts.lookup hkeys hr with hkept | ⟨-, hunpinned⟩
    · exact ⟨hkept, hkind⟩
    · rw [isPinnedIn, hunpinned, Bool.and_false] at hkind
      cases hkind

omit [IsStrictOrderedRing K] in
/-- The other live records stay, up to those at risk. -/
theorem Puts.unpinned_le (h : Puts env w w' workspaceId rs t) (hkeys : AtKeys (putAll env w rs))
    (hweighed : Weighed (putAll env w rs)) :
    counted (putAll env w rs).records (isUnpinnedIn workspaceId) ≤
      counted w'.engine.records (isUnpinnedIn workspaceId) +
        atRisk env w (putAll env w rs) workspaceId := by
  classical
  rw [counted_split _ _ fun r => decide (w.engine.residentLimitBytes ≠ 0 ∧
    w.engine.residentLimitBytes <
      weightBesides (putAll env w rs).records (Outranked env w.tick ∅ r)), Nat.add_comm]
  apply Nat.add_le_add
  · apply counted_le
    intro k r hr hkind
    obtain ⟨hkind, hsafe⟩ := Bool.and_eq_true_iff.mp hkind
    refine ⟨?_, hkind⟩
    rw [Bool.not_eq_true', decide_eq_false_iff_not, not_and, not_lt] at hsafe
    by_cases hlimit : w.engine.residentLimitBytes = 0
    · rw [h.resident, Resident.enforceResidentHardLimit, if_pos hlimit]
      exact hr
    · rw [← hr]
      refine h.evicts.keeps hweighed hkeys ?_ k (Set.mem_singleton k)
      intro k' hk' n hn _
      rw [Set.mem_singleton_iff.mp hk', hr] at hn
      obtain rfl := Option.some.inj hn
      refine le_trans (MapTotal.weight_le _ _ ?_) (hsafe hlimit)
      intro k' r' hr' hcounts
      have hstays : ¬ Outranked env w.tick {k} r r' := fun hgone => hcounts (if_pos hgone)
      refine ⟨hr', ?_⟩
      rw [if_neg hstays, if_neg]
      rintro ⟨-, hunpinned, hrank⟩
      refine hstays ⟨?_, hunpinned, hrank⟩
      -- the record does not rank below itself
      rintro hsame
      rw [Set.mem_singleton_iff, ← hkeys k' r' hr'] at hsame
      subst hsame
      obtain rfl := Option.some.inj (hr.symm.trans hr')
      exact absurd (hrank w.tick (Nat.le_refl _)) (lt_irrefl _)
  · apply counted_le
    intro k r hr hkind
    exact ⟨hr, by simpa using hkind⟩

omit [Field K] [LinearOrder K] [IsStrictOrderedRing K] in
/-- The records that are put, by their kind. -/
theorem countP_live (hlive : ∀ r ∈ rs, r.workspaceId = workspaceId ∧ r.tombstone = false) :
    rs.countP (isPinnedIn workspaceId) = rs.countP (·.pinned) ∧
      rs.countP (isPinnedIn workspaceId) + rs.countP (isUnpinnedIn workspaceId) = rs.length := by
  induction rs with
  | nil => exact ⟨rfl, rfl⟩
  | cons r rest ih =>
    obtain ⟨hpinned, hlength⟩ := ih fun x hx => hlive x (List.mem_cons_of_mem _ hx)
    obtain ⟨hws, htomb⟩ := hlive r List.mem_cons_self
    have hkind : isPinnedIn workspaceId r = r.pinned := by simp [isPinnedIn, hws, htomb]
    have hkind' : isUnpinnedIn workspaceId r = !r.pinned := by simp [isUnpinnedIn, hws, htomb]
    simp only [List.countP_cons, List.length_cons, hkind, hkind']
    cases r.pinned <;> simp <;> omega

/-- The counts of a workspace before and after a call. -/
structure Tally (env : Platform K) (w w' : World K) (workspaceId : Bytes)
    (rs : List (MemoryRecord K)) : Prop where
  pinned : counted w'.engine.records (isPinnedIn workspaceId) +
      replaced (isPinnedIn workspaceId) w.engine.records rs =
    (computeWorkspacePinStats w.engine.records workspaceId).pinned + rs.countP (·.pinned)
  unpinned_ge : (computeWorkspacePinStats w.engine.records workspaceId).active + rs.length ≤
    (computeWorkspacePinStats w.engine.records workspaceId).pinned + rs.countP (·.pinned) +
      (counted w'.engine.records (isUnpinnedIn workspaceId) +
        (replaced (isUnpinnedIn workspaceId) w.engine.records rs +
          atRisk env w (putAll env w rs) workspaceId))
  unpinned_le : counted w'.engine.records (isUnpinnedIn workspaceId) +
      replaced (isUnpinnedIn workspaceId) w.engine.records rs +
      ((computeWorkspacePinStats w.engine.records workspaceId).pinned + rs.countP (·.pinned)) ≤
    (computeWorkspacePinStats w.engine.records workspaceId).active + rs.length

omit [IsStrictOrderedRing K] in
theorem Puts.tally (h : Puts env w w' workspaceId rs t) (hkeys : AtKeys (putAll env w rs))
    (hweighed : Weighed (putAll env w rs)) : Tally env w w' workspaceId rs := by
  have hpinned := h.pinned_eq hkeys
  have hunpinned := h.unpinned_le hkeys hweighed
  have hless : counted w'.engine.records (isUnpinnedIn workspaceId) ≤
      counted (putAll env w rs).records (isUnpinnedIn workspaceId) :=
    counted_le fun k r hr hkind => ⟨h.evicts.evicts.subset hr, hkind⟩
  have hput := counted_putAll (isPinnedIn workspaceId) env w.engine.toResident rs
  have hput' := counted_putAll (isUnpinnedIn workspaceId) env w.engine.toResident rs
  obtain ⟨hcount, hlength⟩ := countP_live h.live
  have hstats := pinned_stats w.engine.records workspaceId
  have hactive := active_stats w.engine.records workspaceId
  change counted (putAll env w rs).records _ + _ = _ at hput hput'
  constructor
  · omega
  · omega
  · omega

theorem ratioKept_iff (w' : World K) (workspaceId : Bytes) (h : Governed w'.engine.options) :
    RatioKept w' workspaceId ↔ (counted w'.engine.records (isPinnedIn workspaceId) : K) ≤
      w'.engine.options.maxPinnedRatio * (counted w'.engine.records (isPinnedIn workspaceId) +
        counted w'.engine.records (isUnpinnedIn workspaceId)) := by
  have hle : (computeWorkspacePinStats w'.engine.records workspaceId).pinned ≤
      (computeWorkspacePinStats w'.engine.records workspaceId).active := by
    rw [pinned_stats, active_stats]
    exact Nat.le_add_right _ _
  have hiff := pinnedRatio_le_iff hle h.positive
  rw [active_stats, pinned_stats, Nat.cast_add] at hiff
  rw [RatioKept, pinned_stats, active_stats]
  exact hiff

/-- A call that admits its pins, and has room for them, keeps the ratio. -/
theorem Tally.ratioKept (h : Tally env w w' workspaceId rs)
    (hoptions : w'.engine.options = w.engine.options) (hratio : Governed w.engine.options)
    (hadmitted : (((computeWorkspacePinStats w.engine.records workspaceId).pinned +
        rs.countP (·.pinned) : Nat) : K) ≤ w.engine.options.maxPinnedRatio *
      (((computeWorkspacePinStats w.engine.records workspaceId).active + rs.length : Nat) : K))
    (hroom : RoomForPins env w workspaceId rs) : RatioKept w' workspaceId := by
  rw [ratioKept_iff w' workspaceId (hoptions ▸ hratio), hoptions]
  obtain ⟨hpinned, hunpinned, -⟩ := h
  have hfits : (((computeWorkspacePinStats w.engine.records workspaceId).pinned +
        rs.countP (·.pinned) : Nat) : K) ≤ w.engine.options.maxPinnedRatio *
      (((computeWorkspacePinStats w.engine.records workspaceId).active + rs.length : Nat) -
        (replaced (isUnpinnedIn workspaceId) w.engine.records rs +
          atRisk env w (putAll env w rs) workspaceId : Nat)) := by
    rcases hroom with hnone | hroom
    · rw [hnone, Nat.cast_zero, sub_zero]
      exact hadmitted
    · exact hroom
  obtain ⟨hpositive, hproper⟩ := hratio
  generalize w.engine.options.maxPinnedRatio = ratio at *
  generalize (computeWorkspacePinStats w.engine.records workspaceId).pinned +
    rs.countP (·.pinned) = pins at *
  generalize (computeWorkspacePinStats w.engine.records workspaceId).active + rs.length = active
    at *
  generalize replaced (isUnpinnedIn workspaceId) w.engine.records rs +
    atRisk env w (putAll env w rs) workspaceId = extra at *
  generalize counted w'.engine.records (isPinnedIn workspaceId) = pinned at *
  generalize counted w'.engine.records (isUnpinnedIn workspaceId) = unpinned at *
  have hstay : (active : K) - extra ≤ pins + unpinned := by
    have hcast : (active : K) ≤ pins + (unpinned + extra) := by exact_mod_cast hunpinned
    linarith
  have hfewer : (pinned : K) ≤ pins := by
    have hle : pinned ≤ pins := by omega
    exact_mod_cast hle
  -- fewer pins are a smaller share
  have hshare := mul_le_mul_of_nonneg_left hstay hpositive.le
  have hrest := mul_le_mul_of_nonneg_left hfewer (sub_nonneg.mpr hproper.le)
  linarith

/-- Where nothing is at risk and no pinned record is replaced, a call that keeps the ratio had
room for its pins. -/
theorem Tally.room (h : Tally env w w' workspaceId rs)
    (hoptions : w'.engine.options = w.engine.options) (hratio : Governed w.engine.options)
    (hsafe : atRisk env w (putAll env w rs) workspaceId = 0)
    (hnew : replaced (isPinnedIn workspaceId) w.engine.records rs = 0)
    (hkept : RatioKept w' workspaceId) : RoomForPins env w workspaceId rs := by
  rw [ratioKept_iff w' workspaceId (hoptions ▸ hratio), hoptions] at hkept
  obtain ⟨hpinned, -, hunpinned⟩ := h
  rw [hnew, Nat.add_zero] at hpinned
  right
  rw [hsafe, Nat.add_zero, ← hpinned]
  rw [← hpinned] at hunpinned
  refine hkept.trans (mul_le_mul_of_nonneg_left ?_ hratio.positive.le)
  have hcast : ((counted w'.engine.records (isUnpinnedIn workspaceId) +
      replaced (isUnpinnedIn workspaceId) w.engine.records rs +
      counted w'.engine.records (isPinnedIn workspaceId) : Nat) : K) ≤
      ((computeWorkspacePinStats w.engine.records workspaceId).active + rs.length : Nat) := by
    exact_mod_cast hunpinned
  push_cast at hcast ⊢
  linarith

end Put

/-! ### The calls -/

theorem shares_of_prepared (hratio : Governed w.engine.options) {draft : WriteDraft K} {c : Cursor}
    (hprep : prepareWrite env w input = (some (.write input draft), c)) : Shares w input draft := by
  rw [prepareWrite] at hprep
  split at hprep
  · cases hprep
  · split at hprep
    · rename_i draft' c' hrun
      split at hprep
      · cases hprep
      · obtain ⟨hrequest, rfl⟩ := Prod.mk.inj hprep
        obtain rfl := (Request.write.inj (Option.some.inj hrequest)).2
        exact (holds_writeDraft_shares env hratio input).returned _ _ hrun
    · cases hprep

omit [IsStrictOrderedRing K] in
theorem puts_of_prepared {draft : WriteDraft K} {c : Cursor}
    (hprep : prepareWrite env w input = (some (.write input draft), c))
    (hlater : w.cursor.Before c) (hfresh : Fresh input draft) (hok : fate.main.ok = true) :
    Puts env w (write env fate w input).1 input.workspaceId (storedRecords env w input) c.tick := by
  obtain ⟨output, -, henforcing⟩ := enforcing_of_prepared hprep hlater hfresh hok
  constructor
  · rw [henforcing.records]
    exact hfresh.named
  · exact (call_options env fate w (.write input)).1
  · exact hlater.tick
  · exact henforcing.resident

/-- A `Write` that has room for its pins keeps the ratio. -/
theorem Ready.governsWrite (hready : Ready w) (hratio : Governed w.engine.options)
    (h : WriteHasRoom env fate w input) : GovernsWrite env fate w input := by
  intro output hout hok hany
  rcases prepareWrite_cases env w input with ⟨draft, c, hprep, hlater, hfresh⟩ | ⟨hnone, -⟩
  · have hmain := ok_of_prepared hprep hout hok
    have hputs := puts_of_prepared hprep hlater hfresh hmain
    obtain ⟨hkeys, hweighed⟩ := hready.upserts env (storedRecords env w input)
    refine (hputs.tally hkeys hweighed).ratioKept hputs.options hratio ?_ (h hmain hany)
    have hrecords : storedRecords env w input = draft.plan.upserts := by
      rw [storedRecords, hprep]
      rfl
    have hshares := shares_of_prepared hratio hprep
    rw [hrecords] at hany ⊢
    rw [← hshares.pinned, ← hshares.active]
    exact hshares.share hany
  · obtain ⟨r, hr, -⟩ := hany
    rw [storedRecords, hnone] at hr
    cases hr

/-- Where nothing is at risk and no pinned record is replaced, the condition is exact. -/
theorem Ready.writeHasRoom (hready : Ready w) (hratio : Governed w.engine.options)
    (hsafe : atRisk env w (putAll env w (storedRecords env w input)) input.workspaceId = 0)
    (hnew : replaced (isPinnedIn input.workspaceId) w.engine.records
      (storedRecords env w input) = 0)
    (h : GovernsWrite env fate w input) : WriteHasRoom env fate w input := by
  intro hmain hany
  rcases prepareWrite_cases env w input with ⟨draft, c, hprep, hlater, hfresh⟩ | ⟨hnone, -⟩
  · obtain ⟨output, hok, henforcing⟩ := enforcing_of_prepared hprep hlater hfresh hmain
    have hputs := puts_of_prepared hprep hlater hfresh hmain
    obtain ⟨hkeys, hweighed⟩ := hready.upserts env (storedRecords env w input)
    exact (hputs.tally hkeys hweighed).room hputs.options hratio hsafe hnew
      (h output henforcing.returned hok hany)
  · obtain ⟨r, hr, -⟩ := hany
    rw [storedRecords, hnone] at hr
    cases hr

section Pins
variable {workspaceId memoryId : Bytes} {loaded : MemoryRecord K} {plan : Plan K} {c : Cursor}

omit [IsStrictOrderedRing K] in
theorem Pinning.puts (h : Pinning env w workspaceId memoryId true loaded plan c)
    (hlaw : env.Lawful) (hS : Sourced env Plain w) (hclean : Clean workspaceId)
    (hlive : loaded.tombstone = false) (hok : fate.main.ok = true) :
    Puts env w (pin env fate w workspaceId memoryId true).1 workspaceId
      [pinnedRecord w.engine loaded true (env.clock w.tick)] c.tick := by
  have hnamed : ∀ r, loadRecord env w.engine w.store.reader workspaceId memoryId = .ok r →
      r.workspaceId ≠ [] :=
    fun r hr => names_plain.workspace_ne (hS.names_loaded hlaw hr)
  constructor
  · intro r hr
    obtain rfl := List.mem_singleton.mp hr
    exact ⟨(names_loaded_of_clean hlaw hS hclean h.load).1, hlive⟩
  · exact (call_options env fate w (.pin workspaceId memoryId true)).1
  · exact ((holds_pinDraft env true hnamed).returned _ c h.draft).1.tick
  · rw [h.succeeded hok, putAll, ← h.upserts, settlePin, Plan.applyInMemory, h.removals]
    rfl

/-- A pin that was not refused fits the ratio of the projected counts. -/
theorem Pinning.admits (h : Pinning env w workspaceId memoryId true loaded plan c)
    (hratio : Governed w.engine.options) (hunpinned : loaded.pinned = false) :
    (((computeWorkspacePinStats w.engine.records workspaceId).pinned + 1 : Nat) : K) ≤
      w.engine.options.maxPinnedRatio *
        (((computeWorkspacePinStats w.engine.records workspaceId).active + 1 : Nat) : K) := by
  have hadmitted := h.admitted
  have hnew : (true && !false) = true := rfl
  rw [pinRefusal, hunpinned, if_pos hnew] at hadmitted
  dsimp only at hadmitted
  split at hadmitted
  · cases hadmitted
  · split at hadmitted
    · cases hadmitted
    · rename_i hblocked
      exact le_of_not_blocked hratio (Bool.eq_false_iff.mpr hblocked)

omit [IsStrictOrderedRing K] in
/-- A pin of a record that is loaded succeeds if it is not refused, the record can be
written and the batch is. -/
theorem pinning_of_loaded (hload : loadRecord env w.engine w.store.reader workspaceId memoryId =
      .ok loaded) (hadmitted : pinRefusal w.engine workspaceId loaded true = none)
    (hwritable : (recordTree env loaded).writable = true) :
    ∃ plan c, Pinning env w workspaceId memoryId true loaded plan c := by
  cases pinDrawn env w workspaceId memoryId true with
  | missing hload' => cases hload.symm.trans hload'
  | refused hload' hrefusal =>
    obtain rfl := Except.ok.inj (hload.symm.trans hload')
    exact absurd hadmitted hrefusal
  | unwritable hload' hjam =>
    obtain rfl := Except.ok.inj (hload.symm.trans hload')
    cases hwritable.symm.trans hjam
  | drawn hpinning =>
    obtain rfl := Except.ok.inj (hload.symm.trans hpinning.load)
    exact ⟨_, _, hpinning⟩

omit [IsStrictOrderedRing K] in
/-- A pin that returns true has stored the record that it loaded. -/
theorem pinning_of_ok (hresult : (pin env fate w workspaceId memoryId true).2 = some (.ok ())) :
    fate.main.ok = true ∧
      ∃ loaded plan c, Pinning env w workspaceId memoryId true loaded plan c := by
  cases pinDrawn env w workspaceId memoryId true with
  | missing _ hdraft =>
    rw [pin_eq_refused hdraft] at hresult
    cases hresult
  | refused _ _ hdraft =>
    rw [pin_eq_refused hdraft] at hresult
    cases hresult
  | unwritable _ _ hdraft =>
    rw [pin_eq_thrown hdraft] at hresult
    cases hresult
  | drawn hpinning =>
    refine ⟨?_, _, _, _, hpinning⟩
    by_contra hfailed
    rw [pin, hpinning.draft] at hresult
    dsimp only at hresult
    rw [if_neg hfailed] at hresult
    cases hresult

/-- A pin that has room keeps the ratio. -/
theorem Ready.governsPin (hready : Ready w) (hratio : Governed w.engine.options)
    (hlaw : env.Lawful) (hS : Sourced env Plain w) (hclean : Clean workspaceId)
    (h : PinHasRoom env fate w workspaceId memoryId) :
    GovernsPin env fate w workspaceId memoryId := by
  intro before hload hlive hunpinned hresult
  obtain ⟨hok, loaded, plan, c, hpinning⟩ := pinning_of_ok hresult
  obtain rfl := Except.ok.inj (hload.symm.trans hpinning.load)
  have hputs := hpinning.puts hlaw hS hclean hlive hok
  obtain ⟨hkeys, hweighed⟩ := hready.upserts env
    [pinnedRecord w.engine before true (env.clock w.tick)]
  exact (hputs.tally hkeys hweighed).ratioKept hputs.options hratio
    (hpinning.admits hratio hunpinned)
    (h before hload hlive hunpinned hpinning.admitted hpinning.writable hok)

/-- Where nothing is at risk, the condition is exact. -/
theorem Ready.pinHasRoom (hready : Ready w) (hratio : Governed w.engine.options)
    (hlaw : env.Lawful) (hS : Sourced env Plain w) (hclean : Clean workspaceId)
    (hsafe : ∀ before, loadRecord env w.engine w.store.reader workspaceId memoryId = .ok before →
      atRisk env w (putAll env w [pinnedRecord w.engine before true (env.clock w.tick)])
        workspaceId = 0)
    (h : GovernsPin env fate w workspaceId memoryId) :
    PinHasRoom env fate w workspaceId memoryId := by
  intro before hload hlive hunpinned hadmitted hwritable hok
  obtain ⟨plan, c, hpinning⟩ := pinning_of_loaded hload hadmitted hwritable
  have hputs := hpinning.puts hlaw hS hclean hlive hok
  obtain ⟨hkeys, hweighed⟩ := hready.upserts env
    [pinnedRecord w.engine before true (env.clock w.tick)]
  refine (hputs.tally hkeys hweighed).room hputs.options hratio (hsafe before hload) ?_
    (h before hload hlive hunpinned (by rw [hpinning.succeeded hok]))
  -- what it replaces is the record that it loads
  obtain ⟨hws, hid, -⟩ := names_loaded_of_clean hlaw hS hclean hload
  have hkey : w.engine.records[recordMapKey workspaceId memoryId]?.any (isPinnedIn workspaceId) =
      false := by
    rcases loadRecord_cases hload with hheld | ⟨hnone, -⟩
    · rw [hheld, Option.any_some, isPinnedIn, hunpinned, Bool.and_false]
    · rw [hnone]
      rfl
  rw [replaced, replaced]
  change (if w.engine.records[recordMapKey before.workspaceId before.id]?.any _ = true then 1
    else 0) + 0 = 0
  rw [hws, hid, hkey, if_neg Bool.false_ne_true]

end Pins

end Calls

section Examples
open Reference

/-- Without a limit for what is resident. -/
def unlimited : MemoryEngineOptions ℚ := { options with memBudgetMb := 0 }

/-- Two records are written. -/
def pair : List (Step ℚ) :=
  written ++ [.call (put (ascii "w") (ascii "b") (ascii "hello")) applied]

end Examples

end PoorguyMem
