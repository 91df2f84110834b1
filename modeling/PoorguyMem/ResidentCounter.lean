import PoorguyMem.Accounting

/-!
# The resident counter under concurrent calls

`UpsertRecordInMemory`, `RemoveRecordInMemory` and each pass of the loop of
`EnforceResidentHardLimit` change the maps under `records_mu_` and add to or
subtract from `resident_used_bytes_` after they have left the lock. Calls on
several threads interleave between the two steps: the counter lags behind the
charges by what the calls in flight still have to do.
-/

namespace PoorguyMem

open ByteString

variable {K : Type}

/-! ### Atomic steps -/

/-- The maps that `records_mu_` guards. -/
structure LockedMaps (K : Type) where
  records : StringMap (MemoryRecord K)
  dedupIndex : StringMap Bytes
  residentChargeBytes : StringMap Nat

def LockedMaps.empty : LockedMaps K := ⟨∅, ∅, ∅⟩

/-- What a call does to the counter after it has left the lock. -/
inductive Adjustment where
  | fetchAdd (bytes : Nat)
  | fetchSub (bytes : Nat)
  deriving DecidableEq

namespace LockedMaps

/-- The locked part of `UpsertRecordInMemory`. -/
def upsert (maps : LockedMaps K) (record : MemoryRecord K) : LockedMaps K × Adjustment :=
  let mapKey := recordMapKey record.workspaceId record.id
  let newCharge := estimateResidentCharge record
  let oldCharge := maps.residentChargeBytes.getD mapKey 0
  ({ records := maps.records.insert mapKey record
     dedupIndex :=
       if record.dedupKey = [] then maps.dedupIndex
       else maps.dedupIndex.insert (dedupMapKey record.workspaceId record.dedupKey) record.id
     residentChargeBytes :=
       if newCharge = 0 then maps.residentChargeBytes.erase mapKey
       else maps.residentChargeBytes.insert mapKey newCharge },
    if oldCharge ≤ newCharge then .fetchAdd (newCharge - oldCharge)
    else .fetchSub (oldCharge - newCharge))

/-- The locked part of `RemoveRecordInMemory`. -/
def remove (maps : LockedMaps K) (record : MemoryRecord K) : LockedMaps K × Option Adjustment :=
  let mapKey := recordMapKey record.workspaceId record.id
  let removedCharge := maps.residentChargeBytes.getD mapKey 0
  match maps.records[mapKey]? with
  | none => ({ maps with residentChargeBytes := maps.residentChargeBytes.erase mapKey }, none)
  | some held =>
    ({ records := maps.records.erase mapKey
       dedupIndex :=
         if held.dedupKey = [] then maps.dedupIndex
         else maps.dedupIndex.erase (dedupMapKey record.workspaceId held.dedupKey)
       residentChargeBytes := maps.residentChargeBytes.erase mapKey },
      if 0 < removedCharge then some (.fetchSub removedCharge) else none)

/-- What an eviction does to the maps. -/
def evict (maps : LockedMaps K) (victim : MemoryRecord K) : LockedMaps K × Option Adjustment :=
  let mapKey := recordMapKey victim.workspaceId victim.id
  let victimCharge := maps.residentChargeBytes.getD mapKey 0
  ({ maps with
      records := maps.records.erase mapKey
      residentChargeBytes := maps.residentChargeBytes.erase mapKey },
    if 0 < victimCharge then some (.fetchSub victimCharge) else none)

end LockedMaps

/-- The maps, the counter, and what the calls in flight still have to do to it. -/
structure Shared (K : Type) where
  maps : LockedMaps K
  residentUsedBytes : UInt64
  owed : List Adjustment

def Shared.empty : Shared K := ⟨LockedMaps.empty, 0, []⟩

/-- The atomic steps of the calls. `settle i` is the counter update of a call in flight. -/
inductive AtomicStep (K : Type) where
  | upsert (record : MemoryRecord K)
  | remove (record : MemoryRecord K)
  | evict (protectedKeys : List Bytes) (t : Nat)
  | settle (i : Nat)

def Adjustment.apply (used : UInt64) : Adjustment → UInt64
  | .fetchAdd bytes => used + UInt64.ofNat bytes
  | .fetchSub bytes => used - UInt64.ofNat bytes

section Steps
variable [Field K] [LinearOrder K]

/-- The record that a pass of the loop of `EnforceResidentHardLimit` evicts, if it gets
that far. -/
def Shared.victim (env : Platform K) (limit : Nat) (s : Shared K) (protectedKeys : List Bytes)
    (t : Nat) : Option (MemoryRecord K) :=
  if limit = 0 ∨ s.residentUsedBytes.toNat ≤ limit ∨ s.maps.records.isEmpty then none
  else
    (Resident.selectEvictionCandidate env t s.maps.records protectedKeys (env.clock t)).filter fun victim =>
      s.maps.records.contains (recordMapKey victim.workspaceId victim.id)

def Shared.next (env : Platform K) (limit : Nat) (s : Shared K) : AtomicStep K → Shared K
  | .upsert record =>
    let (maps, adjustment) := s.maps.upsert record
    { s with maps := maps, owed := s.owed ++ [adjustment] }
  | .remove record =>
    let (maps, adjustment) := s.maps.remove record
    { s with maps := maps, owed := s.owed ++ adjustment.toList }
  | .evict protectedKeys t =>
    match s.victim env limit protectedKeys t with
    | none => s
    | some victim =>
      let (maps, adjustment) := s.maps.evict victim
      { s with maps := maps, owed := s.owed ++ adjustment.toList }
  | .settle i =>
    match s.owed[i]? with
    | none => s
    | some adjustment =>
      { s with
        residentUsedBytes := adjustment.apply s.residentUsedBytes, owed := s.owed.eraseIdx i }

end Steps

/-- The counter goes below zero in the step. -/
def Shared.Wraps (s : Shared K) : AtomicStep K → Prop
  | .settle i => ∃ bytes, s.owed[i]? = some (.fetchSub bytes) ∧ s.residentUsedBytes.toNat < bytes
  | _ => False

/-! ### The lag of the counter -/

/-- By how much the adjustment changes the counter. -/
def Adjustment.change : Adjustment → Int
  | .fetchAdd bytes => bytes
  | .fetchSub bytes => -bytes

def Adjustment.bytesOff : Adjustment → Nat
  | .fetchAdd _ => 0
  | .fetchSub bytes => bytes

/-- What the adjustments come to. -/
def lag (owed : List Adjustment) : Int := (owed.map Adjustment.change).sum

/-- The bytes that are charged and those still to be taken off fit the counter. -/
def Shared.Fits (s : Shared K) : Prop :=
  MapTotal.total s.maps.residentChargeBytes + (s.owed.map Adjustment.bytesOff).sum < 2 ^ 64

instance (s : Shared K) : Decidable s.Fits := inferInstanceAs (Decidable (_ < _))

/-- Where a call takes bytes off the counter, what the other calls in flight still have to
add, less what they have to take off, is covered by the charges in the map. -/
def Shared.Backed (s : Shared K) : AtomicStep K → Prop
  | .settle i => ∀ bytes, s.owed[i]? = some (.fetchSub bytes) →
      lag (s.owed.eraseIdx i) ≤ MapTotal.total s.maps.residentChargeBytes
  | _ => True

/-- The counter is behind the charges by the lag, and charges go with records. -/
structure Shared.Lagging (s : Shared K) : Prop where
  used : (s.residentUsedBytes.toNat : Int) + lag s.owed =
    MapTotal.total s.maps.residentChargeBytes
  keys : ∀ k : Bytes, s.maps.residentChargeBytes[k]?.isSome = s.maps.records[k]?.isSome

@[simp] theorem lag_append (a b : List Adjustment) : lag (a ++ b) = lag a + lag b := by
  simp [lag]

/-- The adjustment at an index and the others. -/
theorem lag_eraseIdx {owed : List Adjustment} {i : Nat} {adjustment : Adjustment}
    (h : owed[i]? = some adjustment) : lag owed = adjustment.change + lag (owed.eraseIdx i) := by
  induction owed generalizing i with
  | nil => cases h
  | cons first rest ih =>
    cases i with
    | zero =>
      obtain rfl := Option.some.inj h
      simp [lag]
    | succ i =>
      have hrest := ih (i := i) (by simpa using h)
      simp only [lag, List.map_cons, List.sum_cons, List.eraseIdx_cons_succ] at hrest ⊢
      omega

/-- All the bytes to be taken off bound the lag from below. -/
theorem neg_bytesOff_le_lag (owed : List Adjustment) :
    -((owed.map Adjustment.bytesOff).sum : Int) ≤ lag owed := by
  induction owed with
  | nil => simp [lag]
  | cons first rest ih =>
    cases first with
    | fetchAdd bytes =>
      simp only [lag, List.map_cons, List.sum_cons, Adjustment.bytesOff,
        Adjustment.change] at ih ⊢
      omega
    | fetchSub bytes =>
      simp only [lag, List.map_cons, List.sum_cons, Adjustment.bytesOff,
        Adjustment.change] at ih ⊢
      omega

theorem bytesOff_eraseIdx_le (owed : List Adjustment) (i : Nat) :
    ((owed.eraseIdx i).map Adjustment.bytesOff).sum ≤ (owed.map Adjustment.bytesOff).sum := by
  apply List.Sublist.sum_le_sum
  · exact (List.eraseIdx_sublist owed i).map _
  · exact fun _ _ => Nat.zero_le _

/-! ### Steps keep the lag -/

theorem Shared.lagging_empty : (Shared.empty : Shared K).Lagging where
  used := rfl
  keys _ := by simp [Shared.empty, LockedMaps.empty]

section Updates
variable {s : Shared K}

theorem Shared.Lagging.upsert (h : s.Lagging) (record : MemoryRecord K) :
    Shared.Lagging { s with
      maps := (s.maps.upsert record).1, owed := s.owed ++ [(s.maps.upsert record).2] } := by
  have hne : estimateResidentCharge record ≠ 0 := Nat.ne_of_gt (estimateResidentCharge_pos record)
  have hcharges : (s.maps.upsert record).1.residentChargeBytes =
      s.maps.residentChargeBytes.insert (recordMapKey record.workspaceId record.id)
        (estimateResidentCharge record) := if_neg hne
  constructor
  · have hbefore := MapTotal.total_erase s.maps.residentChargeBytes
      (recordMapKey record.workspaceId record.id)
    have hchange : (s.maps.upsert record).2.change = estimateResidentCharge record -
        s.maps.residentChargeBytes.getD (recordMapKey record.workspaceId record.id) 0 := by
      rw [LockedMaps.upsert]
      dsimp only
      split
      · simp only [Adjustment.change]
        omega
      · simp only [Adjustment.change]
        omega
    have hused := h.used
    dsimp only
    rw [hcharges, MapTotal.total_insert, lag_append]
    simp only [lag, List.map_cons, List.map_nil, List.sum_cons, List.sum_nil] at hused ⊢
    omega
  · intro k
    dsimp only
    rw [hcharges]
    exact isSome_insert h.keys

/-- Taking a record with its charge out of the maps. -/
theorem Shared.Lagging.erase (h : s.Lagging) {maps : LockedMaps K} {mapKey : Bytes}
    (hrecords : maps.records = s.maps.records.erase mapKey)
    (hcharges : maps.residentChargeBytes = s.maps.residentChargeBytes.erase mapKey)
    {adjustment : Option Adjustment}
    (hadjustment : adjustment = if 0 < s.maps.residentChargeBytes.getD mapKey 0 then
      some (.fetchSub (s.maps.residentChargeBytes.getD mapKey 0)) else none) :
    Shared.Lagging { s with maps := maps, owed := s.owed ++ adjustment.toList } := by
  constructor
  · have hbefore := MapTotal.total_erase s.maps.residentChargeBytes mapKey
    have hchange : lag adjustment.toList = -(s.maps.residentChargeBytes.getD mapKey 0 : Int) := by
      rw [hadjustment]
      split
      · simp [lag, Adjustment.change]
      · simp only [Option.toList_none, lag, List.map_nil, List.sum_nil]
        omega
    have hused := h.used
    dsimp only
    rw [hcharges, lag_append, hchange]
    omega
  · intro k
    dsimp only
    rw [hcharges, hrecords]
    exact isSome_erase h.keys

theorem Shared.Lagging.remove (h : s.Lagging) (record : MemoryRecord K) :
    Shared.Lagging { s with
      maps := (s.maps.remove record).1
      owed := s.owed ++ (s.maps.remove record).2.toList } := by
  rw [LockedMaps.remove]
  rcases hheld : s.maps.records[recordMapKey record.workspaceId record.id]? with _ | held
  · -- no record, so no charge: nothing has changed
    have hnone : s.maps.residentChargeBytes[recordMapKey record.workspaceId record.id]? = none := by
      rw [← Option.not_isSome_iff_eq_none, h.keys, hheld]
      simp
    rw [MapTotal.erase_eq_self _ hnone, Option.toList_none, List.append_nil]
    exact h
  · exact h.erase rfl rfl rfl

/-- The counter and an adjustment that neither wraps at the top nor at the bottom. -/
theorem Shared.Lagging.settle (h : s.Lagging) (hfits : s.Fits) {i : Nat} {adjustment : Adjustment}
    (howed : s.owed[i]? = some adjustment) (hnot : ¬ s.Wraps (K := K) (.settle i)) :
    Shared.Lagging { s with
      residentUsedBytes := adjustment.apply s.residentUsedBytes
      owed := s.owed.eraseIdx i } := by
  have hused := h.used
  have hsplit := lag_eraseIdx howed
  have hoff := neg_bytesOff_le_lag (s.owed.eraseIdx i)
  have hless := bytesOff_eraseIdx_le s.owed i
  have htop := hfits
  rw [Shared.Fits] at htop
  refine ⟨?_, h.keys⟩
  dsimp only
  cases adjustment with
  | fetchAdd bytes =>
    simp only [Adjustment.change] at hsplit
    have hsum : s.residentUsedBytes.toNat + bytes < 2 ^ 64 := by omega
    have hbytes : (UInt64.ofNat bytes).toNat = bytes :=
      UInt64.toNat_ofNat_of_lt' (show bytes < 2 ^ 64 by omega)
    have hafter : (s.residentUsedBytes + UInt64.ofNat bytes).toNat =
        s.residentUsedBytes.toNat + bytes := by
      rw [UInt64.toNat_add, hbytes, Nat.mod_eq_of_lt hsum]
    rw [Adjustment.apply, hafter]
    omega
  | fetchSub bytes =>
    simp only [Adjustment.change] at hsplit
    have hle : bytes ≤ s.residentUsedBytes.toNat := by
      by_contra hlt
      exact hnot ⟨bytes, howed, by omega⟩
    have hlt := s.residentUsedBytes.toNat_lt
    have hbytes : (UInt64.ofNat bytes).toNat = bytes :=
      UInt64.toNat_ofNat_of_lt' (show bytes < 2 ^ 64 by omega)
    have hafter : (s.residentUsedBytes - UInt64.ofNat bytes).toNat =
        s.residentUsedBytes.toNat - bytes := by
      rw [UInt64.toNat_sub_of_le, hbytes]
      rw [UInt64.le_iff_toNat_le, hbytes]
      exact hle
    rw [Adjustment.apply, hafter]
    omega

end Updates

section Runs
variable [Field K] [LinearOrder K] {env : Platform K} {limit : Nat} {s : Shared K}

theorem Shared.Lagging.next (h : s.Lagging) (hfits : s.Fits) {step : AtomicStep K}
    (hnot : ¬ s.Wraps step) : (s.next env limit step).Lagging := by
  cases step with
  | upsert record => exact h.upsert record
  | remove record => exact h.remove record
  | evict protectedKeys t =>
    rw [Shared.next]
    rcases s.victim env limit protectedKeys t with _ | victim
    · exact h
    · exact h.erase rfl rfl rfl
  | settle i =>
    rw [Shared.next]
    rcases howed : s.owed[i]? with _ | adjustment
    · exact h
    · exact h.settle hfits howed hnot

omit [Field K] [LinearOrder K] in
/-- A step wraps exactly where it is not backed. -/
theorem Shared.Lagging.wraps_iff (h : s.Lagging) (step : AtomicStep K) :
    ¬ s.Wraps step ↔ s.Backed step := by
  cases step with
  | settle i =>
    have hused := h.used
    constructor
    · intro hnot bytes howed
      have hsplit := lag_eraseIdx howed
      have hle : ¬ s.residentUsedBytes.toNat < bytes := fun hlt => hnot ⟨bytes, howed, hlt⟩
      simp only [Adjustment.change] at hsplit
      omega
    · rintro hbacked ⟨bytes, howed, hlt⟩
      have hsplit := lag_eraseIdx howed
      have hcovered := hbacked bytes howed
      simp only [Adjustment.change] at hsplit
      omega
  | _ => exact iff_of_true id trivial

/-- In every interleaving of the calls from an empty engine the counter never goes below
zero if and only if every subtraction is backed. -/
theorem counter_never_wraps_iff (env : Platform K) (limit : Nat) (steps : List (AtomicStep K))
    (hfits : Runs.Along (Shared.next env limit) (fun s _ => s.Fits) Shared.empty steps) :
    Runs.Along (Shared.next env limit) (fun s step => ¬ s.Wraps step) Shared.empty steps ↔
      Runs.Along (Shared.next env limit) Shared.Backed Shared.empty steps := by
  have along : ∀ (steps : List (AtomicStep K)) (s : Shared K), s.Lagging →
      Runs.Along (Shared.next env limit) (fun s _ => s.Fits) s steps →
      (Runs.Along (Shared.next env limit) (fun s step => ¬ s.Wraps step) s steps ↔
        Runs.Along (Shared.next env limit) Shared.Backed s steps) := by
    intro steps
    induction steps with
    | nil => exact fun _ _ _ => Iff.rfl
    | cons step rest ih =>
      intro s hlag hfits
      rw [Runs.Along, Runs.Along]
      constructor
      · rintro ⟨hnot, hrest⟩
        have hnext := ih _ (hlag.next hfits.1 hnot) hfits.2
        exact ⟨(hlag.wraps_iff step).mp hnot, hnext.mp hrest⟩
      · rintro ⟨hbacked, hrest⟩
        have hnot := (hlag.wraps_iff step).mpr hbacked
        have hnext := ih _ (hlag.next hfits.1 hnot) hfits.2
        exact ⟨hnot, hnext.mpr hrest⟩
  exact along steps Shared.empty Shared.lagging_empty hfits

end Runs

/-! ### Calls that run alone -/

def Resident.lockedMaps (s : Resident K) : LockedMaps K :=
  ⟨s.records, s.dedupIndex, s.residentChargeBytes⟩

/-- What is resident, with no call in flight. -/
def Resident.quiet (s : Resident K) : Shared K :=
  ⟨s.lockedMaps, UInt64.ofNat s.residentUsedBytes, []⟩

theorem ofNat_sub_of_le {a b : Nat} (h : b ≤ a) :
    UInt64.ofNat a - UInt64.ofNat b = UInt64.ofNat (a - b) := by
  rw [UInt64.sub_eq_iff_eq_add, ← UInt64.ofNat_add]
  congr 1
  omega

section Alone
variable [Field K] [LinearOrder K] {env : Platform K} {s : Resident K}

/-- An upsert that no other call comes in between is the update of the sequential engine. -/
theorem quiet_upsert (h : Balanced s) (limit : Nat) (record : MemoryRecord K) :
    Runs.exec (Shared.next env limit) s.quiet [.upsert record, .settle 0] =
      (s.upsertRecordInMemory env record).quiet := by
  have hle := h.chargeAt_le record
  rw [Resident.chargeAt] at hle
  simp only [Runs.exec_cons, Runs.exec_nil, Shared.next, Resident.quiet, Resident.lockedMaps,
    LockedMaps.upsert, Resident.upsertRecordInMemory, List.nil_append, List.getElem?_cons_zero,
    List.eraseIdx_cons_zero, Shared.mk.injEq, and_true, true_and]
  split
  · rw [Adjustment.apply, ← UInt64.ofNat_add]
  · rw [Adjustment.apply, ofNat_sub_of_le (by omega)]

theorem quiet_remove (h : Balanced s) (limit : Nat) (record : MemoryRecord K) :
    Runs.exec (Shared.next env limit) s.quiet [.remove record, .settle 0] =
      (s.removeRecordInMemory record).quiet := by
  have hle := h.chargeAt_le record
  rw [Resident.chargeAt] at hle
  rcases hheld : s.records[recordMapKey record.workspaceId record.id]? with _ | held
  · simp [Runs.exec_cons, Shared.next, Resident.quiet, Resident.lockedMaps, LockedMaps.remove,
      Resident.removeRecordInMemory, hheld]
  · by_cases hcharge : 0 < s.residentChargeBytes.getD (recordMapKey record.workspaceId record.id) 0
    · simp [Runs.exec_cons, Shared.next, Resident.quiet, Resident.lockedMaps, LockedMaps.remove,
        Resident.removeRecordInMemory, hheld, hcharge, Adjustment.apply, ofNat_sub_of_le hle]
    · have hzero : s.residentChargeBytes.getD (recordMapKey record.workspaceId record.id) 0 = 0 := by
        omega
      simp [Runs.exec_cons, Shared.next, Resident.quiet, Resident.lockedMaps, LockedMaps.remove,
        Resident.removeRecordInMemory, hheld, hzero]

theorem quiet_evict (h : Balanced s) {limit t : Nat} {protectedKeys : List Bytes}
    {victim : MemoryRecord K} (hvictim : s.quiet.victim env limit protectedKeys t = some victim) :
    Runs.exec (Shared.next env limit) s.quiet [.evict protectedKeys t, .settle 0] =
      (s.evict victim).quiet := by
  have hle := h.chargeAt_le victim
  rw [Resident.chargeAt] at hle
  rw [Runs.exec_cons, Shared.next, hvictim]
  by_cases hcharge : 0 < s.residentChargeBytes.getD (recordMapKey victim.workspaceId victim.id) 0
  · simp [Runs.exec_cons, Shared.next, Resident.quiet, Resident.lockedMaps, LockedMaps.evict,
      Resident.evict, hcharge, Adjustment.apply, ofNat_sub_of_le hle]
  · have hzero : s.residentChargeBytes.getD (recordMapKey victim.workspaceId victim.id) 0 = 0 := by
      omega
    simp [Runs.exec_cons, Shared.next, Resident.quiet, Resident.lockedMaps, LockedMaps.evict,
      Resident.evict, hzero]

end Alone

section Examples
open Reference

def exampleRecord : MemoryRecord ℚ :=
  newRecord (MemoryEngine.new (ascii "node") options) ⟨ascii "w", [], [], ascii "upsert"⟩
    (recordInput (ascii "a") (ascii "x") []) 1000 (ascii "a") false

/-- A record is put in and taken out, each call to its end. -/
theorem counter_never_wraps_inTurn :
    Runs.Along (Shared.next (platform ticking) 0) (fun s step => ¬ s.Wraps step) Shared.empty
        [.upsert exampleRecord, .settle 0, .remove exampleRecord, .settle 0] ↔
      Runs.Along (Shared.next (platform ticking) 0) Shared.Backed Shared.empty
        [.upsert exampleRecord, .settle 0, .remove exampleRecord, .settle 0] := by
  apply counter_never_wraps_iff
  refine ⟨?_, ?_, ?_, ?_, trivial⟩
  all_goals decide

/-- The charge of a record is taken off before it has been added. -/
theorem counter_wraps_overtaken :
    ¬ ∀ (limit : Nat) (steps : List (AtomicStep ℚ)),
      Runs.Along (Shared.next (platform ticking) limit) (fun s step => ¬ s.Wraps step)
        Shared.empty steps := by
  intro h
  obtain ⟨-, -, hnot, -⟩ := h 0 [.upsert exampleRecord, .remove exampleRecord, .settle 1]
  apply hnot
  have howed : ((Runs.exec (Shared.next (platform ticking) 0) Shared.empty
      [.upsert exampleRecord, .remove exampleRecord]).owed[1]?) =
      some (.fetchSub (estimateResidentCharge exampleRecord)) := by decide
  exact ⟨_, howed, estimateResidentCharge_pos exampleRecord⟩

end Examples

end PoorguyMem
