import PoorguyMem.Documents
import PoorguyMem.Lib.LastWriter

/-!
# Stamps

A record is stamped with its time, its version and its node, and `IsIncomingNewer`
compares the stamps in that order. A replay offers the records of the events to
the resident ones, each at its own key, and a resident record gives way to a newer
one. What ends up at a key is then a last writer among the events of that key.
-/

namespace PoorguyMem

open ByteString LastWriter

variable {K : Type}

/-- Stamps compare by time, then version, then node. -/
def stampOrder : MemoryRecord K → MemoryRecord K → Ordering :=
  compareLex (compareOn fun r => r.updatedAtMs.toNat)
    (compareLex (compareOn fun r => r.version.toNat) (compareOn fun r => r.nodeId))

instance : Std.TransCmp (stampOrder (K := K)) := by
  unfold stampOrder
  infer_instance

theorem isIncomingNewer_eq (current incoming : MemoryRecord K) :
    isIncomingNewer current incoming = (stampOrder current incoming).isLT := by
  have order : ∀ a b : UInt64, a ≠ b →
      compare a.toNat b.toNat = if a < b then .lt else .gt := by
    intro a b hne
    have hne' : a.toNat ≠ b.toNat := fun h => hne (UInt64.toNat_inj.mp h)
    split
    · rename_i hlt
      exact Nat.compare_eq_lt.mpr (UInt64.lt_iff_toNat_lt.mp hlt)
    · rename_i hlt
      rw [UInt64.lt_iff_toNat_lt] at hlt
      exact Nat.compare_eq_gt.mpr (by omega)
  rw [isIncomingNewer, stampOrder, compareLex, compareOn, compareLex, compareOn, compareOn]
  by_cases htime : current.updatedAtMs = incoming.updatedAtMs
  · rw [if_neg (by simp [htime]), htime, Std.compare_self, Ordering.eq_then]
    by_cases hversion : current.version = incoming.version
    · rw [if_neg (by simp [hversion]), hversion, Std.compare_self, Ordering.eq_then]
      rfl
    · rw [if_pos (Ne.symm hversion), order _ _ hversion]
      split <;> simp_all
  · rw [if_pos (Ne.symm htime), order _ _ htime]
    split <;> simp_all

theorem ranked_isIncomingNewer : Ranked (isIncomingNewer : MemoryRecord K → MemoryRecord K → Bool) where
  asymm a b h := by
    rw [isIncomingNewer_eq] at h ⊢
    rw [@Std.OrientedCmp.eq_swap _ stampOrder _ b a]
    simp_all
  trans a b c hab hbc := by
    rw [isIncomingNewer_eq] at hab hbc ⊢
    have hge : ∀ {o : Ordering}, o.isLT = false ↔ o.isGE = true := by
      intro o
      cases o <;> decide
    rw [hge] at hab hbc ⊢
    exact Std.TransCmp.isGE_trans hab hbc

/-- A later version of a record that is not later is newer. -/
theorem isIncomingNewer_of_version_lt {l r : MemoryRecord K} (htime : l.updatedAtMs ≤ r.updatedAtMs)
    (hversion : l.version < r.version) : isIncomingNewer l r = true := by
  rw [isIncomingNewer]
  split
  · rename_i hne
    exact decide_eq_true (UInt64.lt_of_le_of_ne htime hne.symm)
  · rw [if_pos (UInt64.ne_of_lt hversion).symm]
    exact decide_eq_true hversion

theorem lt_add_one_of_ne_zero {v : UInt64} (h : v + 1 ≠ 0) : v < v + 1 := by
  have hne : (v + 1).toNat ≠ 0 := fun h0 => h (UInt64.toNat_inj.mp h0)
  have hlt := v.toNat_lt
  rw [UInt64.lt_iff_toNat_lt]
  rw [UInt64.toNat_add] at hne ⊢
  simp only [UInt64.toNat_one] at hne ⊢
  omega

section Essence
variable [Zero K]

theorem stamp_of_essence {r d : MemoryRecord K} (h : r.essence = d.essence) :
    r.updatedAtMs = d.updatedAtMs ∧ r.version = d.version ∧ r.nodeId = d.nodeId := by
  have hfields : ∀ x : MemoryRecord K, (x.essence.updatedAtMs, x.essence.version,
      x.essence.nodeId) = (x.updatedAtMs, x.version, x.nodeId) := fun _ => rfl
  have heq := hfields r
  rw [h, hfields d] at heq
  simp only [Prod.mk.injEq] at heq
  exact ⟨heq.1.symm, heq.2.1.symm, heq.2.2.symm⟩

/-- The order of two records is in their essence. -/
theorem isIncomingNewer_congr {a a' b b' : MemoryRecord K} (ha : a.essence = a'.essence)
    (hb : b.essence = b'.essence) : isIncomingNewer a b = isIncomingNewer a' b' := by
  obtain ⟨hau, hav, han⟩ := stamp_of_essence ha
  obtain ⟨hbu, hbv, hbn⟩ := stamp_of_essence hb
  rw [isIncomingNewer, isIncomingNewer, hau, hav, han, hbu, hbv, hbn]

end Essence

/-! ### The replay at one key -/

section Replay
variable [Field K] [LinearOrder K]

omit [LinearOrder K] in
/-- The records a replay offers at a key. -/
def offersAt (env : Platform K) (checkpoints : StringMap Bytes) (key : Bytes)
    (events : List KeyValueEntry) : List (MemoryRecord K) :=
  ((events.filterMap (eventRecord env checkpoints)).filter fun r =>
    recordMapKey r.workspaceId r.id = key).map fillDefaults

omit [LinearOrder K] in
theorem mem_offersAt {env : Platform K} {checkpoints : StringMap Bytes} {key : Bytes}
    {events : List KeyValueEntry} {r : MemoryRecord K} :
    r ∈ offersAt env checkpoints key events ↔ ∃ e ∈ events, ∃ x,
      eventRecord env checkpoints e = some x ∧ recordMapKey x.workspaceId x.id = key ∧
        r = fillDefaults x := by
  simp only [offersAt, List.mem_map, List.mem_filter, List.mem_filterMap, decide_eq_true_eq]
  constructor
  · rintro ⟨x, ⟨⟨e, he, hx⟩, hkey⟩, rfl⟩
    exact ⟨e, he, x, hx, hkey, rfl⟩
  · rintro ⟨e, he, x, hx, hkey, rfl⟩
    exact ⟨x, ⟨⟨e, he, hx⟩, hkey⟩, rfl⟩

/-- A replayed event changes one key, as an offer to what is held there. -/
theorem lookup_replayEvent {env : Platform K} {checkpoints : StringMap Bytes} (s : Resident K)
    {event : KeyValueEntry} {x : MemoryRecord K} (hx : eventRecord env checkpoints event = some x)
    (key : Bytes) : (replayEvent env checkpoints s event).records[key]? =
      if recordMapKey x.workspaceId x.id = key then
        offer isIncomingNewer s.records[key]? (fillDefaults x) else s.records[key]? := by
  obtain ⟨hws, hid⟩ := names_fillDefaults x
  have hput : ∀ k : Bytes, (s.upsertRecordInMemory env (fillDefaults x)).records[k]? =
      if recordMapKey x.workspaceId x.id = k then some (fillDefaults x) else s.records[k]? := by
    intro k
    rw [Resident.records_upsert, lookup_insert, hws, hid]
  simp only [replayEvent, hx]
  rcases hheld : s.records[recordMapKey x.workspaceId x.id]? with _ | current
  · rw [if_pos rfl, hput]
    by_cases hkey : recordMapKey x.workspaceId x.id = key
    · rw [if_pos hkey, if_pos hkey, ← hkey, hheld, offer]
    · rw [if_neg hkey, if_neg hkey]
  · dsimp only
    have hsame : isIncomingNewer current (fillDefaults x) = isIncomingNewer current x :=
      isIncomingNewer_congr rfl (essence_fillDefaults x)
    by_cases hkey : recordMapKey x.workspaceId x.id = key
    · rw [if_pos hkey, ← hkey, hheld, offer, hsame]
      split
      · rw [hput, if_pos rfl]
      · exact hheld
    · rw [if_neg hkey]
      split
      · rw [hput, if_neg hkey]
      · rfl

/-- What a replay leaves at a key. -/
theorem lookup_replay {env : Platform K} {checkpoints : StringMap Bytes}
    (events : List KeyValueEntry) (s : Resident K) (key : Bytes) :
    (events.foldl (replayEvent env checkpoints) s).records[key]? =
      offerAll isIncomingNewer s.records[key]? (offersAt env checkpoints key events) := by
  induction events generalizing s with
  | nil => rfl
  | cons event rest ih =>
    rw [List.foldl_cons, ih]
    rcases hx : eventRecord env checkpoints event with _ | x
    · have hskip : replayEvent env checkpoints s event = s := by rw [replayEvent, hx]
      rw [hskip]
      simp only [offersAt, List.filterMap_cons_none hx]
    · rw [lookup_replayEvent s hx]
      by_cases hkey : recordMapKey x.workspaceId x.id = key
      · rw [if_pos hkey]
        simp only [offersAt, List.filterMap_cons_some hx, List.filter_cons, hkey, decide_true,
          if_true, List.map_cons, offerAll, List.foldl_cons]
      · rw [if_neg hkey]
        simp only [offersAt, List.filterMap_cons_some hx, List.filter_cons, hkey, decide_false,
          Bool.false_eq_true, if_false]

end Replay

end PoorguyMem
