import PoorguyMem.Accounting
import PoorguyMem.Victims

/-!
# The order of eviction

Each pass of the eviction loop takes out an unpinned record of the lowest rank, while
the counter is above the limit. So a record stays if what does not go before it at
every reading of the clock fits the limit. Where it stays, what does not go before it
at any reading fits.
-/

namespace PoorguyMem

open ByteString

variable {K : Type}

/-! ### Charges -/

/-- Every resident record is charged what is estimated for it, and nothing else is. -/
def Charged (s : Resident K) : Prop :=
  ∀ k : Bytes, s.residentChargeBytes[k]? = s.records[k]?.map estimateResidentCharge

theorem charged_empty : Charged (Resident.empty : Resident K) :=
  fun k => by simp [Resident.empty]

theorem Charged.erase {s s' : Resident K} (h : Charged s) {key : Bytes}
    (hrecords : s'.records = s.records.erase key)
    (hcharges : s'.residentChargeBytes = s.residentChargeBytes.erase key) : Charged s' := by
  intro k
  rw [hrecords, hcharges, lookup_erase, lookup_erase]
  split
  · rfl
  · exact h k

theorem Charged.upsert [Field K] [LinearOrder K] (env : Platform K) {s : Resident K}
    (h : Charged s) (r : MemoryRecord K) : Charged (s.upsertRecordInMemory env r) := by
  intro k
  have hcharges : (s.upsertRecordInMemory env r).residentChargeBytes =
      s.residentChargeBytes.insert (recordMapKey r.workspaceId r.id) (estimateResidentCharge r) :=
    if_neg (Nat.ne_of_gt (estimateResidentCharge_pos r))
  rw [hcharges, Resident.records_upsert, lookup_insert, lookup_insert]
  split
  · rfl
  · exact h k

theorem Charged.remove {s : Resident K} (h : Charged s) (r : MemoryRecord K) :
    Charged (s.removeRecordInMemory r) := by
  apply h.erase (Resident.records_remove s r)
  rw [Resident.removeRecordInMemory]
  cases s.records[recordMapKey r.workspaceId r.id]? with
  | some _ => rfl
  | none => rfl

theorem Charged.evict {s : Resident K} (h : Charged s) (victim : MemoryRecord K) :
    Charged (s.evict victim) :=
  h.erase rfl rfl

theorem Charged.access {s : Resident K} (h : Charged s) {records : StringMap (MemoryRecord K)}
    (hacc : AccessOnly s.records records) : Charged { s with records := records } := by
  intro k
  have hmask : ∀ o : Option (MemoryRecord K),
      o.map estimateResidentCharge = (o.map (·.withoutAccess)).map estimateResidentCharge := by
    rintro (_ | r)
    · rfl
    · rfl
  change s.residentChargeBytes[k]? = records[k]?.map estimateResidentCharge
  rw [h k, hmask s.records[k]?, hmask records[k]?, hacc k]

/-- The counter is the weight of what is resident. -/
structure Weighed (s : Resident K) : Prop where
  balanced : Balanced s
  charged : Charged s

theorem Weighed.used {s : Resident K} (h : Weighed s) :
    s.residentUsedBytes = MapTotal.weight s.records estimateResidentCharge :=
  h.balanced.used.trans (MapTotal.total_eq_weight _ h.charged)

theorem Weighed.evict {s : Resident K} (h : Weighed s) (victim : MemoryRecord K) :
    Weighed (s.evict victim) :=
  ⟨h.balanced.evict victim, h.charged.evict victim⟩

theorem preserved_weighed [Field K] [LinearOrder K] (env : Platform K)
    {P : Bytes → Bytes → Prop} : Preserved env P Weighed where
  upsert _ r h _ := ⟨h.balanced.upsert env r, h.charged.upsert env r⟩
  remove _ r h _ := ⟨h.balanced.remove r, h.charged.remove r⟩
  evict _ _ victim h _ _ := h.evict victim
  access _ _ h hacc := ⟨h.balanced.access hacc, h.charged.access hacc⟩

theorem Evicts.weighed {s s' : Resident K} (h : Evicts s s') (hs : Weighed s) : Weighed s' := by
  induction h with
  | refl => exact hs
  | evict _ _ _ ih => exact ih.evict _

/-! ### The loop -/

section Loop
variable [Field K] [LinearOrder K]

/-- Evictions by rank while the counter is above the limit, at readings from `start` on. -/
inductive EvictsRanked (env : Platform K) (limit start : Nat) : Resident K → Resident K → Prop
  | refl (s : Resident K) : EvictsRanked env limit start s s
  | evict {s s' : Resident K} {k : Bytes} {victim : MemoryRecord K} {i : Nat}
      (h : EvictsRanked env limit start s s') (late : start ≤ i)
      (held : s'.records[k]? = some victim) (unpinned : victim.pinned = false)
      (full : limit < s'.residentUsedBytes)
      (least : ∀ (k : Bytes) r, s'.records[k]? = some r → r.pinned = false →
        burialRank env (env.clock i) victim ≤ burialRank env (env.clock i) r) :
      EvictsRanked env limit start s (s'.evict victim)

variable {env : Platform K} {limit start : Nat} {s s' : Resident K}

theorem EvictsRanked.evicts (h : EvictsRanked env limit start s s') : Evicts s s' := by
  induction h with
  | refl => exact .refl _
  | evict _ _ held unpinned _ _ ih => exact ih.evict held unpinned

/-- The candidate that is picked has the lowest rank. -/
theorem pickCandidate_least {t : Nat} {records : StringMap (MemoryRecord K)} {nowMs : UInt64}
    {victim : MemoryRecord K} (h : Resident.pickCandidate env t records [] nowMs = some victim) :
    ∀ (k : Bytes) r, records[k]? = some r → r.pinned = false →
      burialRank env nowMs victim ≤ burialRank env nowMs r := by
  have hbetter : ∀ (best : Option (MemoryRecord K)) (r : MemoryRecord K),
      ∀ v, Resident.betterCandidate env [] nowMs best r = some v →
        (∀ b, best = some b → burialRank env nowMs v ≤ burialRank env nowMs b) ∧
          (r.pinned = false → burialRank env nowMs v ≤ burialRank env nowMs r) := by
    intro best r v hv
    unfold Resident.betterCandidate at hv
    split at hv
    · rename_i hskip
      refine ⟨fun b hb => ?_, fun hpin => ?_⟩
      · obtain rfl := Option.some.inj (hv.symm.trans hb)
        exact le_rfl
      · simp [hpin] at hskip
    · split at hv
      · obtain rfl := Option.some.inj hv
        exact ⟨fun b hb => (by cases hb), fun _ => le_rfl⟩
      · rename_i candidate
        split at hv
        · rename_i hbefore
          obtain rfl := Option.some.inj hv
          refine ⟨fun b hb => ?_, fun _ => le_rfl⟩
          obtain rfl := Option.some.inj hb
          by_contra hnot
          rw [rankBefore_eq_false.mpr (not_le.mp hnot).le] at hbefore
          cases hbefore
        · rename_i hafter
          obtain rfl := Option.some.inj hv
          refine ⟨fun b hb => ?_, fun _ => ?_⟩
          · obtain rfl := Option.some.inj hb
            exact le_rfl
          · exact rankBefore_eq_false.mp (by simpa using hafter)
  have loop : ∀ (kvs : List (Bytes × MemoryRecord K)) best v,
      kvs.foldl (fun best kv => Resident.betterCandidate env [] nowMs best kv.2) best = some v →
        (∀ b, best = some b → burialRank env nowMs v ≤ burialRank env nowMs b) ∧
          ∀ kv ∈ kvs, kv.2.pinned = false →
            burialRank env nowMs v ≤ burialRank env nowMs kv.2 := by
    intro kvs
    induction kvs with
    | nil =>
      intro best v hv
      refine ⟨fun b hb => ?_, fun kv hkv => by cases hkv⟩
      obtain rfl := Option.some.inj (hv.symm.trans hb)
      exact le_rfl
    | cons kv rest ih =>
      intro best v hv
      obtain ⟨hfirst, hrest⟩ := ih _ v hv
      cases hnext : Resident.betterCandidate env [] nowMs best kv.2 with
      | none =>
        -- a pass that finds nothing has met a pinned record
        have hskipped : best = none ∧ kv.2.pinned = true := by
          unfold Resident.betterCandidate at hnext
          split at hnext
          · rename_i hskip
            exact ⟨hnext, by simpa using hskip⟩
          · split at hnext
            · cases hnext
            · split at hnext <;> cases hnext
        refine ⟨fun b hb => ?_, List.forall_mem_cons.mpr ⟨fun hpin => ?_, hrest⟩⟩
        · cases hskipped.1.symm.trans hb
        · cases hpin.symm.trans hskipped.2
      | some b' =>
        obtain ⟨hbest, hkv⟩ := hbetter best kv.2 b' hnext
        have hle := hfirst b' hnext
        exact ⟨fun b hb => hle.trans (hbest b hb),
          List.forall_mem_cons.mpr ⟨fun hpin => hle.trans (hkv hpin), hrest⟩⟩
  intro k r hr hpin
  exact (loop _ none victim h).2 (k, r) ((env.mem_iterate t).mpr hr) hpin

theorem EvictsRanked.enforceLoop (h : EvictsRanked env limit start s s') {tick : Nat}
    (hlate : start ≤ tick) (fuel : Nat) :
    EvictsRanked env limit start s (Resident.enforceLoop env [] limit fuel s' tick).1 := by
  induction fuel generalizing s' tick with
  | zero => exact h
  | succ fuel ih =>
    rw [Resident.enforceLoop]
    split
    · exact h
    · rename_i hfull
      rw [not_or, not_le] at hfull
      split
      · exact h
      · rename_i victim hsel
        obtain ⟨k, held, unpinned⟩ := Resident.selectEvictionCandidate_mem hsel
        have hpick : Resident.pickCandidate env tick s'.records [] (env.clock tick) =
            some victim := by
          rw [Resident.selectEvictionCandidate] at hsel
          split at hsel
          · rename_i hpick
            rw [hpick, hsel]
          · cases hsel
        split
        · exact ih (h.evict hlate held unpinned hfull.1 (pickCandidate_least hpick)) (by omega)
        · exact ih h (by omega)

theorem evictsRanked_enforceResidentHardLimit (env : Platform K) (limit : Nat) (s : Resident K)
    (tick : Nat) : EvictsRanked env limit tick s (s.enforceResidentHardLimit env limit tick).1 := by
  rw [Resident.enforceResidentHardLimit]
  split
  · exact .refl s
  · exact (EvictsRanked.refl s).enforceLoop (Nat.le_refl tick) _

theorem EvictsRanked.mono (h : EvictsRanked env limit start s s') {start' : Nat}
    (hle : start' ≤ start) : EvictsRanked env limit start' s s' := by
  induction h with
  | refl => exact .refl _
  | evict _ late held unpinned full least ih =>
    exact ih.evict (hle.trans late) held unpinned full least

/-! ### What stays -/

/-- A record that is not protected and goes before another one at every reading. -/
def Outranked (env : Platform K) (start : Nat) (fresh : Set Bytes) (n r : MemoryRecord K) : Prop :=
  recordMapKey r.workspaceId r.id ∉ fresh ∧ r.pinned = false ∧
    ∀ i, start ≤ i → burialRank env (env.clock i) r < burialRank env (env.clock i) n

/-- A record that is not protected and may go before another one at some reading. -/
def MayPrecede (env : Platform K) (start : Nat) (fresh : Set Bytes) (n r : MemoryRecord K) : Prop :=
  recordMapKey r.workspaceId r.id ∉ fresh ∧ r.pinned = false ∧
    ∃ i, start ≤ i ∧ burialRank env (env.clock i) r ≤ burialRank env (env.clock i) n

open Classical in
/-- What is resident besides the records of a kind. -/
noncomputable def weightBesides (records : StringMap (MemoryRecord K))
    (gone : MemoryRecord K → Prop) : Nat :=
  MapTotal.weight records fun r => if gone r then 0 else estimateResidentCharge r

/-- The records of a set of keys stay where what does not go before them fits the limit. -/
theorem EvictsRanked.keeps (h : EvictsRanked env limit start s s') (hweighed : Weighed s)
    (hkeys : AtKeys s) {fresh : Set Bytes}
    (hroom : ∀ k ∈ fresh, ∀ n, s.records[k]? = some n → n.pinned = false →
      weightBesides s.records (Outranked env start fresh n) ≤ limit) :
    ∀ k ∈ fresh, s'.records[k]? = s.records[k]? := by
  induction h with
  | refl => exact fun _ _ => rfl
  | @evict s' key victim i hbefore late held unpinned full least ih =>
    intro k hk
    have hweighed' := hbefore.evicts.weighed hweighed
    have hheld := hbefore.evicts.subset held
    have hkey := hkeys key victim hheld
    change (s'.records.erase (recordMapKey victim.workspaceId victim.id))[k]? = _
    rw [lookup_erase, ← hkey]
    by_cases hsame : key = k
    · -- there would have been room
      subst hsame
      have hfits := hroom key hk victim hheld unpinned
      have hle : MapTotal.weight s'.records estimateResidentCharge ≤
          weightBesides s.records (Outranked env start fresh victim) := by
        apply MapTotal.weight_le
        intro k' r hr _
        refine ⟨hbefore.evicts.subset hr, ?_⟩
        rw [if_neg]
        rintro ⟨-, hpin, hrank⟩
        exact absurd (least k' r hr hpin) (not_le.mpr (hrank i late))
      rw [hweighed'.used] at full
      omega
    · rw [if_neg hsame]
      exact ih k hk

/-- What has gone went before each record that stays. -/
theorem EvictsRanked.gone (h : EvictsRanked env limit start s s') (hkeys : AtKeys s) {k : Bytes}
    {n : MemoryRecord K} (hn : s'.records[k]? = some n) (hpin : n.pinned = false) :
    ∀ (k' : Bytes) r, s.records[k']? = some r → s'.records[k']? = some r ∨
      s'.records[k']? = none ∧ r.pinned = false ∧
        ∃ i, start ≤ i ∧ burialRank env (env.clock i) r ≤ burialRank env (env.clock i) n := by
  induction h with
  | refl => exact fun k' r hr => Or.inl hr
  | @evict s' key victim i hbefore late held unpinned full least ih =>
    intro k' r hr
    have hn' : s'.records[k]? = some n := by
      change (s'.records.erase (recordMapKey victim.workspaceId victim.id))[k]? = some n at hn
      rw [lookup_erase] at hn
      split at hn
      · cases hn
      · exact hn
    have hkey := hkeys key victim (hbefore.evicts.subset held)
    change (s'.records.erase (recordMapKey victim.workspaceId victim.id))[k']? = some r ∨
      (s'.records.erase (recordMapKey victim.workspaceId victim.id))[k']? = none ∧ _
    rw [lookup_erase, ← hkey]
    by_cases hsame : key = k'
    · rw [if_pos hsame]
      right
      rcases ih hn' k' r hr with hkept | ⟨-, hgone⟩
      · subst hsame
        obtain rfl := Option.some.inj (held.symm.trans hkept)
        exact ⟨rfl, unpinned, i, late, least k n hn' hpin⟩
      · exact ⟨rfl, hgone⟩
    · rw [if_neg hsame]
      exact ih hn' k' r hr

/-- Where the records of a set of keys stay, what cannot go before one of them fits the limit. -/
theorem EvictsRanked.fits (h : EvictsRanked env limit start s s') (hweighed : Weighed s)
    (hkeys : AtKeys s) {fresh : Set Bytes}
    (hkept : ∀ k ∈ fresh, s'.records[k]? = s.records[k]?) {k : Bytes} (hk : k ∈ fresh)
    {n : MemoryRecord K} (hn : s.records[k]? = some n) (hpin : n.pinned = false)
    (hend : s'.residentUsedBytes ≤ limit) :
    weightBesides s.records (MayPrecede env start fresh n) ≤ limit := by
  rw [(h.evicts.weighed hweighed).used] at hend
  refine le_trans ?_ hend
  apply MapTotal.weight_le
  intro k' r hr hcounts
  have hstays : ¬ MayPrecede env start fresh n r := by
    intro hgone
    exact hcounts (if_pos hgone)
  refine ⟨?_, by rw [if_neg hstays]⟩
  rcases h.gone hkeys ((hkept k hk).trans hn) hpin k' r hr with hkept' | ⟨hnone, hunpinned, hrank⟩
  · exact hkept'
  · refine absurd ⟨?_, hunpinned, hrank⟩ hstays
    intro hfresh
    rw [← hkeys k' r hr] at hfresh
    rw [hkept k' hfresh, hr] at hnone
    cases hnone

end Loop

end PoorguyMem
