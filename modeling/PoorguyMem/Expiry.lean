import PoorguyMem.TokenBudget
import PoorguyMem.Reference

/-!
# Lifetimes

A record expires when its age reaches `ttl_s` seconds. The age is compared with
`ttl_s * 1000` in 64 bits, so a lifetime of 584 million years and more wraps, and can
end at once.
-/

namespace PoorguyMem

open ByteString

variable {K : Type}

/-- The lifetime in milliseconds, as a number. -/
def lifetimeMs (r : MemoryRecord K) : Nat := r.ttlS.toNat * 1000

/-- A record with a lifetime expires when its age reaches it, and not before. -/
structure Punctual (r : MemoryRecord K) : Prop where
  exact : ∀ nowMs, isExpired r nowMs = true ↔
    (lifetimeMs r : ℤ) ≤ (nowMs.toNat : ℤ) - (r.updatedAtMs.toNat : ℤ)
  kept : ∀ (engine : MemoryEngine K) (workspaceId : Bytes) (hit : QueryHit K) (nowMs : UInt64),
    engine.records[recordMapKey workspaceId hit.memoryId]? = some r →
    (nowMs.toNat : ℤ) - (r.updatedAtMs.toNat : ℤ) < lifetimeMs r →
    expiredHit engine workspaceId nowMs hit = false
  monotone : ∀ ttlS nowMs, 0 < ttlS → ttlS ≤ r.ttlS → isExpired r nowMs = true →
    isExpired { r with ttlS := ttlS } nowMs = true

/-- The lifetime fits 64 bits, or what it wraps to is never reached. -/
def FitsClock (r : MemoryRecord K) : Prop :=
  lifetimeMs r < 2 ^ 64 ∨ 2 ^ 64 ≤ r.updatedAtMs.toNat + max 1 (lifetimeMs r % 2 ^ 64)

instance (r : MemoryRecord K) : Decidable (FitsClock r) := inferInstanceAs (Decidable (_ ∨ _))

/-- The comparison as the code makes it. -/
theorem isExpired_iff {r : MemoryRecord K} (httl : 0 < r.ttlS) (hupdated : 0 < r.updatedAtMs)
    (nowMs : UInt64) : isExpired r nowMs = true ↔
      r.updatedAtMs.toNat < nowMs.toNat ∧
        lifetimeMs r % 2 ^ 64 ≤ nowMs.toNat - r.updatedAtMs.toNat := by
  rw [UInt64.lt_iff_toNat_lt] at httl hupdated
  have httl : ¬ (r.ttlS = 0 ∨ r.updatedAtMs = 0) := by
    rintro (h | h)
    · rw [h] at httl
      cases httl
    · rw [h] at hupdated
      cases hupdated
  rw [isExpired, if_neg httl]
  dsimp only
  rw [Bool.and_eq_true, decide_eq_true_eq, decide_eq_true_eq, UInt64.lt_iff_toNat_lt,
    UInt64.le_iff_toNat_le]
  have hmul : (r.ttlS * 1000).toNat = lifetimeMs r % 2 ^ 64 := by
    rw [UInt64.toNat_mul]
    rfl
  rw [hmul]
  apply and_congr_right
  intro hlt
  rw [UInt64.toNat_sub_of_le _ _ (UInt64.le_iff_toNat_le.mpr hlt.le)]

theorem lifetimeMs_pos {r : MemoryRecord K} (httl : 0 < r.ttlS) : 0 < lifetimeMs r := by
  have hpos := UInt64.lt_iff_toNat_lt.mp httl
  rw [lifetimeMs]
  simp only [UInt64.toNat_zero] at hpos
  omega

/-- Where the lifetime fits, the comparison is exact. -/
theorem FitsClock.exact {r : MemoryRecord K} (h : FitsClock r) (httl : 0 < r.ttlS)
    (hupdated : 0 < r.updatedAtMs) (nowMs : UInt64) : isExpired r nowMs = true ↔
      (lifetimeMs r : ℤ) ≤ (nowMs.toNat : ℤ) - (r.updatedAtMs.toNat : ℤ) := by
  have hpos := lifetimeMs_pos httl
  have hnow := nowMs.toNat_lt
  rw [isExpired_iff httl hupdated]
  rcases h with hfits | hwraps
  · rw [Nat.mod_eq_of_lt hfits]
    omega
  · by_cases hfits : lifetimeMs r < 2 ^ 64
    · rw [Nat.mod_eq_of_lt hfits]
      omega
    · omega

/-- The clock shows every time. -/
theorem exists_reading {n : Nat} (h : n < 2 ^ 64) : ∃ nowMs : UInt64, nowMs.toNat = n :=
  ⟨UInt64.ofNat n, UInt64.toNat_ofNat_of_lt' h⟩

/-- A record with a lifetime and a date is punctual if and only if its lifetime in milliseconds
fits 64 bits or what it wraps to lies beyond the end of the clock. -/
theorem punctual_iff (r : MemoryRecord K) (httl : 0 < r.ttlS) (hupdated : 0 < r.updatedAtMs) :
    Punctual r ↔ FitsClock r := by
  have hpos := lifetimeMs_pos httl
  constructor
  · intro h
    by_contra hnot
    rw [FitsClock, not_or, not_lt, not_le] at hnot
    obtain ⟨hwraps, hreached⟩ := hnot
    -- the first reading at which the wrapped lifetime is over
    obtain ⟨nowMs, hnow⟩ := exists_reading hreached
    have hexpired : isExpired r nowMs = true := by
      rw [isExpired_iff httl hupdated]
      omega
    have hage := (h.exact nowMs).mp hexpired
    have hlast := nowMs.toNat_lt
    omega
  · intro h
    constructor
    · exact h.exact httl hupdated
    · intro engine workspaceId hit nowMs hr hyoung
      rw [expiredHit, hr]
      dsimp only
      by_contra hexpired
      rw [Bool.not_eq_false] at hexpired
      have hold := (h.exact httl hupdated nowMs).mp hexpired
      omega
    · intro ttlS nowMs hshort hle hexpired
      have hage := (h.exact httl hupdated nowMs).mp hexpired
      have hnow := nowMs.toNat_lt
      have hshorter : lifetimeMs { r with ttlS := ttlS } ≤ lifetimeMs r := by
        have hles := UInt64.le_iff_toNat_le.mp hle
        change ttlS.toNat * 1000 ≤ r.ttlS.toNat * 1000
        omega
      have hfits : FitsClock { r with ttlS := ttlS } := by
        left
        omega
      rw [hfits.exact hshort hupdated]
      change (lifetimeMs { r with ttlS := ttlS } : ℤ) ≤ nowMs.toNat - (r.updatedAtMs.toNat : ℤ)
      omega

section Examples
open Reference

/-- A record of a write that asks for a lifetime. -/
def lasting (ttlS : UInt64) : MemoryRecord ℚ :=
  newRecord (MemoryEngine.new (ascii "node") options)
    ⟨ascii "w", [], [], ascii "upsert"⟩
    { recordInput (ascii "a") (ascii "hello") [] with ttlS := ttlS } 1000 (ascii "a") false

theorem punctual_hour : Punctual (lasting 3600) :=
  (punctual_iff (lasting 3600) (by decide) (by decide)).mpr (by decide)

/-- A lifetime of 584 million years is over after 384 milliseconds. -/
theorem not_punctual_endless : ¬ Punctual (lasting 18446744073709552) := by
  intro h
  have hexpired : isExpired (lasting 18446744073709552) 1384 = true := by decide
  have hage := (h.exact 1384).mp hexpired
  have hlifetime : lifetimeMs (lasting 18446744073709552) = 18446744073709552000 := by decide
  have hupdated : (lasting 18446744073709552).updatedAtMs.toNat = 1000 := by decide
  rw [hlifetime, hupdated] at hage
  have hnow : (1384 : UInt64).toNat = 1384 := by decide
  omega

end Examples

end PoorguyMem
