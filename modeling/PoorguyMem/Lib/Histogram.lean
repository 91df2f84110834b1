import Mathlib

/-!
# Histograms over increasing bounds

Samples are counted in buckets, each by the first bound that it does not exceed, and by one
bucket more beyond the last bound. The counts up to a bucket are those of the samples within
its bound, so that the first bucket at which the counts reach a target has the least bound
that as many samples are within.
-/

namespace Histogram

universe u
variable {α : Type u} [LinearOrder α]

/-- The first bound that is not exceeded, or the number of the bounds. -/
def bucket (bounds : List α) (x : α) : Nat := bounds.findIdx fun bound => x ≤ bound

/-- The counts of some samples, one for each bucket. -/
def counts (bounds : List α) (xs : List α) : List Nat :=
  (List.range (bounds.length + 1)).map fun i => xs.countP fun x => bucket bounds x = i

/-- The first bucket at which the counts, added to what was reached before, come to a target. -/
def firstReaching (target : Nat) : Nat → List Nat → Option Nat
  | _, [] => none
  | reached, count :: rest =>
    if target ≤ reached + count then some 0
    else (firstReaching target (reached + count) rest).map (· + 1)

section Buckets
variable {bounds : List α}

theorem bucket_le (bounds : List α) (x : α) : bucket bounds x ≤ bounds.length :=
  List.findIdx_le_length

/-- Over increasing bounds a sample is in a bucket up to `i` where it is within that bound. -/
theorem bucket_le_iff (h : bounds.Pairwise (· < ·)) {i : Nat} (hi : i < bounds.length) (x : α) :
    bucket bounds x ≤ i ↔ x ≤ bounds[i] := by
  constructor
  · intro hle
    have hlt : bucket bounds x < bounds.length := by omega
    have hwithin : x ≤ bounds[bucket bounds x] :=
      of_decide_eq_true (List.findIdx_getElem (p := fun bound => decide (x ≤ bound)) (w := hlt))
    rcases Nat.lt_or_eq_of_le hle with hbefore | heq
    · exact hwithin.trans (List.pairwise_iff_getElem.mp h _ _ hlt hi hbefore).le
    · simpa only [heq] using hwithin
  · intro hwithin
    by_contra hlt
    exact absurd hwithin (by simpa using List.not_of_lt_findIdx (Nat.lt_of_not_le hlt))

end Buckets

section Counts
variable (bounds : List α) (xs : List α)

@[simp] theorem length_counts : (counts bounds xs).length = bounds.length + 1 := by
  simp [counts]

/-- The samples up to a bucket, counted bucket by bucket. -/
theorem sum_range_countP (n : Nat) :
    ((List.range n).map fun i => xs.countP fun x => bucket bounds x = i).sum =
      xs.countP fun x => bucket bounds x < n := by
  induction n with
  | zero => simp
  | succ n ih =>
    have hsplit : (xs.countP fun x => bucket bounds x < n + 1) =
        (xs.countP fun x => bucket bounds x < n) + xs.countP fun x => bucket bounds x = n := by
      clear ih
      induction xs with
      | nil => rfl
      | cons x xs ih =>
        simp only [List.countP_cons, ih, decide_eq_true_eq]
        have hcases : bucket bounds x < n ∨ bucket bounds x = n ∨ n < bucket bounds x := by omega
        rcases hcases with h | h | h
        · rw [if_pos (by omega), if_pos h, if_neg (by omega)]
          omega
        · rw [if_pos (by omega), if_neg (by omega), if_pos h]
          omega
        · rw [if_neg (by omega), if_neg (by omega), if_neg (by omega)]
          omega
    rw [List.range_succ, List.map_append, List.sum_append, ih, hsplit]
    simp

theorem sum_take_counts {n : Nat} (hn : n ≤ bounds.length + 1) :
    ((counts bounds xs).take n).sum = xs.countP fun x => bucket bounds x < n := by
  rw [counts, ← List.map_take, List.take_range, Nat.min_eq_left hn, sum_range_countP]

/-- Every sample is in a bucket. -/
theorem sum_counts : (counts bounds xs).sum = xs.length := by
  have hall := sum_take_counts bounds xs (Nat.le_refl (bounds.length + 1))
  rw [List.take_of_length_le (by simp)] at hall
  rw [hall, List.countP_eq_length]
  intro x _
  have := bucket_le bounds x
  simpa using by omega

/-- A sample more is one more in its bucket. -/
theorem counts_append_singleton (x : α) :
    counts bounds (xs ++ [x]) = (counts bounds xs).modify (bucket bounds x) (· + 1) := by
  refine List.ext_getElem? fun i => ?_
  rw [List.getElem?_modify]
  by_cases hi : i < bounds.length + 1
  · have hget : ∀ ys : List α, (counts bounds ys)[i]? =
        some (ys.countP fun y => bucket bounds y = i) := by
      intro ys
      rw [counts, List.getElem?_map, List.getElem?_range hi]
      rfl
    rw [hget, hget, List.countP_append, List.countP_singleton]
    by_cases hx : bucket bounds x = i
    · simp [hx]
    · simp [hx]
  · rw [List.getElem?_eq_none (by simp; omega), List.getElem?_eq_none (by simp; omega)]
    rfl

end Counts

section Targets
variable {target reached : Nat} {hist : List Nat}

theorem firstReaching_eq_some {k : Nat} (h : firstReaching target reached hist = some k) :
    k < hist.length ∧ target ≤ reached + (hist.take (k + 1)).sum ∧
      ∀ j < k, reached + (hist.take (j + 1)).sum < target := by
  induction hist generalizing reached k with
  | nil => cases h
  | cons count rest ih =>
    rw [firstReaching] at h
    split at h
    · rename_i hnow
      obtain rfl := Option.some.inj h
      exact ⟨by simp, by simpa using hnow, fun j hj => absurd hj (Nat.not_lt_zero j)⟩
    · rename_i hlater
      obtain ⟨i, hi, rfl⟩ := Option.map_eq_some_iff.mp h
      obtain ⟨hlength, hreached, hbefore⟩ := ih hi
      rw [List.length_cons, List.take_succ_cons, List.sum_cons]
      refine ⟨by omega, by omega, fun j hj => ?_⟩
      rw [List.take_succ_cons, List.sum_cons]
      cases j with
      | zero =>
        rw [List.take_zero, List.sum_nil]
        omega
      | succ j =>
        have := hbefore j (by omega)
        omega

/-- A target up to the sum of the counts is reached. -/
theorem firstReaching_isSome (hne : hist ≠ []) (h : target ≤ reached + hist.sum) :
    (firstReaching target reached hist).isSome := by
  induction hist generalizing reached with
  | nil => exact absurd rfl hne
  | cons count rest ih =>
    rw [firstReaching]
    split
    · rfl
    · rename_i hlater
      rw [Option.isSome_map]
      rw [List.sum_cons] at h
      refine ih ?_ (by omega)
      rintro rfl
      rw [List.sum_nil] at h
      omega

end Targets

/-- What a target of the samples comes to: the least bound that as many samples are within,
or the bucket beyond the bounds where no bound is. -/
theorem firstReaching_counts {bounds : List α} (hbounds : bounds.Pairwise (· < ·)) {xs : List α}
    {target : Nat} (htarget : target ≤ xs.length) :
    ∃ k, firstReaching target 0 (counts bounds xs) = some k ∧ k ≤ bounds.length ∧
      (∀ hk : k < bounds.length, target ≤ xs.countP fun x => x ≤ bounds[k]) ∧
      ∀ j (hj : j < bounds.length), j < k → (xs.countP fun x => x ≤ bounds[j]) < target := by
  have hne : counts bounds xs ≠ [] := List.ne_nil_of_length_pos (by simp)
  have hsome : (firstReaching target 0 (counts bounds xs)).isSome :=
    firstReaching_isSome hne (by rw [sum_counts]; omega)
  obtain ⟨k, hk⟩ := Option.isSome_iff_exists.mp hsome
  obtain ⟨hlength, hreached, hbefore⟩ := firstReaching_eq_some hk
  rw [length_counts] at hlength
  simp only [Nat.zero_add] at hreached hbefore
  have hwithin : ∀ i (hi : i < bounds.length), ((counts bounds xs).take (i + 1)).sum =
      xs.countP fun x => x ≤ bounds[i] := by
    intro i hi
    rw [sum_take_counts bounds xs (by omega)]
    refine List.countP_congr fun x _ => ?_
    rw [decide_eq_true_eq, decide_eq_true_eq, Nat.lt_succ_iff, bucket_le_iff hbounds hi]
  refine ⟨k, hk, by omega, fun hlt => ?_, fun j hj hjk => ?_⟩
  · rw [← hwithin k hlt]
    exact hreached
  · rw [← hwithin j hj]
    exact hbefore j hjk

end Histogram
