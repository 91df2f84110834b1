import Mathlib

/-!
# Updates made in two phases

Operations change a first map and, each at a later time of its own, a second map in the
same way. An operation in between is pending. As long as no two pending operations
change the same name, the second map is the first one with the pending changes undone,
so the maps are equal once nothing is pending.
-/

namespace TwoPhase

universe u v w
variable {Name : Type u} {V : Type v} {ι : Type w}

/-- A map after an update, which says what it leaves at the names it changes. -/
def override (m : Name → V) (update : Name → Option V) : Name → V :=
  fun n => (update n).getD (m n)

theorem override_of_some {m : Name → V} {update : Name → Option V} {n : Name} {x : V}
    (h : update n = some x) : override m update n = x := by
  rw [override, h, Option.getD_some]

theorem override_of_none {m : Name → V} {update : Name → Option V} {n : Name}
    (h : update n = none) : override m update n = m n := by
  rw [override, h, Option.getD_none]

/-- Pending updates change different names. The first map has their values, and agrees with
the second one at all other names. -/
structure Settling (first second : Name → V) (pending : ι → Option (Name → Option V)) :
    Prop where
  apart : ∀ i j a b n x y, pending i = some a → pending j = some b → a n = some x →
    b n = some y → i = j
  owed : ∀ i a n x, pending i = some a → a n = some x → first n = x
  settled : ∀ n, (∀ i a, pending i = some a → a n = none) → second n = first n

theorem settling_refl (m : Name → V) : Settling m m (fun _ : ι => none) where
  apart _ _ _ _ _ _ _ h := by cases h
  owed _ _ _ _ h := by cases h
  settled _ _ := rfl

variable [DecidableEq ι] {first second : Name → V} {pending : ι → Option (Name → Option V)}

/-- An operation changes the first map, at names that no pending one changes. -/
theorem Settling.begin (h : Settling first second pending) {i : ι} {update : Name → Option V}
    (hfree : pending i = none)
    (hapart : ∀ j a n x, pending j = some a → update n = some x → a n = none) :
    Settling (override first update) second (Function.update pending i (some update)) := by
  have hother : ∀ j a, Function.update pending i (some update) j = some a →
      j = i ∧ a = update ∨ j ≠ i ∧ pending j = some a := by
    intro j a hj
    by_cases hji : j = i
    · rw [hji, Function.update_self] at hj
      exact Or.inl ⟨hji, (Option.some.inj hj).symm⟩
    · rw [Function.update_of_ne hji] at hj
      exact Or.inr ⟨hji, hj⟩
  constructor
  · intro j k a b n x y hj hk hx hy
    rcases hother j a hj with ⟨hji, rfl⟩ | ⟨-, hold⟩
    · rcases hother k b hk with ⟨hki, -⟩ | ⟨-, hold⟩
      · rw [hji, hki]
      · cases hy.symm.trans (hapart k b n x hold hx)
    · rcases hother k b hk with ⟨-, rfl⟩ | ⟨-, hold'⟩
      · cases hx.symm.trans (hapart j a n y hold hy)
      · exact h.apart j k a b n x y hold hold' hx hy
  · intro j a n x hj hx
    rcases hother j a hj with ⟨-, rfl⟩ | ⟨-, hold⟩
    · exact override_of_some hx
    · cases hn : update n with
      | some y => cases hx.symm.trans (hapart j a n y hold hn)
      | none =>
        rw [override_of_none hn]
        exact h.owed j a n x hold hx
  · intro n hnone
    have hn : update n = none := hnone i update (Function.update_self ..)
    rw [override_of_none hn]
    apply h.settled
    intro j a hj
    by_cases hji : j = i
    · rw [hji, hfree] at hj
      cases hj
    · exact hnone j a (by rw [Function.update_of_ne hji]; exact hj)

/-- A pending operation changes the second map. -/
theorem Settling.finish (h : Settling first second pending) {i : ι} {update : Name → Option V}
    (hi : pending i = some update) :
    Settling first (override second update) (Function.update pending i none) := by
  have hother : ∀ j a, Function.update pending i none j = some a →
      j ≠ i ∧ pending j = some a := by
    intro j a hj
    by_cases hji : j = i
    · rw [hji, Function.update_self] at hj
      cases hj
    · rw [Function.update_of_ne hji] at hj
      exact ⟨hji, hj⟩
  constructor
  · intro j k a b n x y hj hk
    exact h.apart j k a b n x y (hother j a hj).2 (hother k b hk).2
  · exact fun j a n x hj => h.owed j a n x (hother j a hj).2
  · intro n hnone
    cases hn : update n with
    | some x => rw [override_of_some hn, h.owed i update n x hi hn]
    | none =>
      rw [override_of_none hn]
      apply h.settled
      intro j a hj
      by_cases hji : j = i
      · rw [hji, hi] at hj
        obtain rfl := Option.some.inj hj
        exact hn
      · exact hnone j a (by rw [Function.update_of_ne hji]; exact hj)

omit [DecidableEq ι] in
/-- Once nothing is pending, the maps are equal. -/
theorem Settling.eq (h : Settling first second pending) (hnone : ∀ i, pending i = none) :
    second = first := by
  funext n
  refine h.settled n fun i a hi => ?_
  cases (hnone i).symm.trans hi

end TwoPhase
