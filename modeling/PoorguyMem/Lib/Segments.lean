import Mathlib

/-!
# Lists with separators

A list is cut where its segments end. `shrink` drops the first segment as long as the rest is
too long; it leaves the longest rest that is not.
-/

namespace Segments

universe u
variable {α : Type u} [DecidableEq α] (sep : α)

/-- What follows the first separator. -/
def afterSep : List α → Option (List α)
  | [] => none
  | c :: s => if c = sep then some s else afterSep s

theorem afterSep_eq_none_iff {s : List α} : afterSep sep s = none ↔ sep ∉ s := by
  induction s with
  | nil => simp [afterSep]
  | cons c s ih =>
    rw [afterSep, List.mem_cons, not_or]
    by_cases hc : c = sep
    · simp [hc]
    · rw [if_neg hc, ih]
      exact ⟨fun h => ⟨Ne.symm hc, h⟩, fun h => h.2⟩

theorem length_afterSep {s rest : List α} (h : afterSep sep s = some rest) :
    rest.length < s.length := by
  induction s with
  | nil => cases h
  | cons c s ih =>
    rw [afterSep] at h
    rw [List.length_cons]
    split at h
    · obtain rfl := Option.some.inj h
      omega
    · have := ih h
      omega

def shrink (full : List α → Bool) (s : List α) : List α :=
  if full s then
    match h : afterSep sep s with
    | none => s
    | some rest =>
      have := length_afterSep sep h
      shrink full rest
  else s
termination_by s.length

/-- A list, or what follows one of its separators. -/
def Rest (s r : List α) : Prop := r = s ∨ ∃ a, s = a ++ sep :: r

variable {sep}

omit [DecidableEq α] in
theorem Rest.trans {s r q : List α} (h : Rest sep s r) (h' : Rest sep r q) : Rest sep s q := by
  rcases h with rfl | ⟨a, rfl⟩
  · exact h'
  · rcases h' with rfl | ⟨b, rfl⟩
    · exact Or.inr ⟨a, rfl⟩
    · exact Or.inr ⟨a ++ sep :: b, by simp⟩

omit [DecidableEq α] in
theorem Rest.append {s r : List α} (h : Rest sep s r) (t : List α) :
    Rest sep (s ++ t) (r ++ t) := by
  rcases h with rfl | ⟨a, rfl⟩
  · exact Or.inl rfl
  · exact Or.inr ⟨a, by simp⟩

omit [DecidableEq α] in
theorem Rest.suffix {s r : List α} (h : Rest sep s r) : r <:+ s := by
  rcases h with rfl | ⟨a, rfl⟩
  · exact List.suffix_rfl
  · exact ⟨a ++ [sep], by simp⟩

/-- A proper rest is one of what follows the first separator. -/
theorem rest_iff {s r : List α} :
    Rest sep s r ↔ r = s ∨ ∃ rest, afterSep sep s = some rest ∧ Rest sep rest r := by
  refine or_congr_right ?_
  induction s with
  | nil => simp [afterSep]
  | cons c s ih =>
    rw [afterSep]
    by_cases hc : c = sep
    · subst hc
      simp only [if_true, Option.some.injEq, exists_eq_left']
      constructor
      · rintro ⟨_ | ⟨b, a⟩, ha⟩
        · exact Or.inl (List.cons.inj ha).2.symm
        · exact Or.inr ⟨a, (List.cons.inj ha).2⟩
      · rintro (rfl | ⟨a, rfl⟩)
        · exact ⟨[], rfl⟩
        · exact ⟨c :: a, rfl⟩
    · rw [if_neg hc, ← ih]
      constructor
      · rintro ⟨_ | ⟨b, a⟩, ha⟩
        · exact absurd (List.cons.inj ha).1 hc
        · exact ⟨a, (List.cons.inj ha).2⟩
      · rintro ⟨a, rfl⟩
        exact ⟨c :: a, rfl⟩

/-- What is left is a rest, which is full only where it cannot be cut, and every longer rest is
full. -/
theorem shrink_spec (full : List α → Bool) (s : List α) :
    Rest sep s (shrink sep full s) ∧
      (full (shrink sep full s) = true → sep ∉ shrink sep full s) ∧
      ∀ r, Rest sep s r → (shrink sep full s).length < r.length → full r = true := by
  induction s using shrink.induct sep full with
  | case1 s hfull hnone =>
    rw [shrink, if_pos hfull]
    split
    · refine ⟨Or.inl rfl, fun _ => (afterSep_eq_none_iff sep).mp hnone, fun r hr hlt => ?_⟩
      have := hr.suffix.length_le
      omega
    · rename_i hsome
      rw [hnone] at hsome
      cases hsome
  | case2 s hfull rest hrest _ ih =>
    obtain ⟨hleft, hcut, hlonger⟩ := ih
    rw [shrink, if_pos hfull]
    split
    · rename_i hnone
      rw [hrest] at hnone
      cases hnone
    · rename_i rest' hrest'
      obtain rfl := Option.some.inj (hrest.symm.trans hrest')
      refine ⟨rest_iff.mpr (Or.inr ⟨_, hrest, hleft⟩), hcut, fun r hr hlt => ?_⟩
      rcases rest_iff.mp hr with rfl | ⟨rest', hrest', hr⟩
      · exact hfull
      · obtain rfl := Option.some.inj (hrest.symm.trans hrest')
        exact hlonger r hr hlt
  | case3 s hfits =>
    rw [shrink, if_neg hfits]
    refine ⟨Or.inl rfl, fun h => absurd h hfits, fun r hr hlt => ?_⟩
    have := hr.suffix.length_le
    omega

end Segments
