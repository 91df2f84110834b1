import Mathlib

/-!
# One pass for a filter and a budget

A list is gone through once. An element that would exceed the budget ends the
pass, whether or not it is one to be skipped; any other is skipped or taken. The
list so obtained is the longest prefix of the elements not skipped that stays
within the budget, exactly where no skipped element ends the pass early.
-/

namespace Budget

universe u
variable {α : Type u} (cost : α → Nat) (skip : α → Bool)

def total (l : List α) : Nat := (l.map cost).sum

/-- The pass; `exceeds` says which totals are more than what is left of the budget. -/
def admitted : (Nat → Bool) → List α → List α
  | _, [] => []
  | exceeds, x :: rest =>
    if exceeds (cost x) then []
    else if skip x then admitted exceeds rest
    else x :: admitted (fun n => exceeds (cost x + n)) rest

def kept (l : List α) : List α := l.filter fun x => !skip x

/-- The longest prefix whose total is within the budget. -/
structure LongestPrefix (exceeds : Nat → Bool) (l p : List α) : Prop where
  isPrefix : p <+: l
  fits : exceeds (total cost p) = false
  longest : ∀ q, q <+: l → exceeds (total cost q) = false → q.length ≤ p.length

/-- Where a skipped element exceeds what is left of the budget, so does the next
element that is not skipped. -/
def NotCutShort (exceeds : Nat → Bool) (l : List α) : Prop :=
  ∀ before x after, l = before ++ x :: after → skip x = true →
    exceeds (total cost (kept skip before) + cost x) = true →
      ∀ y ∈ (kept skip after).head?, exceeds (total cost (kept skip before) + cost y) = true

variable {cost skip} {exceeds : Nat → Bool} {x : α} {l p : List α}

@[simp] theorem total_nil : total cost ([] : List α) = 0 := rfl

@[simp] theorem total_cons : total cost (x :: l) = cost x + total cost l := by simp [total]

theorem kept_cons_of_skip (h : skip x = true) : kept skip (x :: l) = kept skip l := by
  simp [kept, h]

theorem kept_cons_of_not_skip (h : skip x = false) : kept skip (x :: l) = x :: kept skip l := by
  simp [kept, h]

/-- Without a budget the pass is the filter. -/
theorem admitted_eq_kept (h : ∀ n, exceeds n = false) : admitted cost skip exceeds l = kept skip l := by
  induction l generalizing exceeds with
  | nil => rfl
  | cons x rest ih =>
    rw [admitted, h, if_neg Bool.false_ne_true]
    cases hskip : skip x with
    | true =>
      rw [if_pos rfl, ih h, kept_cons_of_skip hskip]
    | false =>
      rw [if_neg Bool.false_ne_true, ih fun n => h (cost x + n), kept_cons_of_not_skip hskip]

theorem longestPrefix_cons_iff (hx : exceeds (cost x) = false) :
    LongestPrefix cost exceeds (x :: l) (x :: p) ↔
      LongestPrefix cost (fun n => exceeds (cost x + n)) l p := by
  constructor
  · intro h
    constructor
    · exact (List.cons_prefix_cons.mp h.isPrefix).2
    · simpa using h.fits
    · intro q hq hfits
      have hlen := h.longest (x :: q) (List.cons_prefix_cons.mpr ⟨rfl, hq⟩) (by simpa using hfits)
      simpa using hlen
  · intro h
    constructor
    · exact List.cons_prefix_cons.mpr ⟨rfl, h.isPrefix⟩
    · simpa using h.fits
    · intro q hq hfits
      cases q with
      | nil => exact Nat.zero_le _
      | cons y q =>
        obtain ⟨rfl, htail⟩ := List.cons_prefix_cons.mp hq
        have hlen := h.longest q htail (by simpa using hfits)
        simpa using hlen

variable (hmono : ∀ m n, m ≤ n → exceeds m = true → exceeds n = true)

include hmono in
theorem longestPrefix_nil_iff (hzero : exceeds 0 = false) :
    LongestPrefix cost exceeds l [] ↔ ∀ y ∈ l.head?, exceeds (cost y) = true := by
  constructor
  · intro h y hy
    obtain ⟨rest, rfl⟩ := List.head?_eq_some_iff.mp hy
    by_contra hfits
    have hlen := h.longest [y] (List.cons_prefix_cons.mpr ⟨rfl, List.nil_prefix⟩)
      (by simpa using hfits)
    simp at hlen
  · intro h
    constructor
    · exact List.nil_prefix
    · exact hzero
    · intro q hq hfits
      cases q with
      | nil => exact Nat.le_refl _
      | cons y q =>
        obtain ⟨rest, hrest⟩ := hq
        have hexceeds := hmono (cost y) (total cost (y :: q)) (by simp)
          (h y (by rw [← hrest]; rfl))
        rw [hexceeds] at hfits
        cases hfits

theorem notCutShort_cons_iff : NotCutShort cost skip exceeds (x :: l) ↔
    (skip x = true → exceeds (cost x) = true → ∀ y ∈ (kept skip l).head?, exceeds (cost y) = true) ∧
      NotCutShort cost skip (if skip x then exceeds else fun n => exceeds (cost x + n)) l := by
  -- what is left of the budget after `x`
  have hleft : ∀ before n, exceeds (total cost (kept skip (x :: before)) + n) =
      (if skip x then exceeds else fun n => exceeds (cost x + n)) (total cost (kept skip before) + n) := by
    intro before n
    cases hskip : skip x with
    | true => rw [kept_cons_of_skip hskip, if_pos rfl]
    | false =>
      rw [kept_cons_of_not_skip hskip, if_neg Bool.false_ne_true, total_cons, Nat.add_assoc]
  constructor
  · intro h
    constructor
    · intro hskip hexceeds y hy
      have hfirst := h [] x l rfl hskip (by simpa [kept] using hexceeds) y hy
      simpa [kept] using hfirst
    · intro before z after hl hskip hexceeds y hy
      rw [← hleft] at hexceeds ⊢
      exact h (x :: before) z after (by rw [hl]; rfl) hskip hexceeds y hy
  · rintro ⟨hfirst, hrest⟩ before z after hl hskip hexceeds y hy
    cases before with
    | nil =>
      obtain ⟨rfl, rfl⟩ := List.cons.inj hl
      have hfirst := hfirst hskip (by simpa [kept] using hexceeds) y hy
      simpa [kept] using hfirst
    | cons w before =>
      obtain ⟨rfl, htail⟩ := List.cons.inj hl
      rw [hleft] at hexceeds ⊢
      exact hrest before z after htail hskip hexceeds y hy

include hmono in
/-- Where the first element not skipped exceeds the budget, nothing is left to lose. -/
theorem notCutShort_of_head (h : ∀ y ∈ (kept skip l).head?, exceeds (cost y) = true) :
    NotCutShort cost skip exceeds l := by
  intro before x after hl hskip _ y hy
  have hkept : kept skip l = kept skip before ++ kept skip after := by
    rw [hl, kept, List.filter_append, List.filter_cons_of_neg (by simp [hskip])]
    rfl
  cases hbefore : kept skip before with
  | nil =>
    rw [hkept, hbefore, List.nil_append] at h
    simpa using h y hy
  | cons z rest =>
    rw [hkept, hbefore] at h
    exact hmono (cost z) _ (by simp; omega) (h z rfl)

include hmono in
theorem longestPrefix_admit_iff (hzero : exceeds 0 = false) (l : List α) :
    LongestPrefix cost exceeds (kept skip l) (admitted cost skip exceeds l) ↔ NotCutShort cost skip exceeds l := by
  induction l generalizing exceeds with
  | nil =>
    constructor
    · intro _ before x after hl
      simp at hl
    · exact fun _ => (longestPrefix_nil_iff hmono hzero).mpr (by simp [kept])
  | cons x rest ih =>
    rw [notCutShort_cons_iff, admitted]
    cases hexceeds : exceeds (cost x) with
    | true =>
      rw [if_pos rfl, longestPrefix_nil_iff hmono hzero]
      cases hskip : skip x with
      | true =>
        rw [kept_cons_of_skip hskip]
        constructor
        · exact fun h => ⟨fun _ _ => h, notCutShort_of_head hmono h⟩
        · exact fun h => h.1 rfl rfl
      | false =>
        rw [kept_cons_of_not_skip hskip]
        constructor
        · intro _
          refine ⟨fun h => absurd h Bool.false_ne_true, fun before z after _ _ _ y _ => ?_⟩
          exact hmono (cost x) _ (by omega) hexceeds
        · rintro - y hy
          obtain rfl := Option.some.inj hy
          exact hexceeds
    | false =>
      rw [if_neg Bool.false_ne_true]
      cases hskip : skip x with
      | true =>
        rw [kept_cons_of_skip hskip, if_pos rfl, if_pos rfl, ih hmono hzero]
        constructor
        · exact fun h => ⟨fun _ hexceeds' => absurd hexceeds' Bool.false_ne_true, h⟩
        · exact fun h => h.2
      | false =>
        rw [kept_cons_of_not_skip hskip, if_neg Bool.false_ne_true, if_neg Bool.false_ne_true,
          longestPrefix_cons_iff hexceeds,
          ih (fun m n hmn => hmono _ _ (by omega)) (by simpa using hexceeds)]
        constructor
        · exact fun h => ⟨fun hskip' => absurd hskip' Bool.false_ne_true, h⟩
        · exact fun h => h.2

end Budget
