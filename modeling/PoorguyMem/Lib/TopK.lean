import Mathlib

/-!
# The first elements of a sorted list

A list is sorted by an order in which different elements may be tied, and cut
after `k` elements. What is left does not depend on the order the list had before
exactly where no two different elements are tied at a place before the cut.
-/

namespace TopK

universe u
variable {α : Type u} {r : α → α → Prop} [DecidableRel r]

/-- Two different tied elements come after `k` others. -/
def Untied (r : α → α → Prop) [DecidableRel r] (k : Nat) (l : List α) : Prop :=
  ∀ a ∈ l, ∀ b ∈ l, a ≠ b → r a b → r b a → k ≤ l.countP fun x => ¬ r a x

theorem Untied.perm {k : Nat} {l l' : List α} (h : Untied r k l) (hperm : l.Perm l') :
    Untied r k l' := by
  intro a ha b hb hab h₁ h₂
  rw [← hperm.countP_eq]
  exact h a (hperm.mem_iff.mpr ha) b (hperm.mem_iff.mpr hb) hab h₁ h₂

theorem Untied.tail {k : Nat} {a : α} {l : List α} (h : Untied r (k + 1) (a :: l)) :
    Untied r k l := by
  intro x hx y hy hxy h₁ h₂
  have hcount := h x (List.mem_cons_of_mem a hx) y (List.mem_cons_of_mem a hy) hxy h₁ h₂
  rw [List.countP_cons] at hcount
  split at hcount <;> omega

section Sorted
variable [Std.Total r]

/-- Sorted lists with the same elements begin alike. -/
theorem take_eq_of_pairwise {s₁ s₂ : List α} {k : Nat} (h₁ : s₁.Pairwise r) (h₂ : s₂.Pairwise r)
    (hperm : s₁.Perm s₂) (huntied : Untied r k s₁) : s₁.take k = s₂.take k := by
  induction s₁ generalizing s₂ k with
  | nil => rw [hperm.symm.eq_nil]
  | cons a s₁ ih =>
    cases s₂ with
    | nil => exact absurd hperm.eq_nil (by simp)
    | cons b s₂ =>
      cases k with
      | zero => rfl
      | succ k =>
        obtain ⟨hfirst₁, hrest₁⟩ := List.pairwise_cons.mp h₁
        obtain ⟨hfirst₂, hrest₂⟩ := List.pairwise_cons.mp h₂
        have hab : a = b := by
          by_contra hne
          have hb : b ∈ s₁ := (List.mem_cons.mp (hperm.mem_iff.mpr List.mem_cons_self)).resolve_left
            (Ne.symm hne)
          have ha : a ∈ s₂ := (List.mem_cons.mp (hperm.mem_iff.mp List.mem_cons_self)).resolve_left hne
          -- nothing comes before the first element
          have hcount := huntied a List.mem_cons_self b (List.mem_cons_of_mem a hb) hne
            (hfirst₁ b hb) (hfirst₂ a ha)
          have hzero : (a :: s₁).countP (fun x => ¬ r a x) = 0 := by
            refine List.countP_eq_zero.mpr fun x hx => ?_
            rcases List.mem_cons.mp hx with rfl | hx
            · simpa using (Std.Total.total x x).elim id id
            · simpa using hfirst₁ x hx
          omega
        subst hab
        rw [List.take_succ_cons, List.take_succ_cons,
          ih hrest₁ hrest₂ hperm.cons_inv huntied.tail]

variable [IsTrans α r]

theorem take_insertionSort_eq {l l' : List α} {k : Nat} (hperm : l.Perm l')
    (huntied : Untied r k l) : (l.insertionSort r).take k = (l'.insertionSort r).take k := by
  have hsort := List.perm_insertionSort r l
  have hsort' := List.perm_insertionSort r l'
  exact take_eq_of_pairwise (List.pairwise_insertionSort r l) (List.pairwise_insertionSort r l')
    (hsort.trans (hperm.trans hsort'.symm)) (huntied.perm hsort.symm)

/-- Without ties between different elements the order of the list does not matter. -/
theorem insertionSort_eq_of_perm {l l' : List α} (hperm : l.Perm l')
    (hanti : ∀ a ∈ l, ∀ b ∈ l, r a b → r b a → a = b) : l.insertionSort r = l'.insertionSort r := by
  have huntied : Untied r l.length l := fun a ha b hb hne h₁ h₂ =>
    absurd (hanti a ha b hb h₁ h₂) hne
  have htake := take_insertionSort_eq hperm huntied
  have hlen : l.length = (l'.insertionSort r).length := by
    rw [List.length_insertionSort, hperm.length_eq]
  have hlen' : l.length = (l.insertionSort r).length := (List.length_insertionSort r l).symm
  rw [List.take_of_length_le hlen'.ge, List.take_of_length_le hlen.ge] at htake
  exact htake

/-! ### The place of an element -/

omit [DecidableRel r] [Std.Total r] [IsTrans α r] in
/-- An element stands before those it may not stand behind. -/
theorem index_lt_of_not_rel {l : List α} (hsorted : l.Pairwise r) {a b : α} (hne : a ≠ b)
    (hnot : ¬ r b a) {i j : Nat} (hi : l[i]? = some a) (hj : l[j]? = some b) : i < j := by
  obtain ⟨hilen, rfl⟩ := List.getElem?_eq_some_iff.mp hi
  obtain ⟨hjlen, rfl⟩ := List.getElem?_eq_some_iff.mp hj
  rcases Nat.lt_trichotomy i j with hlt | rfl | hgt
  · exact hlt
  · exact absurd rfl hne
  · exact absurd (List.pairwise_iff_getElem.mp hsorted j i hjlen hilen hgt) hnot

omit [DecidableRel r] [Std.Total r] [IsTrans α r] in
theorem mem_take_of_not_rel {l : List α} (hsorted : l.Pairwise r) {a b : α} (hne : a ≠ b)
    (hnot : ¬ r b a) {k : Nat} (ha : a ∈ l) (hb : b ∈ l.take k) : a ∈ l.take k := by
  obtain ⟨i, hi⟩ := List.mem_iff_getElem?.mp ha
  obtain ⟨j, hj⟩ := List.mem_iff_getElem?.mp hb
  have hjk : j < k := by
    have := (List.getElem?_eq_some_iff.mp hj).1
    rw [List.length_take] at this
    omega
  rw [List.getElem?_take_of_lt hjk] at hj
  have hij := index_lt_of_not_rel hsorted hne hnot hi hj
  apply List.mem_iff_getElem?.mpr
  exact ⟨i, by rw [List.getElem?_take_of_lt (by omega), hi]⟩

omit [Std.Total r] in
theorem length_takeWhile_eq_countP {s : List α} (hs : s.Pairwise r) (a : α) :
    (s.takeWhile fun x => ¬ r a x).length = s.countP fun x => ¬ r a x := by
  induction s with
  | nil => rfl
  | cons b s ih =>
    obtain ⟨hfirst, hrest⟩ := List.pairwise_cons.mp hs
    by_cases hab : r a b
    · have hzero : (b :: s).countP (fun x => ¬ r a x) = 0 := by
        refine List.countP_eq_zero.mpr fun x hx => ?_
        rcases List.mem_cons.mp hx with rfl | hx
        · simpa using hab
        · simpa using IsTrans.trans a b x hab (hfirst x hx)
      rw [hzero, List.takeWhile_cons_of_neg (by simpa using hab), List.length_nil]
    · rw [List.takeWhile_cons_of_pos (by simpa using hab), List.length_cons, ih hrest,
        List.countP_cons_of_pos (by simpa using hab)]

/-- The first of several tied elements is sorted to the place after those before it. -/
theorem getElem?_insertionSort_cons (a : α) (l : List α) :
    ((a :: l).insertionSort r)[(a :: l).countP fun x => ¬ r a x]? = some a := by
  have hself : r a a := (Std.Total.total a a).elim id id
  have hplace : ((l.insertionSort r).takeWhile fun x => ¬ r a x).length =
      (a :: l).countP fun x => ¬ r a x := by
    rw [length_takeWhile_eq_countP (List.pairwise_insertionSort r l) a,
      (List.perm_insertionSort r l).countP_eq, List.countP_cons_of_neg (by simpa using hself)]
  rw [List.insertionSort_cons, List.orderedInsert_eq_take_drop, ← hplace,
    List.getElem?_append_right (Nat.le_refl _), Nat.sub_self]
  rfl

/-- If it does not matter which of two tied elements is first, both are cut off. -/
theorem le_countP_of_take_eq {a b : α} {as bs : List α} {k : Nat}
    (hperm : (a :: as).Perm (b :: bs)) (hne : a ≠ b) (hab : r a b) (hba : r b a)
    (heq : ((a :: as).insertionSort r).take k = ((b :: bs).insertionSort r).take k) :
    k ≤ (a :: as).countP fun x => ¬ r a x := by
  by_contra hlt
  have hcount : (b :: bs).countP (fun x => ¬ r b x) = (a :: as).countP fun x => ¬ r a x := by
    rw [← hperm.countP_eq]
    refine List.countP_congr fun x _ => ?_
    simp only [decide_eq_true_eq]
    exact not_congr ⟨IsTrans.trans a b x hab, IsTrans.trans b a x hba⟩
  have ha := getElem?_insertionSort_cons (r := r) a as
  have hb := getElem?_insertionSort_cons (r := r) b bs
  rw [hcount] at hb
  have htake := congrArg (fun s => s[(a :: as).countP fun x => ¬ r a x]?) heq
  simp only [List.getElem?_take] at htake
  rw [if_pos (by omega), if_pos (by omega), ha, hb] at htake
  exact hne (Option.some.inj htake)

end Sorted

/-! ### The first few that qualify -/

/-- What a loop with room for `n` takes of a list. -/
def quota (p : α → Bool) (n : Nat) (l : List α) : List α := (l.filter p).take n

theorem quota_concat (p : α → Bool) (n : Nat) (l : List α) (a : α) :
    quota p n (l ++ [a]) =
      if p a = true ∧ (quota p n l).length < n then quota p n l ++ [a] else quota p n l := by
  have hlen : (quota p n l).length = min n (l.filter p).length := List.length_take
  rw [hlen, quota, quota, List.filter_append, List.take_append]
  cases hp : p a with
  | false => simp [hp]
  | true =>
    rw [List.filter_cons_of_pos hp, List.filter_nil]
    by_cases hroom : min n (l.filter p).length < n
    · rw [if_pos ⟨rfl, hroom⟩, List.take_of_length_le (l := [a])]
      simp only [List.length_singleton]
      omega
    · rw [if_neg (fun h => hroom h.2), Nat.sub_eq_zero_of_le (by omega), List.take_zero,
        List.append_nil]

theorem length_quota (p : α → Bool) (n : Nat) (l : List α) :
    (quota p n l).length = min n (l.countP p) := by
  rw [quota, List.length_take, List.countP_eq_length_filter]

theorem mem_of_mem_quota {p : α → Bool} {n : Nat} {l : List α} {a : α} (h : a ∈ quota p n l) :
    a ∈ l ∧ p a = true := List.mem_filter.mp (List.mem_of_mem_take h)

theorem nodup_quota {p : α → Bool} {n : Nat} {l : List α} (h : l.Nodup) : (quota p n l).Nodup :=
  (List.take_sublist n _).nodup (h.filter p)

omit [DecidableRel r] in
/-- What is taken of a sorted list comes before what else qualifies. -/
theorem rel_of_mem_quota {p : α → Bool} {n : Nat} {l : List α} (hsorted : l.Pairwise r) {a b : α}
    (ha : a ∈ quota p n l) (hb : b ∈ l) (hp : p b = true) (hleft : b ∉ quota p n l) : r a b := by
  have hsplit : (quota p n l ++ (l.filter p).drop n).Pairwise r := by
    rw [quota, List.take_append_drop]
    exact hsorted.filter p
  have hrest : b ∈ (l.filter p).drop n := by
    have hmem : b ∈ quota p n l ++ (l.filter p).drop n := by
      rw [quota, List.take_append_drop]
      exact List.mem_filter.mpr ⟨hb, hp⟩
    exact (List.mem_append.mp hmem).resolve_left hleft
  exact (List.pairwise_append.mp hsplit).2.2 a ha b hrest

/-! ### Filters -/

/-- Cutting before a filter loses nothing exactly where the filter takes all that is
kept or nothing of what is cut off. -/
theorem filter_take_eq_take_filter_iff {p : α → Bool} {k : Nat} {l : List α} :
    (l.take k).filter p = (l.filter p).take k ↔
      (∀ a ∈ l.take k, p a = true) ∨ ∀ a ∈ l.drop k, p a = false := by
  have hsplit : l.filter p = (l.take k).filter p ++ (l.drop k).filter p := by
    rw [← List.filter_append, List.take_append_drop]
  have hkept : ((l.take k).filter p).length ≤ (l.take k).length := List.length_filter_le p _
  have hlen : (l.take k).length ≤ k := List.length_take_le k l
  have htake : (l.filter p).take k = (l.take k).filter p ++
      ((l.drop k).filter p).take (k - ((l.take k).filter p).length) := by
    rw [hsplit, List.take_append, List.take_of_length_le (by omega)]
  rw [htake, List.self_eq_append_right, List.take_eq_nil_iff]
  constructor
  · rintro (hfull | hnone)
    · have hall : ((l.take k).filter p).length = (l.take k).length := by omega
      exact Or.inl (List.length_filter_eq_length_iff.mp hall)
    · exact Or.inr fun a ha => by simpa using List.filter_eq_nil_iff.mp hnone a ha
  · rintro (hall | hnone)
    · rw [List.filter_eq_self.mpr hall]
      by_cases hshort : k ≤ l.length
      · rw [List.length_take, Nat.min_eq_left hshort]
        exact Or.inl (Nat.sub_self k)
      · rw [List.drop_of_length_le (by omega)]
        exact Or.inr rfl
    · exact Or.inr (List.filter_eq_nil_iff.mpr fun a ha => by simp [hnone a ha])

end TopK
