import Mathlib

/-!
# First pages of a merge

Lists that are strictly sorted by one relation, and the first `n` elements of
them. An element is on the first page exactly when fewer than `n` come before
it, so the first page of a merge needs no more than the first pages of its parts.
-/

namespace SortedPages

variable {α : Type} {r : α → α → Prop} [DecidableRel r] [Std.Asymm r] {l part all : List α} {n : ℕ}

theorem mem_take_iff (h : l.Pairwise r) {x : α} :
    x ∈ l.take n ↔ x ∈ l ∧ l.countP (fun y => r y x) < n := by
  induction l generalizing n with
  | nil => simp
  | cons a l ih =>
    obtain ⟨hhead, htail⟩ := List.pairwise_cons.mp h
    have hself : ¬ r a a := irrefl a
    cases n with
    | zero => simp
    | succ n =>
      rw [List.take_succ_cons, List.mem_cons, List.mem_cons, ih htail]
      constructor
      · rintro (rfl | ⟨hmem, hcount⟩)
        · have hnone : l.countP (fun y => r y x) = 0 := by
            rw [List.countP_eq_zero]
            intro y hy
            simpa using asymm (hhead y hy)
          refine ⟨Or.inl rfl, ?_⟩
          rw [List.countP_cons_of_neg (by simpa using hself), hnone]
          omega
        · refine ⟨Or.inr hmem, ?_⟩
          rw [List.countP_cons_of_pos (by simpa using hhead x hmem)]
          omega
      · rintro ⟨rfl | hmem, hcount⟩
        · exact Or.inl rfl
        · rw [List.countP_cons_of_pos (by simpa using hhead x hmem)] at hcount
          exact Or.inr ⟨hmem, by omega⟩

omit [DecidableRel r] in
theorem sublist_of_subset (hpart : part.Pairwise r) (hall : all.Pairwise r) (h : part ⊆ all) :
    part.Sublist all :=
  List.sublist_of_subperm_of_pairwise (List.subperm_of_subset hpart.nodup h) hpart hall

omit [DecidableRel r] in
/-- A part that has the first page of the whole has the same first page. -/
theorem take_eq_of_subset (hpart : part.Pairwise r) (hall : all.Pairwise r) (hsub : part ⊆ all)
    (hfirst : all.take n ⊆ part) : part.take n = all.take n := by
  classical
  have hfilter : part = all.filter (· ∈ part) := by
    refine hpart.eq_of_mem_iff (hall.filter _) fun x => ?_
    simp only [List.mem_filter, decide_eq_true_eq]
    exact ⟨fun h => ⟨hsub h, h⟩, fun h => h.2⟩
  have hkept : (all.take n).filter (· ∈ part) = all.take n := by
    rw [List.filter_eq_self]
    intro x hx
    simpa using hfirst hx
  have hsplit : part = all.take n ++ (all.drop n).filter (· ∈ part) := by
    conv_lhs => rw [hfilter, ← List.take_append_drop n all]
    rw [List.filter_append, hkept]
  rw [hsplit]
  rcases Nat.le_total n all.length with hle | hle
  · exact List.take_left' (by simpa using hle)
  · rw [List.drop_eq_nil_of_le hle, List.filter_nil, List.append_nil, List.take_take, Nat.min_self]

/-- The first page of a merge is the first page of the merged first pages. -/
theorem take_merge {parts : List (List α)} (hparts : ∀ p ∈ parts, p.Pairwise r)
    {merged pages : List α} (hmerged : merged.Pairwise r) (hpages : pages.Pairwise r)
    (mem_merged : ∀ x, x ∈ merged ↔ ∃ p ∈ parts, x ∈ p)
    (mem_pages : ∀ x, x ∈ pages ↔ ∃ p ∈ parts, x ∈ p.take n) : pages.take n = merged.take n := by
  refine take_eq_of_subset hpages hmerged (fun x hx => ?_) fun x hx => ?_
  · obtain ⟨p, hp, hx⟩ := (mem_pages x).mp hx
    exact (mem_merged x).mpr ⟨p, hp, List.mem_of_mem_take hx⟩
  · obtain ⟨hx, hcount⟩ := (mem_take_iff hmerged).mp hx
    obtain ⟨p, hp, hxp⟩ := (mem_merged x).mp hx
    have hsub := sublist_of_subset (hparts p hp) hmerged
      fun y hy => (mem_merged y).mpr ⟨p, hp, hy⟩
    refine (mem_pages x).mpr ⟨p, hp, (mem_take_iff (hparts p hp)).mpr ⟨hxp, ?_⟩⟩
    exact Nat.lt_of_le_of_lt hsub.countP_le hcount

section While
variable {p : α → Bool}

/-- Where `p` holds of every element before one it holds of, a loop that breaks
at the first other element passes over none. -/
theorem takeWhile_eq_filter (h : l.Pairwise fun x y => p y = true → p x = true) :
    l.takeWhile p = l.filter p := by
  induction l with
  | nil => rfl
  | cons a l ih =>
    obtain ⟨hhead, htail⟩ := List.pairwise_cons.mp h
    cases ha : p a with
    | true => rw [List.takeWhile_cons_of_pos ha, List.filter_cons_of_pos ha, ih htail]
    | false =>
      rw [List.takeWhile_cons_of_neg (by simp [ha]), List.filter_cons_of_neg (by simp [ha]), eq_comm,
        List.filter_eq_nil_iff]
      intro y hy hpy
      rw [hhead y hy hpy] at ha
      cases ha

theorem dropWhile_eq_filter (h : l.Pairwise fun x y => p y = true → p x = true) :
    l.dropWhile p = l.filter fun x => !p x := by
  induction l with
  | nil => rfl
  | cons a l ih =>
    obtain ⟨hhead, htail⟩ := List.pairwise_cons.mp h
    cases ha : p a with
    | true => rw [List.dropWhile_cons_of_pos ha, List.filter_cons_of_neg (by simp [ha]), ih htail]
    | false =>
      rw [List.dropWhile_cons_of_neg (by simp [ha]), eq_comm, List.filter_eq_self]
      intro y hy
      rcases List.mem_cons.mp hy with rfl | hy
      · simp [ha]
      · cases hpy : p y with
        | true => exact absurd (hhead y hy hpy) (by simp [ha])
        | false => rfl

end While

end SortedPages
