import PoorguyMem.Lib.Runs

/-!
# Progress

Among the steps of a run some are the turns of one party. A rank that falls with each of
its turns, and that the others do not raise, bounds the number of turns it takes to a
goal, whatever the others do in between. Where all parties must work together, a weight
that falls with every step that does anything bounds the number of such steps, and the
machine settles if one of them is left wherever it has not.
-/

namespace Progress

universe u v
variable {S : Type u} {L : Type v} {next : S → L → S} {mine : L → Bool} {allowed : L → Prop}
  {I goal : S → Prop} {rank : S → Nat}

/-- While the goal is not reached, a turn lowers the rank and other steps do not raise it. -/
structure Ranks (next : S → L → S) (mine : L → Bool) (allowed : L → Prop) (I goal : S → Prop)
    (rank : S → Nat) : Prop where
  stable : ∀ s l, allowed l → goal s → goal (next s l)
  keeps : ∀ s l, allowed l → I s → goal (next s l) ∨ I (next s l)
  turn : ∀ s l, allowed l → I s → mine l = true → goal (next s l) ∨ rank (next s l) < rank s
  other : ∀ s l, allowed l → I s → mine l = false → goal (next s l) ∨ rank (next s l) ≤ rank s

theorem Ranks.stays (h : Ranks next mine allowed I goal rank) {s : S} {ls : List L}
    (hallowed : ∀ l ∈ ls, allowed l) (hgoal : goal s) : goal (Runs.exec next s ls) :=
  Runs.invariant_of_forall h.stable hallowed hgoal

/-- A run with more turns than the rank reaches the goal. -/
theorem Ranks.reaches (h : Ranks next mine allowed I goal rank) {s : S} {ls : List L}
    (hallowed : ∀ l ∈ ls, allowed l) (hI : I s) (hturns : rank s < ls.countP mine) :
    goal (Runs.exec next s ls) := by
  induction ls generalizing s with
  | nil => simp at hturns
  | cons l rest ih =>
    have hl := hallowed l List.mem_cons_self
    have hrest := fun m hm => hallowed m (List.mem_cons_of_mem l hm)
    rw [Runs.exec_cons]
    rcases h.keeps s l hl hI with hgoal | hnext
    · exact h.stays hrest hgoal
    · cases hmine : mine l with
      | true =>
        rcases h.turn s l hl hI hmine with hgoal | hlt
        · exact h.stays hrest hgoal
        · refine ih hrest hnext ?_
          rw [List.countP_cons_of_pos hmine] at hturns
          omega
      | false =>
        rcases h.other s l hl hI hmine with hgoal | hle
        · exact h.stays hrest hgoal
        · refine ih hrest hnext ?_
          rw [List.countP_cons_of_neg (by simp [hmine])] at hturns
          omega

/-! ### Machines that settle -/

/-- Every step that does something lowers the weight, and one is left until all is done. -/
structure Settles (next : S → L → S) (allowed : L → Prop) (I done : S → Prop)
    (weight : S → Nat) : Prop where
  keeps : ∀ s l, allowed l → I s → I (next s l)
  falls : ∀ s l, allowed l → I s → next s l = s ∨ weight (next s l) < weight s
  enabled : ∀ s, I s → ¬ done s → ∃ l, allowed l ∧ next s l ≠ s

variable {done : S → Prop} {weight : S → Nat}

theorem Settles.length_le (h : Settles next allowed I done weight) {s : S} {ls : List L}
    (hmoves : Runs.Along next (fun s l => allowed l ∧ next s l ≠ s) s ls) (hI : I s) :
    ls.length + weight (Runs.exec next s ls) ≤ weight s := by
  induction ls generalizing s with
  | nil => simp
  | cons l rest ih =>
    obtain ⟨⟨hl, hmoved⟩, hmoves⟩ := hmoves
    have hrest := ih hmoves (h.keeps s l hl hI)
    have hfalls := (h.falls s l hl hI).resolve_left hmoved
    rw [List.length_cons, Runs.exec_cons]
    omega

/-- Whatever has been done, the machine can be brought to an end. -/
theorem Settles.finishes (h : Settles next allowed I done weight) {s : S} (hI : I s) :
    ∃ ls, (∀ l ∈ ls, allowed l) ∧ done (Runs.exec next s ls) := by
  induction hn : weight s using Nat.strong_induction_on generalizing s with
  | _ n ih =>
    by_cases hdone : done s
    · exact ⟨[], fun l hl => (by cases hl), hdone⟩
    · obtain ⟨l, hl, hmoved⟩ := h.enabled s hI hdone
      have hfalls := (h.falls s l hl hI).resolve_left hmoved
      obtain ⟨ls, hls, hend⟩ := ih _ (hn ▸ hfalls) (h.keeps s l hl hI) rfl
      refine ⟨l :: ls, fun m hm => ?_, hend⟩
      rcases List.mem_cons.mp hm with rfl | hm
      · exact hl
      · exact hls m hm

/-- A run of steps that all do something and that cannot go on has come to the end. -/
theorem Settles.done_of_stuck (h : Settles next allowed I done weight) {s : S} (hI : I s)
    (hstuck : ∀ l, allowed l → next s l = s) : done s := by
  by_contra hdone
  obtain ⟨l, hl, hmoved⟩ := h.enabled s hI hdone
  exact hmoved (hstuck l hl)

end Progress
