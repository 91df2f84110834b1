import Mathlib

/-!
# Runs of a deterministic machine

A machine is a function `next` from a state and a label to a state; a run is a
list of labels. `Along` states a condition on every step of a run, with the
state the step starts from. An invariant is proved for one step and carried
along a run by the rules at the end.
-/

namespace Runs

universe u v
variable {S : Type u} {L : Type v} (next : S → L → S)

def exec (s : S) (ls : List L) : S := ls.foldl next s

/-- Every step of the run satisfies `P` where it is taken. -/
def Along (P : S → L → Prop) : S → List L → Prop
  | _, [] => True
  | s, l :: ls => P s l ∧ Along P (next s l) ls

@[simp] theorem exec_nil (s : S) : exec next s [] = s := rfl

@[simp] theorem exec_cons (s : S) (l : L) (ls : List L) :
    exec next s (l :: ls) = exec next (next s l) ls := rfl

theorem exec_append (s : S) (ls ms : List L) :
    exec next s (ls ++ ms) = exec next (exec next s ls) ms :=
  List.foldl_append

variable {next}
variable {P Q : S → L → Prop} {I : S → Prop}

theorem along_append {s : S} {ls ms : List L} :
    Along next P s (ls ++ ms) ↔ Along next P s ls ∧ Along next P (exec next s ls) ms := by
  induction ls generalizing s with
  | nil => simp [Along]
  | cons l ls ih => simp only [List.cons_append, Along, exec_cons, ih, and_assoc]

/-- What every step preserves holds at the end of the run. -/
theorem invariant (step : ∀ s l, P s l → I s → I (next s l)) {s : S} {ls : List L}
    (h : Along next P s ls) (hs : I s) : I (exec next s ls) := by
  induction ls generalizing s with
  | nil => exact hs
  | cons l ls ih => exact ih h.2 (step s l h.1 hs)

/-- The same for a condition on the labels alone. -/
theorem invariant_of_forall {R : L → Prop} (step : ∀ s l, R l → I s → I (next s l)) {s : S}
    {ls : List L} (h : ∀ l ∈ ls, R l) (hs : I s) : I (exec next s ls) := by
  induction ls generalizing s with
  | nil => exact hs
  | cons l ls ih =>
    exact ih (fun m hm => h m (List.mem_cons_of_mem _ hm)) (step s l (h l List.mem_cons_self) hs)

/-- A condition that follows from an invariant at each step holds along the run. -/
theorem along_of_invariant (step : ∀ s l, P s l → I s → I (next s l))
    (imp : ∀ s l, P s l → I s → Q s l) {s : S} {ls : List L}
    (h : Along next P s ls) (hs : I s) : Along next Q s ls := by
  induction ls generalizing s with
  | nil => trivial
  | cons l ls ih => exact ⟨imp s l h.1 hs, ih h.2 (step s l h.1 hs)⟩

/-- A condition that does not depend on the state holds of every step. -/
theorem forall_of_along {R : L → Prop} (imp : ∀ s l, P s l → R l) {s : S} {ls : List L}
    (h : Along next P s ls) : ∀ l ∈ ls, R l := by
  induction ls generalizing s with
  | nil =>
    intro l hl
    cases hl
  | cons l ls ih =>
    intro l' hl'
    rcases List.mem_cons.mp hl' with rfl | hl'
    · exact imp s _ h.1
    · exact ih h.2 l' hl'

theorem along_imp (imp : ∀ s l, P s l → Q s l) {s : S} {ls : List L}
    (h : Along next P s ls) : Along next Q s ls :=
  along_of_invariant (I := fun _ => True) (fun _ _ _ _ => trivial)
    (fun s l hp _ => imp s l hp) h trivial

end Runs
