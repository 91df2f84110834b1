import Mathlib

/-!
# State computations that may throw

A program here is a function of a state that returns a value or throws; the
state it has reached is kept in both cases. `Holds p s Q E` says that the run
of `p` from `s` ends normally in `Q` or throws in `E`. The rules follow the
syntax of the programs; a loop is a `foldlM`, proved with an invariant.
-/

namespace Throwing

variable {σ α β : Type}

/-- The outcome of a run is a value, or nothing where it threw, and the last state. -/
def Program (σ α : Type) : Type := σ → Option α × σ

instance : Monad (Program σ) where
  pure a := fun s => (some a, s)
  bind p f := fun s =>
    match p s with
    | (some a, s') => f a s'
    | (none, s') => (none, s')

structure Holds (p : Program σ α) (s : σ) (Q : α → σ → Prop) (E : σ → Prop) : Prop where
  returned : ∀ a s', p s = (some a, s') → Q a s'
  thrown : ∀ s', p s = (none, s') → E s'

/-- The state is replaced by `f`; the value is read from the state before. -/
def advance (value : σ → α) (f : σ → σ) : Program σ α := fun s => (some (value s), f s)

/-- A value that may be missing: the program throws where it is. -/
def ofOption (o : Option α) : Program σ α := fun s => (o, s)

variable {p : Program σ α} {s : σ} {Q : α → σ → Prop} {E : σ → Prop}

theorem Holds.mono {Q' : α → σ → Prop} {E' : σ → Prop} (h : Holds p s Q E)
    (hQ : ∀ a s', Q a s' → Q' a s') (hE : ∀ s', E s' → E' s') : Holds p s Q' E' :=
  ⟨fun a s' hrun => hQ a s' (h.returned a s' hrun), fun s' hrun => hE s' (h.thrown s' hrun)⟩

theorem holds_any (p : Program σ α) (s : σ) : Holds p s (fun _ _ => True) (fun _ => True) :=
  ⟨fun _ _ _ => trivial, fun _ _ => trivial⟩

theorem holds_pure {a : α} (h : Q a s) : Holds (pure a) s Q E := by
  constructor
  · intro b s' hrun
    obtain ⟨hb, rfl⟩ := Prod.mk.inj hrun
    cases hb
    exact h
  · intro s' hrun
    cases (Prod.mk.inj hrun).1

theorem bind_returned {f : α → Program σ β} {a : α} {s' : σ} (h : p s = (some a, s')) :
    (p >>= f) s = f a s' := by
  simp only [Bind.bind, h]

theorem bind_thrown {f : α → Program σ β} {s' : σ} (h : p s = (none, s')) :
    (p >>= f) s = (none, s') := by
  simp only [Bind.bind, h]

theorem holds_bind {f : α → Program σ β} {Q : β → σ → Prop}
    (h : Holds p s (fun a s' => Holds (f a) s' Q E) E) : Holds (p >>= f) s Q E := by
  rcases hp : p s with ⟨_ | a, s'⟩
  · have hbind : (p >>= f) s = (none, s') := bind_thrown hp
    constructor
    · intro b t hrun
      cases (Prod.mk.inj (hbind.symm.trans hrun)).1
    · intro t hrun
      cases hbind.symm.trans hrun
      exact h.thrown _ hp
  · have hbind : (p >>= f) s = f a s' := bind_returned hp
    have hf := h.returned a s' hp
    exact ⟨fun b t hrun => hf.returned b t (hbind.symm.trans hrun),
      fun t hrun => hf.thrown t (hbind.symm.trans hrun)⟩

theorem holds_advance {value : σ → α} {f : σ → σ} (h : Q (value s) (f s)) :
    Holds (advance value f) s Q E := by
  constructor
  · intro b s' hrun
    cases hrun
    exact h
  · intro s' hrun
    cases (Prod.mk.inj hrun).1

theorem holds_ofOption {o : Option α} (hsome : ∀ a, o = some a → Q a s) (hnone : o = none → E s) :
    Holds (ofOption o) s Q E := by
  constructor
  · intro a s' hrun
    obtain ⟨ho, rfl⟩ := Prod.mk.inj hrun
    exact hsome a ho
  · intro s' hrun
    obtain ⟨ho, rfl⟩ := Prod.mk.inj hrun
    exact hnone ho

/-- The rule for loops, with an invariant that knows the elements passed. -/
theorem holds_foldlM_passed {step : β → α → Program σ β} {xs : List α}
    {I : List α → β → σ → Prop}
    (hstep : ∀ passed x rest b s, xs = passed ++ x :: rest → I passed b s →
      Holds (step b x) s (I (passed ++ [x])) E) {b : β} (hstart : I [] b s) :
    Holds (xs.foldlM step b) s (I xs) E := by
  suffices loop : ∀ rest passed b s, xs = passed ++ rest → I passed b s →
      Holds (rest.foldlM step b) s (I xs) E from loop xs [] b s rfl hstart
  intro rest
  induction rest with
  | nil =>
    intro passed b s hxs hI
    rw [hxs, List.append_nil]
    exact holds_pure hI
  | cons x rest ih =>
    intro passed b s hxs hI
    rw [List.foldlM_cons]
    refine holds_bind ((hstep passed x rest b s hxs hI).mono ?_ fun _ h => h)
    intro b' s' hI'
    exact ih (passed ++ [x]) b' s' (by simpa using hxs) hI'

/-- The rule for loops: what every pass preserves holds at the end. -/
theorem holds_foldlM {step : β → α → Program σ β} {I : β → σ → Prop} {xs : List α}
    (hstep : ∀ x ∈ xs, ∀ b s, I b s → Holds (step b x) s I E) {b : β} (hstart : I b s) :
    Holds (xs.foldlM step b) s I E := by
  refine holds_foldlM_passed (I := fun _ => I) ?_ hstart
  rintro passed x rest b s rfl hI
  exact hstep x (by simp) b s hI

end Throwing
