import PoorguyMem.Lib.Runs
import PoorguyMem.Lib.Throwing

/-!
# Pairs of runs

Two runs of a program that throws, or of a machine that replies, side by side.
`Couples` says that two programs end alike, both with a value or both with an
exception; its rules follow the syntax as those of `Holds` do. A relation that
every step preserves, and under which the replies are equal, makes two machines
indistinguishable by any list of labels.
-/

namespace Throwing

variable {σ τ α β γ δ : Type}

/-- Both runs return, in `Q`, or both throw, in `E`. -/
inductive Couples (p : Program σ α) (q : Program τ β) (s : σ) (t : τ)
    (Q : α → β → σ → τ → Prop) (E : σ → τ → Prop) : Prop
  | returned {a : α} {b : β} {s' : σ} {t' : τ} (left : p s = (some a, s'))
      (right : q t = (some b, t')) (alike : Q a b s' t')
  | thrown {s' : σ} {t' : τ} (left : p s = (none, s')) (right : q t = (none, t'))
      (alike : E s' t')

variable {p : Program σ α} {q : Program τ β} {s : σ} {t : τ} {Q : α → β → σ → τ → Prop}
  {E : σ → τ → Prop}

theorem Couples.mono {Q' : α → β → σ → τ → Prop} {E' : σ → τ → Prop} (h : Couples p q s t Q E)
    (hQ : ∀ a b s' t', Q a b s' t' → Q' a b s' t') (hE : ∀ s' t', E s' t' → E' s' t') :
    Couples p q s t Q' E' := by
  cases h with
  | returned left right alike => exact .returned left right (hQ _ _ _ _ alike)
  | thrown left right alike => exact .thrown left right (hE _ _ alike)

theorem couples_pure {a : α} {b : β} (h : Q a b s t) :
    Couples (pure a : Program σ α) (pure b : Program τ β) s t Q E :=
  .returned rfl rfl h

theorem couples_bind {f : α → Program σ γ} {g : β → Program τ δ} {Q : γ → δ → σ → τ → Prop}
    (h : Couples p q s t (fun a b s' t' => Couples (f a) (g b) s' t' Q E) E) :
    Couples (p >>= f) (q >>= g) s t Q E := by
  cases h with
  | returned left right alike =>
    have hleft : (p >>= f) s = _ := bind_returned left
    have hright : (q >>= g) t = _ := bind_returned right
    cases alike with
    | returned left' right' alike' =>
      exact .returned (hleft.trans left') (hright.trans right') alike'
    | thrown left' right' alike' => exact .thrown (hleft.trans left') (hright.trans right') alike'
  | thrown left right alike => exact .thrown (bind_thrown left) (bind_thrown right) alike

theorem couples_advance {v : σ → α} {f : σ → σ} {u : τ → β} {g : τ → τ}
    (h : Q (v s) (u t) (f s) (g t)) : Couples (advance v f) (advance u g) s t Q E :=
  .returned rfl rfl h

theorem couples_ofOption {o : Option α} {Q : α → α → σ → τ → Prop} (hsome : ∀ a, Q a a s t)
    (hnone : E s t) : Couples (ofOption o : Program σ α) (ofOption o : Program τ α) s t Q E := by
  cases o with
  | some a => exact .returned rfl rfl (hsome a)
  | none => exact .thrown rfl rfl hnone

/-- The rule for two loops over one list. -/
theorem couples_foldlM {step : β → α → Program σ β} {step' : γ → α → Program τ γ} {xs : List α}
    {I : β → γ → σ → τ → Prop}
    (hstep : ∀ x ∈ xs, ∀ b c s t, I b c s t → Couples (step b x) (step' c x) s t I E)
    {b : β} {c : γ} (hstart : I b c s t) :
    Couples (xs.foldlM step b) (xs.foldlM step' c) s t I E := by
  induction xs generalizing b c s t with
  | nil => exact couples_pure hstart
  | cons x xs ih =>
    rw [List.foldlM_cons, List.foldlM_cons]
    apply couples_bind
    apply (hstep x List.mem_cons_self b c s t hstart).mono
    · intro b' c' s' t' hI
      exact ih (fun y hy => hstep y (List.mem_cons_of_mem _ hy)) hI
    · exact fun _ _ hE => hE

end Throwing

namespace Runs

universe u v w
variable {S : Type u} {L : Type v} {O : Type w} (next : S → L → S) (reply : S → L → O)

/-- What the machine replies along a run. -/
def replies : S → List L → List O
  | _, [] => []
  | s, l :: ls => reply s l :: replies (next s l) ls

variable {next reply}

/-- States in a relation that every step keeps, with equal replies, cannot be told apart. -/
theorem replies_eq_of_related {R : S → S → Prop} {P : L → Prop}
    (step : ∀ s t l, P l → R s t → reply s l = reply t l ∧ R (next s l) (next t l)) {s t : S}
    (h : R s t) {ls : List L} (hls : ∀ l ∈ ls, P l) :
    replies next reply s ls = replies next reply t ls := by
  induction ls generalizing s t with
  | nil => rfl
  | cons l ls ih =>
    obtain ⟨hreply, hnext⟩ := step s t l (hls l List.mem_cons_self) h
    rw [replies, replies, hreply, ih hnext fun m hm => hls m (List.mem_cons_of_mem _ hm)]

end Runs
