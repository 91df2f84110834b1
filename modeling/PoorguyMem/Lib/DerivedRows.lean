import Mathlib

/-!
# Rows derived from documents

Every document of a name has rows, each a value at a key, and no key belongs to
two names. A table is derived from the documents when its rows are theirs. When
one document is replaced, the rows of the new one are written and some keys of its
name are erased; the table stays derived where no row of the old one is left over.
-/

namespace DerivedRows

universe u v w x
variable {Name : Type u} {Doc : Type v} {Key : Type w} {Value : Type x}

/-- The keys of different names are different. -/
def Separate (rows : Name → Doc → Key → Value → Prop) : Prop :=
  ∀ n m d e k a b, rows n d k a → rows m e k b → n = m

def Derived (rows : Name → Doc → Key → Value → Prop) (docs : Name → Option Doc)
    (table : Key → Option Value) : Prop :=
  ∀ k a, table k = some a ↔ ∃ n d, docs n = some d ∧ rows n d k a

/-- The table after a replacement of the document of a name. -/
structure Replaced (rows : Name → Doc → Key → Value → Prop) (n : Name) (new : Option Doc)
    (erased : Key → Prop) (table table' : Key → Option Value) : Prop where
  written : ∀ d, new = some d → ∀ k a, rows n d k a → table' k = some a
  removed : ∀ k, erased k → (∀ d a, new = some d → ¬ rows n d k a) → table' k = none
  kept : ∀ k, ¬ erased k → (∀ d a, new = some d → ¬ rows n d k a) → table' k = table k

variable {rows : Name → Doc → Key → Value → Prop} {docs : Name → Option Doc}
  {table table' : Key → Option Value} {n : Name} {new : Option Doc} {erased : Key → Prop}

theorem derived_empty (rows : Name → Doc → Key → Value → Prop) :
    Derived rows (fun _ => none) fun _ => none := by
  intro k a
  constructor
  · intro h
    cases h
  · rintro ⟨n, d, h, -⟩
    cases h

/-- A replacement that leaves no row of the old document over keeps the table derived. -/
theorem Derived.replace [DecidableEq Name] (hsep : Separate rows) (h : Derived rows docs table)
    (hreplaced : Replaced rows n new erased table table')
    (howned : ∀ k, erased k → ∀ m d a, m ≠ n → ¬ rows m d k a)
    (hclear : ∀ d, docs n = some d → ∀ k a, rows n d k a →
      (∃ e b, new = some e ∧ rows n e k b) ∨ erased k) :
    Derived rows (Function.update docs n new) table' := by
  intro k a
  by_cases hwritten : ∃ e b, new = some e ∧ rows n e k b
  · -- the key is one of the new document
    obtain ⟨e, b, hnew, hrow⟩ := hwritten
    have hb := hreplaced.written e hnew k b hrow
    constructor
    · intro ha
      obtain rfl := Option.some.inj (hb.symm.trans ha)
      exact ⟨n, e, by rw [Function.update_self, hnew], hrow⟩
    · rintro ⟨m, d, hd, hrow'⟩
      obtain rfl := hsep n m e d k b a hrow hrow'
      rw [Function.update_self] at hd
      exact hreplaced.written d hd k a hrow'
  · have hnone : ∀ d b, new = some d → ¬ rows n d k b := fun d b hd hrow =>
      hwritten ⟨d, b, hd, hrow⟩
    by_cases herased : erased k
    · rw [hreplaced.removed k herased hnone]
      refine ⟨fun ha => absurd ha (by simp), ?_⟩
      rintro ⟨m, d, hd, hrow⟩
      by_cases hm : m = n
      · subst hm
        rw [Function.update_self] at hd
        exact (hnone d a hd hrow).elim
      · exact (howned k herased m d a hm hrow).elim
    · rw [hreplaced.kept k herased hnone, h k a]
      refine exists_congr fun m => exists_congr fun d => ?_
      by_cases hm : m = n
      · subst hm
        rw [Function.update_self]
        constructor
        · rintro ⟨hd, hrow⟩
          rcases hclear d hd k a hrow with hnew | hgone
          · exact (hwritten hnew).elim
          · exact (herased hgone).elim
        · rintro ⟨hd, hrow⟩
          exact (hnone d a hd hrow).elim
      · rw [Function.update_of_ne hm]

end DerivedRows
