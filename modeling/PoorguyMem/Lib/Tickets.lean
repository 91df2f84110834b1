import Mathlib

/-!
# Entries under tickets drawn from a counter

Parties draw tickets from a shared counter for the entries they hold, and publish the
entries, or some of them, at a time of their own. Whatever the order in which they do, no
two published entries have the same ticket.
-/

namespace Tickets

universe u v
variable {E : Type u} {ι : Type v} {ticket : E → Nat}

/-- What is published and what is held has tickets up to the counter, no ticket twice. -/
structure Issued (ticket : E → Nat) (counter : Nat) (published : List E)
    (held : ι → Option (List E)) : Prop where
  nodup : (published.map ticket).Nodup
  bound : ∀ e ∈ published, ticket e ≤ counter
  held_nodup : ∀ i es, held i = some es → (es.map ticket).Nodup
  held_bound : ∀ i es, held i = some es → ∀ e ∈ es, ticket e ≤ counter
  unpublished : ∀ i es, held i = some es → ∀ e ∈ es, ∀ p ∈ published, ticket e ≠ ticket p
  apart : ∀ i j es fs, i ≠ j → held i = some es → held j = some fs →
    ∀ e ∈ es, ∀ f ∈ fs, ticket e ≠ ticket f

theorem issued_empty (ticket : E → Nat) :
    Issued ticket 0 [] (fun _ : ι => none) where
  nodup := List.nodup_nil
  bound _ h := by cases h
  held_nodup _ _ h := by cases h
  held_bound _ _ h := by cases h
  unpublished _ _ h := by cases h
  apart _ _ _ _ _ h := by cases h

variable {counter counter' : Nat} {published : List E} {held : ι → Option (List E)}

/-- The counter may move on for other reasons. -/
theorem Issued.advance (h : Issued ticket counter published held) (hle : counter ≤ counter') :
    Issued ticket counter' published held where
  nodup := h.nodup
  bound e he := (h.bound e he).trans hle
  held_nodup := h.held_nodup
  held_bound i es hi e he := (h.held_bound i es hi e he).trans hle
  unpublished := h.unpublished
  apart := h.apart

variable [DecidableEq ι]

/-- A party draws tickets for the entries it then holds. -/
theorem Issued.draw (h : Issued ticket counter published held) (i : ι) {es : List E}
    (hnodup : (es.map ticket).Nodup) (hle : counter ≤ counter')
    (hfresh : ∀ e ∈ es, counter < ticket e ∧ ticket e ≤ counter') :
    Issued ticket counter' published (Function.update held i (some es)) := by
  have hcases : ∀ {j fs}, Function.update held i (some es) j = some fs →
      j = i ∧ fs = es ∨ j ≠ i ∧ held j = some fs := by
    intro j fs hj
    by_cases hji : j = i
    · rw [hji, Function.update_self] at hj
      exact Or.inl ⟨hji, (Option.some.inj hj).symm⟩
    · rw [Function.update_of_ne hji] at hj
      exact Or.inr ⟨hji, hj⟩
  constructor
  · exact h.nodup
  · exact fun e he => (h.bound e he).trans hle
  · intro j fs hj
    rcases hcases hj with ⟨-, rfl⟩ | ⟨-, hold⟩
    · exact hnodup
    · exact h.held_nodup j fs hold
  · intro j fs hj e he
    rcases hcases hj with ⟨-, rfl⟩ | ⟨-, hold⟩
    · exact (hfresh e he).2
    · exact (h.held_bound j fs hold e he).trans hle
  · intro j fs hj e he p hp
    rcases hcases hj with ⟨-, rfl⟩ | ⟨-, hold⟩
    · have hnew := (hfresh e he).1
      have hold := h.bound p hp
      omega
    · exact h.unpublished j fs hold e he p hp
  · intro j k fs gs hjk hj hk e he f hf
    rcases hcases hj with ⟨rfl, rfl⟩ | ⟨-, hj'⟩ <;> rcases hcases hk with ⟨hki, rfl⟩ | ⟨-, hk'⟩
    · exact absurd hki.symm hjk
    · have hnew := (hfresh e he).1
      have hold := h.held_bound k gs hk' f hf
      omega
    · have hold := h.held_bound j fs hj' e he
      have hnew := (hfresh f hf).1
      omega
    · exact h.apart j k fs gs hjk hj' hk' e he f hf

/-- A party publishes some of what it holds, in order, and drops the rest. -/
theorem Issued.publish (h : Issued ticket counter published held) {i : ι} {es fs : List E}
    (hi : held i = some es) (hsub : fs.Sublist es) :
    Issued ticket counter (published ++ fs) (Function.update held i none) := by
  have hcases : ∀ {j gs}, Function.update held i none j = some gs → j ≠ i ∧ held j = some gs := by
    intro j gs hj
    by_cases hji : j = i
    · rw [hji, Function.update_self] at hj
      cases hj
    · rw [Function.update_of_ne hji] at hj
      exact ⟨hji, hj⟩
  constructor
  · rw [List.map_append, List.nodup_append]
    refine ⟨h.nodup, (hsub.map ticket).nodup (h.held_nodup i es hi), ?_⟩
    intro a ha b hb hab
    obtain ⟨p, hp, rfl⟩ := List.mem_map.mp ha
    obtain ⟨e, he, rfl⟩ := List.mem_map.mp hb
    exact h.unpublished i es hi e (hsub.subset he) p hp hab.symm
  · intro e he
    rcases List.mem_append.mp he with hold | hnew
    · exact h.bound e hold
    · exact h.held_bound i es hi e (hsub.subset hnew)
  · exact fun j gs hj => h.held_nodup j gs (hcases hj).2
  · exact fun j gs hj => h.held_bound j gs (hcases hj).2
  · intro j gs hj e he p hp
    obtain ⟨hji, hj⟩ := hcases hj
    rcases List.mem_append.mp hp with hold | hnew
    · exact h.unpublished j gs hj e he p hold
    · exact h.apart j i gs es hji hj hi e he p (hsub.subset hnew)
  · exact fun j k gs ks hjk hj hk => h.apart j k gs ks hjk (hcases hj).2 (hcases hk).2

end Tickets
