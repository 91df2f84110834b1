import Mathlib

/-!
# Last writer wins

A register takes a value where it is empty or the value is newer than the one it
holds. The order of newness compares stamps, so that two values can tie: it is
asymmetric, and not being newer is transitive. What a register holds after some
offers is one of them, or what it held, and none of them is newer than it.
-/

namespace LastWriter

universe u
variable {V : Type u}

/-- `newer a b` says that `b` is newer than `a`. -/
structure Ranked (newer : V → V → Bool) : Prop where
  asymm : ∀ a b, newer a b = true → newer b a = false
  trans : ∀ a b c, newer a b = false → newer b c = false → newer a c = false

def offer (newer : V → V → Bool) : Option V → V → Option V
  | none, b => some b
  | some a, b => if newer a b then some b else some a

def offerAll (newer : V → V → Bool) (held : Option V) (offers : List V) : Option V :=
  offers.foldl (offer newer) held

variable {newer : V → V → Bool}

namespace Ranked
variable (h : Ranked newer) {a b c : V}
include h

theorem irrefl (a : V) : newer a a = false := by
  rcases haa : newer a a with _ | _
  · rfl
  · exact haa.symm.trans (h.asymm a a haa)

/-- What is newer than something is newer than all that is no newer than it. -/
theorem newer_of_newer (hab : newer b a = false) (hbc : newer b c = true) :
    newer a c = true := by
  rcases hac : newer a c with _ | _
  · exact absurd hbc (by rw [h.trans b a c hab hac]; simp)
  · rfl

theorem newer_trans (hab : newer a b = true) (hbc : newer b c = true) : newer a c = true :=
  h.newer_of_newer (h.asymm a b hab) hbc

end Ranked

theorem offer_cases (held : Option V) (b : V) :
    offer newer held b = some b ∨ offer newer held b = held := by
  cases held with
  | none => exact Or.inl rfl
  | some a =>
    rw [offer]
    split
    · exact Or.inl rfl
    · exact Or.inr rfl

theorem mem_of_offerAll {offers : List V} {held : Option V} {a : V}
    (h : offerAll newer held offers = some a) : held = some a ∨ a ∈ offers := by
  induction offers generalizing held with
  | nil => exact Or.inl h
  | cons b rest ih =>
    rcases ih h with hheld | hmem
    · rcases offer_cases held b with hnew | hold
      · obtain rfl := Option.some.inj (hnew.symm.trans hheld)
        exact Or.inr List.mem_cons_self
      · exact Or.inl (hold.symm.trans hheld)
    · exact Or.inr (List.mem_cons_of_mem _ hmem)

/-- A register that was offered something holds something. -/
theorem isSome_offerAll {offers : List V} {held : Option V}
    (h : held.isSome = true ∨ offers ≠ []) : (offerAll newer held offers).isSome = true := by
  induction offers generalizing held with
  | nil => exact h.resolve_right fun hne => hne rfl
  | cons b rest ih =>
    refine ih (Or.inl ?_)
    cases held with
    | none => rfl
    | some a =>
      rw [offer]
      split <;> rfl

/-- A register that is offered nothing newer keeps what it holds. -/
theorem offerAll_of_not_newer {offers : List V} {a : V} (h : ∀ b ∈ offers, newer a b = false) :
    offerAll newer (some a) offers = some a := by
  induction offers with
  | nil => rfl
  | cons b rest ih =>
    have hb : offer newer (some a) b = some a := by
      rw [offer, h b List.mem_cons_self]
      rfl
    rw [offerAll, List.foldl_cons, hb]
    exact ih fun c hc => h c (List.mem_cons_of_mem _ hc)

/-- Nothing that was offered is newer than what the register holds. -/
theorem not_newer_offerAll (hr : Ranked newer) {offers : List V} {held : Option V} {a : V}
    (h : offerAll newer held offers = some a) :
    (∀ b, held = some b → newer a b = false) ∧ ∀ b ∈ offers, newer a b = false := by
  induction offers generalizing held with
  | nil =>
    refine ⟨fun b hb => ?_, fun b hb => by cases hb⟩
    rw [← Option.some.inj (h.symm.trans hb)]
    exact hr.irrefl a
  | cons b rest ih =>
    obtain ⟨hstart, hrest⟩ := ih h
    have hb : newer a b = false ∧ ∀ c, held = some c → newer a c = false := by
      cases held with
      | none =>
        refine ⟨hstart b rfl, fun c hc => ?_⟩
        cases hc
      | some d =>
        rw [offer] at hstart
        split at hstart
        · rename_i hnew
          have hab := hstart b rfl
          refine ⟨hab, fun c hc => ?_⟩
          obtain rfl := Option.some.inj hc
          exact hr.trans a b d hab (hr.asymm d b hnew)
        · rename_i hold
          have had := hstart d rfl
          refine ⟨hr.trans a d b had (by simpa using hold), fun c hc => ?_⟩
          obtain rfl := Option.some.inj hc
          exact had
    refine ⟨hb.2, fun c hc => ?_⟩
    rcases List.mem_cons.mp hc with rfl | hc
    · exact hb.1
    · exact hrest c hc

/-! ### Offers in any order -/

/-- The greatest of what a register held and what it was offered, the first before its equals. -/
structure Greatest (newer : V → V → Bool) (held : Option V) (offers : List V) (a : V) : Prop where
  source : held = some a ∨ a ∈ offers ∧ ∀ b, held = some b → newer b a = true
  greatest : ∀ b ∈ offers, newer a b = false

/-- A register changes only for something newer. -/
theorem eq_or_newer_offerAll (hr : Ranked newer) {offers : List V} {a b : V}
    (h : offerAll newer (some a) offers = some b) : b = a ∨ newer a b = true := by
  induction offers generalizing a with
  | nil => exact Or.inl (Option.some.inj h).symm
  | cons c rest ih =>
    rw [offerAll, List.foldl_cons, offer, ← offerAll] at h
    split at h
    · rename_i hnew
      rcases ih h with rfl | hlater
      · exact Or.inr hnew
      · exact Or.inr (hr.newer_trans hnew hlater)
    · exact ih h

theorem greatest_offerAll (hr : Ranked newer) {offers : List V} {held : Option V} {a : V}
    (h : offerAll newer held offers = some a) : Greatest newer held offers a := by
  refine ⟨?_, (not_newer_offerAll hr h).2⟩
  rcases mem_of_offerAll h with hheld | hmem
  · exact Or.inl hheld
  · cases held with
    | none => exact Or.inr ⟨hmem, fun b hb => by cases hb⟩
    | some b =>
      rcases eq_or_newer_offerAll hr h with rfl | hnew
      · exact Or.inl rfl
      · refine Or.inr ⟨hmem, fun c hc => ?_⟩
        obtain rfl := Option.some.inj hc
        exact hnew

/-- Where equally new offers are equal, only one value is the greatest. -/
theorem Greatest.eq {offers : List V} {held : Option V} {a b : V}
    (hties : ∀ a ∈ offers, ∀ b ∈ offers, newer a b = false → newer b a = false → a = b)
    (ha : Greatest newer held offers a) (hb : Greatest newer held offers b) : a = b := by
  rcases ha.source with hheld | ⟨hmem, hnew⟩
  · rcases hb.source with hheld' | ⟨hmem', hnew'⟩
    · exact Option.some.inj (hheld.symm.trans hheld')
    · exact absurd (hnew' a hheld) (by simp [ha.greatest b hmem'])
  · rcases hb.source with hheld' | ⟨hmem', -⟩
    · exact absurd (hnew b hheld') (by simp [hb.greatest a hmem])
    · exact hties a hmem b hmem' (ha.greatest b hmem') (hb.greatest a hmem)

theorem offerAll_eq_none_iff {offers : List V} {held : Option V} :
    offerAll newer held offers = none ↔ held = none ∧ offers = [] := by
  constructor
  · intro h
    have hnone : ¬ (held.isSome = true ∨ offers ≠ []) := fun hsome => by
      have hs := @isSome_offerAll _ newer _ _ hsome
      rw [h] at hs
      cases hs
    rw [not_or, Option.not_isSome_iff_eq_none, not_not] at hnone
    exact hnone
  · rintro ⟨rfl, rfl⟩
    rfl

/-- Neither the order of the offers nor their repetition matters. -/
theorem offerAll_congr (hr : Ranked newer) {offers offers' : List V} {held : Option V}
    (hmem : ∀ b, b ∈ offers ↔ b ∈ offers')
    (hties : ∀ a ∈ offers, ∀ b ∈ offers, newer a b = false → newer b a = false → a = b) :
    offerAll newer held offers = offerAll newer held offers' := by
  rcases h : offerAll newer held offers with _ | a
  · obtain ⟨hnone, hnil⟩ := offerAll_eq_none_iff.mp h
    symm
    refine offerAll_eq_none_iff.mpr ⟨hnone, List.eq_nil_iff_forall_not_mem.mpr fun b hb => ?_⟩
    rw [← hmem, hnil] at hb
    cases hb
  · rcases h' : offerAll newer held offers' with _ | b
    · obtain ⟨hnone, hnil⟩ := offerAll_eq_none_iff.mp h'
      have hoffers : offers = [] := List.eq_nil_iff_forall_not_mem.mpr fun b hb => by
        rw [hmem, hnil] at hb
        cases hb
      rw [offerAll_eq_none_iff.mpr ⟨hnone, hoffers⟩] at h
      cases h
    · have ha := greatest_offerAll hr h
      have hb := greatest_offerAll hr h'
      have hb' : Greatest newer held offers b :=
        ⟨hb.source.imp_right fun hs => ⟨(hmem b).mpr hs.1, hs.2⟩,
          fun c hc => hb.greatest c ((hmem c).mp hc)⟩
      rw [ha.eq hties hb']

end LastWriter
