import PoorguyMem.Lib.ByteString

/-!
# Occurrences in a byte string

Where `find` finds a needle, and which parts of a joined string can hold it.
-/

namespace ByteString

/-- `find` gives the first place where the needle begins. -/
theorem find_eq_some_iff {needle s : Bytes} {n : Nat} : find needle s = some n ↔
    n ≤ s.length ∧ needle <+: s.drop n ∧ ∀ m < n, ¬ needle <+: s.drop m := by
  induction s generalizing n with
  | nil =>
    rw [find]
    by_cases hneedle : needle = []
    · subst hneedle
      simp only [if_true, Option.some.injEq, List.length_nil, Nat.le_zero, List.drop_nil,
        List.nil_prefix, true_and, not_true_eq_false]
      constructor
      · rintro rfl
        exact ⟨rfl, fun m hm => (Nat.not_lt_zero m hm).elim⟩
      · exact fun h => h.1.symm
    · simp [hneedle]
  | cons c rest ih =>
    rw [find]
    by_cases hhead : needle <+: c :: rest
    · rw [if_pos (List.isPrefixOf_iff_prefix.mpr hhead), Option.some.injEq]
      constructor
      · rintro rfl
        exact ⟨Nat.zero_le _, hhead, fun m hm => (Nat.not_lt_zero m hm).elim⟩
      · rintro ⟨-, -, hfirst⟩
        by_contra hne
        exact hfirst 0 (Nat.pos_of_ne_zero (Ne.symm hne)) hhead
    · rw [if_neg (by rwa [List.isPrefixOf_iff_prefix]), Option.map_eq_some_iff]
      constructor
      · rintro ⟨k, hk, rfl⟩
        obtain ⟨hle, hat, hfirst⟩ := ih.mp hk
        refine ⟨Nat.succ_le_succ hle, hat, fun m hm => ?_⟩
        rcases m with _ | m
        · exact hhead
        · exact hfirst m (Nat.lt_of_succ_lt_succ hm)
      · rintro ⟨hle, hat, hfirst⟩
        rcases n with _ | n
        · exact absurd hat hhead
        · refine ⟨n, ih.mpr ⟨Nat.le_of_succ_le_succ hle, hat, fun m hm => ?_⟩, rfl⟩
          exact hfirst (m + 1) (Nat.succ_lt_succ hm)

/-- The first occurrence stays where it is when more bytes come. -/
theorem find_append_of_eq_some {needle s : Bytes} {n : Nat} (h : find needle s = some n)
    (more : Bytes) : find needle (s ++ more) = some n := by
  obtain ⟨hle, hprefix, hfirst⟩ := find_eq_some_iff.mp h
  have hlength := hprefix.length_le
  rw [List.length_drop] at hlength
  refine find_eq_some_iff.mpr ⟨?_, ?_, fun m hm hat => hfirst m hm ?_⟩
  · rw [List.length_append]
    omega
  · rw [List.drop_append_of_le_length hle]
    exact hprefix.trans (List.prefix_append _ _)
  · rw [List.drop_append_of_le_length (by omega)] at hat
    refine (List.isPrefix_append_of_length ?_).mp hat
    rw [List.length_drop]
    omega

/-- A prefix of a list begins at some place of it exactly where it is an infix. -/
theorem infix_iff_prefix_drop {needle s : Bytes} :
    needle <:+: s ↔ ∃ m, m ≤ s.length ∧ needle <+: s.drop m := by
  constructor
  · rintro ⟨a, b, rfl⟩
    refine ⟨a.length, by simp, ?_⟩
    rw [List.append_assoc, List.drop_left]
    exact List.prefix_append _ _
  · rintro ⟨m, -, b, hb⟩
    refine ⟨s.take m, b, ?_⟩
    rw [List.append_assoc, hb, List.take_append_drop]

/-- A needle is found where it has been put, unless it begins before that. -/
theorem find_append_iff {a needle b : Bytes} (hne : needle ≠ []) :
    find needle (a ++ needle ++ b) = some a.length ↔ ¬ needle <:+: a ++ needle.dropLast := by
  have hsplit : a ++ needle ++ b = (a ++ needle.dropLast) ++ (needle.getLast hne :: b) := by
    conv_lhs => rw [← List.dropLast_append_getLast hne]
    simp
  have hpos := List.length_pos_of_ne_nil hne
  have hlength : (a ++ needle.dropLast).length = a.length + (needle.length - 1) := by simp
  rw [find_eq_some_iff, infix_iff_prefix_drop]
  have hat : needle <+: (a ++ needle ++ b).drop a.length := by
    rw [List.append_assoc, List.drop_left]
    exact List.prefix_append _ _
  -- what begins before the end of `a` lies in front of the last byte
  have hbefore : ∀ m < a.length, needle <+: (a ++ needle ++ b).drop m ↔
      needle <+: (a ++ needle.dropLast).drop m := by
    intro m hm
    rw [hsplit, List.drop_append_of_le_length (by omega)]
    constructor
    · intro h
      apply List.prefix_of_prefix_length_le h (List.prefix_append _ _)
      rw [List.length_drop]
      omega
    · exact fun h => h.trans (List.prefix_append _ _)
  constructor
  · rintro ⟨-, -, hfirst⟩ ⟨m, hle, hm⟩
    have hshort := hm.length_le
    rw [List.length_drop] at hshort
    have hlt : m < a.length := by omega
    exact hfirst m hlt ((hbefore m hlt).mpr hm)
  · intro hnot
    refine ⟨by simp, hat, fun m hm h => hnot ⟨m, by omega, (hbefore m hm).mp h⟩⟩

/-- Where a needle ends in a byte, what is free of it adds no occurrence at the end. -/
theorem infix_append_iff {needle a b : Bytes} {c : UInt8} (hb : c ∉ b) :
    needle ++ [c] <:+: a ++ b ↔ needle ++ [c] <:+: a := by
  induction b using List.reverseRecOn with
  | nil => rw [List.append_nil]
  | append_singleton b d ih =>
    rw [List.mem_append, not_or, List.mem_singleton] at hb
    rw [← List.append_assoc, List.infix_concat_iff, ih hb.1]
    constructor
    · rintro (⟨t, ht⟩ | h)
      · rw [← List.append_assoc] at ht
        exact absurd (List.append_inj' ht rfl).2 (by simpa using hb.2)
      · exact h
    · exact Or.inr

/-- And where it begins with a byte, none at the front. -/
theorem infix_append_left_iff {needle a b : Bytes} {c : UInt8} (ha : c ∉ a) :
    c :: needle <:+: a ++ b ↔ c :: needle <:+: b := by
  induction a with
  | nil => rfl
  | cons d a ih =>
    rw [List.mem_cons, not_or] at ha
    rw [List.cons_append, List.infix_cons_iff, ih ha.2]
    constructor
    · rintro (⟨t, ht⟩ | h)
      · exact absurd (List.cons.inj ht).1 ha.1
      · exact h
    · exact Or.inr

end ByteString
