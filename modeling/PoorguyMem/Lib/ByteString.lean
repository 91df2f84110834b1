import Mathlib

/-!
# Byte strings

A string of the program is a list of bytes, compared byte by byte. This file
has the few string functions the program uses, the decimal numerals it prints,
and two facts that its key formats rest on: a field that does not contain the
separator can be split off again, and zero-padded numerals of one width are
ordered like the numbers they denote.
-/

namespace ByteString

abbrev Bytes := List UInt8

instance lawfulBEqBytes : LawfulBEq Bytes := inferInstance

/-- The bytes of an ASCII literal. -/
def ascii (s : String) : Bytes := s.toList.map fun c => UInt8.ofNat c.toNat

/-- Byte-wise comparison, as an ordered map of strings compares its keys. -/
def le (a b : Bytes) : Bool := (compare a b).isLE

def lt (a b : Bytes) : Bool := (compare a b).isLT

/-- The position of the first occurrence of `needle`. -/
def find (needle : Bytes) : Bytes → Option Nat
  | [] => if needle = [] then some 0 else none
  | c :: rest =>
    if needle.isPrefixOf (c :: rest) then some 0 else (find needle rest).map (· + 1)

def contains (needle hay : Bytes) : Bool := (find needle hay).isSome

/-- ASCII lower case, as `tolower` has it in the C locale. -/
def lowerByte (c : UInt8) : UInt8 := if 65 ≤ c ∧ c ≤ 90 then c + 32 else c

def lower (s : Bytes) : Bytes := s.map lowerByte

/-- The decimal numeral of `n`, without leading zeros. -/
def decimal (n : Nat) : Bytes := (Nat.toDigits 10 n).map fun c => UInt8.ofNat c.toNat

/-- The numeral of `n` filled on the left with the digit zero up to `width`. -/
def zeroPad (width n : Nat) : Bytes :=
  List.replicate (width - (decimal n).length) 48 ++ decimal n

theorem le_refl (a : Bytes) : le a a = true := by
  simp [le, Std.compare_self]

theorem le_trans {a b c : Bytes} (hab : le a b = true) (hbc : le b c = true) :
    le a c = true := Std.TransCmp.isLE_trans hab hbc

theorem compare_swap (a b : Bytes) : compare a b = (compare b a).swap :=
  Std.OrientedCmp.eq_swap

theorem lt_eq_false {a b : Bytes} : lt a b = false ↔ le b a = true := by
  rw [lt, le, compare_swap]
  cases compare b a <;> simp [Ordering.swap, Ordering.isLT, Ordering.isLE]

theorem le_total (a b : Bytes) : le a b = true ∨ le b a = true := by
  rw [le, le, compare_swap a b]
  cases compare b a <;> simp [Ordering.swap, Ordering.isLE]

theorem le_antisymm {a b : Bytes} (hab : le a b = true) (hba : le b a = true) : a = b := by
  refine Std.compare_eq_iff_eq.mp ?_
  rw [le] at hab hba
  rw [compare_swap] at hba
  cases h : compare a b <;> simp_all

/-- A common prefix does not matter to the comparison. -/
theorem compare_append_left (p a b : Bytes) : compare (p ++ a) (p ++ b) = compare a b := by
  induction p with
  | nil => rfl
  | cons x p ih =>
    rw [List.cons_append, List.cons_append, List.compare_cons_cons, ih,
      Std.compare_self]
    rfl

/-- Of two strings of one length the first bytes that differ decide. -/
theorem compare_append_of_length_eq {a b : Bytes} (h : a.length = b.length) (x y : Bytes) :
    compare (a ++ x) (b ++ y) = (compare a b).then (compare x y) := by
  induction a generalizing b with
  | nil =>
    cases b with
    | nil => rfl
    | cons _ _ => simp at h
  | cons c a ih =>
    cases b with
    | nil => simp at h
    | cons d b =>
      have hl : a.length = b.length := by simpa using h
      simp only [List.cons_append, List.compare_cons_cons, ih hl, Ordering.then_assoc]

/-- A field without the separator is determined by the joined string. -/
theorem separated_inj {sep : UInt8} {a b x y : Bytes} (ha : sep ∉ a) (hb : sep ∉ b)
    (h : a ++ sep :: x = b ++ sep :: y) : a = b ∧ x = y := by
  induction a generalizing b with
  | nil =>
    cases b with
    | nil => exact ⟨rfl, by simpa using h⟩
    | cons d b =>
      have hd : sep = d := by simpa using (List.cons.inj h).1
      exact False.elim (hb (hd ▸ List.mem_cons_self))
  | cons c a ih =>
    cases b with
    | nil =>
      have hc : c = sep := by simpa using (List.cons.inj h).1
      exact False.elim (ha (hc ▸ List.mem_cons_self))
    | cons d b =>
      obtain ⟨hcd, htail⟩ := List.cons.inj h
      have ih' := ih (fun hm => ha (List.mem_cons_of_mem _ hm))
        (fun hm => hb (List.mem_cons_of_mem _ hm)) htail
      exact ⟨by rw [hcd, ih'.1], ih'.2⟩

/-- Two different fields can only be joined to one string when one of them,
with the separator, is a prefix of the other. -/
theorem prefix_of_join_eq {a b sep x y : Bytes} (h : a ++ sep ++ x = b ++ sep ++ y) :
    a ++ sep <+: b ++ sep ∨ b ++ sep <+: a ++ sep := by
  have hb : b ++ sep <+: a ++ sep ++ x := by
    rw [h]
    exact List.prefix_append _ _
  exact List.prefix_or_prefix_of_prefix (List.prefix_append _ _) hb

/-! ### Numerals -/

/-- The number a string of digits denotes. -/
def digitsValue : Bytes → Nat
  | [] => 0
  | c :: rest => (c.toNat - 48) * 10 ^ rest.length + digitsValue rest

def IsDigits (s : Bytes) : Prop := ∀ c ∈ s, 48 ≤ c.toNat ∧ c.toNat ≤ 57

theorem digitsValue_lt {s : Bytes} (h : IsDigits s) : digitsValue s < 10 ^ s.length := by
  induction s with
  | nil => simp [digitsValue]
  | cons c rest ih =>
    have hc := h c List.mem_cons_self
    have hrest := ih fun d hd => h d (List.mem_cons_of_mem _ hd)
    have hle : (c.toNat - 48) * 10 ^ rest.length ≤ 9 * 10 ^ rest.length :=
      Nat.mul_le_mul_right _ (by omega)
    simp only [digitsValue, List.length_cons, Nat.pow_succ]
    omega

/-- Numerals of one length are ordered like their numbers. -/
theorem compare_digits {a b : Bytes} (ha : IsDigits a) (hb : IsDigits b)
    (h : a.length = b.length) : compare a b = compare (digitsValue a) (digitsValue b) := by
  induction a generalizing b with
  | nil =>
    cases b with
    | nil => rfl
    | cons _ _ => simp at h
  | cons c a ih =>
    cases b with
    | nil => simp at h
    | cons d b =>
      have hl : a.length = b.length := by simpa using h
      have hc := ha c List.mem_cons_self
      have hd := hb d List.mem_cons_self
      have hra : IsDigits a := fun e he => ha e (List.mem_cons_of_mem _ he)
      have hrb : IsDigits b := fun e he => hb e (List.mem_cons_of_mem _ he)
      have hva := digitsValue_lt hra
      have hvb := digitsValue_lt hrb
      rw [List.compare_cons_cons, ih hra hrb hl]
      simp only [digitsValue, hl] at hva ⊢
      rcases Nat.lt_trichotomy c.toNat d.toNat with hlt | heq | hgt
      · have hcmp : compare c d = .lt := by
          rw [UInt8.compare_eq_toNat_compare_toNat]; exact Nat.compare_eq_lt.mpr hlt
        have hmul : (c.toNat - 48 + 1) * 10 ^ b.length ≤ (d.toNat - 48) * 10 ^ b.length :=
          Nat.mul_le_mul_right _ (by omega)
        rw [hcmp, Ordering.lt_then, eq_comm, Nat.compare_eq_lt]
        rw [Nat.add_mul] at hmul
        omega
      · have hcd : c = d := UInt8.toNat_inj.mp heq
        subst hcd
        rw [Std.compare_self, Ordering.eq_then]
        rcases Nat.lt_trichotomy (digitsValue a) (digitsValue b) with h1 | h1 | h1
        · rw [Nat.compare_eq_lt.mpr h1, eq_comm, Nat.compare_eq_lt]; omega
        · rw [h1, Std.compare_self, Std.compare_self]
        · rw [Nat.compare_eq_gt.mpr h1, eq_comm, Nat.compare_eq_gt]; omega
      · have hcmp : compare c d = .gt := by
          rw [UInt8.compare_eq_toNat_compare_toNat]; exact Nat.compare_eq_gt.mpr hgt
        have hmul : (d.toNat - 48 + 1) * 10 ^ b.length ≤ (c.toNat - 48) * 10 ^ b.length :=
          Nat.mul_le_mul_right _ (by omega)
        rw [hcmp, Ordering.gt_then, eq_comm, Nat.compare_eq_gt]
        rw [Nat.add_mul] at hmul
        omega

theorem decimal_of_lt {n : Nat} (h : n < 10) : decimal n = [UInt8.ofNat (48 + n)] := by
  rw [decimal, Nat.toDigits_of_lt_base h]
  interval_cases n <;> rfl

theorem decimal_of_ge {n : Nat} (h : 10 ≤ n) :
    decimal n = decimal (n / 10) ++ [UInt8.ofNat (48 + n % 10)] := by
  have hd : n % 10 < 10 := Nat.mod_lt _ (by omega)
  have hlast : decimal (n % 10) = [UInt8.ofNat (48 + n % 10)] := decimal_of_lt hd
  rw [decimal, Nat.toDigits_of_base_le (by omega) h, List.map_append]
  rw [decimal, Nat.toDigits_of_lt_base hd] at hlast
  simpa [decimal] using hlast

theorem isDigits_decimal (n : Nat) : IsDigits (decimal n) := by
  induction n using Nat.strongRecOn with
  | ind n ih =>
    by_cases h : n < 10
    · rw [decimal_of_lt h]
      intro c hc
      rw [List.mem_singleton.mp hc, UInt8.toNat_ofNat']
      omega
    · rw [decimal_of_ge (by omega)]
      intro c hc
      rcases List.mem_append.mp hc with hc | hc
      · exact ih (n / 10) (by omega) c hc
      · rw [List.mem_singleton.mp hc, UInt8.toNat_ofNat']
        omega

theorem digitsValue_append (a b : Bytes) :
    digitsValue (a ++ b) = digitsValue a * 10 ^ b.length + digitsValue b := by
  induction a with
  | nil => simp [digitsValue]
  | cons c a ih =>
    simp only [List.cons_append, digitsValue, List.length_append, ih, Nat.pow_add]
    ring

theorem digitsValue_decimal (n : Nat) : digitsValue (decimal n) = n := by
  induction n using Nat.strongRecOn with
  | ind n ih =>
    have hdigit : ∀ d : Nat, d < 10 → (UInt8.ofNat (48 + d)).toNat - 48 = d := by
      intro d hd
      rw [UInt8.toNat_ofNat']
      omega
    by_cases h : n < 10
    · rw [decimal_of_lt h]
      simpa [digitsValue] using hdigit n h
    · rw [decimal_of_ge (by omega), digitsValue_append, ih (n / 10) (by omega)]
      simp only [digitsValue, hdigit (n % 10) (Nat.mod_lt _ (by omega)),
        List.length_cons, List.length_nil]
      omega

theorem length_decimal_le {n w : Nat} (hw : 0 < w) (h : n < 10 ^ w) :
    (decimal n).length ≤ w := by
  rw [decimal, List.length_map]
  exact (Nat.length_toDigits_le_iff (by omega) hw).mpr h

theorem length_zeroPad {n w : Nat} (hw : 0 < w) (h : n < 10 ^ w) :
    (zeroPad w n).length = w := by
  have hlen := length_decimal_le hw h
  simp only [zeroPad, List.length_append, List.length_replicate]
  omega

theorem isDigits_zeroPad (w n : Nat) : IsDigits (zeroPad w n) := by
  intro c hc
  rcases List.mem_append.mp hc with hc | hc
  · rw [List.eq_of_mem_replicate hc]
    decide
  · exact isDigits_decimal n c hc

theorem digitsValue_zeroPad (w n : Nat) : digitsValue (zeroPad w n) = n := by
  have hzero : ∀ k, digitsValue (List.replicate k 48) = 0 := by
    intro k
    induction k with
    | zero => rfl
    | succ k ih => rw [List.replicate_succ, digitsValue, ih]; simp
  rw [zeroPad, digitsValue_append, hzero, digitsValue_decimal]
  omega

/-- Zero-padded numerals of one width sort like the numbers. -/
theorem compare_zeroPad {a b w : Nat} (hw : 0 < w) (ha : a < 10 ^ w) (hb : b < 10 ^ w) :
    compare (zeroPad w a) (zeroPad w b) = compare a b := by
  rw [compare_digits (isDigits_zeroPad w a) (isDigits_zeroPad w b),
    digitsValue_zeroPad, digitsValue_zeroPad]
  rw [length_zeroPad hw ha, length_zeroPad hw hb]

end ByteString
