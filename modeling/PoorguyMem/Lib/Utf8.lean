import Mathlib.Data.List.Infix
import Mathlib.Data.UInt
import Mathlib.Tactic.Common

/-!
# UTF-8

The encoding of a character, byte by byte: what its bytes are as numbers, and which number
the bytes of each length stand for.
-/

namespace Utf8

/-- The bytes of a character. -/
abbrev encode (c : Char) : List UInt8 := String.utf8EncodeChar c

/-- A byte that continues a character. -/
def Continues (b : UInt8) : Prop := 128 ≤ b.toNat ∧ b.toNat ≤ 191

instance (b : UInt8) : Decidable (Continues b) := inferInstanceAs (Decidable (_ ∧ _))

set_option maxRecDepth 4000 in
theorem and_eq_iff_continues (b : UInt8) : b &&& 0xC0 = 0x80 ↔ Continues b := by
  have hall : ∀ n : Fin 256, UInt8.ofFin n &&& 0xC0 = 0x80 ↔ Continues (UInt8.ofFin n) := by
    decide
  exact hall b.toFin

/-! ### Numbers from bytes -/

theorem toNat_and_five (b : UInt8) : (b &&& 0x1F).toNat = b.toNat % 32 := by
  rw [UInt8.toNat_and]
  exact Nat.and_two_pow_sub_one_eq_mod _ 5

theorem toNat_and_four (b : UInt8) : (b &&& 0x0F).toNat = b.toNat % 16 := by
  rw [UInt8.toNat_and]
  exact Nat.and_two_pow_sub_one_eq_mod _ 4

theorem toNat_and_three (b : UInt8) : (b &&& 0x07).toNat = b.toNat % 8 := by
  rw [UInt8.toNat_and]
  exact Nat.and_two_pow_sub_one_eq_mod _ 3

theorem toNat_and_six (b : UInt8) : (b &&& 0x3F).toNat = b.toNat % 64 := by
  rw [UInt8.toNat_and]
  exact Nat.and_two_pow_sub_one_eq_mod _ 6

/-- Six more bits. -/
theorem shift_or {a b : Nat} {i : Nat} (h : b < 2 ^ i) : a * 2 ^ i ||| b = a * 2 ^ i + b := by
  rw [← Nat.shiftLeft_eq, Nat.shiftLeft_add_eq_or_of_lt h]

theorem toNat_two (b0 b1 : UInt8) :
    ((b0 &&& 0x1F).toUInt32 <<< 6 ||| (b1 &&& 0x3F).toUInt32).toNat =
      b0.toNat % 32 * 64 + b1.toNat % 64 := by
  simp only [UInt32.toNat_or, UInt32.toNat_shiftLeft, UInt8.toNat_toUInt32, toNat_and_five,
    toNat_and_six, UInt32.reduceToNat, Nat.reduceMod, Nat.shiftLeft_eq]
  have h0 := Nat.mod_lt b0.toNat (show 0 < 32 by omega)
  have h1 := Nat.mod_lt b1.toNat (show 0 < 64 by omega)
  generalize b0.toNat % 32 = n0 at *
  generalize b1.toNat % 64 = n1 at *
  rw [Nat.mod_eq_of_lt (show n0 * 2 ^ 6 < 2 ^ 32 by omega), shift_or h1]
  omega

theorem toNat_three (b0 b1 b2 : UInt8) :
    ((b0 &&& 0x0F).toUInt32 <<< 12 ||| (b1 &&& 0x3F).toUInt32 <<< 6 |||
        (b2 &&& 0x3F).toUInt32).toNat =
      b0.toNat % 16 * 4096 + b1.toNat % 64 * 64 + b2.toNat % 64 := by
  simp only [UInt32.toNat_or, UInt32.toNat_shiftLeft, UInt8.toNat_toUInt32, toNat_and_four,
    toNat_and_six, UInt32.reduceToNat, Nat.reduceMod, Nat.shiftLeft_eq]
  have h0 := Nat.mod_lt b0.toNat (show 0 < 16 by omega)
  have h1 := Nat.mod_lt b1.toNat (show 0 < 64 by omega)
  have h2 := Nat.mod_lt b2.toNat (show 0 < 64 by omega)
  generalize b0.toNat % 16 = n0 at *
  generalize b1.toNat % 64 = n1 at *
  generalize b2.toNat % 64 = n2 at *
  rw [Nat.mod_eq_of_lt (show n0 * 2 ^ 12 < 2 ^ 32 by omega),
    Nat.mod_eq_of_lt (show n1 * 2 ^ 6 < 2 ^ 32 by omega), Nat.or_assoc,
    shift_or (a := n1) (i := 6) h2,
    shift_or (show n1 * 2 ^ 6 + n2 < 2 ^ 12 by omega)]
  omega

theorem toNat_four (b0 b1 b2 b3 : UInt8) :
    ((b0 &&& 0x07).toUInt32 <<< 18 ||| (b1 &&& 0x3F).toUInt32 <<< 12 |||
        (b2 &&& 0x3F).toUInt32 <<< 6 ||| (b3 &&& 0x3F).toUInt32).toNat =
      b0.toNat % 8 * 262144 + b1.toNat % 64 * 4096 + b2.toNat % 64 * 64 + b3.toNat % 64 := by
  simp only [UInt32.toNat_or, UInt32.toNat_shiftLeft, UInt8.toNat_toUInt32, toNat_and_three,
    toNat_and_six, UInt32.reduceToNat, Nat.reduceMod, Nat.shiftLeft_eq]
  have h0 := Nat.mod_lt b0.toNat (show 0 < 8 by omega)
  have h1 := Nat.mod_lt b1.toNat (show 0 < 64 by omega)
  have h2 := Nat.mod_lt b2.toNat (show 0 < 64 by omega)
  have h3 := Nat.mod_lt b3.toNat (show 0 < 64 by omega)
  generalize b0.toNat % 8 = n0 at *
  generalize b1.toNat % 64 = n1 at *
  generalize b2.toNat % 64 = n2 at *
  generalize b3.toNat % 64 = n3 at *
  rw [Nat.mod_eq_of_lt (show n0 * 2 ^ 18 < 2 ^ 32 by omega),
    Nat.mod_eq_of_lt (show n1 * 2 ^ 12 < 2 ^ 32 by omega),
    Nat.mod_eq_of_lt (show n2 * 2 ^ 6 < 2 ^ 32 by omega), Nat.or_assoc, Nat.or_assoc,
    shift_or (a := n2) (i := 6) h3,
    shift_or (show n2 * 2 ^ 6 + n3 < 2 ^ 12 by omega),
    shift_or (show n1 * 2 ^ 12 + (n2 * 2 ^ 6 + n3) < 2 ^ 18 by omega)]
  omega

/-! ### Bytes from numbers -/

theorem ofNat_eq_iff {n : Nat} (h : n < 256) (b : UInt8) : UInt8.ofNat n = b ↔ n = b.toNat := by
  rw [← UInt8.toNat_inj, UInt8.toNat_ofNat', Nat.mod_eq_of_lt h]

theorem encode_one {c : Char} (h : c.toNat < 128) : encode c = [UInt8.ofNat c.toNat] := by
  have hle : c.val.toNat ≤ 0x7f := Nat.lt_succ_iff.mp h
  rw [encode, String.utf8EncodeChar]
  exact if_pos hle

theorem encode_two_iff {c : Char} {b0 b1 : UInt8} (h : 128 ≤ c.toNat) (h' : c.toNat < 2048) :
    encode c = [b0, b1] ↔ 192 ≤ b0.toNat ∧ b0.toNat < 224 ∧ Continues b1 ∧
      c.toNat = b0.toNat % 32 * 64 + b1.toNat % 64 := by
  change 128 ≤ c.val.toNat at h
  change c.val.toNat < 2048 at h'
  change _ ↔ _ ∧ _ ∧ _ ∧ c.val.toNat = _
  rw [encode, String.utf8EncodeChar]
  rw [if_neg (by omega), if_pos (by omega), Continues, List.cons_eq_cons, List.cons_eq_cons,
    ofNat_eq_iff (by omega), ofNat_eq_iff (by omega)]
  simp only [and_true]
  omega

theorem encode_three_iff {c : Char} {b0 b1 b2 : UInt8} (h : 2048 ≤ c.toNat)
    (h' : c.toNat < 65536) :
    encode c = [b0, b1, b2] ↔ 224 ≤ b0.toNat ∧ b0.toNat < 240 ∧ Continues b1 ∧ Continues b2 ∧
      c.toNat = b0.toNat % 16 * 4096 + b1.toNat % 64 * 64 + b2.toNat % 64 := by
  change 2048 ≤ c.val.toNat at h
  change c.val.toNat < 65536 at h'
  change _ ↔ _ ∧ _ ∧ _ ∧ _ ∧ c.val.toNat = _
  rw [encode, String.utf8EncodeChar]
  rw [if_neg (by omega), if_neg (by omega), if_pos (by omega), Continues, Continues,
    List.cons_eq_cons, List.cons_eq_cons, List.cons_eq_cons, ofNat_eq_iff (by omega),
    ofNat_eq_iff (by omega), ofNat_eq_iff (by omega)]
  simp only [and_true]
  omega

theorem encode_four_iff {c : Char} {b0 b1 b2 b3 : UInt8} (h : 65536 ≤ c.toNat) :
    encode c = [b0, b1, b2, b3] ↔ 240 ≤ b0.toNat ∧ b0.toNat < 248 ∧ Continues b1 ∧
      Continues b2 ∧ Continues b3 ∧
      c.toNat = b0.toNat % 8 * 262144 + b1.toNat % 64 * 4096 + b2.toNat % 64 * 64 +
        b3.toNat % 64 := by
  have hmax : c.val.toNat < 1114112 := by
    rcases c.valid with hlow | ⟨-, hhigh⟩
    · exact Nat.lt_trans hlow (by omega)
    · exact hhigh
  change 65536 ≤ c.val.toNat at h
  change _ ↔ _ ∧ _ ∧ _ ∧ _ ∧ _ ∧ c.val.toNat = _
  rw [encode, String.utf8EncodeChar]
  rw [if_neg (by omega), if_neg (by omega), if_neg (by omega), Continues, Continues, Continues,
    List.cons_eq_cons, List.cons_eq_cons, List.cons_eq_cons, List.cons_eq_cons,
    ofNat_eq_iff (by omega), ofNat_eq_iff (by omega), ofNat_eq_iff (by omega),
    ofNat_eq_iff (by omega)]
  simp only [and_true]
  omega

/-! ### The shape of a character -/

theorem exists_encode_two {c : Char} (h : 128 ≤ c.toNat) (h' : c.toNat < 2048) :
    ∃ b0 b1, encode c = [b0, b1] := by
  refine ⟨_, _, (if_neg ?_).trans (if_pos ?_)⟩
  · exact Nat.not_le.mpr h
  · exact Nat.lt_succ_iff.mp h'

theorem exists_encode_three {c : Char} (h : 2048 ≤ c.toNat) (h' : c.toNat < 65536) :
    ∃ b0 b1 b2, encode c = [b0, b1, b2] := by
  refine ⟨_, _, _, (if_neg ?_).trans ((if_neg ?_).trans (if_pos ?_))⟩
  · exact Nat.not_le.mpr (Nat.lt_of_lt_of_le (by omega) h)
  · exact Nat.not_le.mpr h
  · exact Nat.lt_succ_iff.mp h'

theorem exists_encode_four {c : Char} (h : 65536 ≤ c.toNat) :
    ∃ b0 b1 b2 b3, encode c = [b0, b1, b2, b3] := by
  refine ⟨_, _, _, _, (if_neg ?_).trans ((if_neg ?_).trans (if_neg ?_))⟩
  · exact Nat.not_le.mpr (Nat.lt_of_lt_of_le (by omega) h)
  · exact Nat.not_le.mpr (Nat.lt_of_lt_of_le (by omega) h)
  · exact Nat.not_le.mpr h

/-- A character starts with a byte that continues none, and goes on with bytes that do. -/
theorem encode_shape (c : Char) : ∃ b rest, encode c = b :: rest ∧ ¬ Continues b ∧
    (128 ≤ c.toNat → 128 ≤ b.toNat) ∧ ∀ x ∈ rest, Continues x := by
  rcases Nat.lt_or_ge c.toNat 128 with hone | hone
  · refine ⟨_, [], encode_one hone, ?_, by omega, by simp⟩
    rw [Continues, UInt8.toNat_ofNat', Nat.mod_eq_of_lt (by omega)]
    omega
  rcases Nat.lt_or_ge c.toNat 2048 with htwo | htwo
  · obtain ⟨b0, b1, h⟩ := exists_encode_two hone htwo
    obtain ⟨hlow, hhigh, h1, -⟩ := (encode_two_iff hone htwo).mp h
    refine ⟨b0, _, h, ?_, by omega, by simp [h1]⟩
    rw [Continues]
    omega
  rcases Nat.lt_or_ge c.toNat 65536 with hthree | hthree
  · obtain ⟨b0, b1, b2, h⟩ := exists_encode_three htwo hthree
    obtain ⟨hlow, hhigh, h1, h2, -⟩ := (encode_three_iff htwo hthree).mp h
    refine ⟨b0, _, h, ?_, by omega, by simp [h1, h2]⟩
    rw [Continues]
    omega
  · obtain ⟨b0, b1, b2, b3, h⟩ := exists_encode_four hthree
    obtain ⟨hlow, hhigh, h1, h2, h3, -⟩ := (encode_four_iff hthree).mp h
    refine ⟨b0, _, h, ?_, by omega, by simp [h1, h2, h3]⟩
    rw [Continues]
    omega

/-- A character that starts in a text ends there, if no byte after the text continues one. -/
theorem prefix_of_prefix_append {c : Char} {x next : List UInt8} (hx : x ≠ [])
    (hnext : ∀ b ∈ next.head?, ¬ Continues b) (h : encode c <+: x ++ next) : encode c <+: x := by
  rcases List.prefix_or_prefix_of_prefix h (List.prefix_append x next) with hin | ⟨t, ht⟩
  · exact hin
  obtain ⟨lead, rest, hshape, -, -, hrest⟩ := encode_shape c
  obtain ⟨a, x, rfl⟩ := List.exists_cons_of_ne_nil hx
  cases t with
  | nil =>
    rw [← ht, List.append_nil]
  | cons b t =>
    -- the byte after the text is one of the character's that continue it
    rw [← ht, List.prefix_append_right_inj] at h
    obtain ⟨more, rfl⟩ := h
    have hb : b ∈ rest := by
      rw [hshape, List.cons_append, List.cons_eq_cons] at ht
      rw [← ht.2]
      simp
    exact absurd (hrest b hb) (hnext b rfl)

/-! ### The shortest form -/

/-- Bytes that stand for a number by the patterns of UTF-8, in any of the four lengths. -/
inductive Form : List UInt8 → Nat → Prop where
  | one {b0 : UInt8} (h0 : b0.toNat < 128) : Form [b0] b0.toNat
  | two {b0 b1 : UInt8} (h0 : 192 ≤ b0.toNat ∧ b0.toNat < 224) (h1 : Continues b1) :
      Form [b0, b1] (b0.toNat % 32 * 64 + b1.toNat % 64)
  | three {b0 b1 b2 : UInt8} (h0 : 224 ≤ b0.toNat ∧ b0.toNat < 240) (h1 : Continues b1)
      (h2 : Continues b2) :
      Form [b0, b1, b2] (b0.toNat % 16 * 4096 + b1.toNat % 64 * 64 + b2.toNat % 64)
  | four {b0 b1 b2 b3 : UInt8} (h0 : 240 ≤ b0.toNat ∧ b0.toNat < 248) (h1 : Continues b1)
      (h2 : Continues b2) (h3 : Continues b3) :
      Form [b0, b1, b2, b3] (b0.toNat % 8 * 262144 + b1.toNat % 64 * 4096 + b2.toNat % 64 * 64 +
        b3.toNat % 64)

/-- The UTF-8 encoding of a Unicode scalar value: the shortest bytes that stand for it. -/
structure Encodes (bytes : List UInt8) (n : Nat) : Prop where
  scalar : n.isValidChar
  form : Form bytes n
  shortest : ∀ other, Form other n → bytes.length ≤ other.length

/-- The numbers that a length has room for. -/
theorem Form.lt {bytes : List UInt8} {n : Nat} (h : Form bytes n) :
    0 < bytes.length ∧ (bytes.length = 1 → n < 128) ∧ (bytes.length = 2 → n < 2048) ∧
      (bytes.length = 3 → n < 65536) := by
  cases h <;> simp only [List.length_cons, List.length_nil] <;> omega

theorem form_encode (c : Char) : Form (encode c) c.toNat := by
  rcases Nat.lt_or_ge c.toNat 128 with hone | hone
  · have hval : (UInt8.ofNat c.toNat).toNat = c.toNat := by
      rw [UInt8.toNat_ofNat', Nat.mod_eq_of_lt (by omega)]
    have hform : Form [UInt8.ofNat c.toNat] (UInt8.ofNat c.toNat).toNat := Form.one (by omega)
    rw [hval] at hform
    rw [encode_one hone]
    exact hform
  rcases Nat.lt_or_ge c.toNat 2048 with htwo | htwo
  · obtain ⟨b0, b1, h⟩ := exists_encode_two hone htwo
    obtain ⟨hlow, hhigh, h1, hvalue⟩ := (encode_two_iff hone htwo).mp h
    rw [h, hvalue]
    exact .two ⟨hlow, hhigh⟩ h1
  rcases Nat.lt_or_ge c.toNat 65536 with hthree | hthree
  · obtain ⟨b0, b1, b2, h⟩ := exists_encode_three htwo hthree
    obtain ⟨hlow, hhigh, h1, h2, hvalue⟩ := (encode_three_iff htwo hthree).mp h
    rw [h, hvalue]
    exact .three ⟨hlow, hhigh⟩ h1 h2
  · obtain ⟨b0, b1, b2, b3, h⟩ := exists_encode_four hthree
    obtain ⟨hlow, hhigh, h1, h2, h3, hvalue⟩ := (encode_four_iff hthree).mp h
    rw [h, hvalue]
    exact .four ⟨hlow, hhigh⟩ h1 h2 h3

theorem length_encode (c : Char) : (encode c).length =
    if c.toNat < 128 then 1 else if c.toNat < 2048 then 2 else if c.toNat < 65536 then 3 else 4 := by
  rcases Nat.lt_or_ge c.toNat 128 with hone | hone
  · rw [if_pos hone, encode_one hone]
    rfl
  rw [if_neg (by omega)]
  rcases Nat.lt_or_ge c.toNat 2048 with htwo | htwo
  · obtain ⟨b0, b1, h⟩ := exists_encode_two hone htwo
    rw [if_pos htwo, h]
    rfl
  rw [if_neg (by omega)]
  rcases Nat.lt_or_ge c.toNat 65536 with hthree | hthree
  · obtain ⟨b0, b1, b2, h⟩ := exists_encode_three htwo hthree
    rw [if_pos hthree, h]
    rfl
  · obtain ⟨b0, b1, b2, b3, h⟩ := exists_encode_four hthree
    rw [if_neg (by omega), h]
    rfl

/-- No form is shorter than the encoding. -/
theorem length_encode_le {c : Char} {bytes : List UInt8} (h : Form bytes c.toNat) :
    (encode c).length ≤ bytes.length := by
  obtain ⟨hpos, hone, htwo, hthree⟩ := h.lt
  rw [length_encode]
  split_ifs <;> omega

/-- The encoding is the only form as short as it is. -/
theorem Form.eq_encode {c : Char} {bytes : List UInt8} (h : Form bytes c.toNat)
    (hle : bytes.length ≤ (encode c).length) : encode c = bytes := by
  have hlen := length_encode c
  generalize hn : c.toNat = n at h
  cases h with
  | one h0 => rw [encode_one (by omega), hn, UInt8.ofNat_toNat]
  | two h0 h1 =>
    simp only [List.length_cons, List.length_nil] at hle
    refine (encode_two_iff ?_ (by omega)).mpr ⟨h0.1, h0.2, h1, hn⟩
    split_ifs at hlen <;> omega
  | three h0 h1 h2 =>
    simp only [List.length_cons, List.length_nil] at hle
    refine (encode_three_iff ?_ (by omega)).mpr ⟨h0.1, h0.2, h1, h2, hn⟩
    split_ifs at hlen <;> omega
  | four h0 h1 h2 h3 =>
    simp only [List.length_cons, List.length_nil] at hle
    refine (encode_four_iff ?_).mpr ⟨h0.1, h0.2, h1, h2, h3, hn⟩
    split_ifs at hlen <;> omega

/-- The bytes of a character are its encoding, and no others are. -/
theorem encodes_iff {bytes : List UInt8} {n : Nat} :
    Encodes bytes n ↔ ∃ c : Char, c.toNat = n ∧ encode c = bytes := by
  constructor
  · intro h
    have hchar : ∃ c : Char, c.toNat = n := ⟨Char.ofNatAux n h.scalar, rfl⟩
    obtain ⟨c, rfl⟩ := hchar
    exact ⟨c, rfl, h.form.eq_encode (h.shortest _ (form_encode c))⟩
  · rintro ⟨c, rfl, rfl⟩
    exact ⟨c.valid, form_encode c, fun _ => length_encode_le⟩

theorem Encodes.unique {bytes bytes' : List UInt8} {n : Nat} (h : Encodes bytes n)
    (h' : Encodes bytes' n) : bytes = bytes' := by
  obtain ⟨c, hc, rfl⟩ := encodes_iff.mp h
  obtain ⟨c', hc', rfl⟩ := encodes_iff.mp h'
  rw [Char.toNat_inj.mp (hc.trans hc'.symm)]

end Utf8
