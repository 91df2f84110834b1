import PoorguyMem.Text
import PoorguyMem.Lib.Utf8

/-!
# The tokenizer

A text is cut into words, runs of CJK characters and gaps, no two of a kind next to each
other, so each word and each run is as long as it can be. The one pass of `Tokenize` gives
the tokens of these pieces in their order, whatever bytes the text is made of.
-/

namespace PoorguyMem

open ByteString Utf8

/-! ### The decoder -/

theorem isContinuation_iff (b : UInt8) : isContinuation b = true ↔ Continues b := by
  rw [isContinuation, decide_eq_true_eq, and_eq_iff_continues]

theorem getElem?_of_prefix_drop {input p : Bytes} {i : Nat} (h : p <+: input.drop i) {j : Nat}
    (hj : j < p.length) : input[i + j]? = p[j]? := by
  obtain ⟨rest, hrest⟩ := h
  rw [← List.getElem?_drop, ← hrest, List.getElem?_append_left hj]

section Branches
variable {input : Bytes} {i : Nat} {b0 b1 b2 b3 : UInt8}

theorem decodeUtf8At_one (h0 : input[i]? = some b0) (hlow : b0.toNat < 128) :
    decodeUtf8At input i = some (b0.toUInt32, 1) := by
  have hlt : b0 < 0x80 := UInt8.lt_iff_toNat_lt.mpr hlow
  simp [decodeUtf8At, h0, hlt]

theorem decodeUtf8At_two (h0 : input[i]? = some b0) (h1 : input[i + 1]? = some b1)
    (hlow : 194 ≤ b0.toNat) (hhigh : b0.toNat < 224) (hc1 : Continues b1) :
    decodeUtf8At input i = some ((b0 &&& 0x1F).toUInt32 <<< 6 ||| (b1 &&& 0x3F).toUInt32, 2) := by
  have hc1 := (isContinuation_iff b1).mpr hc1
  have hone : ¬ b0 < 0x80 := by
    simp only [UInt8.lt_iff_toNat_lt, UInt8.reduceToNat]
    omega
  have htwo : 0xC2 ≤ b0 ∧ b0 ≤ 0xDF := by
    simp only [UInt8.le_iff_toNat_le, UInt8.reduceToNat]
    omega
  simp [decodeUtf8At, h0, h1, hone, htwo, hc1]

theorem decodeUtf8At_three (h0 : input[i]? = some b0) (h1 : input[i + 1]? = some b1)
    (h2 : input[i + 2]? = some b2) (hlow : 224 ≤ b0.toNat) (hhigh : b0.toNat < 240)
    (hc1 : Continues b1) (hc2 : Continues b2) (hlong : b0.toNat = 224 → 160 ≤ b1.toNat)
    (hsurrogate : b0.toNat = 237 → b1.toNat < 160) :
    decodeUtf8At input i = some ((b0 &&& 0x0F).toUInt32 <<< 12 ||| (b1 &&& 0x3F).toUInt32 <<< 6 |||
      (b2 &&& 0x3F).toUInt32, 3) := by
  have hc1 := (isContinuation_iff b1).mpr hc1
  have hc2 := (isContinuation_iff b2).mpr hc2
  have hone : ¬ b0 < 0x80 := by
    simp only [UInt8.lt_iff_toNat_lt, UInt8.reduceToNat]
    omega
  have htwo : ¬ (0xC2 ≤ b0 ∧ b0 ≤ 0xDF) := by
    simp only [UInt8.le_iff_toNat_le, UInt8.reduceToNat]
    omega
  have hthree : 0xE0 ≤ b0 ∧ b0 ≤ 0xEF := by
    simp only [UInt8.le_iff_toNat_le, UInt8.reduceToNat]
    omega
  have hlong : ¬ (b0 = 0xE0 ∧ b1 < 0xA0) := by
    simp only [← UInt8.toNat_inj, UInt8.lt_iff_toNat_lt, UInt8.reduceToNat]
    omega
  have hsurrogate : ¬ (b0 = 0xED ∧ 0xA0 ≤ b1) := by
    simp only [← UInt8.toNat_inj, UInt8.le_iff_toNat_le, UInt8.reduceToNat]
    omega
  rw [decodeUtf8At, h0, h1, h2]
  simp only [Option.bind_eq_bind, Option.bind_some, if_neg hone, if_neg htwo, if_pos hthree, hc1,
    hc2, Bool.not_true, Bool.or_self, Bool.false_eq_true, if_false, if_neg hlong,
    if_neg hsurrogate]
  rfl

theorem decodeUtf8At_four (h0 : input[i]? = some b0) (h1 : input[i + 1]? = some b1)
    (h2 : input[i + 2]? = some b2) (h3 : input[i + 3]? = some b3) (hlow : 240 ≤ b0.toNat)
    (hhigh : b0.toNat < 245) (hc1 : Continues b1) (hc2 : Continues b2) (hc3 : Continues b3)
    (hlong : b0.toNat = 240 → 144 ≤ b1.toNat) (hhuge : b0.toNat = 244 → b1.toNat < 144) :
    decodeUtf8At input i = some ((b0 &&& 0x07).toUInt32 <<< 18 ||| (b1 &&& 0x3F).toUInt32 <<< 12 |||
      (b2 &&& 0x3F).toUInt32 <<< 6 ||| (b3 &&& 0x3F).toUInt32, 4) := by
  have hc1 := (isContinuation_iff b1).mpr hc1
  have hc2 := (isContinuation_iff b2).mpr hc2
  have hc3 := (isContinuation_iff b3).mpr hc3
  have hone : ¬ b0 < 0x80 := by
    simp only [UInt8.lt_iff_toNat_lt, UInt8.reduceToNat]
    omega
  have htwo : ¬ (0xC2 ≤ b0 ∧ b0 ≤ 0xDF) := by
    simp only [UInt8.le_iff_toNat_le, UInt8.reduceToNat]
    omega
  have hthree : ¬ (0xE0 ≤ b0 ∧ b0 ≤ 0xEF) := by
    simp only [UInt8.le_iff_toNat_le, UInt8.reduceToNat]
    omega
  have hfour : 0xF0 ≤ b0 ∧ b0 ≤ 0xF4 := by
    simp only [UInt8.le_iff_toNat_le, UInt8.reduceToNat]
    omega
  have hlong : ¬ (b0 = 0xF0 ∧ b1 < 0x90) := by
    simp only [← UInt8.toNat_inj, UInt8.lt_iff_toNat_lt, UInt8.reduceToNat]
    omega
  have hhuge : ¬ (b0 = 0xF4 ∧ 0x8F < b1) := by
    simp only [← UInt8.toNat_inj, UInt8.lt_iff_toNat_lt, UInt8.reduceToNat]
    omega
  rw [decodeUtf8At, h0, h1, h2, h3]
  simp only [Option.bind_eq_bind, Option.bind_some, if_neg hone, if_neg htwo, if_neg hthree,
    if_pos hfour, hc1, hc2, hc3, Bool.not_true, Bool.or_self, Bool.false_eq_true, if_false,
    if_neg hlong, if_neg hhuge]
  rfl

end Branches

/-- `DecodeUtf8At` decodes every character. -/
theorem decodeUtf8At_of_encode {input : Bytes} {i : Nat} {ch : Char}
    (h : encode ch <+: input.drop i) :
    decodeUtf8At input i = some (ch.val, (encode ch).length) := by
  have hbyte : ∀ {j b}, (encode ch)[j]? = some b → input[i + j]? = some b := by
    intro j b hb
    rw [getElem?_of_prefix_drop h (List.getElem?_eq_some_iff.mp hb).1, hb]
  have hmax : ch.toNat < 1114112 ∧ ¬ (55296 ≤ ch.toNat ∧ ch.toNat < 57344) := by
    rcases ch.valid with hlow | ⟨hlow, hhigh⟩
    · change ch.toNat < 55296 at hlow
      omega
    · change 57343 < ch.toNat at hlow
      change ch.toNat < 1114112 at hhigh
      omega
  rcases Nat.lt_or_ge ch.toNat 128 with hone | hone
  · have hb : input[i]? = some (UInt8.ofNat ch.toNat) := hbyte (j := 0) (by rw [encode_one hone]; rfl)
    have hval : (UInt8.ofNat ch.toNat).toNat = ch.toNat := by
      rw [UInt8.toNat_ofNat', Nat.mod_eq_of_lt (by omega)]
    rw [decodeUtf8At_one hb (by omega), encode_one hone]
    congr 2
    rw [← UInt32.toNat_inj, UInt8.toNat_toUInt32, hval]
    rfl
  rcases Nat.lt_or_ge ch.toNat 2048 with htwo | htwo
  · obtain ⟨b0, b1, henc⟩ := exists_encode_two hone htwo
    obtain ⟨hlow, hhigh, hc1, hcp⟩ := (encode_two_iff hone htwo).mp henc
    have h0 : input[i]? = some b0 := hbyte (j := 0) (by rw [henc]; rfl)
    have h1 : input[i + 1]? = some b1 := hbyte (by rw [henc]; rfl)
    rw [decodeUtf8At_two h0 h1 (by omega) hhigh hc1, henc]
    congr 2
    rw [← UInt32.toNat_inj, toNat_two, ← hcp]
    rfl
  rcases Nat.lt_or_ge ch.toNat 65536 with hthree | hthree
  · obtain ⟨b0, b1, b2, henc⟩ := exists_encode_three htwo hthree
    obtain ⟨hlow, hhigh, hc1, hc2, hcp⟩ := (encode_three_iff htwo hthree).mp henc
    rw [Continues] at hc1 hc2
    have h0 : input[i]? = some b0 := hbyte (j := 0) (by rw [henc]; rfl)
    have h1 : input[i + 1]? = some b1 := hbyte (by rw [henc]; rfl)
    have h2 : input[i + 2]? = some b2 := hbyte (by rw [henc]; rfl)
    rw [decodeUtf8At_three h0 h1 h2 hlow hhigh hc1 hc2 (by omega) (by omega), henc]
    congr 2
    rw [← UInt32.toNat_inj, toNat_three, ← hcp]
    rfl
  · obtain ⟨b0, b1, b2, b3, henc⟩ := exists_encode_four hthree
    obtain ⟨hlow, hhigh, hc1, hc2, hc3, hcp⟩ := (encode_four_iff hthree).mp henc
    rw [Continues] at hc1 hc2 hc3
    have h0 : input[i]? = some b0 := hbyte (j := 0) (by rw [henc]; rfl)
    have h1 : input[i + 1]? = some b1 := hbyte (by rw [henc]; rfl)
    have h2 : input[i + 2]? = some b2 := hbyte (by rw [henc]; rfl)
    have h3 : input[i + 3]? = some b3 := hbyte (by rw [henc]; rfl)
    rw [decodeUtf8At_four h0 h1 h2 h3 hlow (by omega) hc1 hc2 hc3 (by omega) (by omega), henc]
    congr 2
    rw [← UInt32.toNat_inj, toNat_four, ← hcp]
    rfl

theorem cons_prefix_drop {input p : Bytes} {i : Nat} {b : UInt8} (hb : input[i]? = some b)
    (hp : p <+: input.drop (i + 1)) : b :: p <+: input.drop i := by
  obtain ⟨hlt, rfl⟩ := List.getElem?_eq_some_iff.mp hb
  rw [List.drop_eq_getElem_cons hlt]
  exact List.prefix_cons_inj _ |>.mpr hp

/-- What `DecodeUtf8At` decodes is a character. -/
theorem encode_of_decodeUtf8At {input : Bytes} {i : Nat} {cp : UInt32} {len : Nat}
    (h : decodeUtf8At input i = some (cp, len)) :
    ∃ ch : Char, ch.val = cp ∧ (encode ch).length = len ∧ encode ch <+: input.drop i := by
  have hchar : ∀ n : UInt32, n.toNat.isValidChar → ∃ ch : Char, ch.val = n ∧ ch.toNat = n.toNat :=
    fun n hn => ⟨⟨n, hn⟩, rfl, rfl⟩
  rcases h0 : input[i]? with _ | b0
  · simp [decodeUtf8At, h0] at h
  rw [decodeUtf8At, h0, Option.bind_eq_bind, Option.bind_some] at h
  -- one case for each length of a sequence
  split at h
  · rename_i hone
    simp only [UInt8.lt_iff_toNat_lt, UInt8.reduceToNat] at hone
    cases h
    obtain ⟨ch, hval, hnat⟩ := hchar b0.toUInt32 (Or.inl (by rw [UInt8.toNat_toUInt32]; omega))
    rw [UInt8.toNat_toUInt32] at hnat
    have henc : encode ch = [b0] := by
      rw [encode_one (by omega), hnat, UInt8.ofNat_toNat]
    refine ⟨ch, hval, ?_, ?_⟩
    · rw [henc]
      rfl
    · rw [henc]
      exact cons_prefix_drop h0 List.nil_prefix
  split at h
  · rename_i htwo
    simp only [UInt8.le_iff_toNat_le, UInt8.reduceToNat] at htwo
    rcases h1 : input[i + 1]? with _ | b1
    · simp [h1] at h
    have hnumber := toNat_two b0 b1
    simp only [h1, Option.bind_some] at h
    generalize (b0 &&& 0x1F).toUInt32 <<< 6 ||| (b1 &&& 0x3F).toUInt32 = number at h hnumber
    simp at h
    obtain ⟨hc1, rfl, rfl⟩ := h
    rw [isContinuation_iff] at hc1
    obtain ⟨ch, hval, hnat⟩ := hchar number (Or.inl (by omega))
    have henc : encode ch = [b0, b1] :=
      (encode_two_iff (by omega) (by omega)).mpr ⟨by omega, by omega, hc1, by omega⟩
    refine ⟨ch, hval, ?_, ?_⟩
    · rw [henc]
      rfl
    · rw [henc]
      exact cons_prefix_drop h0 (cons_prefix_drop h1 List.nil_prefix)
  split at h
  · rename_i hthree
    simp only [UInt8.le_iff_toNat_le, UInt8.reduceToNat] at hthree
    rcases h1 : input[i + 1]? with _ | b1
    · simp [h1] at h
    rcases h2 : input[i + 2]? with _ | b2
    · simp [h1, h2] at h
    have hnumber := toNat_three b0 b1 b2
    simp only [h1, h2, Option.bind_some] at h
    generalize (b0 &&& 0x0F).toUInt32 <<< 12 ||| (b1 &&& 0x3F).toUInt32 <<< 6 |||
      (b2 &&& 0x3F).toUInt32 = number at h hnumber
    simp at h
    obtain ⟨⟨hc1, hc2⟩, hlong, hsurrogate, rfl, rfl⟩ := h
    rw [isContinuation_iff] at hc1 hc2
    simp only [← UInt8.toNat_inj, UInt8.le_iff_toNat_le, UInt8.lt_iff_toNat_lt,
      UInt8.reduceToNat] at hlong hsurrogate
    rw [Continues] at hc1 hc2
    obtain ⟨ch, hval, hnat⟩ := hchar number (by
      rw [Nat.isValidChar]
      omega)
    have henc : encode ch = [b0, b1, b2] :=
      (encode_three_iff (by omega) (by omega)).mpr ⟨by omega, by omega, hc1, hc2, by omega⟩
    refine ⟨ch, hval, ?_, ?_⟩
    · rw [henc]
      rfl
    · rw [henc]
      exact cons_prefix_drop h0 (cons_prefix_drop h1 (cons_prefix_drop h2 List.nil_prefix))
  split at h
  · rename_i hfour
    simp only [UInt8.le_iff_toNat_le, UInt8.reduceToNat] at hfour
    rcases h1 : input[i + 1]? with _ | b1
    · simp [h1] at h
    rcases h2 : input[i + 2]? with _ | b2
    · simp [h1, h2] at h
    rcases h3 : input[i + 3]? with _ | b3
    · simp [h1, h2, h3] at h
    have hnumber := toNat_four b0 b1 b2 b3
    simp only [h1, h2, h3, Option.bind_some] at h
    generalize (b0 &&& 0x07).toUInt32 <<< 18 ||| (b1 &&& 0x3F).toUInt32 <<< 12 |||
      (b2 &&& 0x3F).toUInt32 <<< 6 ||| (b3 &&& 0x3F).toUInt32 = number at h hnumber
    simp at h
    obtain ⟨⟨⟨hc1, hc2⟩, hc3⟩, hlong, hhuge, rfl, rfl⟩ := h
    rw [isContinuation_iff] at hc1 hc2 hc3
    simp only [← UInt8.toNat_inj, UInt8.le_iff_toNat_le, UInt8.reduceToNat] at hlong hhuge
    rw [Continues] at hc1 hc2 hc3
    obtain ⟨ch, hval, hnat⟩ := hchar number (by
      rw [Nat.isValidChar]
      omega)
    have henc : encode ch = [b0, b1, b2, b3] :=
      (encode_four_iff (by omega)).mpr ⟨by omega, by omega, hc1, hc2, hc3, by omega⟩
    refine ⟨ch, hval, ?_, ?_⟩
    · rw [henc]
      rfl
    · rw [henc]
      exact cons_prefix_drop h0 (cons_prefix_drop h1 (cons_prefix_drop h2
        (cons_prefix_drop h3 List.nil_prefix)))
  · cases h

/-- `DecodeUtf8At` with the checks it makes before its reads, where a read past the end of the
text has no result. -/
def checkedDecodeUtf8At (input : Bytes) (i : Nat) : Option (Option (UInt32 × Nat)) :=
  if input.length ≤ i then some none
  else input[i]?.bind fun b0 =>
    if b0 < 0x80 then some (some (b0.toUInt32, 1))
    else if 0xC2 ≤ b0 ∧ b0 ≤ 0xDF then
      if input.length ≤ i + 1 then some none
      else input[i + 1]?.bind fun b1 =>
        if !isContinuation b1 then some none
        else some (some ((b0 &&& 0x1F).toUInt32 <<< 6 ||| (b1 &&& 0x3F).toUInt32, 2))
    else if 0xE0 ≤ b0 ∧ b0 ≤ 0xEF then
      if input.length ≤ i + 2 then some none
      else input[i + 1]?.bind fun b1 => input[i + 2]?.bind fun b2 =>
        if !isContinuation b1 || !isContinuation b2 then some none
        else if b0 = 0xE0 ∧ b1 < 0xA0 then some none
        else if b0 = 0xED ∧ 0xA0 ≤ b1 then some none
        else some (some ((b0 &&& 0x0F).toUInt32 <<< 12 ||| (b1 &&& 0x3F).toUInt32 <<< 6 |||
          (b2 &&& 0x3F).toUInt32, 3))
    else if 0xF0 ≤ b0 ∧ b0 ≤ 0xF4 then
      if input.length ≤ i + 3 then some none
      else input[i + 1]?.bind fun b1 => input[i + 2]?.bind fun b2 => input[i + 3]?.bind fun b3 =>
        if !isContinuation b1 || !isContinuation b2 || !isContinuation b3 then some none
        else if b0 = 0xF0 ∧ b1 < 0x90 then some none
        else if b0 = 0xF4 ∧ 0x8F < b1 then some none
        else some (some ((b0 &&& 0x07).toUInt32 <<< 18 ||| (b1 &&& 0x3F).toUInt32 <<< 12 |||
          (b2 &&& 0x3F).toUInt32 <<< 6 ||| (b3 &&& 0x3F).toUInt32, 4))
    else some none

/-- No read is past the end. -/
theorem checkedDecodeUtf8At_eq (input : Bytes) (i : Nat) :
    checkedDecodeUtf8At input i = some (decodeUtf8At input i) := by
  rw [checkedDecodeUtf8At, decodeUtf8At]
  rcases h0 : input[i]? with _ | b0
  · rw [if_pos (List.getElem?_eq_none_iff.mp h0)]
    rfl
  have hread : ∀ {j b}, input[j]? = some b → ¬ input.length ≤ j := by
    intro j b hb
    exact Nat.not_le.mpr (List.getElem?_eq_some_iff.mp hb).1
  have hbefore : ∀ {j k : Nat} {b}, input[j]? = some b → k ≤ j → ∃ b', input[k]? = some b' := by
    intro j k b hb hk
    have hlt := (List.getElem?_eq_some_iff.mp hb).1
    exact ⟨_, List.getElem?_eq_getElem (Nat.lt_of_le_of_lt hk hlt)⟩
  rw [if_neg (hread h0), Option.bind_some, Option.bind_eq_bind, Option.bind_some]
  by_cases hone : b0 < 0x80
  · rw [if_pos hone, if_pos hone]
    rfl
  rw [if_neg hone, if_neg hone]
  by_cases htwo : 0xC2 ≤ b0 ∧ b0 ≤ 0xDF
  · rw [if_pos htwo, if_pos htwo]
    rcases h1 : input[i + 1]? with _ | b1
    · rw [if_pos (List.getElem?_eq_none_iff.mp h1)]
      rfl
    · rw [if_neg (hread h1), Option.bind_some, Option.bind_some]
      cases isContinuation b1 <;> rfl
  rw [if_neg htwo, if_neg htwo]
  by_cases hthree : 0xE0 ≤ b0 ∧ b0 ≤ 0xEF
  · rw [if_pos hthree, if_pos hthree]
    rcases h2 : input[i + 2]? with _ | b2
    · rw [if_pos (List.getElem?_eq_none_iff.mp h2)]
      cases input[i + 1]? <;> rfl
    obtain ⟨b1, h1⟩ := hbefore h2 (show i + 1 ≤ i + 2 by omega)
    rw [if_neg (hread h2), h1, Option.bind_some, Option.bind_some, Option.bind_some,
      Option.bind_some]
    by_cases hcont : (!isContinuation b1 || !isContinuation b2) = true
    · rw [if_pos hcont, if_pos hcont]
      rfl
    rw [if_neg hcont, if_neg hcont]
    by_cases hlong : b0 = 0xE0 ∧ b1 < 0xA0
    · rw [if_pos hlong, if_pos hlong]
      rfl
    rw [if_neg hlong, if_neg hlong]
    by_cases hsurrogate : b0 = 0xED ∧ 0xA0 ≤ b1
    · rw [if_pos hsurrogate, if_pos hsurrogate]
      rfl
    rw [if_neg hsurrogate, if_neg hsurrogate]
    rfl
  rw [if_neg hthree, if_neg hthree]
  by_cases hfour : 0xF0 ≤ b0 ∧ b0 ≤ 0xF4
  · rw [if_pos hfour, if_pos hfour]
    rcases h3 : input[i + 3]? with _ | b3
    · rw [if_pos (List.getElem?_eq_none_iff.mp h3)]
      cases input[i + 1]? <;> cases input[i + 2]? <;> rfl
    obtain ⟨b1, h1⟩ := hbefore h3 (show i + 1 ≤ i + 3 by omega)
    obtain ⟨b2, h2⟩ := hbefore h3 (show i + 2 ≤ i + 3 by omega)
    rw [if_neg (hread h3), h1, h2, Option.bind_some, Option.bind_some, Option.bind_some,
      Option.bind_some, Option.bind_some, Option.bind_some]
    by_cases hcont : (!isContinuation b1 || !isContinuation b2 || !isContinuation b3) = true
    · rw [if_pos hcont, if_pos hcont]
      rfl
    rw [if_neg hcont, if_neg hcont]
    by_cases hlong : b0 = 0xF0 ∧ b1 < 0x90
    · rw [if_pos hlong, if_pos hlong]
      rfl
    rw [if_neg hlong, if_neg hlong]
    by_cases hhuge : b0 = 0xF4 ∧ 0x8F < b1
    · rw [if_pos hhuge, if_pos hhuge]
      rfl
    rw [if_neg hhuge, if_neg hhuge]
    rfl
  rw [if_neg hfour, if_neg hfour]

/-- `DecodeUtf8At` succeeds on the encodings of scalar values and on nothing else, with their
code points and lengths, and it reads nothing past the end of the text. -/
theorem decodeUtf8At_iff_encodes :
    (∀ input i cp len, decodeUtf8At input i = some (cp, len) ↔
      ∃ bytes, Encodes bytes cp.toNat ∧ bytes.length = len ∧ bytes <+: input.drop i) ∧
    (∀ bytes bytes' n, Encodes bytes n → Encodes bytes' n → bytes = bytes') ∧
    (∀ input i, checkedDecodeUtf8At input i = some (decodeUtf8At input i)) ∧
    ∀ cp : UInt32, cp.toNat.isValidChar → ∃ bytes, Encodes bytes cp.toNat ∧
      ∀ before after, decodeUtf8At (before ++ (bytes ++ after)) before.length =
        some (cp, bytes.length) := by
  refine ⟨?_, fun _ _ _ => Encodes.unique, checkedDecodeUtf8At_eq, ?_⟩
  · intro input i cp len
    constructor
    · intro h
      obtain ⟨ch, rfl, rfl, hprefix⟩ := encode_of_decodeUtf8At h
      exact ⟨encode ch, encodes_iff.mpr ⟨ch, rfl, rfl⟩, rfl, hprefix⟩
    · rintro ⟨bytes, hbytes, rfl, hprefix⟩
      obtain ⟨ch, hch, rfl⟩ := encodes_iff.mp hbytes
      have hval : ch.val = cp := UInt32.toNat_inj.mp hch
      rw [decodeUtf8At_of_encode hprefix, hval]
  · intro cp hcp
    refine ⟨encode ⟨cp, hcp⟩, encodes_iff.mpr ⟨⟨cp, hcp⟩, rfl, rfl⟩, fun before after => ?_⟩
    have hprefix : encode (⟨cp, hcp⟩ : Char) <+: (before ++ (encode ⟨cp, hcp⟩ ++ after)).drop
        before.length := by
      rw [List.drop_left]
      exact List.prefix_append _ after
    exact decodeUtf8At_of_encode hprefix

/-! ### Pieces -/

/-- A character of the ranges that the tokenizer takes for CJK. -/
def IsCjk (ch : Char) : Prop := isCjkCodepoint ch.val = true

inductive PieceKind
  | word
  | cjk
  | gap

/-- A piece of a text. -/
inductive Piece
  | word (bytes : Bytes)
  | cjk (chars : List Char)
  | gap (bytes : Bytes)

namespace Piece

def text : Piece → Bytes
  | word w => w
  | cjk run => run.flatMap encode
  | gap g => g

/-- A word gives itself in lower case, and a run its bigrams or its only character. -/
def tokens : Piece → List Bytes
  | word w => [lower w]
  | cjk run =>
    if run.length = 1 then run.map encode
    else List.zipWith (fun c d => encode c ++ encode d) run run.tail
  | gap _ => []

/-- A gap has no character of the other two kinds. -/
def Proper : Piece → Prop
  | word w => w ≠ [] ∧ ∀ c ∈ w, isAsciiWordChar c = true
  | cjk run => run ≠ [] ∧ ∀ ch ∈ run, IsCjk ch
  | gap g => g ≠ [] ∧ (∀ c ∈ g, isAsciiWordChar c = false) ∧ ∀ ch, IsCjk ch → ¬ encode ch <:+: g

def kind : Piece → PieceKind
  | word _ => .word
  | cjk _ => .cjk
  | gap _ => .gap

end Piece

/-- The pieces make up the text, and no two neighbours are of a kind: words and runs are
as long as they can be. -/
structure Cuts (input : Bytes) (pieces : List Piece) : Prop where
  text : pieces.flatMap Piece.text = input
  proper : ∀ p ∈ pieces, p.Proper
  alternating : pieces.IsChain fun p q => p.kind ≠ q.kind

theorem lt_of_isAsciiWordChar {c : UInt8} (h : isAsciiWordChar c = true) : c.toNat < 128 := by
  simp only [isAsciiWordChar, decide_eq_true_eq, UInt8.le_iff_toNat_le, ← UInt8.toNat_inj,
    UInt8.reduceToNat] at h
  omega

theorem IsCjk.le {ch : Char} (h : IsCjk ch) : 128 ≤ ch.toNat := by
  simp only [IsCjk, isCjkCodepoint, decide_eq_true_eq, UInt32.le_iff_toNat_le,
    UInt32.reduceToNat] at h
  change 128 ≤ ch.val.toNat
  omega

theorem bigrams_eq (run : List Bytes) : bigrams run =
    if run.length = 1 then run else List.zipWith (fun c d => c ++ d) run run.tail := by
  fun_induction bigrams run with
  | case1 => rfl
  | case2 c => rfl
  | case3 c d rest ih =>
    cases rest with
    | nil => rfl
    | cons e rest =>
      simp only [reduceCtorEq, if_false, List.length_cons, Nat.add_eq_right, Nat.add_eq_zero_iff,
        Nat.succ_ne_self, and_false, List.tail_cons, List.zipWith_cons_cons] at ih ⊢
      rw [ih]

theorem tokens_cjk (run : List Char) : (Piece.cjk run).tokens = bigrams (run.map encode) := by
  rw [bigrams_eq, List.length_map, Piece.tokens, ← List.map_tail, List.zipWith_map]

/-! ### The loop -/

/-- The loop at position `i` ends in the state `t`, whatever fuel is left. -/
def Ends (input : Bytes) (i : Nat) (s t : TokenizerState) : Prop :=
  ∀ fuel, input.length ≤ i + fuel → tokenizeLoop input fuel i s = t

theorem Ends.step {input : Bytes} {i j : Nat} {c : UInt8} {s s' t : TokenizerState}
    (hc : input[i]? = some c) (hstep : tokenizeStep input i c s = (j, s')) (hij : i < j)
    (h : Ends input j s' t) : Ends input i s t := by
  intro fuel hfuel
  obtain ⟨hlt, -⟩ := List.getElem?_eq_some_iff.mp hc
  cases fuel with
  | zero => omega
  | succ fuel =>
    rw [tokenizeLoop, hc]
    dsimp only
    rw [hstep]
    exact h fuel (by omega)

theorem ends_length (input : Bytes) (s : TokenizerState) : Ends input input.length s s := by
  intro fuel _
  cases fuel with
  | zero => rfl
  | succ fuel => rw [tokenizeLoop, List.getElem?_eq_none (by omega)]

/-- What the word that is being gathered gives. -/
def heldWord (cur : Bytes) : List Bytes := if cur = [] then [] else [cur]

theorem flushAsciiToken_eq (tokens cjkRun : List Bytes) (cur : Bytes) :
    flushAsciiToken ⟨tokens, cur, cjkRun⟩ = ⟨tokens ++ heldWord cur, [], cjkRun⟩ := by
  rw [flushAsciiToken, heldWord]
  dsimp only
  split
  · rename_i hcur
    rw [hcur, List.append_nil]
  · rfl

/-- The tokens when both accumulators are flushed. -/
def TokenizerState.flushed (s : TokenizerState) : List Bytes :=
  (flushCjkRunAsBigrams (flushAsciiToken s)).tokens

theorem flushed_eq (tokens cjkRun : List Bytes) (cur : Bytes) :
    (TokenizerState.mk tokens cur cjkRun).flushed =
      tokens ++ heldWord cur ++ bigrams cjkRun := by
  rw [TokenizerState.flushed, flushAsciiToken_eq]
  rfl

theorem flushed_clean (tokens : List Bytes) : (TokenizerState.mk tokens [] []).flushed = tokens := by
  simp [flushed_eq, heldWord, bigrams]

/-- From position `i` and the state `s` the loop gets to position `j` and the state `s'`. -/
def Leads (input : Bytes) (i : Nat) (s : TokenizerState) (j : Nat) (s' : TokenizerState) : Prop :=
  ∀ t, Ends input j s' t → Ends input i s t

section Pieces
variable {input rest : Bytes} {i : Nat} {tokens cjkRun : List Bytes} {cur : Bytes}

theorem Leads.trans {j k : Nat} {s s' s'' : TokenizerState} (h : Leads input i s j s')
    (h' : Leads input j s' k s'') : Leads input i s k s'' :=
  fun t ht => h t (h' t ht)

theorem getElem?_of_drop {c : UInt8} (h : input.drop i = c :: rest) : input[i]? = some c := by
  rw [← Nat.add_zero i, ← List.getElem?_drop, h]
  rfl

theorem drop_add_length {x : Bytes} (h : input.drop i = x ++ rest) :
    input.drop (i + x.length) = rest := by
  rw [← List.drop_drop, h, List.drop_left]

theorem leads_word {w : Bytes} (hw : w ≠ []) (hword : ∀ c ∈ w, isAsciiWordChar c = true)
    (hdrop : input.drop i = w ++ rest) :
    Leads input i ⟨tokens, cur, cjkRun⟩ (i + w.length)
      ⟨tokens ++ bigrams cjkRun, cur ++ lower w, []⟩ := by
  induction w generalizing i tokens cur cjkRun with
  | nil => exact absurd rfl hw
  | cons c w ih =>
    have hc := hword c List.mem_cons_self
    have hfirst : Leads input i ⟨tokens, cur, cjkRun⟩ (i + 1)
        ⟨tokens ++ bigrams cjkRun, cur ++ [lowerByte c], []⟩ := by
      intro t ht
      refine ht.step (getElem?_of_drop hdrop) ?_ (Nat.lt_succ_self i)
      have hlt : c < 0x80 := UInt8.lt_iff_toNat_lt.mpr (lt_of_isAsciiWordChar hc)
      rw [tokenizeStep, if_pos hlt]
      dsimp only
      rw [if_pos hc]
      rfl
    cases w with
    | nil => exact hfirst
    | cons d w =>
      have hdrop' : input.drop (i + [c].length) = d :: w ++ rest := drop_add_length hdrop
      have hrest : Leads input (i + [c].length)
          ⟨tokens ++ bigrams cjkRun, cur ++ [lowerByte c], []⟩ _ _ :=
        ih (by simp) (fun x hx => hword x (List.mem_cons_of_mem _ hx)) hdrop'
      have hgoal := hfirst.trans hrest
      have hlength : i + [c].length + (d :: w).length = i + (c :: d :: w).length := by
        simp only [List.length_cons, List.length_nil]
        omega
      rw [hlength] at hgoal
      simpa [bigrams, lower] using hgoal

theorem leads_cjk {run : List Char} (hrun : run ≠ []) (hcjk : ∀ ch ∈ run, IsCjk ch)
    (hdrop : input.drop i = run.flatMap encode ++ rest) :
    Leads input i ⟨tokens, cur, cjkRun⟩ (i + (run.flatMap encode).length)
      ⟨tokens ++ heldWord cur, [], cjkRun ++ run.map encode⟩ := by
  induction run generalizing i tokens cur cjkRun with
  | nil => exact absurd rfl hrun
  | cons ch run ih =>
    have hch := hcjk ch List.mem_cons_self
    rw [List.flatMap_cons, List.append_assoc] at hdrop
    have hfirst : Leads input i ⟨tokens, cur, cjkRun⟩ (i + (encode ch).length)
        ⟨tokens ++ heldWord cur, [], cjkRun ++ [encode ch]⟩ := by
      intro t ht
      obtain ⟨b, more, hshape, -, hhigh, -⟩ := encode_shape ch
      have hb : input[i]? = some b := by
        have hcons : input.drop i = b :: (more ++ (run.flatMap encode ++ rest)) := by
          rw [hdrop, hshape]
          rfl
        exact getElem?_of_drop hcons
      have hnot : ¬ b < 0x80 := by
        have := hhigh hch.le
        simp only [UInt8.lt_iff_toNat_lt, UInt8.reduceToNat]
        omega
      have hlength : 0 < (encode ch).length := by
        rw [hshape]
        exact Nat.succ_pos _
      refine ht.step hb ?_ (by omega)
      rw [tokenizeStep, if_neg hnot, flushAsciiToken_eq,
        decodeUtf8At_of_encode (hdrop ▸ List.prefix_append _ _)]
      dsimp only
      rw [if_pos (show isCjkCodepoint ch.val = true from hch), hdrop, List.take_left]
    cases run with
    | nil => simpa using hfirst
    | cons d run =>
      have hrest : Leads input (i + (encode ch).length)
          ⟨tokens ++ heldWord cur, [], cjkRun ++ [encode ch]⟩ _ _ :=
        ih (by simp) (fun x hx => hcjk x (List.mem_cons_of_mem _ hx)) (drop_add_length hdrop)
      have hgoal := hfirst.trans hrest
      rw [Nat.add_assoc, ← List.length_append, ← List.flatMap_cons] at hgoal
      simpa [heldWord] using hgoal

/-- Nothing is gathered but a word or a run. -/
def TokenizerState.Single (s : TokenizerState) : Prop := s.cur = [] ∨ s.cjkRun = []

theorem flushAscii_flushCjk {s : TokenizerState} (h : s.Single) :
    flushAsciiToken (flushCjkRunAsBigrams s) = ⟨s.flushed, [], []⟩ := by
  obtain ⟨tokens, cur, cjkRun⟩ := s
  rw [flushed_eq, flushCjkRunAsBigrams, flushAsciiToken_eq]
  dsimp only
  rcases h with h | h
  · obtain rfl : cur = [] := h
    simp [heldWord]
  · obtain rfl : cjkRun = [] := h
    simp [bigrams]

theorem flushCjk_flushAscii (s : TokenizerState) :
    flushCjkRunAsBigrams (flushAsciiToken s) = ⟨s.flushed, [], []⟩ := by
  obtain ⟨tokens, cur, cjkRun⟩ := s
  rw [flushed_eq, flushAsciiToken_eq]
  rfl

/-- A byte of a gap, or a character there, flushes what is gathered. -/
theorem leads_gap {g : Bytes} {s : TokenizerState} (hs : s.Single) (hg : (Piece.gap g).Proper)
    (hrest : ∀ b ∈ rest.head?, ¬ Continues b) (hdrop : input.drop i = g ++ rest) :
    Leads input i s (i + g.length) ⟨s.flushed, [], []⟩ := by
  induction hn : g.length using Nat.strong_induction_on generalizing g i s with
  | _ n ih =>
    subst hn
    obtain ⟨hne, hword, hcjk⟩ := hg
    obtain ⟨x, g', hx, rfl, hfirst⟩ : ∃ x g', x ≠ [] ∧ g = x ++ g' ∧
        Leads input i s (i + x.length) ⟨s.flushed, [], []⟩ := by
      obtain ⟨b, g, rfl⟩ := List.exists_cons_of_ne_nil hne
      have hb := getElem?_of_drop hdrop
      by_cases hascii : b < 0x80
      · refine ⟨[b], g, by simp, rfl, fun t ht => ht.step hb ?_ (Nat.lt_succ_self i)⟩
        have hnot : ¬ isAsciiWordChar b = true := by
          rw [hword b List.mem_cons_self]
          exact Bool.false_ne_true
        rw [tokenizeStep, if_pos hascii]
        dsimp only
        rw [if_neg hnot, flushAscii_flushCjk hs]
      cases hdecode : decodeUtf8At input i with
      | none =>
        refine ⟨[b], g, by simp, rfl, fun t ht => ht.step hb ?_ (Nat.lt_succ_self i)⟩
        rw [tokenizeStep, if_neg hascii]
        dsimp only
        rw [hdecode, flushCjk_flushAscii]
      | some decoded =>
        obtain ⟨cp, len⟩ := decoded
        obtain ⟨ch, rfl, rfl, hch⟩ := encode_of_decodeUtf8At hdecode
        rw [hdrop] at hch
        obtain ⟨g', hg'⟩ := prefix_of_prefix_append hne hrest hch
        have hnot : ¬ isCjkCodepoint ch.val = true := by
          intro h
          exact hcjk ch h (hg' ▸ List.infix_append [] (encode ch) g')
        obtain ⟨lead, more, hshape, -⟩ := encode_shape ch
        have hpos : 0 < (encode ch).length := by
          rw [hshape]
          exact Nat.succ_pos _
        refine ⟨encode ch, g', List.ne_nil_of_length_pos hpos, hg'.symm,
          fun t ht => ht.step hb ?_ (by omega)⟩
        rw [tokenizeStep, if_neg hascii]
        dsimp only
        rw [hdecode]
        dsimp only
        rw [if_neg hnot, flushCjk_flushAscii]
    rcases eq_or_ne g' [] with rfl | hne'
    · rwa [List.append_nil]
    have hpos := List.length_pos_of_ne_nil hx
    rw [List.append_assoc] at hdrop
    have hproper : (Piece.gap g').Proper := by
      refine ⟨hne', ?_, ?_⟩
      · exact fun c hc => hword c (List.mem_append_right _ hc)
      · exact fun ch hch hin => hcjk ch hch (hin.trans (List.suffix_append x g').isInfix)
    have hmore := ih g'.length (by rw [List.length_append]; omega) (s := ⟨s.flushed, [], []⟩)
      (Or.inl rfl) hproper (drop_add_length hdrop) rfl
    rw [flushed_clean] at hmore
    have hgoal := hfirst.trans hmore
    rw [Nat.add_assoc, ← List.length_append] at hgoal
    exact hgoal

/-- The piece would go on with what is gathered. -/
def TokenizerState.GoesOn (s : TokenizerState) : Piece → Prop
  | .word _ => s.cur ≠ []
  | .cjk _ => s.cjkRun ≠ []
  | .gap _ => False

/-- No piece that follows a gap starts with a byte that continues a character. -/
theorem not_continues_of_head {pieces : List Piece} (hproper : ∀ p ∈ pieces, p.Proper)
    (hhead : ∀ g, Piece.gap g ∉ pieces.head?) (hrest : ∀ b ∈ rest.head?, ¬ Continues b) :
    ∀ b ∈ (pieces.flatMap Piece.text ++ rest).head?, ¬ Continues b := by
  cases pieces with
  | nil => exact hrest
  | cons p pieces =>
    have hp := hproper p List.mem_cons_self
    cases p with
    | gap g => exact absurd rfl (hhead g)
    | word w =>
      obtain ⟨c, w, rfl⟩ := List.exists_cons_of_ne_nil hp.1
      rintro b ⟨⟩
      have hlt := lt_of_isAsciiWordChar (hp.2 c List.mem_cons_self)
      rw [Continues]
      omega
    | cjk run =>
      obtain ⟨ch, run, rfl⟩ := List.exists_cons_of_ne_nil hp.1
      obtain ⟨lead, more, hshape, hlead, -⟩ := encode_shape ch
      intro b hb
      rw [List.flatMap_cons, Piece.text, List.flatMap_cons, hshape] at hb
      obtain rfl : lead = b := Option.some.inj hb
      exact hlead

/-- The loop gives the tokens of one piece after the other. -/
theorem leads_pieces {pieces : List Piece} {s : TokenizerState} (hs : s.Single)
    (hproper : ∀ p ∈ pieces, p.Proper) (halt : pieces.IsChain fun p q => p.kind ≠ q.kind)
    (hhead : ∀ p ∈ pieces.head?, ¬ s.GoesOn p) (hrest : ∀ b ∈ rest.head?, ¬ Continues b)
    (hdrop : input.drop i = pieces.flatMap Piece.text ++ rest) :
    ∃ s' : TokenizerState, s'.Single ∧ s'.flushed = s.flushed ++ pieces.flatMap Piece.tokens ∧
      Leads input i s (i + (pieces.flatMap Piece.text).length) s' := by
  induction pieces generalizing i s with
  | nil => exact ⟨s, hs, by simp, fun t ht => ht⟩
  | cons p pieces ih =>
    obtain ⟨tokens, cur, cjkRun⟩ := s
    rw [List.flatMap_cons, List.append_assoc] at hdrop
    have hp := hproper p List.mem_cons_self
    have hgoes := hhead p rfl
    have hnext := List.isChain_cons.mp halt
    obtain ⟨s₁, hs₁, hflushed, hleads, hhead₁⟩ : ∃ s₁ : TokenizerState, s₁.Single ∧
        s₁.flushed = (TokenizerState.mk tokens cur cjkRun).flushed ++ p.tokens ∧
        Leads input i ⟨tokens, cur, cjkRun⟩ (i + p.text.length) s₁ ∧
        ∀ q ∈ pieces.head?, ¬ s₁.GoesOn q := by
      cases p with
      | word w =>
        obtain rfl : cur = [] := not_not.mp hgoes
        refine ⟨_, Or.inr rfl, ?_, leads_word (w := w) hp.1 hp.2 hdrop, fun q hq => ?_⟩
        · have hlower : lower w ≠ [] := by
            simpa [lower] using hp.1
          simp [flushed_eq, heldWord, bigrams, Piece.tokens, hlower]
        · have hkind := hnext.1 q hq
          cases q with
          | word _ => exact absurd rfl hkind
          | cjk _ => exact fun h => h rfl
          | gap _ => exact fun h => h
      | cjk run =>
        obtain rfl : cjkRun = [] := not_not.mp hgoes
        refine ⟨_, Or.inl rfl, ?_, leads_cjk hp.1 hp.2 hdrop, fun q hq => ?_⟩
        · rw [tokens_cjk]
          simp [flushed_eq, heldWord, bigrams]
        · have hkind := hnext.1 q hq
          cases q with
          | word _ => exact fun h => h rfl
          | cjk _ => exact absurd rfl hkind
          | gap _ => exact fun h => h
      | gap g =>
        have hclosed := not_continues_of_head
          (fun q hq => hproper q (List.mem_cons_of_mem _ hq))
          (fun g' hg' => hnext.1 _ hg' rfl) hrest
        refine ⟨_, Or.inl rfl, ?_, leads_gap hs hp hclosed hdrop, fun q hq => ?_⟩
        · simp [flushed_clean, Piece.tokens]
        · cases q with
          | word _ => exact fun h => h rfl
          | cjk _ => exact fun h => h rfl
          | gap _ => exact fun h => h
    obtain ⟨s₂, hs₂, hflushed₂, hleads₂⟩ := ih hs₁
      (fun q hq => hproper q (List.mem_cons_of_mem _ hq)) hnext.2 hhead₁ (drop_add_length hdrop)
    refine ⟨s₂, hs₂, ?_, ?_⟩
    · rw [hflushed₂, hflushed, List.flatMap_cons, List.append_assoc]
    · have hgoal := hleads.trans hleads₂
      rwa [Nat.add_assoc, ← List.length_append, ← List.flatMap_cons] at hgoal

end Pieces

/-! ### The text cut into pieces -/

/-- A byte or a character in front of pieces joins the first one or is a piece itself. -/
theorem Cuts.cons {input rest : Bytes} {p : Piece} {pieces : List Piece}
    (h : Cuts rest pieces) (hp : p.Proper) (htext : p.text ++ rest = input)
    (hjoin : ∀ q ∈ pieces.head?, p.kind = q.kind →
      ∃ r : Piece, r.Proper ∧ r.text = p.text ++ q.text ∧ r.kind = q.kind) :
    ∃ pieces, Cuts input pieces := by
  cases pieces with
  | nil =>
    refine ⟨[p], ?_, ?_, List.isChain_singleton p⟩
    · rw [← htext, ← h.text]
      simp
    · simpa using hp
  | cons q pieces =>
    have hnext := List.isChain_cons.mp h.alternating
    by_cases hkind : p.kind = q.kind
    · obtain ⟨r, hr, hrtext, hrkind⟩ := hjoin q rfl hkind
      refine ⟨r :: pieces, ?_, ?_, ?_⟩
      · rw [← htext, ← h.text, List.flatMap_cons, List.flatMap_cons, hrtext, List.append_assoc]
      · intro t ht
        rcases List.mem_cons.mp ht with rfl | ht
        · exact hr
        · exact h.proper t (List.mem_cons_of_mem _ ht)
      · exact List.isChain_cons.mpr ⟨fun t ht => hrkind ▸ hnext.1 t ht, hnext.2⟩
    · refine ⟨p :: q :: pieces, ?_, ?_, ?_⟩
      · rw [← htext, ← h.text, List.flatMap_cons]
      · intro t ht
        rcases List.mem_cons.mp ht with rfl | ht
        · exact hp
        · exact h.proper t ht
      · exact List.isChain_cons_cons.mpr ⟨hkind, h.alternating⟩

/-- Every text can be cut into pieces. -/
theorem exists_cuts (input : Bytes) : ∃ pieces, Cuts input pieces := by
  induction hn : input.length using Nat.strong_induction_on generalizing input with
  | _ n ih =>
    subst hn
    cases input with
    | nil => exact ⟨[], rfl, by simp, List.isChain_nil⟩
    | cons c input =>
      by_cases hcjk : ∃ ch, IsCjk ch ∧ encode ch <+: c :: input
      · obtain ⟨ch, hch, rest, hrest⟩ := hcjk
        obtain ⟨lead, more, hshape, -⟩ := encode_shape ch
        have hlength := congrArg List.length hrest
        rw [hshape, List.length_append, List.length_cons] at hlength
        obtain ⟨pieces, hpieces⟩ := ih rest.length (by omega) rest rfl
        refine hpieces.cons (p := .cjk [ch]) ⟨by simp, by simpa using hch⟩
          (by simpa [Piece.text] using hrest) ?_
        intro q hq hkind
        have hproper := hpieces.proper q (List.mem_of_mem_head? hq)
        cases q with
        | word w => cases hkind
        | gap g => cases hkind
        | cjk run =>
          refine ⟨.cjk (ch :: run), ⟨by simp, ?_⟩, by simp [Piece.text], rfl⟩
          simpa using ⟨hch, hproper.2⟩
      · obtain ⟨pieces, hpieces⟩ := ih input.length (Nat.lt_succ_self _) input rfl
        cases hword : isAsciiWordChar c with
        | true =>
          refine hpieces.cons (p := .word [c]) ⟨by simp, by simpa using hword⟩ rfl ?_
          intro q hq hkind
          have hproper := hpieces.proper q (List.mem_of_mem_head? hq)
          cases q with
          | gap g => cases hkind
          | cjk run => cases hkind
          | word w =>
            refine ⟨.word (c :: w), ⟨by simp, ?_⟩, rfl, rfl⟩
            simpa using ⟨hword, hproper.2⟩
        | false =>
          have hnone : ∀ g more, g ++ more = input → (∀ ch, IsCjk ch → ¬ encode ch <:+: g) →
              ∀ ch, IsCjk ch → ¬ encode ch <:+: c :: g := by
            rintro g more rfl hg ch hch hin
            rcases List.infix_cons_iff.mp hin with hprefix | hinfix
            · exact hcjk ⟨ch, hch, hprefix.trans (List.prefix_append (c :: g) more)⟩
            · exact hg ch hch hinfix
          have hempty : ∀ ch, IsCjk ch → ¬ encode ch <:+: [] := by
            intro ch _ hin
            obtain ⟨lead, more, hshape, -⟩ := encode_shape ch
            rw [List.infix_nil.mp hin] at hshape
            cases hshape
          refine hpieces.cons (p := .gap [c])
            ⟨by simp, by simpa using hword, hnone [] input rfl hempty⟩ rfl ?_
          intro q hq hkind
          have hproper := hpieces.proper q (List.mem_of_mem_head? hq)
          cases q with
          | word w => cases hkind
          | cjk run => cases hkind
          | gap g =>
            obtain ⟨pieces', rfl⟩ : ∃ pieces', pieces = .gap g :: pieces' := by
              cases pieces with
              | nil => cases hq
              | cons q pieces' => exact ⟨pieces', by rw [Option.some.inj hq]⟩
            refine ⟨.gap (c :: g), ⟨by simp, ?_, ?_⟩, rfl, rfl⟩
            · simpa using ⟨hword, hproper.2.1⟩
            · exact hnone g _ hpieces.text hproper.2.2

/-! ### The specification -/

/-- A lower-cased word, a CJK character or a pair of them. -/
inductive WholeToken : Bytes → Prop
  | word {w : Bytes} (nonempty : w ≠ []) (word : ∀ c ∈ w, isAsciiWordChar c = true) :
      WholeToken (lower w)
  | single {ch : Char} (cjk : IsCjk ch) : WholeToken (encode ch)
  | bigram {c d : Char} (first : IsCjk c) (second : IsCjk d) : WholeToken (encode c ++ encode d)

/-- The tokens of a text are those of the pieces it is cut into, in their order. -/
structure TokenizesByPieces (input : Bytes) : Prop where
  /-- The loop needs no more passes than the text has bytes. -/
  terminates : ∀ fuel, input.length ≤ fuel →
    tokenizeLoop input fuel 0 ⟨[], [], []⟩ = tokenizeLoop input input.length 0 ⟨[], [], []⟩
  cut : ∃ pieces, Cuts input pieces
  tokens : ∀ pieces, Cuts input pieces → tokenize input = pieces.flatMap Piece.tokens
  whole : ∀ x ∈ tokenize input, WholeToken x ∧ x ≠ [] ∧ 47 ∉ x ∧ 58 ∉ x
  append : ∀ input', tokenize (input ++ ascii " " ++ input') = tokenize input ++ tokenize input'

theorem wholeToken_bigrams {run : List Char} (h : ∀ ch ∈ run, IsCjk ch) :
    ∀ x ∈ (Piece.cjk run).tokens, WholeToken x := by
  intro x hx
  rw [Piece.tokens] at hx
  split at hx
  · obtain ⟨ch, hch, rfl⟩ := List.mem_map.mp hx
    exact .single (h ch hch)
  · rw [← List.map_uncurry_zip_eq_zipWith] at hx
    obtain ⟨⟨c, d⟩, hcd, rfl⟩ := List.mem_map.mp hx
    obtain ⟨hc, hd⟩ := List.of_mem_zip hcd
    exact .bigram (h c hc) (h d (List.mem_of_mem_tail hd))

theorem WholeToken.ne_nil {x : Bytes} (h : WholeToken x) : x ≠ [] := by
  have hencode : ∀ ch, encode ch ≠ [] := by
    intro ch hnil
    obtain ⟨lead, more, hshape, -⟩ := encode_shape ch
    cases hnil.symm.trans hshape
  cases h with
  | word nonempty _ => simpa [lower] using nonempty
  | single _ => exact hencode _
  | bigram _ _ => exact fun h => hencode _ (List.append_eq_nil_iff.mp h).1

theorem Cuts.wholeToken {input : Bytes} {pieces : List Piece} (h : Cuts input pieces) :
    ∀ x ∈ pieces.flatMap Piece.tokens, WholeToken x := by
  intro x hx
  obtain ⟨p, hp, hx⟩ := List.mem_flatMap.mp hx
  have hproper := h.proper p hp
  cases p with
  | word w =>
    obtain rfl := List.mem_singleton.mp hx
    exact .word hproper.1 hproper.2
  | cjk run => exact wholeToken_bigrams hproper.2 x hx
  | gap g => cases hx

/-- The loop over a text that is followed by nothing that continues a character. -/
theorem Cuts.leads {input : Bytes} {pieces : List Piece} (h : Cuts input pieces)
    (before rest : Bytes) (tokens : List Bytes) (hrest : ∀ b ∈ rest.head?, ¬ Continues b) :
    ∃ s : TokenizerState, s.Single ∧ s.flushed = tokens ++ pieces.flatMap Piece.tokens ∧
      Leads (before ++ input ++ rest) before.length ⟨tokens, [], []⟩
        (before.length + input.length) s := by
  have hhead : ∀ p ∈ pieces.head?, ¬ (TokenizerState.mk tokens [] []).GoesOn p := by
    intro p _
    cases p with
    | word _ => exact fun h => h rfl
    | cjk _ => exact fun h => h rfl
    | gap _ => exact fun h => h
  have hdrop : (before ++ input ++ rest).drop before.length =
      pieces.flatMap Piece.text ++ rest := by
    rw [List.append_assoc, List.drop_left, h.text]
  have hleads := leads_pieces (Or.inl rfl) h.proper h.alternating hhead hrest hdrop
  rwa [h.text, flushed_clean] at hleads

/-- The loop over a whole text. -/
theorem Cuts.ends {input : Bytes} {pieces : List Piece} (h : Cuts input pieces) :
    ∃ s : TokenizerState, s.flushed = pieces.flatMap Piece.tokens ∧
      Ends input 0 ⟨[], [], []⟩ s := by
  obtain ⟨s, -, hflushed, hleads⟩ := h.leads [] [] [] (by simp)
  rw [List.append_nil, List.nil_append, List.length_nil, Nat.zero_add] at hleads
  exact ⟨s, hflushed, hleads s (ends_length input s)⟩

theorem tokenize_eq_of_ends {input : Bytes} {s : TokenizerState}
    (h : Ends input 0 ⟨[], [], []⟩ s) : tokenize input = s.flushed := by
  rw [tokenize, h input.length (by omega)]
  rfl

theorem Cuts.tokenize_eq {input : Bytes} {pieces : List Piece} (h : Cuts input pieces) :
    tokenize input = pieces.flatMap Piece.tokens := by
  obtain ⟨s, hflushed, hends⟩ := h.ends
  rw [tokenize_eq_of_ends hends, hflushed]

/-- A blank separates what is before it from what is after it. -/
theorem tokenize_append_blank (input input' : Bytes) :
    tokenize (input ++ ascii " " ++ input') = tokenize input ++ tokenize input' := by
  obtain ⟨pieces, hpieces⟩ := exists_cuts input
  obtain ⟨pieces', hpieces'⟩ := exists_cuts input'
  have hblank : (ascii " " : Bytes) = [32] := rfl
  obtain ⟨s, hs, hflushed, hleads⟩ := hpieces.leads [] ([32] ++ input') [] (by
    rintro b ⟨⟩
    decide)
  obtain ⟨s', -, hflushed', hleads'⟩ := hpieces'.leads (input ++ [32]) [] s.flushed (by simp)
  rw [List.append_nil, ← List.length_append] at hleads'
  rw [List.nil_append, ← List.append_assoc, List.length_nil, Nat.zero_add] at hleads
  have hstep : Leads (input ++ [32] ++ input') input.length s (input.length + 1)
      ⟨s.flushed, [], []⟩ := by
    intro t ht
    have hc : (input ++ [32] ++ input')[input.length]? = some 32 := by simp
    refine ht.step hc ?_ (Nat.lt_succ_self _)
    rw [tokenizeStep, if_pos (by decide)]
    dsimp only
    rw [if_neg (by decide), flushAscii_flushCjk hs]
  rw [List.length_append, List.length_singleton] at hleads'
  have hends := (hleads.trans hstep).trans hleads' s' (ends_length _ s')
  rw [hblank, tokenize_eq_of_ends hends, hflushed', hflushed, hpieces.tokenize_eq,
    hpieces'.tokenize_eq, List.nil_append]

/-- On every byte string the tokenizer gives the tokens of the words and the runs of CJK
characters of the text. -/
theorem tokenize_by_pieces (input : Bytes) : TokenizesByPieces input := by
  obtain ⟨pieces, hpieces⟩ := exists_cuts input
  obtain ⟨s, -, hends⟩ := hpieces.ends
  constructor
  · intro fuel hfuel
    rw [hends fuel (by omega), hends input.length (by omega)]
  · exact ⟨pieces, hpieces⟩
  · exact fun _ h => h.tokenize_eq
  · intro x hx
    have hwhole := hpieces.wholeToken x (hpieces.tokenize_eq ▸ hx)
    have hbytes := isTokenByte_tokenize hx
    refine ⟨hwhole, hwhole.ne_nil, tokenize_notMem_slash hx, fun hcolon => ?_⟩
    rcases hbytes 58 hcolon with h | h
    · exact absurd h (by decide)
    · exact absurd h (by decide)
  · exact tokenize_append_blank input

end PoorguyMem
