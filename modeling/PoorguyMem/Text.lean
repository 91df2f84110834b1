import PoorguyMem.Lib.ByteString

/-!
# Tokens

`util/text.cpp`: the UTF-8 decoder, the tokenizer that splits ASCII words and
turns runs of CJK characters into bigrams, and the token estimate of a text.
-/

namespace PoorguyMem

open ByteString

def isAsciiWordChar (c : UInt8) : Bool :=
  (48 ≤ c ∧ c ≤ 57) ∨ (65 ≤ c ∧ c ≤ 90) ∨ (97 ≤ c ∧ c ≤ 122) ∨ c = 95 ∨ c = 45

def isContinuation (b : UInt8) : Bool := b &&& 0xC0 = 0x80

/-- The code point at position `i` and the number of bytes it takes. -/
def decodeUtf8At (input : Bytes) (i : Nat) : Option (UInt32 × Nat) := do
  let b0 ← input[i]?
  if b0 < 0x80 then
    return (b0.toUInt32, 1)
  if 0xC2 ≤ b0 ∧ b0 ≤ 0xDF then
    let b1 ← input[i + 1]?
    if !isContinuation b1 then none
    return ((b0 &&& 0x1F).toUInt32 <<< 6 ||| (b1 &&& 0x3F).toUInt32, 2)
  if 0xE0 ≤ b0 ∧ b0 ≤ 0xEF then
    let b1 ← input[i + 1]?
    let b2 ← input[i + 2]?
    if !isContinuation b1 || !isContinuation b2 then none
    -- overlong forms and the UTF-16 surrogates
    if b0 = 0xE0 ∧ b1 < 0xA0 then none
    if b0 = 0xED ∧ 0xA0 ≤ b1 then none
    return ((b0 &&& 0x0F).toUInt32 <<< 12 ||| (b1 &&& 0x3F).toUInt32 <<< 6 |||
      (b2 &&& 0x3F).toUInt32, 3)
  if 0xF0 ≤ b0 ∧ b0 ≤ 0xF4 then
    let b1 ← input[i + 1]?
    let b2 ← input[i + 2]?
    let b3 ← input[i + 3]?
    if !isContinuation b1 || !isContinuation b2 || !isContinuation b3 then none
    -- overlong forms and code points above U+10FFFF
    if b0 = 0xF0 ∧ b1 < 0x90 then none
    if b0 = 0xF4 ∧ 0x8F < b1 then none
    return ((b0 &&& 0x07).toUInt32 <<< 18 ||| (b1 &&& 0x3F).toUInt32 <<< 12 |||
      (b2 &&& 0x3F).toUInt32 <<< 6 ||| (b3 &&& 0x3F).toUInt32, 4)
  none

def isCjkCodepoint (cp : UInt32) : Bool :=
  (0x3400 ≤ cp ∧ cp ≤ 0x4DBF) ∨ (0x4E00 ≤ cp ∧ cp ≤ 0x9FFF) ∨ (0xF900 ≤ cp ∧ cp ≤ 0xFAFF) ∨
  (0x20000 ≤ cp ∧ cp ≤ 0x2A6DF) ∨ (0x2A700 ≤ cp ∧ cp ≤ 0x2B73F) ∨
  (0x2B740 ≤ cp ∧ cp ≤ 0x2B81F) ∨ (0x2B820 ≤ cp ∧ cp ≤ 0x2CEAF) ∨
  (0x2CEB0 ≤ cp ∧ cp ≤ 0x2EBEF) ∨ (0x30000 ≤ cp ∧ cp ≤ 0x3134F)

/-- The locals of the loop in `Tokenize`. -/
structure TokenizerState where
  tokens : List Bytes
  cur : Bytes
  cjkRun : List Bytes

def flushAsciiToken (s : TokenizerState) : TokenizerState :=
  if s.cur = [] then s else { s with tokens := s.tokens ++ [s.cur], cur := [] }

def bigrams : List Bytes → List Bytes
  | [] => []
  | [c] => [c]
  | c :: d :: rest => (c ++ d) :: (if rest = [] then [] else bigrams (d :: rest))

def flushCjkRunAsBigrams (s : TokenizerState) : TokenizerState :=
  { s with tokens := s.tokens ++ bigrams s.cjkRun, cjkRun := [] }

/-- One pass of the loop at position `i`, with the position it continues at. -/
def tokenizeStep (input : Bytes) (i : Nat) (c : UInt8) (s : TokenizerState) :
    Nat × TokenizerState :=
  if c < 0x80 then
    let s := flushCjkRunAsBigrams s
    if isAsciiWordChar c then (i + 1, { s with cur := s.cur ++ [lowerByte c] })
    else (i + 1, flushAsciiToken s)
  else
    let s := flushAsciiToken s
    match decodeUtf8At input i with
    | none => (i + 1, flushCjkRunAsBigrams s)
    | some (cp, len) =>
      if isCjkCodepoint cp then
        (i + len, { s with cjkRun := s.cjkRun ++ [(input.drop i).take len] })
      else (i + len, flushCjkRunAsBigrams s)

/-- Every pass advances by a byte at least, so the length of the input is fuel enough. -/
def tokenizeLoop (input : Bytes) : Nat → Nat → TokenizerState → TokenizerState
  | 0, _, s => s
  | fuel + 1, i, s =>
    match input[i]? with
    | none => s
    | some c =>
      let next := tokenizeStep input i c s
      tokenizeLoop input fuel next.1 next.2

def tokenize (input : Bytes) : List Bytes :=
  let s := tokenizeLoop input input.length 0 ⟨[], [], []⟩
  (flushCjkRunAsBigrams (flushAsciiToken s)).tokens

def estimateTokenCount (text : Bytes) : Nat :=
  if text = [] then 0 else (text.length + 3) / 4

/-! ### The bytes of a token -/

/-- Tokens are made of word characters and bytes outside ASCII. -/
def IsTokenByte (c : UInt8) : Prop := isAsciiWordChar c = true ∨ 0x80 ≤ c

theorem not_isTokenByte_slash : ¬ IsTokenByte 47 := by
  rintro (h | h)
  · exact absurd h (by decide)
  · exact absurd h (by decide)

theorem isTokenByte_lowerByte {c : UInt8} (h : isAsciiWordChar c = true) :
    IsTokenByte (lowerByte c) := by
  rw [lowerByte]
  split
  · rename_i hupper
    have hshift : (c + 32).toNat = c.toNat + 32 := by
      have hle := UInt8.le_iff_toNat_le.mp hupper.2
      rw [UInt8.toNat_add]
      exact Nat.mod_eq_of_lt (by simp at hle ⊢; omega)
    have h97 : 97 ≤ c + 32 ∧ c + 32 ≤ 122 := by
      simp only [UInt8.le_iff_toNat_le] at hupper ⊢
      rw [hshift]
      simpa using hupper
    refine Or.inl ?_
    simp [isAsciiWordChar, h97]
  · exact Or.inl h

theorem le_of_isContinuation {b : UInt8} (h : isContinuation b = true) : 0x80 ≤ b := by
  rw [isContinuation, decide_eq_true_eq] at h
  rw [← h]
  exact UInt8.and_le_left

/-- The bytes after the first are continuation bytes. -/
theorem isContinuation_of_decode {input : Bytes} {i : Nat} {b : UInt8} {cp : UInt32} {len : Nat}
    (hb : input[i]? = some b) (h80 : 0x80 ≤ b) (h : decodeUtf8At input i = some (cp, len)) {j : Nat}
    (hj : j + 1 < len) : ∃ d, input[i + (j + 1)]? = some d ∧ isContinuation d = true := by
  have hnot : ¬ b < 0x80 := UInt8.not_lt.mpr h80
  rw [decodeUtf8At, hb, Option.bind_eq_bind, Option.bind_some, if_neg hnot] at h
  -- one case for each length of a sequence
  split at h
  · rcases h1 : input[i + 1]? with _ | b1
    · simp [h1] at h
    · simp [h1] at h
      obtain rfl : j = 0 := by omega
      exact ⟨b1, h1, h.1⟩
  split at h
  · rcases h1 : input[i + 1]? with _ | b1
    · simp [h1] at h
    rcases h2 : input[i + 2]? with _ | b2
    · simp [h1, h2] at h
    simp [h1, h2] at h
    obtain rfl | rfl : j = 0 ∨ j = 1 := by omega
    · exact ⟨b1, h1, h.1.1⟩
    · exact ⟨b2, h2, h.1.2⟩
  split at h
  · rcases h1 : input[i + 1]? with _ | b1
    · simp [h1] at h
    rcases h2 : input[i + 2]? with _ | b2
    · simp [h1, h2] at h
    rcases h3 : input[i + 3]? with _ | b3
    · simp [h1, h2, h3] at h
    simp [h1, h2, h3] at h
    obtain rfl | rfl | rfl : j = 0 ∨ j = 1 ∨ j = 2 := by omega
    · exact ⟨b1, h1, h.1.1.1⟩
    · exact ⟨b2, h2, h.1.1.2⟩
    · exact ⟨b3, h3, h.1.2⟩
  · cases h

/-- The bytes of a code point outside ASCII are outside ASCII. -/
theorem le_of_mem_codepoint {input : Bytes} {i : Nat} {b c : UInt8} {cp : UInt32} {len : Nat}
    (hb : input[i]? = some b) (h80 : 0x80 ≤ b) (h : decodeUtf8At input i = some (cp, len))
    (hc : c ∈ (input.drop i).take len) : 0x80 ≤ c := by
  obtain ⟨j, hj⟩ := List.mem_iff_getElem?.mp hc
  rw [List.getElem?_take] at hj
  split at hj
  case isFalse => cases hj
  rename_i hlt
  rw [List.getElem?_drop] at hj
  match j with
  | 0 =>
    obtain rfl := Option.some.inj (hb.symm.trans hj)
    exact h80
  | j + 1 =>
    obtain ⟨d, hd, hcont⟩ := isContinuation_of_decode hb h80 h hlt
    obtain rfl := Option.some.inj (hj.symm.trans hd)
    exact le_of_isContinuation hcont

/-- What the tokenizer has gathered so far. -/
structure TokenizerState.Wordy (s : TokenizerState) : Prop where
  tokens : ∀ x ∈ s.tokens, ∀ c ∈ x, IsTokenByte c
  cur : ∀ c ∈ s.cur, IsTokenByte c
  cjkRun : ∀ x ∈ s.cjkRun, ∀ c ∈ x, IsTokenByte c

theorem isTokenByte_bigrams {run : List Bytes} (h : ∀ x ∈ run, ∀ c ∈ x, IsTokenByte c) :
    ∀ x ∈ bigrams run, ∀ c ∈ x, IsTokenByte c := by
  fun_induction bigrams run with
  | case1 => exact h
  | case2 c => exact h
  | case3 c d rest ih =>
    intro x hx
    rcases List.mem_cons.mp hx with rfl | hx
    · intro e he
      rcases List.mem_append.mp he with he | he
      · exact h c List.mem_cons_self e he
      · exact h d (List.mem_cons_of_mem _ List.mem_cons_self) e he
    · split at hx
      · cases hx
      · exact ih (fun y hy => h y (List.mem_cons_of_mem _ hy)) x hx

namespace TokenizerState.Wordy
variable {s : TokenizerState} {input : Bytes} {i : Nat} {c : UInt8}

theorem flushAscii (h : s.Wordy) : (flushAsciiToken s).Wordy := by
  rw [flushAsciiToken]
  split
  · exact h
  · refine ⟨fun x hx => ?_, by simp, h.cjkRun⟩
    rcases List.mem_append.mp hx with hx | hx
    · exact h.tokens x hx
    · rw [List.mem_singleton.mp hx]
      exact h.cur

theorem flushCjk (h : s.Wordy) : (flushCjkRunAsBigrams s).Wordy := by
  refine ⟨fun x hx => ?_, h.cur, by simp [flushCjkRunAsBigrams]⟩
  rcases List.mem_append.mp hx with hx | hx
  · exact h.tokens x hx
  · exact isTokenByte_bigrams h.cjkRun x hx

theorem step (h : s.Wordy) (hc : input[i]? = some c) : (tokenizeStep input i c s).2.Wordy := by
  rw [tokenizeStep]
  split
  · split
    · rename_i hword
      refine ⟨h.flushCjk.tokens, fun e he => ?_, h.flushCjk.cjkRun⟩
      rcases List.mem_append.mp he with he | he
      · exact h.flushCjk.cur e he
      · rw [List.mem_singleton.mp he]
        exact isTokenByte_lowerByte hword
    · exact h.flushCjk.flushAscii
  · rename_i h80
    split
    · exact h.flushAscii.flushCjk
    · rename_i cp len hdecode
      split
      · refine ⟨h.flushAscii.tokens, h.flushAscii.cur, fun x hx => ?_⟩
        rcases List.mem_append.mp hx with hx | hx
        · exact h.flushAscii.cjkRun x hx
        · rw [List.mem_singleton.mp hx]
          exact fun e he => Or.inr (le_of_mem_codepoint hc (UInt8.not_lt.mp h80) hdecode he)
      · exact h.flushAscii.flushCjk

theorem loop (h : s.Wordy) (fuel : Nat) : (tokenizeLoop input fuel i s).Wordy := by
  induction fuel generalizing i s with
  | zero => exact h
  | succ fuel ih =>
    rw [tokenizeLoop]
    split
    · exact h
    · rename_i hc
      exact ih (h.step hc)

end TokenizerState.Wordy

theorem isTokenByte_tokenize {input x : Bytes} (hx : x ∈ tokenize input) :
    ∀ c ∈ x, IsTokenByte c := by
  have hinit : (⟨[], [], []⟩ : TokenizerState).Wordy := ⟨by simp, by simp, by simp⟩
  exact (hinit.loop input.length).flushAscii.flushCjk.tokens x hx

/-- So no token contains the separator of the keys. -/
theorem tokenize_notMem_slash {input x : Bytes} (hx : x ∈ tokenize input) : 47 ∉ x :=
  fun h => not_isTokenByte_slash (isTokenByte_tokenize hx 47 h)

end PoorguyMem
