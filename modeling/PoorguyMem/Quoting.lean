import PoorguyMem.RequestIds
import PoorguyMem.Lib.JsonReader

/-!
# Quoted texts

Messages and the texts of tools go into responses as quoted strings, between pieces of JSON
that are written out. Each byte is quoted to what stands for it alone, so a text is read
back as it was, and the response is the one object it was meant to be.
-/

namespace PoorguyMem

open ByteString JsonReader PropertyTree

variable {K : Type}

/-! ### Strings -/

theorem hexDigit_lowerHexDigit : ∀ n < 16, hexDigit (lowerHexDigit n) = some n := by decide

/-- A byte is quoted as itself, or as an escape that stands for it. -/
theorem escaped_byte (c : UInt8) (rest : Bytes) :
    (∃ e, jsonEscape c = 92 :: e ∧ JsonReader.readEscape (e ++ rest) = some ([c], rest)) ∨
      jsonEscape c = [c] ∧ c ≠ 34 ∧ c ≠ 92 ∧ ¬ c < 32 := by
  unfold jsonEscape
  split
  · subst_vars
    exact Or.inl ⟨_, rfl, rfl⟩
  rename_i hquote
  split
  · subst_vars
    exact Or.inl ⟨_, rfl, rfl⟩
  rename_i hslash
  split
  · subst_vars
    exact Or.inl ⟨_, rfl, rfl⟩
  split
  · subst_vars
    exact Or.inl ⟨_, rfl, rfl⟩
  split
  · subst_vars
    exact Or.inl ⟨_, rfl, rfl⟩
  split
  · subst_vars
    exact Or.inl ⟨_, rfl, rfl⟩
  split
  · subst_vars
    exact Or.inl ⟨_, rfl, rfl⟩
  split
  · rename_i hcontrol
    refine Or.inl ⟨_, rfl, ?_⟩
    have hlt : c.toNat < 32 := UInt8.lt_iff_toNat_lt.mp hcontrol
    have hhi := hexDigit_lowerHexDigit (c.toNat / 16) (by omega)
    have hlo := hexDigit_lowerHexDigit (c.toNat % 16) (by omega)
    have hzero : hexDigit 48 = some 0 := rfl
    have hunit : readUnit (48 :: 48 :: lowerHexDigit (c.toNat / 16) ::
        lowerHexDigit (c.toNat % 16) :: rest) = some (c.toNat, rest) := by
      have hsum : ((0 * 16 + 0) * 16 + c.toNat / 16) * 16 + c.toNat % 16 = c.toNat := by omega
      simp only [readUnit, hzero, hhi, hlo, Option.bind_eq_bind, Option.bind_some, hsum]
      rfl
    have hcode : readCodePoint (48 :: 48 :: lowerHexDigit (c.toNat / 16) ::
        lowerHexDigit (c.toNat % 16) :: rest) = some (c.toNat, rest) := by
      rw [readCodePoint, hunit, Option.bind_eq_bind, Option.bind_some]
      dsimp only
      rw [if_pos (Or.inl (by omega))]
      rfl
    have hchar : (Char.ofNat c.toNat).toNat = c.toNat := by
      rw [Char.ofNat, dif_pos (Or.inl (by omega))]
      rfl
    have hencode : Utf8.encode (Char.ofNat c.toNat) = [c] := by
      rw [Utf8.encode_one (by omega), hchar, UInt8.ofNat_toNat]
    change JsonReader.readEscape (117 :: 48 :: 48 :: lowerHexDigit (c.toNat / 16) ::
      lowerHexDigit (c.toNat % 16) :: rest) = _
    rw [JsonReader.readEscape, if_pos rfl, hcode, Option.map_some, hencode]
  · rename_i hplain
    exact Or.inr ⟨rfl, hquote, hslash, hplain⟩

theorem readChars_escaped (s rest : Bytes) (fuel : Nat) (h : (s.flatMap jsonEscape).length < fuel) :
    JsonReader.readChars fuel (s.flatMap jsonEscape ++ 34 :: rest) = some (s, rest) := by
  induction s generalizing fuel with
  | nil =>
    obtain ⟨fuel, rfl⟩ := Nat.exists_eq_succ_of_ne_zero (Nat.ne_of_gt h)
    rfl
  | cons c s ih =>
    obtain ⟨fuel, rfl⟩ := Nat.exists_eq_succ_of_ne_zero (Nat.ne_of_gt (Nat.zero_lt_of_lt h))
    rw [List.flatMap_cons, List.length_append] at h
    rw [List.flatMap_cons, List.append_assoc]
    rcases escaped_byte c (s.flatMap jsonEscape ++ 34 :: rest) with
      ⟨e, he, hread⟩ | ⟨he, hquote, hslash, hplain⟩
    · rw [he, List.length_cons] at h
      rw [he, List.cons_append, JsonReader.readChars, if_neg (by decide), if_pos rfl, hread,
        Option.bind_some, ih fuel (by omega)]
      rfl
    · rw [he, List.length_singleton] at h
      rw [he, List.singleton_append, JsonReader.readChars, if_neg hquote, if_neg hslash,
        if_neg hplain, ih fuel (by omega)]
      rfl

/-- `JsonQuote` writes one string token. -/
theorem quotes_jsonQuote : Quotes jsonQuote where
  readString s rest := by
    have htext : jsonQuote s ++ rest = 34 :: (s.flatMap jsonEscape ++ 34 :: rest) := by
      simp [jsonQuote]
    rw [htext, JsonReader.readString, if_pos rfl]
    refine readChars_escaped s rest _ ?_
    rw [List.length_append, List.length_cons]
    omega

/-! ### Numerals -/

/-- A numeral does not start with a zero, unless it is one. -/
theorem head_decimal {n : Nat} (h : n ≠ 0) : (decimal n).head? ≠ some 48 := by
  induction n using Nat.strong_induction_on with
  | _ n ih =>
    rcases Nat.lt_or_ge n 10 with hlt | hge
    · rw [decimal_of_lt hlt, List.head?_cons, ne_eq, Option.some.injEq, ← UInt8.toNat_inj,
        UInt8.toNat_ofNat', Nat.mod_eq_of_lt (by omega)]
      simp only [UInt8.reduceToNat]
      omega
    · have hquotient := ih (n / 10) (by omega) (by omega)
      rw [decimal_of_ge hge]
      cases hdigits : decimal (n / 10) with
      | nil =>
        have hvalue := digitsValue_decimal (n / 10)
        rw [hdigits] at hvalue
        have hzero : n / 10 = 0 := hvalue.symm
        omega
      | cons c rest =>
        rw [hdigits] at hquotient
        exact hquotient

theorem isDigit_of_mem_decimal {n : Nat} {c : UInt8} (hc : c ∈ decimal n) :
    JsonReader.isDigit c = true := by
  have h := isDigits_decimal n c hc
  simp only [JsonReader.isDigit, UInt8.le_iff_toNat_le, UInt8.reduceToNat, decide_eq_true_eq]
  exact h

/-- The reader takes a numeral for the integer part of a number, and nothing is left. -/
theorem readInteger_decimal (n : Nat) : readInteger (decimal n) = some [] := by
  rw [readInteger]
  split
  · rename_i hzero
    have hn : n = 0 := by
      by_contra hne
      exact head_decimal hne hzero
    rw [hn]
    rfl
  · have htake : (decimal n).takeWhile JsonReader.isDigit = decimal n :=
      List.takeWhile_eq_self_iff.mpr fun c hc => isDigit_of_mem_decimal hc
    have hdrop : (decimal n).dropWhile JsonReader.isDigit = [] :=
      List.dropWhile_eq_nil_iff.mpr fun c hc => isDigit_of_mem_decimal hc
    rw [readDigits, htake, hdrop, if_neg]
    intro hnil
    have hvalue := digitsValue_decimal n
    rw [hnil] at hvalue
    obtain rfl : n = 0 := hvalue.symm
    cases hnil

theorem isNumber_showInt (n : Int) : isNumber (JsonValue.showInt n) = true := by
  have hbytes : ∀ c ∈ decimal n.natAbs, isNumberByte c = true := by
    intro c hc
    rw [isNumberByte, isDigit_of_mem_decimal hc, Bool.true_or]
  rw [isNumber, Bool.and_eq_true, List.all_eq_true, decide_eq_true_eq]
  rw [JsonValue.showInt]
  split
  · constructor
    · intro c hc
      rcases List.mem_append.mp hc with hsign | hdigit
      · rw [List.mem_singleton.mp hsign]
        rfl
      · exact hbytes c hdigit
    · rw [show JsonReader.readSign [45] ([45] ++ decimal n.natAbs) = decimal n.natAbs from rfl,
        readInteger_decimal]
      rfl
  · rw [List.nil_append]
    refine ⟨hbytes, ?_⟩
    have hsign : JsonReader.readSign [45] (decimal n.natAbs) = decimal n.natAbs := by
      unfold JsonReader.readSign
      split
      · rename_i c rest hdigits
        have hdigit : JsonReader.isDigit c = true :=
          isDigit_of_mem_decimal (n := n.natAbs) (by rw [hdigits]; exact List.mem_cons_self)
        rw [if_neg]
        intro hc
        rw [List.mem_singleton.mp hc] at hdigit
        exact absurd hdigit (by decide)
      · rfl
    rw [hsign, readInteger_decimal]
    rfl

/-! ### Responses -/

/-- The value that the id of a request is echoed as. -/
def idJson (streamed : K → Bytes) (h : ∀ x, isNumber (streamed x) = true) :
    Option (JsonValue.Value K) → Json
  | some (.bool b) => .bool b
  | some (.int n) => .number ⟨JsonValue.showInt n, isNumber_showInt n⟩
  | some (.double x) => .number ⟨streamed x, h x⟩
  | some (.string id) => .string (cString id)
  | _ => .null

def errorJson (id : Json) (code : Int) (message : Bytes) : Json :=
  .object [(ascii "jsonrpc", .string (ascii "2.0")), (ascii "id", id),
    (ascii "error", .object [(ascii "code", .number ⟨JsonValue.showInt code, isNumber_showInt code⟩),
      (ascii "message", .string message)])]

def resultJson (id result : Json) : Json :=
  .object [(ascii "jsonrpc", .string (ascii "2.0")), (ascii "id", id), (ascii "result", result)]

def toolJson (text : Bytes) (isError : Bool) : Json :=
  .object [(ascii "content", .array [.object [(ascii "type", .string (ascii "text")),
      (ascii "text", .string text)]]), (ascii "isError", .bool isError)]

theorem print_idJson (streamed : K → Bytes) (h : ∀ x, isNumber (streamed x) = true)
    (id : Option (JsonValue.Value K)) :
    print jsonQuote (idJson streamed h id) = jsonRpcIdLiteral streamed id := by
  have hnull : print jsonQuote .null = ascii "null" := by rw [print]
  have hnumber : ∀ text : Numeral, print jsonQuote (.number text) = text.val := by
    intro text
    rw [print]
  cases id with
  | none => exact hnull
  | some v =>
    cases v with
    | null => exact hnull
    | bool b =>
      rw [idJson, print]
      rfl
    | int n => exact hnumber _
    | double x => exact hnumber _
    | string id =>
      rw [idJson, print]
      rfl
    | array items => exact hnull
    | object members => exact hnull

theorem print_errorJson (id : Json) (code : Int) (message : Bytes) :
    print jsonQuote (errorJson id code message) =
      jsonRpcError (print jsonQuote id) code message := by
  have hkeys : jsonQuote (ascii "jsonrpc") = ascii "\"jsonrpc\"" ∧
      jsonQuote (ascii "2.0") = ascii "\"2.0\"" ∧ jsonQuote (ascii "id") = ascii "\"id\"" ∧
      jsonQuote (ascii "error") = ascii "\"error\"" ∧
      jsonQuote (ascii "code") = ascii "\"code\"" ∧
      jsonQuote (ascii "message") = ascii "\"message\"" := by decide
  obtain ⟨hjsonrpc, hversion, hid, herror, hcode, hmessage⟩ := hkeys
  simp only [errorJson, print, printMembers, hjsonrpc, hversion, hid, herror, hcode, hmessage]
  simp [jsonRpcError, ascii]

theorem print_resultJson (id result : Json) :
    print jsonQuote (resultJson id result) =
      jsonRpcResult (print jsonQuote id) (print jsonQuote result) := by
  have hkeys : jsonQuote (ascii "jsonrpc") = ascii "\"jsonrpc\"" ∧
      jsonQuote (ascii "2.0") = ascii "\"2.0\"" ∧ jsonQuote (ascii "id") = ascii "\"id\"" ∧
      jsonQuote (ascii "result") = ascii "\"result\"" := by decide
  obtain ⟨hjsonrpc, hversion, hid, hresult⟩ := hkeys
  simp only [resultJson, print, printMembers, hjsonrpc, hversion, hid, hresult]
  simp [jsonRpcResult, ascii]

theorem print_toolJson (text : Bytes) (isError : Bool) :
    print jsonQuote (toolJson text isError) = toolCallResultJson text isError := by
  have hkeys : jsonQuote (ascii "content") = ascii "\"content\"" ∧
      jsonQuote (ascii "type") = ascii "\"type\"" ∧
      jsonQuote (ascii "text") = ascii "\"text\"" ∧
      jsonQuote (ascii "isError") = ascii "\"isError\"" := by decide
  obtain ⟨hcontent, htype, htext, hisError⟩ := hkeys
  simp only [toolJson, print, printItems, printMembers, hcontent, htype, htext, hisError]
  simp [toolCallResultJson, showBool, ascii]

/-- A quoted text is one string token that stands for the text, and the responses around
quoted texts are the objects that hold just these texts, whatever bytes they are made of. -/
theorem quoted_texts_recovered (streamed : K → Bytes) (h : ∀ x, isNumber (streamed x) = true) :
    (∀ s rest, JsonReader.readString (jsonQuote s ++ rest) = some (s, rest)) ∧
      Function.Injective jsonQuote ∧
      (∀ id code message, read (jsonRpcError (jsonRpcIdLiteral streamed id) code message) =
        some (errorJson (idJson streamed h id) code message)) ∧
      (∀ text isError, read (toolCallResultJson text isError) = some (toolJson text isError)) ∧
      ∀ id text isError, read (jsonRpcResult (jsonRpcIdLiteral streamed id)
        (toolCallResultJson text isError)) =
          some (resultJson (idJson streamed h id) (toolJson text isError)) := by
  refine ⟨quotes_jsonQuote.readString, quotes_jsonQuote.injective, ?_, ?_, ?_⟩
  · intro id code message
    rw [← print_idJson streamed h, ← print_errorJson]
    exact read_print quotes_jsonQuote _
  · intro text isError
    rw [← print_toolJson]
    exact read_print quotes_jsonQuote _
  · intro id text isError
    rw [← print_idJson streamed h, ← print_toolJson, ← print_resultJson]
    exact read_print quotes_jsonQuote _

/-- A message that looks like the end of its object is a message. -/
theorem quoted_texts_recovered_brace :
    read (jsonRpcError (jsonRpcIdLiteral JsonValue.showInt (some (.double 5))) (-32600)
      (ascii "\"\x7d,\"id\":1")) =
        some (errorJson (idJson JsonValue.showInt isNumber_showInt (some (.double 5))) (-32600)
          (ascii "\"\x7d,\"id\":1")) :=
  (quoted_texts_recovered JsonValue.showInt isNumber_showInt).2.2.1 _ _ _

end PoorguyMem
