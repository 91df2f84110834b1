import PoorguyMem.Lib.ByteString
import PoorguyMem.Lib.Utf8

/-!
# Reading JSON

The grammar of JSON as a reader that takes nothing else: blanks between tokens, strings
without raw control characters and with the escapes of the grammar alone, numbers without
leading zeros. A string may hold any byte from 0x80 on. A text has one reading or none, so
what it holds cannot be taken for anything else.
-/

namespace JsonReader

open ByteString

/-! ### Strings -/

/-- What a backslash and a byte other than `u` stand for. -/
def namedEscape (c : UInt8) : Option UInt8 :=
  if c = 34 ∨ c = 92 ∨ c = 47 then some c
  else if c = 98 then some 8
  else if c = 102 then some 12
  else if c = 110 then some 10
  else if c = 114 then some 13
  else if c = 116 then some 9
  else none

def hexDigit (c : UInt8) : Option Nat :=
  if 48 ≤ c ∧ c ≤ 57 then some (c.toNat - 48)
  else if 65 ≤ c ∧ c ≤ 70 then some (c.toNat - 55)
  else if 97 ≤ c ∧ c ≤ 102 then some (c.toNat - 87)
  else none

/-- The number of four hexadecimal digits, and the text after them. -/
def readUnit : Bytes → Option (Nat × Bytes)
  | a :: b :: c :: d :: rest => do
    return ((((← hexDigit a) * 16 + (← hexDigit b)) * 16 + (← hexDigit c)) * 16 + (← hexDigit d),
      rest)
  | _ => none

/-- The code point of an escape after its `\u`. Two surrogates stand for one code point, and
one alone for none. -/
def readCodePoint (text : Bytes) : Option (Nat × Bytes) := do
  let (unit, rest) ← readUnit text
  if unit < 0xD800 ∨ 0xE000 ≤ unit then
    return (unit, rest)
  if 0xDC00 ≤ unit then none
  match rest with
  | 92 :: 117 :: rest =>
    let (low, rest) ← readUnit rest
    if low < 0xDC00 ∨ 0xE000 ≤ low then none
    return (0x10000 + (unit - 0xD800) * 0x400 + (low - 0xDC00), rest)
  | _ => none

/-- The bytes of an escape after its backslash. -/
def readEscape : Bytes → Option (Bytes × Bytes)
  | [] => none
  | c :: rest =>
    if c = 117 then (readCodePoint rest).map fun out => (Utf8.encode (Char.ofNat out.1), out.2)
    else (namedEscape c).map fun x => ([x], rest)

/-- A string after its first quote. -/
def readChars : Nat → Bytes → Option (Bytes × Bytes)
  | fuel + 1, c :: rest =>
    if c = 34 then some ([], rest)
    else if c = 92 then
      (readEscape rest).bind fun out =>
        (readChars fuel out.2).map fun more => (out.1 ++ more.1, more.2)
    else if c < 32 then none
    else (readChars fuel rest).map fun more => (c :: more.1, more.2)
  | _, _ => none

def readString : Bytes → Option (Bytes × Bytes)
  | [] => none
  | c :: rest => if c = 34 then readChars rest.length rest else none

/-! ### Numbers -/

def isDigit (c : UInt8) : Bool := 48 ≤ c ∧ c ≤ 57

def readDigits (text : Bytes) : Option Bytes :=
  if text.takeWhile isDigit = [] then none else some (text.dropWhile isDigit)

def readSign (signs text : Bytes) : Bytes :=
  match text with
  | c :: rest => if c ∈ signs then rest else text
  | [] => text

/-- What follows the digits before the point. -/
def readInteger (text : Bytes) : Option Bytes :=
  if text.head? = some 48 then some text.tail else readDigits text

def readFraction (text : Bytes) : Option Bytes :=
  if text.head? = some 46 then readDigits text.tail else some text

def readExponent (text : Bytes) : Option Bytes :=
  if text.head? = some 101 ∨ text.head? = some 69 then readDigits (readSign [43, 45] text.tail)
  else some text

/-- The bytes of numbers: digits, signs, the point and the letter of the exponent. -/
def isNumberByte (c : UInt8) : Bool := isDigit c || c ∈ ([43, 45, 46, 69, 101] : Bytes)

def isNumber (text : Bytes) : Bool :=
  text.all isNumberByte &&
    ((readInteger (readSign [45] text)).bind readFraction).bind readExponent = some []

abbrev Numeral := { text : Bytes // isNumber text = true }

/-! ### Values -/

/-- A JSON value, its numbers as they are written. -/
inductive Json where
  | null
  | bool (b : Bool)
  | number (text : Numeral)
  | string (s : Bytes)
  | array (items : List Json)
  | object (members : List (Bytes × Json))

def isBlank (c : UInt8) : Bool := c = 32 ∨ c = 9 ∨ c = 10 ∨ c = 13

def skipBlanks (text : Bytes) : Bytes := text.dropWhile isBlank

/-- The text after a byte that stands behind blanks. -/
def readMark (mark : UInt8) (text : Bytes) : Option Bytes :=
  match skipBlanks text with
  | c :: rest => if c = mark then some rest else none
  | [] => none

/-- The text after a word. -/
def readWord (word text : Bytes) : Option Bytes :=
  if word.isPrefixOf text then some (text.drop word.length) else none

def readScalar (text : Bytes) : Option (Json × Bytes) :=
  if h : isNumber (text.takeWhile isNumberByte) = true then
    some (.number ⟨text.takeWhile isNumberByte, h⟩, text.dropWhile isNumberByte)
  else
    ((readWord (ascii "null") text).map fun rest => (.null, rest)) <|>
      ((readWord (ascii "true") text).map fun rest => (.bool true, rest)) <|>
      ((readWord (ascii "false") text).map fun rest => (.bool false, rest))

mutual
/-- A value and the text after it. -/
def readValue : Nat → Bytes → Option (Json × Bytes)
  | fuel + 1, c :: rest =>
    if c = 34 then (readString (c :: rest)).map fun out => (.string out.1, out.2)
    else if c = 91 then
      match readMark 93 rest with
      | some rest => some (.array [], rest)
      | none => (readItems fuel rest).map fun out => (.array out.1, out.2)
    else if c = 123 then
      match readMark 125 rest with
      | some rest => some (.object [], rest)
      | none => (readMembers fuel rest).map fun out => (.object out.1, out.2)
    else readScalar (c :: rest)
  | _, _ => none

/-- The items of an array up to its end. -/
def readItems : Nat → Bytes → Option (List Json × Bytes)
  | fuel + 1, text => do
    let (item, rest) ← readValue fuel (skipBlanks text)
    match readMark 44 rest with
    | some rest =>
      let (items, rest) ← readItems fuel rest
      return (item :: items, rest)
    | none => (readMark 93 rest).map fun rest => ([item], rest)
  | 0, _ => none

/-- The members of an object up to its end. -/
def readMembers : Nat → Bytes → Option (List (Bytes × Json) × Bytes)
  | fuel + 1, text => do
    let (name, rest) ← readString (skipBlanks text)
    let (value, rest) ← readValue fuel (skipBlanks (← readMark 58 rest))
    match readMark 44 rest with
    | some rest =>
      let (members, rest) ← readMembers fuel rest
      return ((name, value) :: members, rest)
    | none => (readMark 125 rest).map fun rest => ([(name, value)], rest)
  | 0, _ => none
end

/-- The value a text is, with nothing but blanks around it. -/
def read (text : Bytes) : Option Json := do
  let (value, rest) ← readValue (2 * text.length) (skipBlanks text)
  if skipBlanks rest = [] then return value else none

/-! ### Writing -/

section Writing
variable (quote : Bytes → Bytes)

mutual
/-- A value without blanks, its strings written by a given function. -/
def print : Json → Bytes
  | .null => ascii "null"
  | .bool b => if b then ascii "true" else ascii "false"
  | .number text => text.val
  | .string s => quote s
  | .array items => 91 :: (printItems items ++ [93])
  | .object members => 123 :: (printMembers members ++ [125])

def printItems : List Json → Bytes
  | [] => []
  | item :: items => print item ++ if items.isEmpty then [] else 44 :: printItems items

def printMembers : List (Bytes × Json) → Bytes
  | [] => []
  | (name, value) :: members => quote name ++ (58 :: print value ++
      if members.isEmpty then [] else 44 :: printMembers members)
end

/-- What the function writes is one string token, and the string is read back from it. -/
structure Quotes : Prop where
  readString : ∀ s rest, readString (quote s ++ rest) = some (s, rest)

variable {quote}

theorem Quotes.head (h : Quotes quote) (s : Bytes) : ∃ body, quote s = 34 :: body := by
  have hread := h.readString s []
  rw [List.append_nil] at hread
  cases htext : quote s with
  | nil =>
    rw [htext] at hread
    cases hread
  | cons c body =>
    rw [htext, JsonReader.readString] at hread
    split at hread
    · rename_i hc
      exact ⟨body, by rw [hc]⟩
    · cases hread

theorem Quotes.injective (h : Quotes quote) : Function.Injective quote := by
  intro s s' heq
  have hread := h.readString s []
  rw [heq, h.readString s' []] at hread
  exact (Prod.mk.inj (Option.some.inj hread)).1.symm

theorem numeral_ne_nil (text : Numeral) : text.val ≠ [] := by
  obtain ⟨text, h⟩ := text
  rintro rfl
  revert h
  decide

theorem isNumberByte_of_mem {text : Numeral} {c : UInt8} (hc : c ∈ text.val) :
    isNumberByte c = true := by
  have h := text.property
  rw [isNumber, Bool.and_eq_true] at h
  exact List.all_eq_true.mp h.1 c hc

set_option maxRecDepth 4000 in
/-- A number starts with no byte that starts anything else. -/
theorem ne_of_isNumberByte {c : UInt8} (h : isNumberByte c = true) :
    c ≠ 34 ∧ c ≠ 91 ∧ c ≠ 123 ∧ isBlank c = false := by
  have hall : ∀ n : Fin 256, isNumberByte (UInt8.ofFin n) = true →
      UInt8.ofFin n ≠ 34 ∧ UInt8.ofFin n ≠ 91 ∧ UInt8.ofFin n ≠ 123 ∧
        isBlank (UInt8.ofFin n) = false := by decide
  exact hall c.toFin h

/-- No value starts with a blank, nor as an array or an object ends. -/
theorem head_print (h : Quotes quote) (v : Json) : ∃ c text, print quote v = c :: text ∧
    isBlank c = false ∧ c ≠ 93 ∧ c ≠ 125 := by
  cases v with
  | null => exact ⟨110, ascii "ull", by rw [print]; rfl, by decide⟩
  | bool b =>
    cases b with
    | true => exact ⟨116, ascii "rue", by rw [print]; rfl, by decide⟩
    | false => exact ⟨102, ascii "alse", by rw [print]; rfl, by decide⟩
  | number text =>
    obtain ⟨c, rest, htext⟩ := List.exists_cons_of_ne_nil (numeral_ne_nil text)
    have hc : isNumberByte c = true := by
      have hmem : c ∈ text.val := by rw [htext]; simp
      exact isNumberByte_of_mem hmem
    refine ⟨c, rest, by rw [print, htext], (ne_of_isNumberByte hc).2.2.2, ?_, ?_⟩
    · rintro rfl
      exact absurd hc (by decide)
    · rintro rfl
      exact absurd hc (by decide)
  | string s =>
    obtain ⟨body, hbody⟩ := h.head s
    exact ⟨34, body, by rw [print, hbody], by decide⟩
  | array items => exact ⟨91, _, by rw [print], by decide⟩
  | object members => exact ⟨123, _, by rw [print], by decide⟩

theorem skipBlanks_cons {c : UInt8} (h : isBlank c = false) (rest : Bytes) :
    skipBlanks (c :: rest) = c :: rest := by
  rw [skipBlanks, List.dropWhile_cons, h, if_neg Bool.false_ne_true]

theorem skipBlanks_print (h : Quotes quote) (v : Json) (rest : Bytes) :
    skipBlanks (print quote v ++ rest) = print quote v ++ rest := by
  obtain ⟨c, text, htext, hblank, -, -⟩ := head_print h v
  rw [htext, List.cons_append, skipBlanks_cons hblank]

theorem readMark_cons {c : UInt8} (h : isBlank c = false) (mark : UInt8) (rest : Bytes) :
    readMark mark (c :: rest) = if c = mark then some rest else none := by
  rw [readMark, skipBlanks_cons h]

/-- The bytes a value is followed by end a number. -/
def Ends (rest : Bytes) : Prop := ∀ c ∈ rest.head?, isNumberByte c = false

theorem readScalar_numeral (text : Numeral) {rest : Bytes} (h : Ends rest) :
    readScalar (text.val ++ rest) = some (.number text, rest) := by
  have hall : ∀ c ∈ text.val, isNumberByte c = true := fun c => isNumberByte_of_mem
  have htake : (text.val ++ rest).takeWhile isNumberByte = text.val := by
    rw [List.takeWhile_append_of_pos hall]
    cases rest with
    | nil => simp
    | cons c rest => simp [h c rfl]
  have hdrop : (text.val ++ rest).dropWhile isNumberByte = rest := by
    rw [List.dropWhile_append_of_pos hall]
    cases rest with
    | nil => rfl
    | cons c rest => simp [h c rfl]
  have hnumber : isNumber ((text.val ++ rest).takeWhile isNumberByte) = true := by
    rw [htake]
    exact text.property
  rw [readScalar, dif_pos hnumber, hdrop]
  congr 3
  exact Subtype.ext htake

mutual
/-- A written value is read back, and the reader stops where it ends. -/
theorem readValue_print (h : Quotes quote) (v : Json) (fuel : Nat) (rest : Bytes)
    (hfuel : 2 * (print quote v).length ≤ fuel) (hrest : Ends rest) :
    readValue fuel (print quote v ++ rest) = some (v, rest) := by
  have hpos : ∃ n, fuel = n + 1 := by
    obtain ⟨c, text, htext, -⟩ := head_print h v
    rw [htext, List.length_cons] at hfuel
    exact ⟨fuel - 1, by omega⟩
  obtain ⟨fuel, rfl⟩ := hpos
  match v with
  | .null => rw [print]; rfl
  | .bool true => rw [print]; rfl
  | .bool false => rw [print]; rfl
  | .number text =>
    obtain ⟨c, more, hmore⟩ := List.exists_cons_of_ne_nil (numeral_ne_nil text)
    have hc : isNumberByte c = true := by
      have hmem : c ∈ text.val := by rw [hmore]; simp
      exact isNumberByte_of_mem hmem
    obtain ⟨hquote, hbracket, hbrace, -⟩ := ne_of_isNumberByte hc
    have hscalar := readScalar_numeral text hrest
    rw [hmore, List.cons_append] at hscalar
    rw [print, hmore, List.cons_append, readValue, if_neg hquote, if_neg hbracket, if_neg hbrace,
      hscalar]
  | .string s =>
    obtain ⟨body, hbody⟩ := h.head s
    have hstring := h.readString s rest
    rw [hbody, List.cons_append] at hstring
    rw [print, hbody, List.cons_append, readValue, if_pos rfl, hstring, Option.map_some]
  | .array items =>
    rw [print] at hfuel ⊢
    simp only [List.length_cons, List.length_append, List.length_nil] at hfuel
    rw [List.cons_append, List.append_assoc, readValue, if_neg (by decide), if_pos rfl]
    match items with
    | [] => rfl
    | item :: items =>
      have hitems := readItems_print h item items fuel rest (by omega)
      obtain ⟨c, text, htext, hblank, hbracket, -⟩ := head_print h item
      have hopen : readMark 93 (printItems quote (item :: items) ++ ([93] ++ rest)) = none := by
        rw [printItems, htext, List.cons_append, List.cons_append, readMark_cons hblank,
          if_neg hbracket]
      rw [hopen]
      exact congrArg (Option.map _) hitems
  | .object members =>
    rw [print] at hfuel ⊢
    simp only [List.length_cons, List.length_append, List.length_nil] at hfuel
    rw [List.cons_append, List.append_assoc, readValue, if_neg (by decide), if_neg (by decide),
      if_pos rfl]
    match members with
    | [] => rfl
    | (name, value) :: members =>
      have hmembers := readMembers_print h name value members fuel rest (by omega)
      obtain ⟨body, hbody⟩ := h.head name
      have hopen : readMark 125 (printMembers quote ((name, value) :: members) ++ ([125] ++ rest)) =
          none := by
        rw [printMembers, hbody]
        rfl
      rw [hopen]
      exact congrArg (Option.map _) hmembers
termination_by fuel

theorem readItems_print (h : Quotes quote) (item : Json) (items : List Json) (fuel : Nat)
    (rest : Bytes) (hfuel : 2 * (printItems quote (item :: items)).length + 2 ≤ fuel) :
    readItems fuel (printItems quote (item :: items) ++ 93 :: rest) = some (item :: items, rest) := by
  obtain ⟨fuel, rfl⟩ := Nat.exists_eq_add_of_le' (show 1 ≤ fuel by omega)
  rw [printItems] at hfuel ⊢
  rw [List.length_append] at hfuel
  have hitem : ∀ text, Ends text → readValue fuel (print quote item ++ text) = some (item, text) :=
    fun text => readValue_print h item fuel text (by omega)
  match items with
  | [] =>
    have hends : Ends (93 :: rest) := by
      rintro c ⟨⟩
      decide
    simp only [List.isEmpty_nil, if_true, List.append_nil]
    rw [readItems, skipBlanks_print h, hitem _ hends]
    rfl
  | next :: items =>
    simp only [List.isEmpty_cons, Bool.false_eq_true, if_false, List.length_cons] at hfuel ⊢
    have hitems := readItems_print h next items fuel rest (by omega)
    have hends : Ends (44 :: (printItems quote (next :: items) ++ 93 :: rest)) := by
      rintro c ⟨⟩
      decide
    rw [List.append_assoc, List.cons_append, readItems, skipBlanks_print h, hitem _ hends]
    simp [readMark_cons (show isBlank 44 = false by decide), hitems]
termination_by fuel

theorem readMembers_print (h : Quotes quote) (name : Bytes) (value : Json)
    (members : List (Bytes × Json)) (fuel : Nat) (rest : Bytes)
    (hfuel : 2 * (printMembers quote ((name, value) :: members)).length + 2 ≤ fuel) :
    readMembers fuel (printMembers quote ((name, value) :: members) ++ 125 :: rest) =
      some ((name, value) :: members, rest) := by
  obtain ⟨fuel, rfl⟩ := Nat.exists_eq_add_of_le' (show 1 ≤ fuel by omega)
  rw [printMembers] at hfuel ⊢
  simp only [List.length_append, List.length_cons] at hfuel
  have hvalue : ∀ text, Ends text → readValue fuel (print quote value ++ text) =
      some (value, text) :=
    fun text => readValue_print h value fuel text (by omega)
  obtain ⟨body, hbody⟩ := h.head name
  have hname : ∀ text, readString (skipBlanks (quote name ++ text)) = some (name, text) := by
    intro text
    have hread := h.readString name text
    rw [hbody, List.cons_append] at hread
    rw [hbody, List.cons_append, skipBlanks_cons (by decide), hread]
  match members with
  | [] =>
    have hends : Ends (125 :: rest) := by
      rintro c ⟨⟩
      decide
    simp only [List.isEmpty_nil, if_true, List.append_nil, List.append_assoc, List.cons_append]
    rw [readMembers, hname]
    simp [readMark_cons (show isBlank 58 = false by decide), skipBlanks_print h, hvalue _ hends,
      readMark_cons (show isBlank 125 = false by decide)]
  | next :: members =>
    obtain ⟨name', value'⟩ := next
    simp only [List.isEmpty_cons, Bool.false_eq_true, if_false, List.length_cons] at hfuel ⊢
    have hmembers := readMembers_print h name' value' members fuel rest (by omega)
    have hends : Ends (44 :: (printMembers quote ((name', value') :: members) ++ 125 :: rest)) := by
      rintro c ⟨⟩
      decide
    simp only [List.append_assoc, List.cons_append]
    rw [readMembers, hname]
    simp [readMark_cons (show isBlank 58 = false by decide), skipBlanks_print h, hvalue _ hends,
      readMark_cons (show isBlank 44 = false by decide), hmembers]
termination_by fuel
end

/-- A written value is the one that its text is read as. -/
theorem read_print (h : Quotes quote) (v : Json) : read (print quote v) = some v := by
  have hread := readValue_print h v (2 * (print quote v).length) [] (Nat.le_refl _)
    (by rintro c ⟨⟩)
  have hblanks := skipBlanks_print h v []
  rw [List.append_nil] at hread hblanks
  rw [read, hblanks, hread]
  rfl

end Writing

end JsonReader
