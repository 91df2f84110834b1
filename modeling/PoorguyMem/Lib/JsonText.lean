import PoorguyMem.Lib.PropertyTree

/-!
# JSON text of property trees

`write_json` without whitespace: a tree without subtrees is a string, one whose
names are all empty is an array, and the rest are objects; the outermost tree is
always an object. Control characters, quotes, backslashes and slashes are
escaped, bytes from 0x7F on pass through. The parser reads this text back and
nothing else, and takes any byte for part of a string.
-/

namespace JsonText

open ByteString PropertyTree

/-! ### Strings -/

def hexDigit (n : Nat) : UInt8 := UInt8.ofNat (if n < 10 then 48 + n else 55 + n)

def hexValue (c : UInt8) : Nat := if c.toNat < 58 then c.toNat - 48 else c.toNat - 55

def escape (c : UInt8) : Bytes :=
  if c = 8 then [92, 98]
  else if c = 12 then [92, 102]
  else if c = 10 then [92, 110]
  else if c = 13 then [92, 114]
  else if c = 9 then [92, 116]
  else if c = 34 ∨ c = 92 ∨ c = 47 then [92, c]
  else if c < 32 then
    [92, 117, 48, 48, hexDigit (c.toNat / 16), hexDigit (c.toNat % 16)]
  else [c]

def quote (s : Bytes) : Bytes := 34 :: s.flatMap escape ++ [34]

/-- The character of an escape and the text after it. -/
def unescape : Bytes → Option (UInt8 × Bytes)
  | [] => none
  | c :: rest =>
    if c = 98 then some (8, rest)
    else if c = 102 then some (12, rest)
    else if c = 110 then some (10, rest)
    else if c = 114 then some (13, rest)
    else if c = 116 then some (9, rest)
    else if c = 117 then
      match rest with
      | 48 :: 48 :: h :: l :: rest => some (UInt8.ofNat (16 * hexValue h + hexValue l), rest)
      | _ => none
    else some (c, rest)

/-- The rest of a string after its opening quote, with the text after the closing one. -/
def readString : Nat → Bytes → Option (Bytes × Bytes)
  | fuel + 1, c :: rest =>
    if c = 34 then some ([], rest)
    else if c = 92 then
      match unescape rest with
      | none => none
      | some (x, rest) => (readString fuel rest).map fun p => (x :: p.1, p.2)
    else (readString fuel rest).map fun p => (c :: p.1, p.2)
  | _, _ => none

/-! ### Values -/

mutual
def printValue : Ptree → Bytes
  | .node d cs =>
    if cs.isEmpty then quote d
    else if cs.all fun c => c.1.isEmpty then 91 :: printMembers false cs ++ [93]
    else 123 :: printMembers true cs ++ [125]

def printMembers (named : Bool) : List (Bytes × Ptree) → Bytes
  | [] => []
  | (k, t) :: rest =>
    (if named then quote k ++ [58] else []) ++ printValue t ++
      (if rest.isEmpty then [] else 44 :: printMembers named rest)
end

def print (t : Ptree) : Bytes := 123 :: printMembers true t.children ++ [125]

/-- The name before a value, empty in an array. -/
def readName (fuel : Nat) (named : Bool) (text : Bytes) : Option (Bytes × Bytes) :=
  if named then
    match text with
    | 34 :: rest =>
      match readString fuel rest with
      | some (k, 58 :: rest) => some (k, rest)
      | _ => none
    | _ => none
  else some ([], text)

mutual
def readValue : Nat → Bytes → Option (Ptree × Bytes)
  | fuel + 1, c :: rest =>
    if c = 34 then (readString fuel rest).map fun p => (.leaf p.1, p.2)
    else if c = 91 then (readMembers fuel false rest).map fun p => (.node [] p.1, p.2)
    else if c = 123 then (readMembers fuel true rest).map fun p => (.node [] p.1, p.2)
    else none
  | _, _ => none

/-- The members up to the closing bracket, one at least. -/
def readMembers : Nat → Bool → Bytes → Option (List (Bytes × Ptree) × Bytes)
  | 0, _, _ => none
  | fuel + 1, named, text =>
    match readName fuel named text with
    | none => none
    | some (k, text) =>
      match readValue fuel text with
      | some (t, c :: rest) =>
        if c = 44 then (readMembers fuel named rest).map fun p => ((k, t) :: p.1, p.2)
        else if c = if named then 125 else 93 then some ([(k, t)], rest)
        else none
      | _ => none
end

def parse (text : Bytes) : Option Ptree :=
  if text = [123, 125] then some Ptree.empty
  else
    match readValue text.length text with
    | some (t, []) => some t
    | _ => none

/-! ### The round trip -/

theorem hexValue_hexDigit : ∀ n < 16, hexValue (hexDigit n) = n := by decide

theorem unescape_escape (c : UInt8) (rest : Bytes) :
    (∃ e, escape c = 92 :: e ∧ unescape (e ++ rest) = some (c, rest)) ∨
      escape c = [c] ∧ c ≠ 34 ∧ c ≠ 92 := by
  unfold escape
  split
  · subst_vars
    exact Or.inl ⟨_, rfl, rfl⟩
  split
  · subst_vars
    exact Or.inl ⟨_, rfl, rfl⟩
  split
  · subst_vars
    exact Or.inl ⟨_, rfl, rfl⟩
  split
  · subst_vars
    exact Or.inl ⟨_, rfl, rfl⟩
  split
  · subst_vars
    exact Or.inl ⟨_, rfl, rfl⟩
  split
  · rename_i h
    refine Or.inl ⟨_, rfl, ?_⟩
    rcases h with rfl | rfl | rfl <;> rfl
  split
  · rename_i hctl
    refine Or.inl ⟨_, rfl, ?_⟩
    have hlt : c.toNat < 32 := UInt8.lt_iff_toNat_lt.mp hctl
    have hhi := hexValue_hexDigit (c.toNat / 16) (by omega)
    have hlo := hexValue_hexDigit (c.toNat % 16) (by omega)
    have hsum : UInt8.ofNat (16 * (c.toNat / 16) + c.toNat % 16) = c := by
      rw [Nat.div_add_mod, UInt8.ofNat_toNat]
    simp [unescape, hhi, hlo, hsum]
  · rename_i h _
    exact Or.inr ⟨rfl, fun h34 => h (Or.inl h34), fun h92 => h (Or.inr (Or.inl h92))⟩

theorem readString_quoted (s rest : Bytes) (fuel : Nat)
    (h : (s.flatMap escape).length < fuel) :
    readString fuel (s.flatMap escape ++ 34 :: rest) = some (s, rest) := by
  induction s generalizing fuel with
  | nil =>
    obtain ⟨fuel, rfl⟩ := Nat.exists_eq_succ_of_ne_zero (Nat.ne_of_gt h)
    rfl
  | cons c s ih =>
    obtain ⟨fuel, rfl⟩ := Nat.exists_eq_succ_of_ne_zero (Nat.ne_of_gt (Nat.zero_lt_of_lt h))
    rw [List.flatMap_cons, List.length_append] at h
    rw [List.flatMap_cons, List.append_assoc]
    rcases unescape_escape c (s.flatMap escape ++ 34 :: rest) with ⟨e, he, hun⟩ | ⟨he, hq, hb⟩
    · rw [he, List.length_cons] at h
      rw [he, List.cons_append, readString, if_neg (by decide), if_pos rfl, hun]
      simp only [ih fuel (by omega), Option.map_some]
    · rw [he, List.length_singleton] at h
      rw [he, List.singleton_append, readString, if_neg hq, if_neg hb,
        ih fuel (by omega)]
      rfl

theorem length_quote (s : Bytes) : (quote s).length = (s.flatMap escape).length + 2 := by
  simp [quote]

theorem readName_printed {fuel : Nat} {named : Bool} {k rest : Bytes}
    (hk : named = false → k = []) (hfuel : named = true → (quote k).length ≤ fuel) :
    readName fuel named ((if named then quote k ++ [58] else []) ++ rest) = some (k, rest) := by
  cases named with
  | false =>
    rw [hk rfl]
    rfl
  | true =>
    have hstr := readString_quoted k (58 :: rest) fuel (by
      have := hfuel rfl
      rw [length_quote] at this
      omega)
    simp [readName, quote, hstr]

mutual
theorem readValue_printed (t : Ptree) (ht : t.verify = true) (fuel : Nat) (rest : Bytes)
    (hfuel : (printValue t).length ≤ fuel) :
    readValue fuel (printValue t ++ rest) = some (t, rest) := by
  match t with
  | .node d cs =>
    rw [Ptree.verify, Bool.and_eq_true, Bool.or_eq_true, decide_eq_true_eq, decide_eq_true_eq] at ht
    rw [printValue] at hfuel ⊢
    split at hfuel
    · rename_i hempty
      rw [if_pos hempty]
      obtain rfl := List.isEmpty_iff.mp hempty
      rw [length_quote] at hfuel
      obtain ⟨fuel, rfl⟩ := Nat.exists_eq_add_of_le' (show 1 ≤ fuel by omega)
      have hstr := readString_quoted d rest fuel (by omega)
      simp [quote, readValue, hstr, Ptree.leaf]
    · rename_i hne
      rw [if_neg hne]
      have hcs : cs ≠ [] := fun h => hne (by rw [h]; rfl)
      obtain rfl : d = [] := ht.1.resolve_right hcs
      split at hfuel
      · rename_i hall
        rw [if_pos hall]
        simp only [List.length_append, List.length_cons, List.length_nil] at hfuel
        obtain ⟨fuel, rfl⟩ := Nat.exists_eq_add_of_le' (show 1 ≤ fuel by omega)
        have hmem := readMembers_printed cs hcs ht.2 false fuel rest (fun _ => hall) (by omega)
        simp only [Bool.false_eq_true, if_false] at hmem
        simp [readValue, hmem]
      · rename_i hall
        rw [if_neg hall]
        simp only [List.length_append, List.length_cons, List.length_nil] at hfuel
        obtain ⟨fuel, rfl⟩ := Nat.exists_eq_add_of_le' (show 1 ≤ fuel by omega)
        have hmem := readMembers_printed cs hcs ht.2 true fuel rest (fun h => by cases h)
          (by omega)
        simp only [if_true] at hmem
        simp [readValue, hmem]

theorem readMembers_printed (cs : List (Bytes × Ptree)) (hcs : cs ≠ [])
    (hverify : Ptree.verifyAll cs = true) (named : Bool) (fuel : Nat) (rest : Bytes)
    (hnames : named = false → (cs.all fun c => c.1.isEmpty) = true)
    (hfuel : (printMembers named cs).length + 1 ≤ fuel) :
    readMembers fuel named (printMembers named cs ++ (if named then 125 else 93) :: rest) =
      some (cs, rest) := by
  match cs with
  | [] => exact absurd rfl hcs
  | (k, t) :: more =>
    rw [Ptree.verifyAll, Bool.and_eq_true] at hverify
    rw [printMembers] at hfuel ⊢
    simp only [List.length_append] at hfuel
    obtain ⟨fuel, rfl⟩ := Nat.exists_eq_add_of_le' (show 1 ≤ fuel by omega)
    have hk : named = false → k = [] := by
      intro h
      have hall := hnames h
      rw [List.all_cons, Bool.and_eq_true] at hall
      exact List.isEmpty_iff.mp hall.1
    have hname : ∀ text, readName fuel named ((if named then quote k ++ [58] else []) ++ text) =
        some (k, text) := by
      intro text
      refine readName_printed hk fun h => ?_
      subst h
      simp only [if_true, List.length_append] at hfuel
      omega
    have hvalue : ∀ text, readValue fuel (printValue t ++ text) = some (t, text) :=
      fun text => readValue_printed t hverify.1 fuel text (by omega)
    rw [readMembers, List.append_assoc, List.append_assoc, hname]
    simp only [hvalue]
    by_cases hmore : more.isEmpty = true
    · obtain rfl := List.isEmpty_iff.mp hmore
      cases named <;> simp
    · rw [if_neg hmore] at hfuel ⊢
      have hmore' : more ≠ [] := fun h => hmore (by rw [h]; rfl)
      have hrest := readMembers_printed more hmore' hverify.2 named fuel rest
        (fun h => by
          have hall := hnames h
          rw [List.all_cons, Bool.and_eq_true] at hall
          exact hall.2)
        (by simp only [List.length_cons] at hfuel; omega)
      simp [hrest]
end

theorem parse_print {t : Ptree} (h : t.writable = true) : parse (print t) = some t := by
  obtain ⟨d, cs⟩ := t
  rw [Ptree.writable, Ptree.verify] at h
  simp only [Ptree.data_node, Bool.and_eq_true] at h
  obtain ⟨hd, -, hverify⟩ := h
  obtain rfl : d = [] := of_decide_eq_true hd
  rw [parse, print, Ptree.children_node]
  by_cases hcs : cs = []
  · subst hcs
    rfl
  · have hread := readMembers_printed cs hcs hverify true ((printMembers true cs).length + 1) []
      (fun h => by cases h) (Nat.le_refl _)
    simp only [if_true] at hread
    rw [if_neg ?_]
    · simp [readValue, hread]
    · intro heq
      have hlen : (printMembers true cs).length = 0 := by
        have := congrArg List.length heq
        simp at this
        simpa using this
      rw [List.eq_nil_of_length_eq_zero hlen] at hread
      simp [readMembers, readName] at hread

/-- The text as a JSON library that carries every string. -/
def library : JsonLibrary where
  print := print
  parse := parse
  parseError _ := ascii "expected object or array"
  carries _ := True

theorem lawful_library : library.Lawful where
  parse_print _ h _ := parse_print h
  parse_only t u h hu := by
    have ht : parse (print t) = some u := hu
    rw [parse_print h] at ht
    exact ⟨(Option.some.inj ht).symm, fun _ _ => trivial⟩
  carries_ascii _ _ := trivial
  carries_append _ _ _ _ := trivial

end JsonText
