import PoorguyMem.World
import PoorguyMem.Lib.JsonText

/-!
# A platform to run on

The parameters of the model made concrete, over the rational numbers, so that
runs can be evaluated: FNV-1a for the string hash, JSON text as the library
prints it, containers iterated in the order of their keys, the default options. The functions of
`<cmath>` are right at zero and one, where runs of one-word texts use them.
-/

namespace PoorguyMem

open ByteString PropertyTree

namespace Reference

def fnv1a (s : Bytes) : UInt64 :=
  s.foldl (fun h c => (h ^^^ c.toUInt64) * 1099511628211) 14695981039346656037

def allDigits (s : Bytes) : Bool := s.all fun c => 48 ≤ c.toNat && c.toNat ≤ 57

theorem allDigits_decimal (n : Nat) : allDigits (decimal n) = true := by
  rw [allDigits, List.all_eq_true]
  intro c hc
  obtain ⟨hlo, hhi⟩ := isDigits_decimal n c hc
  simp [hlo, hhi]

theorem decimal_ne_nil (n : Nat) : decimal n ≠ [] := by
  by_cases h : n < 10
  · rw [decimal_of_lt h]
    simp
  · rw [decimal_of_ge (by omega)]
    simp

def readUint64 (s : Bytes) : Option UInt64 :=
  if s ≠ [] ∧ allDigits s ∧ digitsValue s < 2 ^ 64 then some (UInt64.ofNat (digitsValue s))
  else none

theorem readUint64_decimal (n : UInt64) : readUint64 (decimal n.toNat) = some n := by
  rw [readUint64, digitsValue_decimal, if_pos, UInt64.ofNat_toNat]
  exact ⟨decimal_ne_nil _, allDigits_decimal _, n.toNat_lt⟩

def readBool (s : Bytes) : Option Bool :=
  if s = ascii "true" ∨ s = ascii "1" then some true
  else if s = ascii "false" ∨ s = ascii "0" then some false
  else none

/-- An integer as its numeral, and any other number as a fraction. -/
def showRat (q : ℚ) : Bytes :=
  (if q < 0 then ascii "-" else []) ++ decimal q.num.natAbs ++
    if q.den = 1 then [] else ascii "/" ++ decimal q.den

def readRat (s : Bytes) : Option ℚ :=
  let digits := if s.head? = some 45 then s.tail else s
  let value : ℚ :=
    match find (ascii "/") digits with
    | none => digitsValue digits
    | some pos => digitsValue (digits.take pos) / digitsValue (digits.drop (pos + 1))
  if digits = [] then none else some (if s.head? = some 45 then -value else value)

def translators : Translators ℚ where
  showDouble := showRat
  readDouble := readRat
  readUint64 := readUint64
  readBool := readBool

theorem lawful_translators : translators.Lawful where
  read_uint64 := readUint64_decimal
  read_bool b := by cases b <;> rfl

def platform (clock : Nat → UInt64) : Platform ℚ where
  hash := fnv1a
  log _ := 0
  log1p x := x
  sqrt x := x
  showFloat := showRat
  json := JsonText.library
  translators := translators
  clock := clock
  iterOrder _ keys := keys
  iterOrder_perm _ keys := .refl keys

theorem lawful_platform (clock : Nat → UInt64) : (platform clock).Lawful :=
  ⟨JsonText.lawful_library, lawful_translators⟩

/-- A clock that moves on by a millisecond with every reading, and stands still
before it would wrap. -/
def ticking (i : Nat) : UInt64 := UInt64.ofNat (1000 + min i 1000000)

theorem ticking_mono (i j : Nat) (h : i ≤ j) : ticking i ≤ ticking j := by
  rw [ticking, ticking, UInt64.le_iff_toNat_le, UInt64.toNat_ofNat_of_lt' (by simp [UInt64.size]; omega),
    UInt64.toNat_ofNat_of_lt' (by simp [UInt64.size]; omega)]
  omega

/-- A clock for calls within one millisecond. -/
def stopped (_ : Nat) : UInt64 := 1000

/-- The default options. -/
def options : MemoryEngineOptions ℚ where
  memBudgetMb := 512
  diskBudgetGb := 20
  gcHighWatermark := 9 / 10
  gcBatchSize := 256
  maxRecordBytes := 131072
  enableTombstoneGc := true
  tombstoneRetentionMs := 86400000
  maxPinnedRatio := 1 / 2
  pinTtlOverrideS := 0
  pinQuotaPerWorkspace := 10000

/-! ### Calls -/

def initial : World ℚ := World.initial (ascii "node") options

/-- The store does what it is asked to. -/
def applied : Fate := ⟨.applied, .applied, ⟨0, 0, 0⟩, ⟨0, 0, 0⟩⟩

def recordInput (id content dedupKey : Bytes) : WriteRecordInput ℚ where
  recordId := id
  source := []
  content := content
  tags := []
  importance := 1
  ttlS := 0
  pin := false
  dedupKey := dedupKey
  metadata := ∅

def write (workspaceId : Bytes) (records : List (WriteRecordInput ℚ)) : Call ℚ :=
  .write ⟨workspaceId, [], records, ascii "upsert"⟩

/-- A write of one record without a dedup key. -/
def put (workspaceId id content : Bytes) : Call ℚ :=
  write workspaceId [recordInput id content []]

/-- A record is written and pinned, and the engine starts anew. -/
def history : List (Step ℚ) :=
  [.call (put (ascii "w") (ascii "a") (ascii "hello")) applied,
    .call (.pin (ascii "w") (ascii "a") true) applied,
    .restart none (ascii "node") options]

end Reference

end PoorguyMem
