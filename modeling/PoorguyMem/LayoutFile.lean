import PoorguyMem.HttpResponses
import PoorguyMem.Relayout

/-!
# The layout file

`PersistLayoutMeta` writes the number of partitions and the routing schema to a text file,
two lines that `LoadLayoutMeta` reads back. The file is truncated before it is written, so
that a process that stops on the way leaves a beginning of the text. No such beginning is
taken for another layout: either nothing is read, or the schema is cut short and does not
pass for the schema of the program.
-/

namespace PoorguyMem

open ByteString

/-! ### The text -/

def layoutLine (key value : Bytes) : Bytes := key ++ 61 :: value

/-- What `PersistLayoutMeta` writes. -/
def layoutText (count : Nat) : Bytes :=
  layoutLine (ascii "partition_count") (decimal count) ++
    10 :: (layoutLine (ascii "routing_schema") routingSchema ++ [10])

/-- One pass of the loop of `LoadLayoutMeta`. -/
def readLayoutLine (parsed : LayoutMeta) (line : Bytes) : LayoutMeta :=
  match line.dropWhile (· ≠ 61) with
  | [] => parsed
  | _ :: value =>
    if line.takeWhile (· ≠ 61) = ascii "partition_count" then
      match stoull value with
      | some raw => if raw < 2 ^ 32 then { parsed with partitionCount := raw } else parsed
      | none => parsed
    else if line.takeWhile (· ≠ 61) = ascii "routing_schema" then
      { parsed with routingSchema := value }
    else parsed

def loadLayoutMeta (text : Bytes) : Option LayoutMeta :=
  let parsed := (getLines text).foldl readLayoutLine ⟨0, []⟩
  if parsed.partitionCount = 0 ∨ parsed.routingSchema = [] then none else some parsed

/-! ### Fields -/

/-- A line that is cut before its separator says nothing. -/
theorem readLayoutLine_of_notMem (parsed : LayoutMeta) {line : Bytes} (h : 61 ∉ line) :
    readLayoutLine parsed line = parsed := by
  have hdrop : line.dropWhile (· ≠ 61) = [] := by
    rw [List.dropWhile_eq_nil_iff]
    intro c hc
    have hne : c ≠ 61 := fun heq => h (heq ▸ hc)
    simpa using hne
  rw [readLayoutLine, hdrop]

theorem split_layoutLine (key value : Bytes) (h : 61 ∉ key) :
    (layoutLine key value).takeWhile (· ≠ 61) = key ∧
      (layoutLine key value).dropWhile (· ≠ 61) = 61 :: value := by
  have hall : ∀ c ∈ key, decide (c ≠ 61) = true := by
    intro c hc
    have hne : c ≠ 61 := fun heq => h (heq ▸ hc)
    simpa using hne
  constructor
  · rw [layoutLine, List.takeWhile_append_of_pos hall]
    simp
  · rw [layoutLine, List.dropWhile_append_of_pos hall]
    simp

theorem take_layoutLine (key value : Bytes) {k : Nat} (h : key.length < k) :
    (layoutLine key value).take k = layoutLine key (value.take (k - key.length - 1)) := by
  obtain ⟨j, hj⟩ : ∃ j, k - key.length = j + 1 := ⟨k - key.length - 1, by omega⟩
  rw [layoutLine, layoutLine, List.take_append, List.take_of_length_le (by omega), hj,
    List.take_succ_cons]
  rfl

theorem take_layoutLine_of_le (key value : Bytes) {k : Nat} (h : k ≤ key.length) :
    (layoutLine key value).take k = key.take k := by
  rw [layoutLine, List.take_append_of_le_length h]

theorem readLayoutLine_schema (parsed : LayoutMeta) (value : Bytes) :
    readLayoutLine parsed (layoutLine (ascii "routing_schema") value) =
      { parsed with routingSchema := value } := by
  obtain ⟨hkey, hvalue⟩ := split_layoutLine (ascii "routing_schema") value (by decide)
  rw [readLayoutLine, hvalue, hkey]
  rfl

theorem readLayoutLine_count (parsed : LayoutMeta) (value : Bytes) :
    readLayoutLine parsed (layoutLine (ascii "partition_count") value) =
      match stoull value with
      | some raw => if raw < 2 ^ 32 then { parsed with partitionCount := raw } else parsed
      | none => parsed := by
  obtain ⟨hkey, hvalue⟩ := split_layoutLine (ascii "partition_count") value (by decide)
  rw [readLayoutLine, hvalue, hkey]
  rfl

/-- The count is read without looking at the schema. -/
theorem routingSchema_count (parsed : LayoutMeta) (value : Bytes) :
    (readLayoutLine parsed (layoutLine (ascii "partition_count") value)).routingSchema =
      parsed.routingSchema := by
  rw [readLayoutLine_count]
  cases stoull value with
  | none => rfl
  | some raw =>
    dsimp only
    split <;> rfl

/-! ### Beginnings of the text -/

theorem newline_notMem_decimal (n : Nat) : 10 ∉ decimal n := fun h =>
  ne_of_isDigits (isDigits_decimal n) h (by decide) rfl

theorem newline_notMem_count (c : Nat) :
    10 ∉ layoutLine (ascii "partition_count") (decimal c) := by
  rw [layoutLine, List.mem_append, List.mem_cons]
  rintro (h | h | h)
  · revert h
    decide
  · exact absurd h (by decide)
  · exact newline_notMem_decimal c h

theorem newline_notMem_schema : 10 ∉ layoutLine (ascii "routing_schema") routingSchema := by
  decide

/-- The lines of a beginning of the first line leave the schema unread. -/
theorem routingSchema_take_count (c k : Nat) :
    ((getLines ((layoutLine (ascii "partition_count") (decimal c)).take k)).foldl readLayoutLine
      ⟨0, []⟩).routingSchema = [] := by
  rw [getLines_of_notMem fun h => newline_notMem_count c (List.mem_of_mem_take h)]
  split
  · rfl
  · rw [List.foldl_cons, List.foldl_nil]
    by_cases hk : k ≤ (ascii "partition_count").length
    · rw [take_layoutLine_of_le _ _ hk, readLayoutLine_of_notMem]
      exact fun h => absurd (List.mem_of_mem_take h) (by decide)
    · rw [take_layoutLine _ _ (by omega), routingSchema_count]

/-- A beginning of the second line gives as much of the schema as it has. -/
theorem foldl_take_schema (c k : Nat) :
    (getLines ((layoutLine (ascii "routing_schema") routingSchema ++ [10]).take k)).foldl
      readLayoutLine ⟨c, []⟩ = ⟨c, routingSchema.take (k - 15)⟩ := by
  have hlength : (ascii "routing_schema").length = 14 := rfl
  have hschema : routingSchema.length = 25 := rfl
  by_cases hwhole : (layoutLine (ascii "routing_schema") routingSchema).length < k
  · have hlines := getLines_append newline_notMem_schema []
    have hk : routingSchema.length ≤ k - 15 := by
      rw [layoutLine, List.length_append, List.length_cons] at hwhole
      omega
    rw [List.take_of_length_le (by rw [List.length_append, List.length_singleton]; omega), hlines,
      getLines, List.foldl_cons, List.foldl_nil, readLayoutLine_schema, List.take_of_length_le hk]
  · rw [List.take_append_of_le_length (by omega),
      getLines_of_notMem fun h => newline_notMem_schema (List.mem_of_mem_take h)]
    by_cases hk : k ≤ (ascii "routing_schema").length
    · have hnone : k - 15 = 0 := by omega
      rw [take_layoutLine_of_le _ _ hk, hnone]
      split
      · rfl
      · rw [List.foldl_cons, List.foldl_nil, readLayoutLine_of_notMem]
        · rfl
        · exact fun h => absurd (List.mem_of_mem_take h) (by decide)
    · rw [take_layoutLine _ _ (by omega), if_neg (by simp [layoutLine]), List.foldl_cons,
        List.foldl_nil, readLayoutLine_schema, hlength]
      rfl

/-- What `LoadLayoutMeta` reads from any beginning of the text: nothing up to the schema, then
the count with the part of the schema that is there. -/
theorem loadLayoutMeta_take {c : Nat} (hpos : 0 < c) (hlt : c < 2 ^ 32) (k : Nat) :
    loadLayoutMeta ((layoutText c).take k) =
      if k ≤ (decimal c).length + 32 then none
      else some ⟨c, routingSchema.take (k - ((decimal c).length + 32))⟩ := by
  have hfirst : (layoutLine (ascii "partition_count") (decimal c)).length =
      (decimal c).length + 16 := by
    rw [layoutLine, List.length_append, List.length_cons]
    have hkey : (ascii "partition_count").length = 15 := rfl
    omega
  rw [layoutText]
  by_cases hk : k ≤ (layoutLine (ascii "partition_count") (decimal c)).length
  · rw [List.take_append_of_le_length hk, if_pos (by omega), loadLayoutMeta]
    exact if_pos (Or.inr (routingSchema_take_count c k))
  · obtain ⟨j, hj⟩ : ∃ j, k - (layoutLine (ascii "partition_count") (decimal c)).length = j + 1 :=
      ⟨k - (layoutLine (ascii "partition_count") (decimal c)).length - 1, by omega⟩
    have hcount : readLayoutLine ⟨0, []⟩ (layoutLine (ascii "partition_count") (decimal c)) =
        ⟨c, []⟩ := by
      rw [readLayoutLine_count, stoull_decimal (by omega)]
      exact if_pos hlt
    rw [List.take_append, List.take_of_length_le (by omega), hj, List.take_succ_cons,
      loadLayoutMeta, getLines_append (newline_notMem_count c), List.foldl_cons, hcount,
      foldl_take_schema]
    dsimp only
    by_cases hschema : k ≤ (decimal c).length + 32
    · have hnone : j - 15 = 0 := by omega
      rw [if_pos hschema, hnone]
      exact if_pos (Or.inr rfl)
    · obtain ⟨i, hi⟩ : ∃ i, j - 15 = i + 1 := ⟨j - 16, by omega⟩
      have hsame : k - ((decimal c).length + 32) = i + 1 := by omega
      rw [if_neg hschema, hsame, hi, if_neg]
      rintro (h | h)
      · omega
      · revert h
        rw [routingSchema, ascii]
        simp

/-! ### Startups that stop while they write it -/

variable {K : Type}

/-- A startup, and how many bytes of the text reach the file before the process stops. -/
structure Boot where
  configured : Nat
  faults : StartupFaults
  written : Nat

/-- The disk that the next process finds. -/
def boot (env : Platform K) (disk : Disk) (b : Boot) : Disk :=
  { (startLayout env b.configured b.faults disk).1 with
    layoutMeta := loadLayoutMeta ((layoutText (max 1 b.configured)).take b.written) }

/-- The startup comes to writing the file, for a count of 32 bits. -/
def Boot.Reached (env : Platform K) (disk : Disk) (b : Boot) : Prop :=
  b.configured < 2 ^ 32 ∧ (startLayout env b.configured b.faults disk).2 = none

/-- No entry is lost, and a layout that the metadata names is the one of the disk. -/
structure Truthful (env : Platform K) (content : Content) (disk : Disk) : Prop where
  intact : Intact disk content
  placed : ∀ count, disk.layoutMeta = some ⟨count, routingSchema⟩ → Placed env count disk []

section Boots
variable {env : Platform K} {content : Content} {disk : Disk}

/-- A startup that ends has every entry in its place, whatever the metadata was. -/
theorem Truthful.startLayout (h : Truthful env content disk) {m : Nat} {faults : StartupFaults}
    {disk' : Disk} (hstart : startLayout env m faults disk = (disk', none)) :
    Intact disk' content ∧ Placed env (max 1 m) disk' [] := by
  have hspec := refreshLayoutOnStartup_spec env (max_one_pos m) faults h.intact
  rw [PoorguyMem.startLayout] at hstart
  rw [hstart] at hspec
  obtain ⟨hintact, hran, hskipped⟩ := hspec
  refine ⟨hintact, ?_⟩
  cases hneeds : needsRehash disk (max 1 m) with
  | true => exact (hran hneeds rfl).1
  | false =>
    have hstore : disk'.store = disk.store := (hskipped hneeds).1
    rw [needsRehash, Bool.or_eq_false_iff] at hneeds
    intro pid ns hns key v hv
    rw [hstore] at hv
    rcases hfound : disk.layoutMeta with _ | ⟨count, schema⟩
    · -- without metadata the refresh is skipped where there is no directory
      rw [hfound] at hneeds
      have hempty : disk.detectExistingPartitions = [] := by simpa using hneeds.1
      rcases placed_rehashPairs env (max 1 m) disk pid ns hns key v hv with hp | hp
      · exact Or.inl hp
      · rw [hempty] at hp
        cases hp
    · rw [hfound] at hneeds
      have hsame : count = max 1 m ∧ schema = routingSchema := by simpa using hneeds.1
      obtain ⟨rfl, rfl⟩ := hsame
      exact h.placed _ hfound pid ns hns key v hv

theorem Truthful.boot (h : Truthful env content disk) {b : Boot} (hb : b.Reached env disk) :
    Truthful env content (boot env disk b) := by
  obtain ⟨hintact, hplaced⟩ := h.startLayout (Prod.ext rfl hb.2)
  refine ⟨⟨hintact.rows, hintact.kept⟩, fun count hcount => ?_⟩
  have hread : loadLayoutMeta ((layoutText (max 1 b.configured)).take b.written) =
    some ⟨count, routingSchema⟩ := hcount
  rw [loadLayoutMeta_take (max_one_pos _) (by have := hb.1; omega)] at hread
  split at hread
  · cases hread
  · obtain rfl : max 1 b.configured = count :=
      congrArg LayoutMeta.partitionCount (Option.some.inj hread)
    exact hplaced

theorem layoutMeta_startLayout {m : Nat} {faults : StartupFaults}
    (h : (startLayout env m faults disk).2 = none) :
    (startLayout env m faults disk).1.layoutMeta = some ⟨max 1 m, routingSchema⟩ := by
  rw [startLayout, refreshLayoutOnStartup] at h ⊢
  dsimp only at h ⊢
  split
  · rename_i error hfailed
    rw [hfailed] at h
    cases h
  · rename_i hserved
    rw [hserved] at h
    dsimp only at h
    split
    · rfl
    · rename_i hpersists
      rw [if_neg hpersists] at h
      cases h

/-- Where the whole text is written the next process finds what the startup left. -/
theorem boot_written {b : Boot} (hb : b.Reached env disk)
    (hwritten : (layoutText (max 1 b.configured)).length ≤ b.written) :
    boot env disk b = (startLayout env b.configured b.faults disk).1 := by
  have hlength : (layoutText (max 1 b.configured)).length =
      (decimal (max 1 b.configured)).length + 58 := by
    rw [layoutText, layoutLine, layoutLine]
    simp only [List.length_append, List.length_cons, List.length_nil]
    have hcount : (ascii "partition_count").length = 15 := rfl
    have hkey : (ascii "routing_schema").length = 14 := rfl
    have hschema : routingSchema.length = 25 := rfl
    omega
  have hschema : routingSchema.length = 25 := rfl
  rw [boot, loadLayoutMeta_take (max_one_pos _) (by have := hb.1; omega), if_neg (by omega),
    List.take_of_length_le (by omega), ← layoutMeta_startLayout hb.2]

/-- Startups over a disk that is laid out come to writing the layout file and stop at any byte
of it, each with a count of its own. The next startup that ends finds every entry, with its
value and time, in the one partition that its count gives the key. -/
theorem torn_layout_repartitions (env : Platform K) {n : Nat} {disk : Disk}
    (hlaid : LaidOut env (max 1 n) disk)
    (hmeta : disk.layoutMeta = none ∨ disk.layoutMeta = some ⟨max 1 n, routingSchema⟩)
    {boots : List Boot}
    (hboots : Runs.Along (boot env) (fun disk b => b.Reached env disk) disk boots)
    {m : Nat} {faults : StartupFaults} {disk' : Disk}
    (hstart : startLayout env m faults (Runs.exec (boot env) disk boots) = (disk', none)) :
    ∀ ns ∈ rehashNamespaces, ∀ key pid, disk'.store.read pid (composeKey ns key) =
      if pid = partitionFor env (max 1 m) ns key then
        disk.store.read (partitionFor env (max 1 n) ns key) (composeKey ns key)
      else none := by
  have hfirst : Truthful env (contentUnder env (max 1 n) disk) disk := by
    refine ⟨hlaid.intact, fun count hcount => ?_⟩
    rcases hmeta with hnone | hsome
    · rw [hnone] at hcount
      cases hcount
    · rw [hsome] at hcount
      obtain rfl : max 1 n = count := congrArg LayoutMeta.partitionCount (Option.some.inj hcount)
      exact hlaid.placed
  have hlast : Truthful env (contentUnder env (max 1 n) disk) (Runs.exec (boot env) disk boots) :=
    Runs.invariant (fun _ _ hb hs => hs.boot hb) hboots hfirst
  obtain ⟨hintact, hplaced⟩ := hlast.startLayout hstart
  intro ns hns key pid
  rw [hintact.read_placed hplaced hns, contentUnder, if_pos hns]

end Boots

section Examples
open Reference

/-- With one partition the document of the pair is moved to the first, and the process stops
inside the name of the schema. -/
def tornBoot : Boot := ⟨1, .none, 40⟩

/-- The metadata then names a schema that is none, and the old count moves the document back. -/
theorem torn_layout_repartitions_pair :
    (boot (platform ticking) pairDisk tornBoot).layoutMeta = some ⟨1, ascii "balance"⟩ ∧
      (startLayout (platform ticking) 2 .none
        (boot (platform ticking) pairDisk tornBoot)).1.store.read 1
        (composeKey docNs (buildDocKey (ascii "w") (ascii "b"))) = some storedB := by
  have hboots : Runs.Along (boot (platform ticking))
      (fun disk b => b.Reached (platform ticking) disk) pairDisk [tornBoot] :=
    ⟨⟨by decide, by decide⟩, trivial⟩
  have hstart : startLayout (platform ticking) 2 .none
      (Runs.exec (boot (platform ticking)) pairDisk [tornBoot]) =
      ((startLayout (platform ticking) 2 .none (boot (platform ticking) pairDisk tornBoot)).1,
        none) :=
    Prod.ext rfl (by decide)
  have hrows := torn_layout_repartitions (platform ticking) laidOut_pairDisk (Or.inr rfl) hboots
    hstart
  refine ⟨by decide, ?_⟩
  refine (hrows docNs (by decide) (buildDocKey (ascii "w") (ascii "b")) 1).trans ?_
  rw [if_pos (by decide)]
  decide

end Examples

end PoorguyMem
