import PoorguyMem.Repartition

/-!
# Startups with other counts

A startup that re-partitions the disk and ends keeps every entry, in the one
partition that owns it. After startups that were cut short an entry can be read
exactly where the last startup re-partitions, or the entry still has a copy in
the partition where its count looks.
-/

namespace PoorguyMem

open ByteString

variable {K : Type}

/-- The rows are entries of the eight namespaces, each in the partition of its key. -/
def LaidOut (env : Platform K) (count : Nat) (disk : Disk) : Prop :=
  ∀ pid fullKey v, disk.store.read pid fullKey = some v →
    ∃ ns ∈ rehashNamespaces, ∃ key, fullKey = composeKey ns key ∧
      pid = partitionFor env count ns key

/-- What the partitions of the keys hold. -/
def contentUnder (env : Platform K) (count : Nat) (disk : Disk) : Content := fun ns key =>
  if ns ∈ rehashNamespaces then
    disk.store.read (partitionFor env count ns key) (composeKey ns key)
  else none

section Layout
variable {env : Platform K} {count : Nat} {disk : Disk}

theorem LaidOut.intact (h : LaidOut env count disk) :
    Intact disk (contentUnder env count disk) where
  rows pid fullKey v hv := by
    obtain ⟨ns, hns, key, rfl, rfl⟩ := h pid fullKey v hv
    exact ⟨ns, hns, key, rfl, (if_pos hns).trans hv⟩
  kept ns key v hv := by
    rw [contentUnder] at hv
    split at hv
    · rename_i hns
      exact ⟨hns, _, hv⟩
    · cases hv

theorem LaidOut.placed (h : LaidOut env count disk) : Placed env count disk [] := by
  intro pid ns hns key v hv
  obtain ⟨ns', hns', key', hkey, hpid⟩ := h pid _ v hv
  obtain ⟨rfl, rfl⟩ := (composeKey_inj (colonFree_rehashNamespaces _ hns)
    (colonFree_rehashNamespaces _ hns')).mp hkey
  exact Or.inl hpid

/-- Where every row is in its place, a key is in that partition and in no other. -/
theorem Intact.read_placed {content : Content} (h : Intact disk content)
    (hplaced : Placed env count disk []) {ns : Bytes} (hns : ns ∈ rehashNamespaces)
    (key : Bytes) (pid : Nat) : disk.store.read pid (composeKey ns key) =
      if pid = partitionFor env count ns key then content ns key else none := by
  have himp : ∀ p v, disk.store.read p (composeKey ns key) = some v →
      p = partitionFor env count ns key := by
    intro p v hv
    rcases hplaced p ns hns key v hv with hp | hp
    · exact hp
    · cases hp
  rcases hread : disk.store.read pid (composeKey ns key) with _ | v
  · split
    · rename_i hpid
      rcases hc : content ns key with _ | v
      · rfl
      · obtain ⟨-, p, hp⟩ := h.kept ns key v hc
        rw [himp p v hp, ← hpid, hread] at hp
        cases hp
    · rfl
  · rw [if_pos (himp pid v hread), h.value hns hread]

/-- A startup with another number of partitions over a disk that is laid out, and
whose metadata says so or is absent, puts every key with its value and its time into
the one partition that owns it, adds nothing, and removes no directory with a row. -/
theorem repartition_preserves (env : Platform K) {n m : Nat} {disk disk' : Disk}
    {faults : StartupFaults} (hlaid : LaidOut env (max 1 n) disk)
    (hmeta : disk.layoutMeta = none ∨ disk.layoutMeta = some ⟨max 1 n, routingSchema⟩)
    (hstart : startLayout env m faults disk = (disk', none)) :
    (∀ ns ∈ rehashNamespaces, ∀ key pid, disk'.store.read pid (composeKey ns key) =
      if pid = partitionFor env (max 1 m) ns key then
        disk.store.read (partitionFor env (max 1 n) ns key) (composeKey ns key)
      else none) ∧
    (∀ pid fullKey v, disk'.store.read pid fullKey = some v →
      ∃ ns ∈ rehashNamespaces, ∃ key, fullKey = composeKey ns key) ∧
    let moved := (rehashLoop env (max 1 m) faults.requests
      (rehashPairs disk.detectExistingPartitions) ⟨disk, 0⟩).1.disk
    ∀ pid ∈ disk.directories, pid ∉ disk'.directories →
      ∀ fullKey, moved.store.read pid fullKey = none := by
  have hintact := hlaid.intact
  have hspec := refreshLayoutOnStartup_spec env (max_one_pos m) faults hintact
  rw [startLayout] at hstart
  rw [hstart] at hspec
  obtain ⟨hintact', hran, hskipped⟩ := hspec
  have hplaced : Placed env (max 1 m) disk' [] := by
    cases hneeds : needsRehash disk (max 1 m) with
    | true => exact (hran hneeds rfl).1
    | false =>
      have hstore : disk'.store = disk.store := (hskipped hneeds).1
      -- the refresh is skipped where there is no directory, or the count is the old one
      rw [needsRehash, Bool.or_eq_false_iff] at hneeds
      intro pid ns hns key v hv
      rw [hstore] at hv
      rcases hmeta with hnone | hsome
      · rw [hnone] at hneeds
        have hempty : disk.detectExistingPartitions = [] := by simpa using hneeds.1
        rcases placed_rehashPairs env (max 1 m) disk pid ns hns key v hv with hp | hp
        · exact Or.inl hp
        · rw [hempty] at hp
          cases hp
      · rw [hsome] at hneeds
        have hcount : max 1 n = max 1 m := by simpa using hneeds.1
        rw [← hcount]
        exact hlaid.placed pid ns hns key v hv
  refine ⟨fun ns hns key pid => ?_, fun pid fullKey v hv => ?_, fun pid hpid hnot fullKey => ?_⟩
  · rw [hintact'.read_placed hplaced hns, contentUnder, if_pos hns]
  · obtain ⟨ns, hns, key, hkey, -⟩ := hintact'.rows pid fullKey v hv
    exact ⟨ns, hns, key, hkey⟩
  · cases hneeds : needsRehash disk (max 1 m) with
    | true =>
      let moved := (rehashLoop env (max 1 m) faults.requests
        (rehashPairs disk.detectExistingPartitions) ⟨disk, 0⟩).1.disk
      by_cases hmoved : pid ∈ moved.directories
      · exact (hran hneeds rfl).2.removed pid hmoved hnot fullKey
      · rw [EloqStore.read, Option.not_isSome_iff_eq_none.mp fun h => hmoved (moved.hosted pid h)]
        rfl
    | false =>
      rw [(hskipped hneeds).2] at hnot
      exact absurd hpid hnot

/-! ### Runs of startups -/

/-- A startup, with the count it is configured with and what goes wrong in it. -/
structure Startup where
  configured : Nat
  faults : StartupFaults

/-- The disk after some startups, completed or not. -/
def afterStartups (env : Platform K) (disk : Disk) (startups : List Startup) : Disk :=
  Runs.exec (fun disk (s : Startup) => (startLayout env s.configured s.faults disk).1) disk startups

/-- No startup loses an entry, wherever it stops. -/
theorem intact_afterStartups (env : Platform K) {content : Content} (h : Intact disk content)
    (startups : List Startup) : Intact (afterStartups env disk startups) content :=
  Runs.invariant_of_forall (R := fun _ => True) (I := fun d => Intact d content)
    (fun _ s _ hd => (refreshLayoutOnStartup_spec env (max_one_pos s.configured) s.faults hd).1)
    (fun _ _ => trivial) h

/-- The entry is read back with its value. -/
def Readable (env : Platform K) (adapter : EloqStoreAdapter) (ns key : Bytes) (v : StoredValue) :
    Prop :=
  adapter.get env ns key = ⟨true, v.value, []⟩

theorem Intact.readable_iff {content : Content} (h : Intact disk content) (configured : Nat)
    {ns key : Bytes} {v : StoredValue} (hv : content ns key = some v) :
    Readable env (disk.adapter configured) ns key v ↔
      (disk.store.read (partitionFor env (max 1 configured) ns key) (composeKey ns key)).isSome := by
  have hns := (h.kept ns key v hv).1
  rw [Readable, EloqStoreAdapter.get_of_started rfl]
  change (disk.store.read (partitionFor env (max 1 configured) ns key) (composeKey ns key)).elim
    _ _ = _ ↔ _
  rcases hread : disk.store.read (partitionFor env (max 1 configured) ns key)
      (composeKey ns key) with _ | v'
  · simp
  · have hsame := h.value hns hread
    rw [hv] at hsame
    obtain rfl := Option.some.inj hsame
    simp

/-- After any startups over a disk that was laid out, one that succeeds makes every
entry readable exactly where it re-partitions the disk, or every entry still has a
copy in the partition its count resolves. -/
theorem recovers_iff (env : Platform K) {n : Nat} {disk : Disk}
    (hlaid : LaidOut env (max 1 n) disk) (startups : List Startup) (last : Startup)
    {disk' : Disk} (hstart : startLayout env last.configured last.faults
      (afterStartups env disk startups) = (disk', none)) :
    (∀ ns key v, contentUnder env (max 1 n) disk ns key = some v →
        Readable env (disk'.adapter last.configured) ns key v) ↔
      needsRehash (afterStartups env disk startups) (max 1 last.configured) = true ∨
        ∀ ns key, (contentUnder env (max 1 n) disk ns key).isSome →
          ((afterStartups env disk startups).store.read
            (partitionFor env (max 1 last.configured) ns key) (composeKey ns key)).isSome := by
  have hbefore := intact_afterStartups env hlaid.intact startups
  have hspec := refreshLayoutOnStartup_spec env (max_one_pos last.configured) last.faults hbefore
  rw [startLayout] at hstart
  rw [hstart] at hspec
  obtain ⟨hafter, hran, hskipped⟩ := hspec
  cases hneeds : needsRehash (afterStartups env disk startups) (max 1 last.configured) with
  | true =>
    simp only [true_or, iff_true]
    intro ns key v hv
    have hns := (hafter.kept ns key v hv).1
    rw [hafter.readable_iff _ hv, hafter.read_placed (hran hneeds rfl).1 hns, if_pos rfl, hv]
    rfl
  | false =>
    have hstore : disk'.store = (afterStartups env disk startups).store := (hskipped hneeds).1
    simp only [Bool.false_eq_true, false_or, ← hstore]
    constructor
    · intro h ns key hsome
      obtain ⟨v, hv⟩ := Option.isSome_iff_exists.mp hsome
      exact (hafter.readable_iff _ hv).mp (h ns key v hv)
    · intro h ns key v hv
      exact (hafter.readable_iff _ hv).mpr (h ns key (by rw [hv]; rfl))

end Layout

section Examples
open Reference

/-- The disk of these partitions, each with a directory. -/
def diskOf (partitions : List (Option Table)) (layoutMeta : Option LayoutMeta) : Disk where
  store := ⟨fun pid => (partitions[pid]?).join, fun limit _ rows => rows.take limit⟩
  directories := List.range partitions.length
  layoutMeta := layoutMeta
  hosted pid h := by
    rw [List.mem_range]
    by_contra hpid
    dsimp only at h
    rw [List.getElem?_eq_none (Nat.le_of_not_lt hpid)] at h
    cases h

def storedB : StoredValue := ⟨ascii "two", 1⟩

/-- The document `b` in the second of two partitions. -/
def pairDisk : Disk :=
  diskOf [none, some ((∅ : Table).insert (composeKey docNs (buildDocKey (ascii "w") (ascii "b")))
    storedB)] (some ⟨2, routingSchema⟩)

theorem laidOut_pairDisk : LaidOut (platform ticking) (max 1 2) pairDisk := by
  intro pid fullKey v hv
  have hpid : pid = 0 ∨ pid = 1 ∨ 2 ≤ pid := by omega
  rcases hpid with rfl | rfl | hpid
  · cases hv
  · change ((∅ : Table).insert _ _)[fullKey]? = some v at hv
    rw [lookup_insert] at hv
    split at hv
    · rename_i hkey
      exact ⟨docNs, by decide, buildDocKey (ascii "w") (ascii "b"), hkey.symm, by decide⟩
    · simp at hv
  · have hnone : pairDisk.store.partition pid = none := by
      simp only [pairDisk, diskOf]
      rw [List.getElem?_eq_none (by exact hpid)]
      rfl
    rw [EloqStore.read, hnone] at hv
    cases hv

/-- With one partition the document is in the first, and the second is gone. -/
theorem repartition_pairDisk :
    (startLayout (platform ticking) 1 .none pairDisk).1.store.read 0
        (composeKey docNs (buildDocKey (ascii "w") (ascii "b"))) = some storedB ∧
      (startLayout (platform ticking) 1 .none pairDisk).1.directories = [0] := by
  have hstart : startLayout (platform ticking) 1 .none pairDisk =
      ((startLayout (platform ticking) 1 .none pairDisk).1, none) :=
    Prod.ext rfl (by decide)
  have hrows := (repartition_preserves (platform ticking) laidOut_pairDisk (Or.inr rfl) hstart).1
  refine ⟨?_, by decide⟩
  rw [hrows docNs (by decide), if_pos (by decide)]
  decide

/-- The request after the document was moved to the only partition fails. -/
def cutShort : Startup := ⟨1, ⟨fun i => if i = 11 then some (ascii "io") else none, true⟩⟩

/-- The next startup with one partition moves the rest. -/
theorem recovers_with_one : Readable (platform ticking)
    ((startLayout (platform ticking) 1 .none
      (afterStartups (platform ticking) pairDisk [cutShort])).1.adapter 1)
    docNs (buildDocKey (ascii "w") (ascii "b")) storedB := by
  have hstart : startLayout (platform ticking) 1 .none
      (afterStartups (platform ticking) pairDisk [cutShort]) =
      ((startLayout (platform ticking) 1 .none
        (afterStartups (platform ticking) pairDisk [cutShort])).1, none) :=
    Prod.ext rfl (by decide)
  exact (recovers_iff (platform ticking) laidOut_pairDisk [cutShort] ⟨1, .none⟩ hstart).mpr
    (Or.inl (by decide)) docNs _ storedB (by decide)

/-- A startup with the old count takes the disk for laid out, and misses the document. -/
theorem not_recovers_with_two : ¬ ∀ (n : Nat) (disk : Disk), LaidOut (platform ticking) (max 1 n) disk →
    disk.layoutMeta = some ⟨max 1 n, routingSchema⟩ → ∀ (startups : List Startup) (last : Startup)
      (disk' : Disk), startLayout (platform ticking) last.configured last.faults
        (afterStartups (platform ticking) disk startups) = (disk', none) →
      ∀ ns key v, contentUnder (platform ticking) (max 1 n) disk ns key = some v →
        Readable (platform ticking) (disk'.adapter last.configured) ns key v := by
  intro h
  have hread := h 2 pairDisk laidOut_pairDisk rfl [cutShort] ⟨2, .none⟩ _
    (Prod.ext rfl (by decide)) docNs (buildDocKey (ascii "w") (ascii "b")) storedB
    (by decide)
  rw [Readable] at hread
  exact absurd hread (by decide)

end Examples

end PoorguyMem
