import PoorguyMem.Victims

/-!
# Reclamation

A compaction buries unpinned records and drops tombstones, a batch at a time. It
goes through the resident records alone: a row whose record is not resident stays
for good. Where every such row has a resident copy that can be written, and the
clock moves on by more than the retention between the calls, a bounded number of
calls clears them all.
-/

namespace PoorguyMem

open ByteString PropertyTree Throwing

variable {K : Type}

/-! ### What is to be cleared -/

/-- The document row at a key is that of an unpinned record or of a tombstone. -/
def Garbage (env : Platform K) (store : Store) (key : Bytes) : Prop :=
  ∃ v, ∃ r : MemoryRecord K, (store.table docNs)[key]? = some v ∧ v.value = recordText env r ∧
    r.Expendable

def Cleared (env : Platform K) (store : Store) : Prop := ∀ key, ¬ Garbage env store key

/-- An expendable record is resident that is stored at the key and can be written. -/
def HasCopy (env : Platform K) (records : StringMap (MemoryRecord K)) (key : Bytes) : Prop :=
  ∃ (k : Bytes) (r : MemoryRecord K), records[k]? = some r ∧ r.Expendable ∧
    (recordTree env r).writable = true ∧ buildDocKey r.workspaceId r.id = key

/-- Every row that is to be cleared has a copy, and no expendable record stops a compaction. -/
structure Collectable (env : Platform K) (w : World K) : Prop where
  copies : ∀ key, Garbage env w.store key → HasCopy env w.engine.records key
  writable : ¬ Jammed env w.engine.records

/-! ### Compactions -/

section Compactions
variable [Field K] [LinearOrder K]

/-- `Compact("")`. -/
def compaction (env : Platform K) (w : World K) (fate : Fate) : World K :=
  (perform env fate w (.compact [])).1

def compactions (env : Platform K) (w : World K) (fates : List Fate) : World K :=
  Runs.exec (compaction env) w fates

/-- What the compactions read from the clock first. -/
def readings (env : Platform K) (w : World K) : List Fate → List Nat
  | [] => []
  | fate :: fates => (env.clock w.tick).toNat :: readings env (compaction env w fate) fates

/-- The clock moves on by more than the retention from each compaction to the next. -/
def Spaced (env : Platform K) (w : World K) (fates : List Fate) : Prop :=
  (readings env w fates).IsChain fun a b =>
    a + w.engine.options.tombstoneRetentionMs.toNat < b

instance (env : Platform K) (w : World K) (fates : List Fate) : Decidable (Spaced env w fates) :=
  inferInstanceAs (Decidable (List.IsChain _ _))

end Compactions

/-- The latest time at which a resident tombstone was changed. -/
def lastDeath (records : StringMap (MemoryRecord K)) : Nat :=
  ((records.toList.filter (·.2.tombstone)).map (·.2.updatedAtMs.toNat)).foldr max 0

/-- Calls for the clock to pass every tombstone, and two for every record. -/
def callsNeeded (env : Platform K) (w : World K) : Nat :=
  (lastDeath w.engine.records - (env.clock w.tick).toNat) /
      (w.engine.options.tombstoneRetentionMs.toNat + 1) + 2 + 2 * w.engine.records.size

/-! ### What a compaction plans -/

/-- What a compaction of all workspaces has planned. -/
structure Swept (engine : MemoryEngine K) (nowMs : UInt64) (plan : Plan K) : Prop where
  buried : ∀ r ∈ plan.upserts, ∃ (k : Bytes) (c : MemoryRecord K),
    engine.records[k]? = some c ∧ c.Buriable ∧ r = tombstoneOf engine c nowMs
  dropped : ∀ r ∈ plan.removals, r.tombstone = true ∧ ∃ k : Bytes, engine.records[k]? = some r
  live_acted : (∃ (k : Bytes) (c : MemoryRecord K), engine.records[k]? = some c ∧ c.Buriable) →
    0 < plan.actions
  dead_acted : engine.options.enableTombstoneGc = true →
    (∃ (k : Bytes) (c : MemoryRecord K), engine.records[k]? = some c ∧ Ripe engine nowMs c) →
    0 < plan.actions

theorem countP_values_pos {records : StringMap (MemoryRecord K)} {p : MemoryRecord K → Bool}
    {k : Bytes} {r : MemoryRecord K} (hr : records[k]? = some r) (hp : p r = true) :
    0 < records.values.countP p :=
  List.countP_pos_iff.mpr ⟨r, mem_values.mpr ⟨k, hr⟩, hp⟩

/-- A plan that disposes of the victims of all workspaces. -/
theorem Victims.swept [Field K] [LinearOrder K] {env : Platform K} {engine : MemoryEngine K}
    {nowMs : UInt64} {plan : Plan K} {buried : List (MemoryRecord K)}
    (hv : Victims env engine [] nowMs buried plan.removals)
    (hputs : plan.upserts = buried.map (tombstoneOf engine · nowMs)) :
    Swept engine nowMs plan := by
  have hbound := batchBound_pos engine
  have hburied := hv.buried_count
  have hdropped := hv.dropped_count
  have hacts : plan.actions = buried.length + plan.removals.length := by
    rw [Plan.actions, hputs, List.length_map]
  constructor
  · intro r hr
    rw [hputs] at hr
    obtain ⟨c, hc, rfl⟩ := List.mem_map.mp hr
    obtain ⟨hheld, -, hburiable⟩ := hv.buried_mem c hc
    obtain ⟨k, hk⟩ := mem_values.mp hheld
    exact ⟨k, c, hk, hburiable, rfl⟩
  · intro r hr
    obtain ⟨hheld, -, hripe⟩ := hv.dropped_mem r hr
    exact ⟨hripe.1, mem_values.mp hheld⟩
  · rintro ⟨k, c, hc, hburiable⟩
    have hsome := countP_values_pos (p := fun r => inScope [] r ∧ r.Buriable) hc
      (decide_eq_true ⟨rfl, hburiable⟩)
    omega
  · rintro hgc ⟨k, c, hc, hripe⟩
    have hsome := countP_values_pos (p := fun r => inScope [] r ∧ Ripe engine nowMs r) hc
      (decide_eq_true ⟨rfl, hripe⟩)
    rw [if_pos hgc] at hdropped
    omega

/-! ### What a compaction does -/

section Effect
variable [Field K] [LinearOrder K] {env : Platform K} {w : World K} {fate : Fate}

theorem options_compaction (env : Platform K) (w : World K) (fate : Fate) :
    (compaction env w fate).engine.options = w.engine.options := by
  simp only [compaction, perform, compactInternal, Bool.not_true, Bool.false_and,
    Bool.false_eq_true, if_false]
  split
  · rfl
  · split <;> split <;> rfl

/-- The plan of a compaction, carried out on the records and on the documents. -/
structure Carried (env : Platform K) (w w' : World K) (plan : Plan K) : Prop where
  swept : Swept w.engine (env.clock w.tick) plan
  writable : ∀ change ∈ plan.changes, (recordTree env change.record).writable = true
  records : w'.engine.records = (plan.applyInMemory env w.engine.toResident).records
  docs : ∃ items : List (LogItem K), items.map (·.change) = plan.changes ∧
    w'.store.table docNs = (w.store.table docNs).apply (items.map (·.docEntry env))

theorem Carried.enacted {w' : World K} {plan : Plan K} (h : Carried env w w' plan) :
    Enacted env w w' plan where
  writable := h.writable
  records := h.records
  docs := h.docs

/-- A compaction whose batch is written carries out a plan, unless it throws. -/
theorem compaction_spec (hlaw : env.Lawful) (hS : Sourced env NonemptyNames w)
    (hok : fate.main.ok = true) :
    (Jammed env w.engine.records ∧
      (compaction env w fate).engine.records = w.engine.records ∧
      (compaction env w fate).store = w.store) ∨
    ∃ plan, Carried env w (compaction env w fate) plan := by
  rcases compactInternal_spec hlaw hS hok [] with
    ⟨-, hjam, hrecords, hstore⟩ | ⟨out, plan, buried, -, -, -, hv, hputs, he⟩
  · exact Or.inl ⟨hjam, hrecords, hstore⟩
  · exact Or.inr ⟨plan, hv.swept hputs, he.writable, he.records, he.docs⟩

/-! ### Lookups afterwards -/

/-- What a carried plan makes of the entry of a key. -/
inductive Turned (w : World K) (nowMs : UInt64) (plan : Plan K) (k : Bytes) :
    Option (MemoryRecord K) → Option (MemoryRecord K) → Prop
  | kept {o : Option (MemoryRecord K)}
      (unburied : ∀ r ∈ plan.upserts, recordMapKey r.workspaceId r.id ≠ k)
      (undropped : ∀ r ∈ plan.removals, recordMapKey r.workspaceId r.id ≠ k) :
      Turned w nowMs plan k o o
  | buried {c : MemoryRecord K} (buriable : c.Buriable)
      (mem : tombstoneOf w.engine c nowMs ∈ plan.upserts) :
      Turned w nowMs plan k (some c) (some (tombstoneOf w.engine c nowMs))
  | dropped {c : MemoryRecord K} (dead : c.tombstone = true) (mem : c ∈ plan.removals) :
      Turned w nowMs plan k (some c) none

theorem Carried.turned {w' : World K} {plan : Plan K} (h : Carried env w w' plan)
    (hkeys : AtKeys w.engine.toResident) (k : Bytes) :
    Turned w (env.clock w.tick) plan k w.engine.records[k]? w'.engine.records[k]? := by
  rw [h.records, Plan.applyInMemory]
  rcases lookup_foldl_remove plan.removals
    (plan.upserts.foldl (Resident.upsertRecordInMemory env) w.engine.toResident) k with
    ⟨hundropped, hsame⟩ | ⟨⟨r, hr, hkey⟩, hgone⟩
  · rw [hsame]
    rcases lookup_foldl_upsert env plan.upserts w.engine.toResident k with
      ⟨hunburied, hsame'⟩ | ⟨r, hr, hkey, hsome⟩
    · rw [hsame']
      exact .kept hunburied hundropped
    · rw [hsome]
      obtain ⟨k', c, hc, hburiable, rfl⟩ := h.swept.buried r hr
      have hk' : k' = recordMapKey c.workspaceId c.id := hkeys k' c hc
      have hk : recordMapKey c.workspaceId c.id = k := hkey
      rw [hk', hk] at hc
      rw [hc]
      exact .buried hburiable hr
  · rw [hgone]
    obtain ⟨hdead, k', hc⟩ := h.swept.dropped r hr
    rw [hkeys k' r hc, hkey] at hc
    rw [hc]
    exact .dropped hdead hr

omit [Field K] [LinearOrder K] in
/-- A table whose entries for a key are deletions keeps its row, or has none. -/
theorem lookup_apply_of_deletes (table : Table) {writes : List WriteEntry} {k : Bytes}
    (h : ∀ e ∈ writes, e.entry.key = k → e.op = .delete) :
    (∀ e ∈ writes, e.entry.key ≠ k) ∧ (table.apply writes)[k]? = table[k]? ∨
      (table.apply writes)[k]? = none := by
  by_cases hany : ∀ e ∈ writes, e.entry.key ≠ k
  · exact Or.inl ⟨hany, Table.lookup_apply_of_notMem hany⟩
  · right
    induction writes generalizing table with
    | nil => exact absurd (fun e he => by cases he) hany
    | cons e rest ih =>
      have hrest := fun e' he' => h e' (List.mem_cons_of_mem _ he')
      rw [Table.apply, List.foldl_cons, ← Table.apply]
      by_cases hmore : ∀ e' ∈ rest, e'.entry.key ≠ k
      · have hk : e.entry.key = k := by
          by_contra hne
          exact hany (List.forall_mem_cons.mpr ⟨hne, hmore⟩)
        rw [Table.lookup_apply_of_notMem hmore, Table.applyEntry, h e List.mem_cons_self hk]
        dsimp only
        rw [lookup_erase, if_pos hk]
      · exact ih _ hrest hmore

/-! ### The rows and their copies -/

/-- An entry of a carried plan puts one of its tombstones, or deletes the row of a record
it drops. -/
theorem Carried.entry {w' : World K} {plan : Plan K} (h : Carried env w w' plan) :
    ∃ entries, w'.store.table docNs = (w.store.table docNs).apply entries ∧
      (∀ e ∈ entries, (∃ r ∈ plan.upserts, e = docEntry r (recordText env r)) ∨
        ∃ r ∈ plan.removals, ∃ ts, e = deleteEntry docNs (buildDocKey r.workspaceId r.id) ts) ∧
      (∀ r ∈ plan.upserts, docEntry r (recordText env r) ∈ entries) ∧
      ∀ r ∈ plan.removals, ∃ ts, deleteEntry docNs (buildDocKey r.workspaceId r.id) ts ∈ entries := by
  obtain ⟨puts, deletes, htable, hput, hput', hdelete, hdelete'⟩ := h.enacted.entries
  refine ⟨puts ++ deletes, ?_, ?_, ?_, ?_⟩
  · rw [htable, Table.apply, Table.apply, Table.apply, List.foldl_append]
  · intro e he
    rcases List.mem_append.mp he with he | he
    · exact Or.inl (hput e he)
    · exact Or.inr (hdelete e he)
  · exact fun r hr => List.mem_append_left _ (hput' r hr)
  · intro r hr
    obtain ⟨ts, hmem⟩ := hdelete' r hr
    exact ⟨ts, List.mem_append_right _ hmem⟩

/-- What is resident after a carried plan and expendable was resident and expendable, or a
tombstone was made of such a record. -/
theorem Carried.source {w' : World K} {plan : Plan K} (h : Carried env w w' plan)
    (hkeys : AtKeys w.engine.toResident) {k : Bytes} {r : MemoryRecord K}
    (hr : w'.engine.records[k]? = some r) (hex : r.Expendable) :
    ∃ c, w.engine.records[k]? = some c ∧ c.Expendable ∧
      (recordTree env c).writable = (recordTree env r).writable ∧
      buildDocKey c.workspaceId c.id = buildDocKey r.workspaceId r.id := by
  have hturned := h.turned hkeys k
  rw [hr] at hturned
  generalize hold : w.engine.records[k]? = o at hturned
  cases hturned with
  | kept => exact ⟨r, rfl, hex, rfl, rfl⟩
  | @buried c buriable _ =>
    exact ⟨c, rfl, Or.inl buriable.1, (writable_tombstoneOf env w.engine c _).symm, rfl⟩

theorem Carried.not_jammed {w' : World K} {plan : Plan K} (h : Carried env w w' plan)
    (hkeys : AtKeys w.engine.toResident) (hjam : ¬ Jammed env w.engine.records) :
    ¬ Jammed env w'.engine.records := by
  rintro ⟨k, r, hr, hex, hw⟩
  obtain ⟨c, hc, hexc, hwc, -⟩ := h.source hkeys hr hex
  exact hjam ⟨k, c, hc, hexc, hwc.trans hw⟩

/-- Where every row to be cleared has a copy, it is so after a carried plan. -/
theorem Carried.copies {w' : World K} {plan : Plan K} (h : Carried env w w' plan)
    (hkeys : AtKeys w.engine.toResident)
    (hcopies : ∀ key, Garbage env w.store key → HasCopy env w.engine.records key) :
    ∀ key, Garbage env w'.store key → HasCopy env w'.engine.records key := by
  rintro key ⟨v, r, hv, hvalue, hex⟩
  obtain ⟨entries, htable, hentries, hputs, hdeletes⟩ := h.entry
  by_cases hput : ∃ t ∈ plan.upserts, buildDocKey t.workspaceId t.id = key
  · -- a tombstone that is put stays resident
    obtain ⟨t, ht, hkey⟩ := hput
    obtain ⟨k, c, hc, hburiable, rfl⟩ := h.swept.buried t ht
    have hturned := h.turned hkeys k
    rw [hc] at hturned
    have hwt := h.writable (.put _) (List.mem_append_left _ (List.mem_map_of_mem ht))
    generalize hnew : w'.engine.records[k]? = o at hturned
    cases hturned with
    | kept unburied _ =>
      exact absurd (hkeys k c hc).symm
        (unburied (tombstoneOf w.engine c (env.clock w.tick)) ht)
    | buried _ _ => exact ⟨k, _, hnew, Or.inr rfl, hwt, hkey⟩
    | dropped dead _ =>
      rw [hburiable.2] at dead
      cases dead
  · rw [htable] at hv
    have honly : ∀ e ∈ entries, e.entry.key = key → e.op = .delete := by
      intro e he hkey
      rcases hentries e he with ⟨t, ht, rfl⟩ | ⟨t, -, ts, rfl⟩
      · exact absurd ⟨t, ht, hkey⟩ hput
      · rfl
    rcases lookup_apply_of_deletes (w.store.table docNs) honly with
      ⟨huntouched, hsame⟩ | hgone
    · -- the row is an old one, and no change concerns its copy
      rw [hsame] at hv
      obtain ⟨k, c, hc, hexc, hwc, hkey⟩ := hcopies key ⟨v, r, hv, hvalue, hex⟩
      have hturned := h.turned hkeys k
      rw [hc] at hturned
      generalize hnew : w'.engine.records[k]? = o at hturned
      cases hturned with
      | kept => exact ⟨k, c, hnew, hexc, hwc, hkey⟩
      | buried _ mem => exact absurd ⟨_, mem, hkey⟩ hput
      | dropped _ mem =>
        obtain ⟨ts, hmem⟩ := hdeletes c mem
        exact absurd hkey (huntouched _ hmem)
    · rw [hgone] at hv
      cases hv

/-- A row to be cleared without a copy keeps its value, and gets no copy. -/
theorem Carried.stray {w' : World K} {plan : Plan K} (h : Carried env w w' plan)
    (hkeys : AtKeys w.engine.toResident) {key : Bytes} (hg : Garbage env w.store key)
    (hc : ¬ HasCopy env w.engine.records key) :
    Garbage env w'.store key ∧ ¬ HasCopy env w'.engine.records key := by
  constructor
  · obtain ⟨v, r, hv, hvalue, hex⟩ := hg
    obtain ⟨entries, htable, hentries, -, -⟩ := h.entry
    refine ⟨v, r, ?_, hvalue, hex⟩
    rw [htable, Table.lookup_apply_of_notMem ?_, hv]
    intro e he hkey
    rcases hentries e he with ⟨t, ht, rfl⟩ | ⟨t, ht, ts, rfl⟩
    · have hwt := h.writable (.put t) (List.mem_append_left _ (List.mem_map_of_mem ht))
      obtain ⟨k, c, hheld, hburiable, rfl⟩ := h.swept.buried t ht
      have hwc : (recordTree env c).writable = true :=
        (writable_tombstoneOf env w.engine c _).symm.trans hwt
      exact hc ⟨k, c, hheld, Or.inl hburiable.1, hwc, hkey⟩
    · have hwt := h.writable (.drop t) (List.mem_append_right _ (List.mem_map_of_mem ht))
      obtain ⟨hdead, k, hheld⟩ := h.swept.dropped t ht
      exact hc ⟨k, t, hheld, Or.inr hdead, hwt, hkey⟩
  · rintro ⟨k, r, hr, hex, hw, hkey⟩
    obtain ⟨c, hheld, hexc, hwc, hsame⟩ := h.source hkeys hr hex
    exact hc ⟨k, c, hheld, hexc, hwc.trans hw, hsame.trans hkey⟩

end Effect

/-! ### The measure -/

/-- How many times a compaction still has to act on an entry. -/
def burden : Option (MemoryRecord K) → Nat
  | none => 0
  | some r => if r.tombstone then 1 else if r.pinned then 0 else 2

def remaining (keys : List Bytes) (records : StringMap (MemoryRecord K)) : Nat :=
  (keys.map fun k => burden records[k]?).sum

theorem burden_le_two (o : Option (MemoryRecord K)) : burden o ≤ 2 := by
  cases o with
  | none => exact Nat.zero_le 2
  | some r =>
    rw [burden]
    split
    · omega
    · split <;> omega

theorem remaining_le (keys : List Bytes) (records : StringMap (MemoryRecord K)) :
    remaining keys records ≤ 2 * keys.length := by
  have hsum := List.sum_le_card_nsmul (keys.map fun k => burden records[k]?) 2 (by
    intro n hn
    obtain ⟨k, -, rfl⟩ := List.mem_map.mp hn
    exact burden_le_two _)
  rw [List.length_map, smul_eq_mul] at hsum
  rw [remaining]
  omega

theorem not_expendable_of_burden {r : MemoryRecord K} (h : burden (some r) = 0) :
    ¬ r.Expendable := by
  rintro (hpin | hdead)
  · rw [burden, hpin] at h
    split at h <;> simp at h
  · rw [burden, hdead] at h
    simp at h

section Measure
variable [Field K] [LinearOrder K] {env : Platform K} {w w' : World K} {plan : Plan K}
  {nowMs : UInt64}

omit [Field K] [LinearOrder K] in
theorem burden_buriable {c : MemoryRecord K} (h : c.Buriable) : burden (some c) = 2 := by
  rw [burden, h.1, h.2]
  rfl

omit [Field K] [LinearOrder K] in
theorem Turned.burden_le {k : Bytes} {o o' : Option (MemoryRecord K)}
    (h : Turned w nowMs plan k o o') : burden o' ≤ burden o := by
  cases h with
  | kept => exact Nat.le_refl _
  | buried buriable _ =>
    rw [burden_buriable buriable]
    exact burden_le_two _
  | dropped => exact Nat.zero_le _

omit [Field K] [LinearOrder K] in
/-- An entry that is acted on is nearer to its end. -/
theorem Turned.burden_lt {k : Bytes} {o o' : Option (MemoryRecord K)}
    (h : Turned w nowMs plan k o o') (hacted : ∃ r ∈ plan.upserts ++ plan.removals,
      recordMapKey r.workspaceId r.id = k) : burden o' < burden o := by
  cases h with
  | kept unburied undropped =>
    obtain ⟨r, hr, hkey⟩ := hacted
    rcases List.mem_append.mp hr with hr | hr
    · exact absurd hkey (unburied r hr)
    · exact absurd hkey (undropped r hr)
  | buried buriable _ =>
    rw [burden_buriable buriable, burden, tombstoneOf]
    exact Nat.lt_succ_self 1
  | dropped dead _ =>
    rw [burden, burden, dead]
    exact Nat.one_pos

theorem Carried.remaining_le (h : Carried env w w' plan) (hkeys : AtKeys w.engine.toResident)
    (keys : List Bytes) : remaining keys w'.engine.records ≤ remaining keys w.engine.records := by
  apply List.sum_le_sum
  intro k _
  exact (h.turned hkeys k).burden_le

/-- A plan that acts at all brings the end nearer. -/
theorem Carried.remaining_lt (h : Carried env w w' plan) (hkeys : AtKeys w.engine.toResident)
    {keys : List Bytes} (hall : ∀ (k : Bytes) r, w.engine.records[k]? = some r → k ∈ keys)
    (hacts : 0 < plan.actions) :
    remaining keys w'.engine.records < remaining keys w.engine.records := by
  have hsome : ∃ r ∈ plan.upserts ++ plan.removals,
      recordMapKey r.workspaceId r.id ∈ keys := by
    have hne : plan.upserts ++ plan.removals ≠ [] := by
      intro hnil
      have hlength := congrArg List.length hnil
      rw [List.length_append, List.length_nil] at hlength
      rw [Plan.actions] at hacts
      omega
    obtain ⟨r, hr⟩ := List.exists_mem_of_ne_nil _ hne
    refine ⟨r, hr, ?_⟩
    rcases List.mem_append.mp hr with hput | hdrop
    · obtain ⟨k, c, hc, -, rfl⟩ := h.swept.buried r hput
      have hk : k = recordMapKey (tombstoneOf w.engine c (env.clock w.tick)).workspaceId
          (tombstoneOf w.engine c (env.clock w.tick)).id := hkeys k c hc
      rw [← hk]
      exact hall k c hc
    · obtain ⟨-, k, hc⟩ := h.swept.dropped r hdrop
      have hk : k = recordMapKey r.workspaceId r.id := hkeys k r hc
      rw [← hk]
      exact hall k r hc
  obtain ⟨r, hr, hmem⟩ := hsome
  apply List.sum_lt_sum
  · intro k _
    exact (h.turned hkeys k).burden_le
  · exact ⟨_, hmem, (h.turned hkeys _).burden_lt ⟨r, hr, rfl⟩⟩

end Measure

/-! ### Runs of compactions -/

section Runs
variable [Field K] [LinearOrder K] {env : Platform K} {w : World K} {fate : Fate}
  {fates : List Fate} {keys : List Bytes}

omit [Field K] [LinearOrder K] in
theorem ripe_of_le {engine : MemoryEngine K} {nowMs : UInt64} {r : MemoryRecord K}
    (hdead : r.tombstone = true) (hage : r.updatedAtMs.toNat +
      engine.options.tombstoneRetentionMs.toNat ≤ nowMs.toNat) : Ripe engine nowMs r := by
  refine ⟨hdead, ?_⟩
  rw [HybridRetriever.ageMs, UInt64.le_iff_toNat_le]
  split
  · rename_i hlt
    rw [UInt64.toNat_sub_of_le _ _ (UInt64.le_of_lt hlt)]
    omega
  · rename_i hge
    rw [UInt64.lt_iff_toNat_lt] at hge
    rw [UInt64.toNat_zero]
    omega

/-- The invariant of a run of compactions that clears the rows. -/
structure Collecting (env : Platform K) (keys : List Bytes) (w : World K) : Prop where
  sourced : Sourced env NonemptyNames w
  enabled : w.engine.options.enableTombstoneGc = true
  collectable : Collectable env w
  keys : ∀ (k : Bytes) r, w.engine.records[k]? = some r → k ∈ keys

/-- The resident tombstones are old enough after `n` more compactions. -/
def Aging (env : Platform K) (n : Nat) (w : World K) : Prop :=
  ∀ (k : Bytes) r, w.engine.records[k]? = some r → r.tombstone = true →
    r.updatedAtMs.toNat + w.engine.options.tombstoneRetentionMs.toNat ≤
      (env.clock w.tick).toNat + n * (w.engine.options.tombstoneRetentionMs.toNat + 1)

omit [Field K] [LinearOrder K] in
theorem Sourced.atKeys {P : Bytes → Bytes → Prop} (h : Sourced env P w) :
    AtKeys w.engine.toResident := fun k r hr => (h.held k r hr).1

theorem Sourced.compaction (hlaw : env.Lawful) (h : Sourced env NonemptyNames w) (fate : Fate) :
    Sourced env NonemptyNames (compaction env w fate) :=
  (h.call hlaw names_nonempty (call_admits_nonempty _) (perform_outcome env fate w _)).1

/-- A compaction keeps the invariant, and is carried out. -/
theorem Collecting.step (hlaw : env.Lawful) (h : Collecting env keys w)
    (hok : fate.main.ok = true) : Collecting env keys (compaction env w fate) ∧
      ∃ plan, Carried env w (compaction env w fate) plan := by
  rcases compaction_spec hlaw h.sourced hok with ⟨hjam, -⟩ | ⟨plan, hplan⟩
  · exact absurd hjam h.collectable.writable
  · have hkeys := h.sourced.atKeys
    refine ⟨⟨h.sourced.compaction hlaw fate, ?_, ⟨?_, ?_⟩, ?_⟩, plan, hplan⟩
    · rw [options_compaction]
      exact h.enabled
    · exact hplan.copies hkeys h.collectable.copies
    · exact hplan.not_jammed hkeys h.collectable.writable
    · intro k r hr
      have hturned := hplan.turned hkeys k
      rw [hr] at hturned
      generalize hold : w.engine.records[k]? = o at hturned
      cases hturned with
      | kept => exact h.keys k r hold
      | @buried c _ _ => exact h.keys k c hold

omit [Field K] [LinearOrder K] in
/-- A compaction acts where the tombstones are old enough and something is left. -/
theorem Collecting.acts (h : Collecting env keys w) {plan : Plan K}
    (hplan : Swept w.engine (env.clock w.tick) plan) (hage : Aging env 0 w)
    (hleft : 0 < remaining keys w.engine.records) : 0 < plan.actions := by
  have hsome : ∃ k ∈ keys, 0 < burden w.engine.records[k]? := by
    by_contra hnone
    have hzero : remaining keys w.engine.records = 0 := by
      apply List.sum_eq_zero
      intro n hn
      obtain ⟨k, hk, rfl⟩ := List.mem_map.mp hn
      by_contra hpos
      exact hnone ⟨k, hk, Nat.pos_of_ne_zero hpos⟩
    omega
  obtain ⟨k, -, hburden⟩ := hsome
  rcases hr : w.engine.records[k]? with _ | r
  · rw [hr] at hburden
    cases hburden
  · rw [hr, burden] at hburden
    by_cases hdead : r.tombstone = true
    · apply hplan.dead_acted h.enabled
      refine ⟨k, r, hr, ripe_of_le hdead ?_⟩
      have hold := hage k r hr hdead
      omega
    · rw [if_neg hdead] at hburden
      apply hplan.live_acted
      refine ⟨k, r, hr, ?_, by simpa using hdead⟩
      rcases hpin : r.pinned with _ | _
      · rfl
      · rw [hpin] at hburden
        cases hburden

/-- A compaction brings the tombstones nearer to their end, and makes new ones. -/
theorem Carried.aging {w' : World K} {plan : Plan K} (h : Carried env w w' plan)
    (hkeys : AtKeys w.engine.toResident) (hoptions : w'.engine.options = w.engine.options)
    {n : Nat} (hage : Aging env n w) (hspaced : (env.clock w.tick).toNat +
      w.engine.options.tombstoneRetentionMs.toNat < (env.clock w'.tick).toNat) :
    Aging env (n - 1) w' := by
  intro k r hr hdead
  rw [hoptions]
  have hturned := h.turned hkeys k
  rw [hr] at hturned
  generalize hold : w.engine.records[k]? = o at hturned
  cases hturned with
  | kept =>
    have hwas := hage k r hold hdead
    cases n with
    | zero => omega
    | succ n =>
      rw [Nat.succ_mul] at hwas
      rw [Nat.succ_sub_one]
      omega
  | @buried c _ _ =>
    have hdate : (tombstoneOf w.engine c (env.clock w.tick)).updatedAtMs = env.clock w.tick := rfl
    rw [hdate]
    omega

theorem spaced_cons {next : Fate} (h : Spaced env w (fate :: next :: fates)) :
    (env.clock w.tick).toNat + w.engine.options.tombstoneRetentionMs.toNat <
        (env.clock (compaction env w fate).tick).toNat ∧
      Spaced env (compaction env w fate) (next :: fates) := by
  have hchain := List.isChain_cons_cons.mp h
  rw [Spaced, options_compaction]
  exact hchain

/-- Enough compactions leave nothing to act on. -/
theorem Collecting.remaining_eq_zero (hlaw : env.Lawful) (h : Collecting env keys w)
    (hok : ∀ fate ∈ fates, fate.main.ok = true) (hspaced : Spaced env w fates) {n : Nat}
    (hage : fates ≠ [] → Aging env n w)
    (hlength : n + remaining keys w.engine.records ≤ fates.length) :
    Collecting env keys (compactions env w fates) ∧
      remaining keys (compactions env w fates).engine.records = 0 := by
  induction fates generalizing w n with
  | nil =>
    rw [List.length_nil] at hlength
    exact ⟨h, show remaining keys w.engine.records = 0 by omega⟩
  | cons fate fates ih =>
    obtain ⟨h', plan, hplan⟩ := h.step hlaw (hok fate List.mem_cons_self)
    have hkeys := h.sourced.atKeys
    have haging := hage (List.cons_ne_nil _ _)
    have hle := hplan.remaining_le hkeys keys
    rw [List.length_cons] at hlength
    apply ih h' (n := n - 1)
    · exact fun f hf => hok f (List.mem_cons_of_mem _ hf)
    · cases fates with
      | nil => exact List.isChain_nil
      | cons next fates => exact (spaced_cons hspaced).2
    · intro hne
      obtain ⟨next, rest, rfl⟩ := List.exists_cons_of_ne_nil hne
      exact hplan.aging hkeys (options_compaction env w fate) haging (spaced_cons hspaced).1
    · by_cases hn : n = 0
      · subst hn
        by_cases hleft : 0 < remaining keys w.engine.records
        · have hlt := hplan.remaining_lt hkeys h.keys (h.acts hplan.swept haging hleft)
          omega
        · omega
      · omega

omit [Field K] [LinearOrder K] in
theorem le_lastDeath {records : StringMap (MemoryRecord K)} {k : Bytes} {r : MemoryRecord K}
    (hr : records[k]? = some r) (hdead : r.tombstone = true) :
    r.updatedAtMs.toNat ≤ lastDeath records := by
  have hmem : (k, r) ∈ records.toList := Std.ExtTreeMap.mem_toList_iff_getElem?_eq_some.mpr hr
  have hle : ∀ (xs : List Nat) x, x ∈ xs → x ≤ xs.foldr max 0 := by
    intro xs
    induction xs with
    | nil =>
      intro x hx
      cases hx
    | cons y ys ih =>
      intro x hx
      rw [List.foldr_cons]
      rcases List.mem_cons.mp hx with rfl | hx
      · exact Nat.le_max_left _ _
      · exact Nat.le_trans (ih x hx) (Nat.le_max_right _ _)
  apply hle
  apply List.mem_map.mpr
  exact ⟨(k, r), List.mem_filter.mpr ⟨hmem, hdead⟩, rfl⟩

omit [Field K] [LinearOrder K] in
/-- What is resident is old enough once the clock has passed the last tombstone. -/
theorem aging_start (w : World K) : Aging env
    ((lastDeath w.engine.records - (env.clock w.tick).toNat) /
      (w.engine.options.tombstoneRetentionMs.toNat + 1) + 2) w := by
  intro k r hr hdead
  have hlast := le_lastDeath hr hdead
  have hdiv := Nat.lt_div_mul_add (a := lastDeath w.engine.records - (env.clock w.tick).toNat)
    (b := w.engine.options.tombstoneRetentionMs.toNat + 1) (Nat.succ_pos _)
  rw [Nat.add_mul]
  omega

theorem Collecting.cleared (hlaw : env.Lawful) (h : Collecting env w.engine.records.keys w)
    (hok : ∀ fate ∈ fates, fate.main.ok = true) (hspaced : Spaced env w fates)
    (hlength : callsNeeded env w ≤ fates.length) :
    Cleared env (compactions env w fates).store := by
  have hburden := remaining_le w.engine.records.keys w.engine.records
  rw [Std.ExtTreeMap.length_keys] at hburden
  rw [callsNeeded] at hlength
  obtain ⟨hend, hzero⟩ := h.remaining_eq_zero hlaw hok hspaced (fun _ => aging_start w) (by omega)
  intro key hg
  obtain ⟨k, r, hr, hex, -, -⟩ := hend.collectable.copies key hg
  have hterm : burden (compactions env w fates).engine.records[k]? = 0 := by
    apply Nat.le_zero.mp
    rw [← hzero]
    exact List.single_le_sum (fun _ _ => Nat.zero_le _) _
      (List.mem_map.mpr ⟨k, hend.keys k r hr, rfl⟩)
  rw [hr] at hterm
  exact not_expendable_of_burden hterm hex

/-- A row without a copy is there after any number of compactions. -/
theorem garbage_of_stray (hlaw : env.Lawful) (hS : Sourced env NonemptyNames w)
    (hok : ∀ fate ∈ fates, fate.main.ok = true) {key : Bytes} (hg : Garbage env w.store key)
    (hc : ¬ HasCopy env w.engine.records key) :
    Garbage env (compactions env w fates).store key := by
  induction fates generalizing w with
  | nil => exact hg
  | cons fate fates ih =>
    have hrest : ∀ f ∈ fates, f.main.ok = true := fun f hf => hok f (List.mem_cons_of_mem _ hf)
    rcases compaction_spec hlaw hS (hok fate List.mem_cons_self) with
      ⟨-, hrecords, hstore⟩ | ⟨plan, hplan⟩
    · apply ih (hS.compaction hlaw fate) hrest
      · rw [hstore]
        exact hg
      · rw [hrecords]
        exact hc
    · obtain ⟨hg', hc'⟩ := hplan.stray hS.atKeys hg hc
      exact ih (hS.compaction hlaw fate) hrest hg' hc'

omit [LinearOrder K] in
/-- Where memory caches the documents, every resident record to be cleared has a row. -/
theorem Tracked.collectable_iff {t : Traced K} (h : Tracked env t) :
    Collectable env t.world ↔
      ∀ key, Garbage env t.world.store key → HasCopy env t.world.engine.records key := by
  refine ⟨fun hcollect => hcollect.copies, fun hcopies => ⟨hcopies, ?_⟩⟩
  rintro ⟨k, r, hr, hex, hunwritable⟩
  obtain ⟨d, hd, hess⟩ := h.document_held hr
  obtain ⟨-, -, -, -, hdead, hpin⟩ := fields_of_essence hess
  obtain ⟨hk, hname⟩ := h.sourced.held k r hr
  have hrow := h.represents.row _ _ hname
  rw [hd, Option.map_some] at hrow
  obtain ⟨v, hv, hvalue⟩ := Option.map_eq_some_iff.mp hrow
  have hexd : d.Expendable := by
    rw [MemoryRecord.Expendable, ← hpin, ← hdead]
    exact hex
  obtain ⟨k', r', hr', -, hw, hkey⟩ := hcopies _ ⟨v, d, hv, hvalue, hexd⟩
  obtain ⟨hk', hname'⟩ := h.sourced.held k' r' hr'
  obtain ⟨hws, hid⟩ := buildDocKey_inj hname'.2.2.2 hname.2.2.2 hkey
  rw [hk', hws, hid, ← hk, hr] at hr'
  obtain rfl := Option.some.inj hr'
  rw [hunwritable] at hw
  cases hw

/-- After any run: where every row to be cleared has a copy and none of the resident
records stops a compaction, enough compactions clear the rows. Where a row has no copy,
no number of them does. In a regular run the two cases are all there are. -/
theorem compactions_clear (hlaw : env.Lawful) (nodeId : Bytes) (options : MemoryEngineOptions K)
    (steps : List (Step K)) :
    let w := Runs.exec (next env) (World.initial nodeId options) steps
    (w.engine.options.enableTombstoneGc = true → Collectable env w →
      ∀ fates : List Fate, (∀ fate ∈ fates, fate.main.ok = true) → Spaced env w fates →
        callsNeeded env w ≤ fates.length → Cleared env (compactions env w fates).store) ∧
    ((∃ key, Garbage env w.store key ∧ ¬ HasCopy env w.engine.records key) →
      ∀ fates : List Fate, (∀ fate ∈ fates, fate.main.ok = true) →
        ¬ Cleared env (compactions env w fates).store) ∧
    (Runs.Along (Traced.next env) (fun t step => step.Regular env t.world)
        (Traced.initial nodeId options) steps →
      (Collectable env w ∨ ∃ key, Garbage env w.store key ∧ ¬ HasCopy env w.engine.records key)) := by
  intro w
  have hS : Sourced env NonemptyNames w :=
    Runs.invariant_of_forall (R := fun step => step.Admits NonemptyNames)
      (fun _ _ hstep h => (h.step hlaw names_nonempty hstep).1)
      (fun step _ => step.admits_nonempty) (sourced_initial nodeId options)
  refine ⟨?_, ?_, ?_⟩
  · intro hgc hcollect fates hok hspaced hlength
    have h : Collecting env w.engine.records.keys w := by
      refine ⟨hS, hgc, hcollect, ?_⟩
      intro k r hr
      rw [Std.ExtTreeMap.mem_keys, Std.ExtTreeMap.mem_iff_isSome_getElem?, hr]
      rfl
    exact h.cleared hlaw hok hspaced hlength
  · rintro ⟨key, hg, hc⟩ fates hok hcleared
    exact hcleared key (garbage_of_stray hlaw hS hok hg hc)
  · intro hregular
    have htracked : Tracked env
        (Runs.exec (Traced.next env) (Traced.initial nodeId options) steps) :=
      Runs.invariant (fun _ _ hstep h => h.step hlaw hstep) hregular
        (tracked_initial nodeId options)
    have hworld : (Runs.exec (Traced.next env) (Traced.initial nodeId options) steps).world = w :=
      Traced.exec_world env _ steps
    have hiff := htracked.collectable_iff
    rw [hworld] at hiff
    by_cases hcopies : ∀ key, Garbage env w.store key → HasCopy env w.engine.records key
    · exact Or.inl (hiff.mpr hcopies)
    · right
      obtain ⟨key, hkey⟩ := not_forall.mp hcopies
      exact ⟨key, Classical.not_imp.mp hkey⟩

/-! ### A record above the limit -/

/-- A write of one plain record plans to store it. -/
theorem holds_writeDraft_plain (env : Platform K) (w : World K) {input : WriteInput K}
    {recIn : WriteRecordInput K} (hrecs : input.records = [recIn]) (hid : recIn.recordId ≠ [])
    (hcontent : recIn.content ≠ []) (hkey : recIn.dedupKey = []) (hpin : recIn.pin = false)
    (hmeta : recIn.metadata = ∅)
    (hsize : inputSize w.engine input recIn ≤ w.engine.options.maxRecordBytes) :
    Holds (writeDraft env w.engine input) w.cursor
      (fun draft _ => draft.plan.writes ≠ [] ∧ draft.plan.removals = [] ∧
        draft.plan.upserts =
          [newRecord w.engine input recIn (env.clock w.tick) recIn.recordId false])
      (fun _ => False) := by
  have hsuppressed : suppressedBy w.engine input recIn = none := by
    rw [suppressedBy, if_neg (by simp [hkey])]
  have hlength : recIn.recordId.length = inputIdLength recIn := by rw [inputIdLength, if_neg hid]
  have hrecord := sizeBytes_newRecord w.engine input recIn (env.clock w.tick) false hlength
  have hwritable : (recordTree env (newRecord w.engine input recIn (env.clock w.tick)
      recIn.recordId false)).writable = true := by
    apply writable_recordTree
    intro k hk
    have hnone : k ∈ recIn.metadata.keys := hk
    rw [hmeta] at hnone
    simp at hnone
  have hthrows : (recordTree env (newRecord w.engine input recIn (env.clock w.tick)
      recIn.recordId false)).writable = false → ∀ _ : Cursor, False := by
    intro hunwritable _
    rw [hwritable] at hunwritable
    cases hunwritable
  refine holds_bind (holds_advance ?_)
  rw [hrecs, List.foldlM_cons]
  apply holds_bind
  rw [writeRecord, if_neg hcontent, hsuppressed, inputRecordId, if_neg hid]
  apply holds_bind
  apply holds_pure
  rw [governPin, hpin]
  change Holds (if w.engine.options.maxRecordBytes < (newRecord w.engine input recIn
    (env.clock w.tick) recIn.recordId false).sizeBytes then _ else _) _ _ _
  rw [if_neg (by rw [hrecord]; omega)]
  refine holds_bind ((holds_persistRecord_or_unwritable _ _ hthrows).mono ?_ fun _ hE => hE)
  intro rows c _
  refine holds_bind ((holds_appendProjectionEvent_or_unwritable _ _ _ _ hthrows).mono ?_
    fun _ hE => hE)
  intro event c' _
  apply holds_pure
  apply holds_pure
  refine ⟨?_, rfl, rfl⟩
  simp

/-- A single record that is heavier than the limit is evicted. -/
theorem evicted_of_heavy {r : MemoryRecord K} (hpin : r.pinned = false) {limit : Nat}
    (hlimit : limit ≠ 0) (hheavy : limit < estimateResidentCharge r) (tick : Nat) (k : Bytes) :
    ((Resident.empty.upsertRecordInMemory env r).enforceResidentHardLimit env limit
      tick).1.records[k]? = none := by
  have hheld : ∀ (k : Bytes) r', (Resident.empty.upsertRecordInMemory env r).records[k]? = some r' →
      recordMapKey r.workspaceId r.id = k ∧ r = r' := by
    intro k r' hr'
    rw [Resident.records_upsert, lookup_insert] at hr'
    split at hr'
    · rename_i hk
      exact ⟨hk, Option.some.inj hr'⟩
    · simp [Resident.empty] at hr'
  have hkeys : AtKeys (Resident.empty.upsertRecordInMemory env r) := by
    intro k r' hr'
    obtain ⟨hk, rfl⟩ := hheld k r' hr'
    exact hk.symm
  have henforced : Enforced env limit (Resident.empty.upsertRecordInMemory env r) _ :=
    enforced_enforceResidentHardLimit hkeys hlimit tick
  have hlimited := henforced.limited
  have hevicts := evicts_enforceResidentHardLimit env limit
    (Resident.empty.upsertRecordInMemory env r) tick
  generalize ((Resident.empty.upsertRecordInMemory env r).enforceResidentHardLimit env limit
    tick).1 = s' at hlimited hevicts
  have hends : s' = Resident.empty.upsertRecordInMemory env r ∨
      ∀ k : Bytes, s'.records[k]? = none := by
    induction hevicts with
    | refl => exact Or.inl rfl
    | @evict s'' key victim hbefore held _ _ =>
      right
      intro k'
      change (s''.records.erase (recordMapKey victim.workspaceId victim.id))[k']? = none
      rw [lookup_erase]
      split
      · rfl
      · rename_i hne
        rcases hk' : s''.records[k']? with _ | r'
        · rfl
        · obtain ⟨hkey', -⟩ := hheld k' r' (hbefore.subset hk')
          obtain ⟨-, rfl⟩ := hheld key victim (hbefore.subset held)
          exact absurd hkey' hne
  rcases hends with rfl | hnone
  · have hheldr : (Resident.empty.upsertRecordInMemory env r).records[
        recordMapKey r.workspaceId r.id]? = some r := by
      rw [Resident.records_upsert, lookup_insert, if_pos rfl]
    rcases hlimited with hused | hpinned
    · have hcounted : (Resident.empty.upsertRecordInMemory env r).residentUsedBytes =
          estimateResidentCharge r := by
        simp [Resident.upsertRecordInMemory, Resident.empty]
      omega
    · have hpinnedr := hpinned _ r hheldr
      rw [hpin] at hpinnedr
      cases hpinnedr
  · exact hnone k

/-- The row of a record that is heavier than the limit is left without a copy. -/
theorem stray_of_heavy (env : Platform K) (fate : Fate) (nodeId : Bytes) (options : MemoryEngineOptions K)
    (input : WriteInput K) (recIn : WriteRecordInput K) (hws : input.workspaceId ≠ [])
    (hrecs : input.records = [recIn]) (hid : recIn.recordId ≠ []) (hkey : recIn.dedupKey = [])
    (hpin : recIn.pin = false) (hmeta : recIn.metadata = ∅)
    (hsize : inputSize (MemoryEngine.new nodeId options) input recIn ≤ options.maxRecordBytes)
    (hlimit : (MemoryEngine.new nodeId options).residentLimitBytes ≠ 0)
    (hheavy : (MemoryEngine.new nodeId options).residentLimitBytes < recIn.content.length)
    (hok : fate.main.ok = true) :
    let w := (perform env fate (World.initial nodeId options) (.write input)).1
    Garbage env w.store (buildDocKey input.workspaceId recIn.recordId) ∧
      ∀ k : Bytes, w.engine.records[k]? = none := by
  have hcontent : recIn.content ≠ [] := by
    intro hnil
    rw [hnil] at hheavy
    cases hheavy
  have hplain := holds_writeDraft_plain env (World.initial nodeId options) hrecs hid hcontent hkey
    hpin hmeta hsize
  rcases hrun : writeDraft env (World.initial nodeId options).engine input
    (World.initial nodeId options).cursor with ⟨_ | draft, c⟩
  · exact (hplain.thrown c hrun).elim
  obtain ⟨hwrites, hremovals, hupserts⟩ := hplain.returned draft c hrun
  obtain ⟨items, hd⟩ := (holds_writeDraft env (World.initial nodeId options) hws).returned draft c hrun
  have hperform : (perform env fate (World.initial nodeId options) (.write input)).1 =
      settleWrite env fate.route input draft
        (((World.initial nodeId options).atCursor c).commit fate.main draft.plan) := by
    simp only [perform, write]
    rw [if_neg hws, if_neg (by simp [hrecs]), hrun]
    dsimp only
    rw [if_neg hwrites, if_pos hok]
  generalize hr : newRecord (World.initial nodeId options).engine input recIn
    (env.clock (World.initial nodeId options).tick) recIn.recordId false = r at hupserts
  intro w
  constructor
  · have hchanges := hd.drafted.changes
    rw [Plan.changes, hupserts, hremovals] at hchanges
    obtain ⟨item, rfl, hitem⟩ : ∃ item, items = [item] ∧ item.change = .put r := by
      rcases items with _ | ⟨item, _ | ⟨second, rest⟩⟩
      · cases hchanges
      · exact ⟨item, rfl, (List.cons.inj hchanges).1.symm⟩
      · cases (List.cons.inj hchanges).2
    have htable : w.store.table docNs = (∅ : Table).apply [docEntry r (recordText env r)] := by
      change (perform env fate (World.initial nodeId options) (.write input)).1.store.table docNs = _
      rw [hperform]
      change (Store.batchWrite _ fate.route [routeEntry env input.workspaceId draft.nowMs]).table
        docNs = _
      rw [table_routeWrite env _ _ _ _ docNs_ne_routeMetaNs]
      change ((World.initial nodeId options).store.batchWrite fate.main draft.plan.writes).table
        docNs = _
      rw [Store.batchWrite_of_ok _ hok, Store.table_apply, hd.drafted.logs.docs]
      simp only [List.map_cons, List.map_nil, LogItem.docEntry, hitem]
      rfl
    refine ⟨⟨recordText env r, r.updatedAtMs⟩, r, ?_, rfl, ?_⟩
    · rw [htable, ← hr]
      exact (lookup_insert _ _ _ _).trans (if_pos rfl)
    · rw [← hr]
      exact Or.inl rfl
  · intro k
    have hresident : w.engine.toResident = ((draft.plan.applyInMemory env
        Resident.empty).enforceResidentHardLimit env
          (MemoryEngine.new nodeId options).residentLimitBytes c.tick).1 := by
      change (perform env fate (World.initial nodeId options) (.write input)).1.engine.toResident = _
      rw [hperform]
      rfl
    have happly : draft.plan.applyInMemory env Resident.empty =
        Resident.empty.upsertRecordInMemory env r := by
      rw [Plan.applyInMemory, hupserts, hremovals]
      rfl
    rw [hresident, happly]
    apply evicted_of_heavy
    · rw [← hr]
      rfl
    · exact hlimit
    · have hlong : recIn.content.length ≤ r.sizeBytes := by
        rw [← hr]
        simp only [newRecord, computeRecordSizeBytes, recordTextBytes]
        omega
      rw [estimateResidentCharge, if_pos (by omega)]
      omega

end Runs

section Examples
open Reference

/-- Tombstones may be dropped at once. -/
def eager : MemoryEngineOptions ℚ := { options with tombstoneRetentionMs := 0 }

/-- An unpinned record is buried and dropped. -/
theorem compactions_clear_put :
    Cleared (platform ticking) (compactions (platform ticking)
      (Runs.exec (next (platform ticking)) (World.initial (ascii "node") eager)
        [.call (put (ascii "w") (ascii "a") (ascii "x")) applied])
      (List.replicate 4 applied)).store := by
  have hclear := compactions_clear (lawful_platform ticking) (ascii "node") eager
    [.call (put (ascii "w") (ascii "a") (ascii "x")) applied]
  apply hclear.1
  · decide
  · have hrows : ((Runs.exec (next (platform ticking)) (World.initial (ascii "node") eager)
        [.call (put (ascii "w") (ascii "a") (ascii "x")) applied]).store.table docNs).toList.map
          Prod.fst = [buildDocKey (ascii "w") (ascii "a")] := by decide
    have hheld : ((Runs.exec (next (platform ticking)) (World.initial (ascii "node") eager)
        [.call (put (ascii "w") (ascii "a") (ascii "x")) applied]).engine.records.toList.map
          fun kv => (kv.2.pinned, (recordTree (platform ticking) kv.2).writable,
            buildDocKey kv.2.workspaceId kv.2.id)) =
        [(false, true, buildDocKey (ascii "w") (ascii "a"))] := by decide
    constructor
    · rintro key ⟨v, r, hv, -, -⟩
      have hkey : key ∈ [buildDocKey (ascii "w") (ascii "a")] := by
        rw [← hrows]
        exact List.mem_map.mpr ⟨(key, v), Std.ExtTreeMap.mem_toList_iff_getElem?_eq_some.mpr hv, rfl⟩
      obtain rfl := List.mem_singleton.mp hkey
      obtain ⟨kv, hkv, hfields⟩ := List.mem_map.mp (hheld ▸ List.mem_singleton_self _)
      simp only [Prod.mk.injEq] at hfields
      exact ⟨kv.1, kv.2, Std.ExtTreeMap.mem_toList_iff_getElem?_eq_some.mp hkv, Or.inl hfields.1,
        hfields.2.1, hfields.2.2⟩
    · rintro ⟨k, r, hr, -, hw⟩
      have hmem := List.mem_map_of_mem
        (f := fun kv : Bytes × MemoryRecord ℚ => (kv.2.pinned,
          (recordTree (platform ticking) kv.2).writable, buildDocKey kv.2.workspaceId kv.2.id))
        (Std.ExtTreeMap.mem_toList_iff_getElem?_eq_some.mpr hr)
      rw [hheld, List.mem_singleton] at hmem
      simp only [Prod.mk.injEq] at hmem
      rw [hw] at hmem
      cases hmem.2.1
  · intro fate hfate
    rw [List.eq_of_mem_replicate hfate]
    rfl
  · decide
  · decide

/-- One megabyte of resident records, and larger ones allowed. -/
def tight : MemoryEngineOptions ℚ := { options with memBudgetMb := 1, maxRecordBytes := 4194304 }

def largeInput (content : Bytes) : WriteInput ℚ :=
  ⟨ascii "w", [], [recordInput (ascii "a") content []], ascii "upsert"⟩

/-- A record of more than a megabyte is evicted at once, and no compaction deletes its row. -/
theorem not_cleared_large {content : Bytes} (hheavy : 1048576 < content.length)
    (hfits : content.length ≤ 4000000) (fates : List Fate)
    (hok : ∀ fate ∈ fates, fate.main.ok = true) :
    ¬ Cleared (platform ticking) (compactions (platform ticking)
      (Runs.exec (next (platform ticking)) (World.initial (ascii "node") tight)
        [.call (.write (largeInput content)) applied]) fates).store := by
  have hlimit : (MemoryEngine.new (ascii "node") tight).residentLimitBytes = 1048576 := by decide
  have hsize : inputSize (MemoryEngine.new (ascii "node") tight) (largeInput content)
      (recordInput (ascii "a") content []) ≤ tight.maxRecordBytes := by
    have hrest : inputSize (MemoryEngine.new (ascii "node") tight) (largeInput content)
        (recordInput (ascii "a") content []) = content.length +
          inputSize (MemoryEngine.new (ascii "node") tight) (largeInput [])
            (recordInput (ascii "a") [] []) := by
      have hid : ∀ text, inputIdLength (recordInput (ascii "a") text []) = 1 := fun _ => rfl
      rw [inputSize, inputSize, hid, hid]
      simp only [newRecord, computeRecordSizeBytes, recordTextBytes, recordInput, largeInput,
        List.length_nil]
      omega
    have hbare : inputSize (MemoryEngine.new (ascii "node") tight) (largeInput [])
        (recordInput (ascii "a") [] []) = 404 := by decide
    have hmax : tight.maxRecordBytes = 4194304 := rfl
    omega
  have hstray := stray_of_heavy (platform ticking) applied (ascii "node") tight
    (largeInput content) (recordInput (ascii "a") content []) (by simp [largeInput, ascii]) rfl
    (by simp [recordInput, ascii]) rfl rfl rfl hsize (by rw [hlimit]; decide)
    (by rw [hlimit]; exact hheavy) rfl
  have hS : Sourced (platform ticking) NonemptyNames
      (perform (platform ticking) applied (World.initial (ascii "node") tight)
        (.write (largeInput content))).1 :=
    ((sourced_initial (ascii "node") tight).call (lawful_platform ticking) names_nonempty
      (call_admits_nonempty _) (perform_outcome _ _ _ _)).1
  rw [Runs.exec_cons, Runs.exec_nil, next]
  intro hcleared
  apply hcleared _ (garbage_of_stray (lawful_platform ticking) hS hok hstray.1 _)
  rintro ⟨k, r, hr, -⟩
  rw [hstray.2 k] at hr
  cases hr

/-- No number of compactions whose batches succeed clears the rows. -/
def NeverCleared (env : Platform ℚ) (w : World ℚ) : Prop :=
  ∀ fates : List Fate, (∀ fate ∈ fates, fate.main.ok = true) →
    ¬ Cleared env (compactions env w fates).store

/-- Two megabytes of text. -/
theorem not_cleared_two_megabytes : NeverCleared (platform ticking)
    (Runs.exec (next (platform ticking)) (World.initial (ascii "node") tight)
      [.call (.write (largeInput (List.replicate 2097152 97))) applied]) := by
  intro fates hok
  have hlength : (List.replicate 2097152 (97 : UInt8)).length = 2097152 := List.length_replicate
  exact not_cleared_large (by rw [hlength]; decide) (by rw [hlength]; decide) fates hok

end Examples

end PoorguyMem
