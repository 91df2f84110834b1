import PoorguyMem.Pinning
import PoorguyMem.Recovery

/-!
# Loading a row

`Warmup` and `LoadRecord` decode a document row on their own. Warmup takes missing names
from the key and fills in a missing time of access and tier; `LoadRecord` leaves them
missing, and a pin of such a record stores it under another key.
-/

namespace PoorguyMem

open ByteString Throwing PropertyTree

variable {K : Type}

/-- The entry that a scan gives for a document row. -/
def docRow (workspaceId memoryId : Bytes) (v : StoredValue) : KeyValueEntry :=
  ⟨docNs, buildDocKey workspaceId memoryId, v.value, v.ts⟩

section Rows
variable [Field K] [LinearOrder K]

/-- Every batch that a pin of a name draws up writes one document row, that of the name. -/
def RewritesOnly (env : Platform K) (w : World K) (workspaceId memoryId : Bytes) : Prop :=
  ∀ flag plan c, pinDraft env w.engine w.store.reader workspaceId memoryId flag w.cursor =
    (some (.ok plan), c) → ∃ write, Store.restrict docNs plan.writes = [write] ∧
      write.entry.key = buildDocKey workspaceId memoryId

/-- A row is loaded as Warmup installs it, and pinned in its place. -/
structure LoadsAlike (env : Platform K) (w : World K) (workspaceId memoryId : Bytes)
    (v : StoredValue) : Prop where
  same : ∃ r, loadRecord env w.engine w.store.reader workspaceId memoryId = .ok r ∧
    rowRecord env (docRow workspaceId memoryId v) = some r
  pinned : RewritesOnly env w workspaceId memoryId

omit [LinearOrder K] in
/-- A row says all that the two paths fill in differently: its names, its tier and, if it has
a date, its time of access; and the names are those of its key, if it can be written again. -/
structure Complete (env : Platform K) (workspaceId memoryId : Bytes) (r : MemoryRecord K) :
    Prop where
  workspace : r.workspaceId ≠ []
  id : r.id ≠ []
  accessed : r.lastAccessMs = 0 → r.updatedAtMs = 0
  tier : r.tier ≠ []
  inPlace : (recordTree env r).writable = true →
    buildDocKey r.workspaceId r.id = buildDocKey workspaceId memoryId

variable {env : Platform K} {w : World K} {workspaceId memoryId : Bytes} {v : StoredValue}
  {r : MemoryRecord K}

omit [LinearOrder K] in
/-- A row that is not resident is loaded as it decodes. -/
theorem loadRecord_of_row (hnone : w.engine.records[recordMapKey workspaceId memoryId]? = none)
    (hv : (w.store.table docNs)[buildDocKey workspaceId memoryId]? = some v)
    (hd : deserializeRecord env v.value = some r) :
    loadRecord env w.engine w.store.reader workspaceId memoryId = .ok r := by
  have hget : w.store.reader.get docNs (buildDocKey workspaceId memoryId) =
      ⟨true, v.value, []⟩ := by
    change w.store.get docNs (buildDocKey workspaceId memoryId) = _
    rw [Store.get, hv]
  rw [loadRecord, hnone]
  dsimp only
  rw [hget, hd]
  rfl

omit [LinearOrder K] in
theorem sizeBytes_of_deserialize (hd : deserializeRecord env v.value = some r) :
    r.sizeBytes ≠ 0 := by
  obtain ⟨t, -, rfl⟩ := Option.map_eq_some_iff.mp hd
  rw [fillSizeBytes]
  split
  · exact Nat.ne_of_gt (computeRecordSizeBytes_pos _)
  · assumption

omit [Field K] [LinearOrder K] in
/-- Warmup fills in nothing where the names, the access and the tier are there. -/
theorem fillDefaults_eq_iff (hsize : r.sizeBytes ≠ 0) :
    fillDefaults r = r ↔ (r.lastAccessMs = 0 → r.updatedAtMs = 0) ∧ r.tier ≠ [] := by
  rw [fillDefaults, fillSizeBytes, if_neg hsize]
  constructor
  · intro h
    have haccess := congrArg MemoryRecord.lastAccessMs h
    have htier := congrArg MemoryRecord.tier h
    dsimp only at haccess htier
    constructor
    · intro hzero
      rw [if_pos hzero, hzero] at haccess
      exact haccess
    · intro hnil
      rw [if_pos hnil, hnil] at htier
      split at htier
      · exact absurd htier (by decide)
      · exact absurd htier (by decide)
  · rintro ⟨haccess, htier⟩
    have hsame : (if r.lastAccessMs = 0 then r.updatedAtMs else r.lastAccessMs) = r.lastAccessMs := by
      split
      · rename_i hzero
        rw [haccess hzero, hzero]
      · rfl
    rw [if_neg htier, hsame]

omit [LinearOrder K] in
/-- A row that names itself is installed with its own names. -/
theorem rowRecord_of_named (hd : deserializeRecord env v.value = some r)
    (hws : r.workspaceId ≠ []) (hid : r.id ≠ []) :
    rowRecord env (docRow workspaceId memoryId v) = some (fillDefaults r) := by
  rw [rowRecord, docRow, hd, Option.bind_some]
  dsimp only
  rw [if_neg hws, if_neg hid, if_neg (by simp [hws, hid])]

omit [LinearOrder K] in
/-- What Warmup installs has names. -/
theorem named_of_rowRecord {row : KeyValueEntry} (h : rowRecord env row = some r) :
    r.workspaceId ≠ [] ∧ r.id ≠ [] := by
  obtain ⟨d, -, hd⟩ := Option.bind_eq_some_iff.mp h
  dsimp only at hd
  generalize (if d.workspaceId = [] then workspaceFromDocKey row.key else d.workspaceId) = ws at hd
  generalize (if d.id = [] then memoryIdFromDocKey row.key else d.id) = id at hd
  by_cases hnamed : id = [] ∨ ws = []
  · rw [if_pos hnamed] at hd
    cases hd
  · rw [if_neg hnamed] at hd
    obtain ⟨hid, hws⟩ := not_or.mp hnamed
    cases hd
    constructor
    · rw [fillDefaults, fillSizeBytes]
      split <;> exact hws
    · rw [fillDefaults, fillSizeBytes]
      split <;> exact hid

omit [LinearOrder K] in
theorem loads_same_iff (hnone : w.engine.records[recordMapKey workspaceId memoryId]? = none)
    (hv : (w.store.table docNs)[buildDocKey workspaceId memoryId]? = some v)
    (hd : deserializeRecord env v.value = some r) :
    (∃ r, loadRecord env w.engine w.store.reader workspaceId memoryId = .ok r ∧
      rowRecord env (docRow workspaceId memoryId v) = some r) ↔
      r.workspaceId ≠ [] ∧ r.id ≠ [] ∧ (r.lastAccessMs = 0 → r.updatedAtMs = 0) ∧ r.tier ≠ [] := by
  have hload := loadRecord_of_row hnone hv hd
  have hsize := sizeBytes_of_deserialize hd
  constructor
  · rintro ⟨r', hload', hrow⟩
    cases hload.symm.trans hload'
    obtain ⟨hws, hid⟩ := named_of_rowRecord hrow
    have hfill := Option.some.inj ((rowRecord_of_named hd hws hid).symm.trans hrow)
    exact ⟨hws, hid, (fillDefaults_eq_iff hsize).mp hfill⟩
  · rintro ⟨hws, hid, hfill⟩
    refine ⟨r, hload, ?_⟩
    rw [rowRecord_of_named hd hws hid, (fillDefaults_eq_iff hsize).mpr hfill]

/-- The one document row of a pin is under the names of the record that was loaded. -/
theorem Pinning.restrict_docs {flag : Bool} {plan : Plan K} {c : Cursor}
    (h : Pinning env w workspaceId memoryId flag r plan c) (hws : r.workspaceId ≠ []) :
    ∃ write, Store.restrict docNs plan.writes = [write] ∧
      write.entry.key = buildDocKey r.workspaceId r.id := by
  have hnamed : ∀ loaded, loadRecord env w.engine w.store.reader workspaceId memoryId =
      .ok loaded → loaded.workspaceId ≠ [] := by
    intro loaded hload
    cases h.load.symm.trans hload
    exact hws
  obtain ⟨-, hplan⟩ := (holds_pinDraft env flag hnamed).returned _ _ h.draft
  obtain ⟨items, hitems⟩ := hplan plan rfl
  have hchanges := hitems.changes
  rw [Plan.changes, h.upserts, h.removals] at hchanges
  obtain ⟨item, rfl, hitem⟩ := List.map_eq_singleton_iff.mp hchanges.symm
  refine ⟨item.docEntry env, hitems.logs.docs, ?_⟩
  rw [LogItem.docEntry, hitem]
  rfl

theorem rewritesOnly_iff
    (hload : loadRecord env w.engine w.store.reader workspaceId memoryId = .ok r)
    (hws : r.workspaceId ≠ []) :
    RewritesOnly env w workspaceId memoryId ↔ ((recordTree env r).writable = true →
      buildDocKey r.workspaceId r.id = buildDocKey workspaceId memoryId) := by
  constructor
  · intro h hwritable
    -- an unpin is never refused
    have hdraft := @holds_pinDraft_loaded _ _ _ env w workspaceId memoryId _ false w.cursor hload rfl
    cases pinDrawn env w workspaceId memoryId false with
    | missing load => cases hload.symm.trans load
    | refused load refusal => exact absurd rfl refusal
    | unwritable load unwritable =>
      cases hload.symm.trans load
      cases hwritable.symm.trans unwritable
    | drawn pinning =>
      cases hload.symm.trans pinning.load
      obtain ⟨write, hwrite, hkey⟩ := pinning.restrict_docs hws
      obtain ⟨write', hwrite', hkey'⟩ := h _ _ _ pinning.draft
      cases hwrite.symm.trans hwrite'
      rw [← hkey, hkey']
  · intro h flag plan c hdraft
    cases pinDrawn env w workspaceId memoryId flag with
    | missing load => cases hload.symm.trans load
    | refused load refusal draft => cases hdraft.symm.trans draft
    | unwritable load unwritable draft => cases hdraft.symm.trans draft
    | drawn pinning =>
      cases hload.symm.trans pinning.load
      cases hdraft.symm.trans pinning.draft
      obtain ⟨write, hwrite, hkey⟩ := pinning.restrict_docs hws
      exact ⟨write, hwrite, hkey.trans (h pinning.writable)⟩

/-- A row is loaded alike by the two paths exactly if it is complete. -/
theorem loadsAlike_iff (hnone : w.engine.records[recordMapKey workspaceId memoryId]? = none)
    (hv : (w.store.table docNs)[buildDocKey workspaceId memoryId]? = some v)
    (hd : deserializeRecord env v.value = some r) :
    LoadsAlike env w workspaceId memoryId v ↔ Complete env workspaceId memoryId r := by
  have hsame := loads_same_iff hnone hv hd
  have hpinned := rewritesOnly_iff (loadRecord_of_row hnone hv hd)
  constructor
  · intro h
    obtain ⟨hws, hid, haccess, htier⟩ := hsame.mp h.same
    exact ⟨hws, hid, haccess, htier, (hpinned hws).mp h.pinned⟩
  · intro h
    exact ⟨hsame.mpr ⟨h.workspace, h.id, h.accessed, h.tier⟩,
      (hpinned h.workspace).mpr h.inPlace⟩

end Rows

section Examples
open Reference

/-- A row with the given fields. -/
def fieldsRow (fields : List (Bytes × Bytes)) : StoredValue :=
  ⟨(platform ticking).json.print (flatTree fields), 1⟩

/-- A store with one document row, before anything is resident. -/
def seeded (v : StoredValue) : World ℚ :=
  { initial with
    store := initial.store.applyEntry (upsertEntry docNs (buildDocKey (ascii "w") (ascii "a"))
      v.value v.ts) }

/-- A document that says only what it is about. -/
def bare : List (Bytes × Bytes) := [(ascii "content", ascii "hello")]

/-- A document that says whose it is as well. -/
def named : List (Bytes × Bytes) :=
  [(ascii "id", ascii "a"), (ascii "workspace_id", ascii "w")] ++ bare

theorem seeded_row (v : StoredValue) :
    ((seeded v).store.table docNs)[buildDocKey (ascii "w") (ascii "a")]? = some v := by
  change (Function.update initial.store.table docNs _ docNs)[_]? = _
  rw [Function.update_self]
  exact Std.ExtTreeMap.getElem?_insert_self

theorem seeded_resident (v : StoredValue) (k : Bytes) : (seeded v).engine.records[k]? = none :=
  Std.ExtTreeMap.getElem?_empty

theorem deserialize_fieldsRow {fields : List (Bytes × Bytes)}
    (h : (flatTree fields).writable = true) :
    deserializeRecord (platform ticking) (fieldsRow fields).value =
      some (fillSizeBytes (readRecord translators (flatTree fields))) := by
  have hparse : (platform ticking).json.parse (fieldsRow fields).value = some (flatTree fields) :=
    JsonText.parse_print h
  rw [deserializeRecord, hparse]
  rfl

/-- The row says nothing of its names: Warmup takes them from the key, a load does not. -/
theorem not_loadsAlike_bare :
    ¬ LoadsAlike (platform ticking) (seeded (fieldsRow bare)) (ascii "w") (ascii "a")
      (fieldsRow bare) := by
  rintro ⟨⟨r, hload, hrow⟩, -⟩
  have hd := @deserialize_fieldsRow bare (by decide)
  cases hload.symm.trans (loadRecord_of_row (seeded_resident _ _) (seeded_row _) hd)
  exact absurd rfl (named_of_rowRecord hrow).1

theorem loadsAlike_named :
    LoadsAlike (platform ticking) (seeded (fieldsRow named)) (ascii "w") (ascii "a")
      (fieldsRow named) :=
  (loadsAlike_iff (seeded_resident _ _) (seeded_row _) (deserialize_fieldsRow (by decide))).mpr
    { workspace := by decide
      id := by decide
      accessed := fun _ => by decide
      tier := by decide
      inPlace := fun _ => by decide }

end Examples

end PoorguyMem
