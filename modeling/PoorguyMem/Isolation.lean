import PoorguyMem.Mirror

/-!
# Workspaces

A call for one workspace touches the documents, the resident records and the
dedup mappings of that workspace alone, as long as no key of it is a key of
another workspace. Keys are joined without escaping, so this is a condition on
the workspace names: `Separated`.
-/

namespace PoorguyMem

open ByteString

variable {K : Type}

/-- The workspace a call is made for. -/
def Call.workspace : Call K → Option Bytes
  | .write input => some input.workspaceId
  | .query input => some input.workspaceId
  | .pin workspaceId _ _ => some workspaceId
  | .compact workspaceId => some workspaceId
  | .gc => none

/-- A record of a state: it is held, or a document row decodes to it. -/
def World.Knows [One K] (w : World K) (env : Platform K) (r : MemoryRecord K) : Prop :=
  (∃ k : Bytes, w.engine.records[k]? = some r) ∨
    ∃ k : Bytes, ∃ v, (w.store.table docNs)[k]? = some v ∧ deserializeRecord env v.value = some r

/-- The records of the other workspaces keep their rows, their resident entries,
up to evictions, and the mappings of their dedup keys. -/
structure Undisturbed [One K] (env : Platform K) (workspaceId : Bytes) (w w' : World K) :
    Prop where
  docs : ∀ (k : Bytes) v r, (w.store.table docNs)[k]? = some v →
    deserializeRecord env v.value = some r → r.workspaceId ≠ workspaceId →
    (w'.store.table docNs)[k]? = some v
  held : ∀ (k : Bytes) r, w.engine.records[k]? = some r → r.workspaceId ≠ workspaceId →
    w'.engine.records[k]? = some r ∨ w'.engine.records[k]? = none ∧ r.pinned = false
  dedup : ∀ r, w.Knows env r → r.workspaceId ≠ workspaceId → r.dedupKey ≠ [] →
    w'.engine.dedupIndex[dedupMapKey r.workspaceId r.dedupKey]? =
      w.engine.dedupIndex[dedupMapKey r.workspaceId r.dedupKey]?

/-- A call for a workspace leaves the others alone, and a pin loads its own record. -/
structure Isolates [Field K] [LinearOrder K] (env : Platform K) (w : World K) (call : Call K)
    (fate : Fate) (workspaceId : Bytes) : Prop where
  undisturbed : Undisturbed env workspaceId w (perform env fate w call).1
  loaded : ∀ memoryId flag, call = .pin workspaceId memoryId flag → ∀ r,
    loadRecord env w.engine w.store.reader workspaceId memoryId = .ok r →
      r.workspaceId = workspaceId

/-- The names of the workspaces keep their keys apart. -/
def SeparatedNames (W : Bytes → Prop) : Prop :=
  ∀ w v, W w → W v → w ≠ v → Separated w v

/-- The names a run over the workspaces `W` gives. -/
def NamesIn (W : Bytes → Prop) (workspaceId memoryId : Bytes) : Prop :=
  workspaceId ≠ [] ∧ memoryId ≠ [] ∧ W workspaceId

theorem names_namesIn (W : Bytes → Prop) : Names (NamesIn W) := ⟨fun h => h.1, fun h => h.2.1⟩

/-! ### Updates of one workspace -/

theorem lookup_foldl_noteAccess {workspaceId : Bytes} {nowMs : UInt64} {hits : List (QueryHit K)}
    {records : StringMap (MemoryRecord K)} {k : Bytes}
    (hk : ∀ id, recordMapKey workspaceId id ≠ k) :
    (hits.foldl (noteAccess workspaceId nowMs) records)[k]? = records[k]? := by
  induction hits generalizing records with
  | nil => rfl
  | cons hit hits ih =>
    rw [List.foldl_cons, ih]
    unfold noteAccess
    dsimp only
    split
    · rfl
    · split
      · rfl
      · exact lookup_insert_ne _ (hk _)

section Changes
variable [Field K] [LinearOrder K] {env : Platform K} {workspaceId : Bytes}
  {changes : List (Change K)}

/-- Changes to one workspace leave the entries at other keys as they are. -/
theorem records_foldl_applyChange {s : Resident K} {k : Bytes}
    (hws : ∀ change ∈ changes, change.record.workspaceId = workspaceId)
    (hk : ∀ id, recordMapKey workspaceId id ≠ k) :
    (changes.foldl (Resident.applyChange env) s).records[k]? = s.records[k]? := by
  induction changes generalizing s with
  | nil => rfl
  | cons change changes ih =>
    have hchange := hws change List.mem_cons_self
    refine (ih fun c hc => hws c (List.mem_cons_of_mem _ hc)).trans ?_
    cases change with
    | put r =>
      refine (congrArg (·[k]?) (Resident.records_upsert env s r)).trans (lookup_insert_ne _ ?_)
      rw [show r.workspaceId = workspaceId from hchange]
      exact hk r.id
    | drop r =>
      refine (congrArg (·[k]?) (Resident.records_remove s r)).trans (lookup_erase_ne ?_)
      rw [show r.workspaceId = workspaceId from hchange]
      exact hk r.id

theorem dedupIndex_foldl_applyChange {s : Resident K} {k : Bytes}
    (hws : ∀ change ∈ changes, change.record.workspaceId = workspaceId)
    (hk : ∀ key, dedupMapKey workspaceId key ≠ k) :
    (changes.foldl (Resident.applyChange env) s).dedupIndex[k]? = s.dedupIndex[k]? := by
  induction changes generalizing s with
  | nil => rfl
  | cons change changes ih =>
    have hchange := hws change List.mem_cons_self
    refine (ih fun c hc => hws c (List.mem_cons_of_mem _ hc)).trans ?_
    cases change with
    | put r =>
      refine (congrArg (·[k]?) (Resident.dedupIndex_upsert env s r)).trans ?_
      split
      · rfl
      · refine lookup_insert_ne _ ?_
        rw [show r.workspaceId = workspaceId from hchange]
        exact hk r.dedupKey
    | drop r =>
      change (s.removeRecordInMemory r).dedupIndex[k]? = _
      rcases hheld : s.records[recordMapKey r.workspaceId r.id]? with _ | held
      · rw [Resident.dedupIndex_remove_of_none s r hheld]
      · rw [Resident.dedupIndex_remove_of_some s r hheld]
        split
        · rfl
        · refine lookup_erase_ne ?_
          rw [show r.workspaceId = workspaceId from hchange]
          exact hk held.dedupKey

end Changes

/-! ### Calls -/

section Calls
variable [Field K] [LinearOrder K] {env : Platform K} {W : Bytes → Prop} {w : World K}
  {workspaceId : Bytes}

omit [LinearOrder K] in
/-- A pin of a workspace loads a record of it. -/
theorem workspace_loaded (hlaw : env.Lawful) (hW : SeparatedNames W)
    (hS : Sourced env (NamesIn W) w) (hws : W workspaceId) {memoryId : Bytes}
    {r : MemoryRecord K}
    (h : loadRecord env w.engine w.store.reader workspaceId memoryId = .ok r) :
    r.workspaceId = workspaceId := by
  by_contra hne
  rcases loadRecord_cases h with hheld | ⟨-, v, hv, hd⟩
  · obtain ⟨hkey, hname⟩ := hS.held _ r hheld
    exact (hW _ _ hws hname.2.2 (Ne.symm hne)).recordMapKey_ne memoryId r.id hkey
  · obtain ⟨r₀, hkey, hvalue, hw, hname⟩ := hS.docs _ v hv
    rw [hvalue] at hd
    rw [(deserialize_serialize hlaw hw hd).1.names.1] at hne
    exact (hW _ _ hws hname.2.2 (Ne.symm hne)).buildDocKey_ne memoryId r₀.id hkey

/-- A call for a workspace produces changes of it. -/
theorem workspace_produced (hlaw : env.Lawful) (hW : SeparatedNames W)
    (hS : Sourced env (NamesIn W) w) {call : Call K} (hcall : call.workspace = some workspaceId)
    (hws : W workspaceId) (hne : workspaceId ≠ []) {nowMs : UInt64} {change : Change K}
    (h : Produces env w nowMs call change) : change.record.workspaceId = workspaceId := by
  have inside : ∀ {v : Bytes} {candidate : MemoryRecord K}, call.compacts = some v →
      inScope v candidate → candidate.workspaceId = workspaceId := by
    intro v candidate hv hscope
    cases call with
    | compact workspaceId =>
      obtain rfl := Option.some.inj hcall
      obtain rfl := Option.some.inj hv
      simpa [inScope, hne] using hscope
    | gc => cases hcall
    | _ => cases hv
  cases h with
  | new => exact Option.some.inj hcall
  | pinned load =>
    obtain rfl := Option.some.inj hcall
    have hloaded := workspace_loaded hlaw hW hS hws load
    exact hloaded
  | tombstoned compacts _ scope => exact inside compacts scope
  | dropped compacts _ scope => exact inside compacts scope

omit [LinearOrder K] in
theorem Sourced.names_known (hlaw : env.Lawful) (hS : Sourced env (NamesIn W) w)
    {r : MemoryRecord K} (h : w.Knows env r) : W r.workspaceId := by
  rcases h with ⟨k, hr⟩ | ⟨k, v, hv, hd⟩
  · exact (hS.held k r hr).2.2.2
  · obtain ⟨r₀, -, hvalue, hw, hname⟩ := hS.docs k v hv
    rw [hvalue] at hd
    rw [(deserialize_serialize hlaw hw hd).1.names.1]
    exact hname.2.2

omit [LinearOrder K] in
/-- A world whose documents, records and mappings are the same at the keys of
other workspaces, up to evictions, leaves them undisturbed. -/
theorem undisturbed_of_keys (hlaw : env.Lawful) (hW : SeparatedNames W)
    (hS : Sourced env (NamesIn W) w) (hws : W workspaceId) {w' : World K}
    (hdocs : ∀ k : Bytes, (∀ id, buildDocKey workspaceId id ≠ k) →
      (w'.store.table docNs)[k]? = (w.store.table docNs)[k]?)
    (hheld : ∀ (k : Bytes) r, (∀ id, recordMapKey workspaceId id ≠ k) →
      w.engine.records[k]? = some r →
      w'.engine.records[k]? = some r ∨ w'.engine.records[k]? = none ∧ r.pinned = false)
    (hdedup : ∀ k : Bytes, (∀ key, dedupMapKey workspaceId key ≠ k) →
      w'.engine.dedupIndex[k]? = w.engine.dedupIndex[k]?) :
    Undisturbed env workspaceId w w' where
  docs k v r hv hd hne := by
    obtain ⟨r₀, rfl, hvalue, hw, hname⟩ := hS.docs k v hv
    rw [hvalue] at hd
    rw [(deserialize_serialize hlaw hw hd).1.names.1] at hne
    refine (hdocs _ fun id => ?_).trans hv
    exact (hW _ _ hws hname.2.2 (Ne.symm hne)).buildDocKey_ne id r₀.id
  held k r hr hne := by
    obtain ⟨rfl, hname⟩ := hS.held k r hr
    refine hheld _ r (fun id => ?_) hr
    exact (hW _ _ hws hname.2.2 (Ne.symm hne)).recordMapKey_ne id r.id
  dedup r hr hne _ := by
    refine hdedup _ fun key => ?_
    exact (hW _ _ hws (hS.names_known hlaw hr) (Ne.symm hne)).dedupMapKey_ne key r.dedupKey

/-- What a batch of one workspace does to the documents of others: nothing. -/
theorem docs_commit {call : Call K} {c : Cursor} {plan : Plan K} {items : List (LogItem K)}
    (h : Drafted env w call c plan items)
    (hitems : ∀ item ∈ items, item.record.workspaceId = workspaceId) (outcome : BatchOutcome)
    {k : Bytes} (hk : ∀ id, buildDocKey workspaceId id ≠ k) :
    ((w.store.batchWrite outcome plan.writes).table docNs)[k]? =
      (w.store.table docNs)[k]? := by
  rw [Store.table_batchWrite]
  refine Table.lookup_apply_of_notMem fun e he => ?_
  have hmem := BatchOutcome.mem_effective he
  rw [h.logs.docs] at hmem
  obtain ⟨item, hitem, rfl⟩ := List.mem_map.mp hmem
  have hws := hitems item hitem
  have hkey : (item.docEntry env).entry.key =
      buildDocKey item.record.workspaceId item.record.id := by
    unfold LogItem.docEntry LogItem.record
    cases item.change <;> rfl
  rw [hkey, hws]
  exact hk _

theorem undisturbed_outcome (hlaw : env.Lawful) (hW : SeparatedNames W)
    (hS : Sourced env (NamesIn W) w) {call : Call K} (hcall : call.workspace = some workspaceId)
    (hws : W workspaceId) (hne : workspaceId ≠ []) {fate : Fate} {w' : World K}
    (h : Outcome env fate w call w') : Undisturbed env workspaceId w w' := by
  have hprep := prepare_spec fate (hS.named hlaw (names_namesIn W)) call
  have hitems : ∀ {c : Cursor} {plan : Plan K} {items : List (LogItem K)},
      Drafted env w call c plan items →
      ∀ item ∈ items, item.record.workspaceId = workspaceId := by
    intro c plan items hd item hitem
    obtain ⟨i, -, -, hprod⟩ := hd.produced item hitem
    exact workspace_produced hlaw hW hS hcall hws hne hprod
  cases h with
  | idle _ agrees =>
    refine undisturbed_of_keys hlaw hW hS hws ?_ ?_ ?_
    · intro k _
      rw [agrees.store]
      rfl
    · intro k r _ hr
      rw [agrees.resident]
      exact Or.inl hr
    · intro k _
      rw [agrees.resident]
      rfl
  | queried isQuery =>
    subst isQuery
    obtain rfl := Option.some.inj hcall
    refine undisturbed_of_keys hlaw hW hS hws ?_ ?_ ?_
    · intro k _
      rw [(query_spec env w _).store]
    · intro k r hk hr
      left
      unfold query
      split
      · exact hr
      · exact (lookup_foldl_noteAccess hk).trans hr
    · intro k _
      obtain ⟨records, -, hres⟩ := (query_spec env w _).resident
      rw [hres]
  | failed hsome _ agrees =>
    obtain ⟨items, hd⟩ := hprep.2 _ hsome
    refine undisturbed_of_keys hlaw hW hS hws ?_ ?_ ?_
    · intro k hk
      rw [agrees.store]
      exact docs_commit hd (hitems hd) fate.main hk
    · intro k r _ hr
      rw [agrees.resident]
      exact Or.inl hr
    · intro k _
      rw [agrees.resident]
      rfl
  | committed hsome _ settled =>
    obtain ⟨items, hd⟩ := hprep.2 _ hsome
    have hchanges : ∀ change ∈ items.map (·.change), change.record.workspaceId = workspaceId := by
      intro change hchange
      obtain ⟨item, hitem, rfl⟩ := List.mem_map.mp hchange
      exact hitems hd item hitem
    have hadmits : call.Admits (NamesIn W) := by
      cases call with
      | write input =>
        obtain rfl := Option.some.inj hcall
        exact fun id hw hid => ⟨hw, hid, hws⟩
      | _ => trivial
    have hnames := hd.named hlaw hS hadmits
    have hkeys := (preserved_held env).updates
      (Updates.applyPlan (s := w.engine.toResident) hd hnames) hS.held
    have hev := settled.resident
    refine undisturbed_of_keys hlaw hW hS hws ?_ ?_ ?_
    · intro k hk
      rw [settled.table _ docNs_ne_routeMetaNs]
      exact docs_commit hd (hitems hd) fate.main hk
    · intro k r hk hr
      refine hev.lookup (fun k r h => (hkeys k r h).1) ?_
      rw [Plan.applyInMemory_eq, hd.changes]
      exact (records_foldl_applyChange hchanges hk).trans hr
    · intro k hk
      rw [hev.dedupIndex, Plan.applyInMemory_eq, hd.changes]
      exact dedupIndex_foldl_applyChange hchanges hk

end Calls

section Examples
open Reference

/-- The record `c` of the workspace `a:b`. -/
def colonHistory : World ℚ :=
  next (platform ticking) initial (.call (put (ascii "a:b") (ascii "c") (ascii "mine")) applied)

end Examples

end PoorguyMem
