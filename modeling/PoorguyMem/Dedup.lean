import PoorguyMem.Intake

/-!
# Deduplication

`dedup_index_` names for a dedup key the id that was stored under it last. It is
filled by every update of a record and cleared where a record leaves memory by a
compaction. Two statements tie it to the documents: a key in it is carried by the
record it names, and a key that a document carries is in it.
-/

namespace PoorguyMem

open ByteString

variable {K : Type}

/-- The record the index names for a key carries the key. -/
def IndexTrue (documents : Documents K) (s : Resident K) : Prop :=
  ∀ w key id, 58 ∉ w → key ≠ [] → s.dedupIndex[dedupMapKey w key]? = some id →
    ∃ d, documents w id = some d ∧ d.dedupKey = key

/-- Every key that a document carries, live or not, is in the index. -/
def Indexed (documents : Documents K) (s : Resident K) : Prop :=
  ∀ w id d, documents w id = some d → d.dedupKey ≠ [] →
    s.dedupIndex[dedupMapKey w d.dedupKey]?.isSome

/-- Documents of one workspace with the same key, live or not, have the same id. -/
def KeysUnique (documents : Documents K) : Prop :=
  ∀ w a b x y, documents w a = some x → documents w b = some y →
    x.dedupKey = y.dedupKey → x.dedupKey ≠ [] → a = b

/-- Every change replaces a record without a key, or one with the same key. -/
def KeepsKeys (documents : Documents K) : List (Change K) → Prop
  | [] => True
  | change :: rest =>
    (∀ d, documents change.record.workspaceId change.record.id = some d → d.dedupKey ≠ [] →
      change.record.dedupKey = d.dedupKey) ∧ KeepsKeys (documents.apply change) rest

instance KeepsKeys.decidable : ∀ (documents : Documents K) (changes : List (Change K)),
    Decidable (KeepsKeys documents changes)
  | _, [] => isTrue trivial
  | documents, change :: rest =>
    have := KeepsKeys.decidable (documents.apply change) rest
    have : Decidable (∀ d, documents change.record.workspaceId change.record.id = some d →
        d.dedupKey ≠ [] → change.record.dedupKey = d.dedupKey) :=
      match documents change.record.workspaceId change.record.id with
      | none => isTrue fun d hd => by cases hd
      | some d => decidable_of_iff (d.dedupKey ≠ [] → change.record.dedupKey = d.dedupKey)
          ⟨fun h d' hd => Option.some.inj hd ▸ h, fun h => h d rfl⟩
    inferInstanceAs (Decidable (_ ∧ _))

/-- The names of the documents under which something is resident. -/
def Present (names : Bytes → Bytes → Prop) (documents : Documents K) (s : Resident K) : Prop :=
  ∀ w id, names w id → Plain w id → (documents w id).isSome →
    s.records[recordMapKey w id]?.isSome

/-! ### The index after a change -/

section Index
variable [Field K] [LinearOrder K] {env : Platform K} {s : Resident K} {documents : Documents K}

theorem lookup_dedupIndex_upsert (s : Resident K) (r : MemoryRecord K) (k : Bytes) :
    (s.upsertRecordInMemory env r).dedupIndex[k]? =
      if r.dedupKey ≠ [] ∧ dedupMapKey r.workspaceId r.dedupKey = k then some r.id
      else s.dedupIndex[k]? := by
  rw [Resident.dedupIndex_upsert]
  by_cases hkey : r.dedupKey = []
  · simp [hkey]
  · rw [if_neg hkey, lookup_insert]
    simp [hkey]

/-- An update of a record takes no key out of the index. -/
theorem isSome_dedupIndex_upsert {r : MemoryRecord K} {k : Bytes}
    (h : s.dedupIndex[k]?.isSome) : (s.upsertRecordInMemory env r).dedupIndex[k]?.isSome := by
  rw [lookup_dedupIndex_upsert]
  split
  · rfl
  · exact h

omit [Field K] [LinearOrder K] in
/-- A removal takes the key of the resident copy out of the index. -/
theorem lookup_dedupIndex_remove (s : Resident K) (r : MemoryRecord K) (k : Bytes) :
    (s.removeRecordInMemory r).dedupIndex[k]? =
      if ∃ held, s.records[recordMapKey r.workspaceId r.id]? = some held ∧ held.dedupKey ≠ [] ∧
        dedupMapKey r.workspaceId held.dedupKey = k then none
      else s.dedupIndex[k]? := by
  cases hheld : s.records[recordMapKey r.workspaceId r.id]? with
  | none =>
    rw [Resident.dedupIndex_remove_of_none s r hheld]
    simp
  | some held =>
    rw [Resident.dedupIndex_remove_of_some s r hheld]
    by_cases hkey : held.dedupKey = []
    · simp [hkey]
    · rw [if_neg hkey, lookup_erase]
      simp [hkey]

theorem IndexTrue.put (h : IndexTrue documents s) {r : MemoryRecord K}
    (hname : Plain r.workspaceId r.id)
    (hkeeps : ∀ d, documents r.workspaceId r.id = some d → d.dedupKey ≠ [] →
      r.dedupKey = d.dedupKey) :
    IndexTrue (documents.apply (.put r)) (s.upsertRecordInMemory env r) := by
  intro w key id hw hkey hindex
  rw [lookup_dedupIndex_upsert] at hindex
  rw [Documents.apply]
  split at hindex
  · rename_i hnew
    obtain ⟨hws, rfl⟩ := dedupMapKey_inj hname.2.2.1 hw hnew.2
    obtain rfl := Option.some.inj hindex
    rw [if_pos ⟨hws, rfl⟩]
    exact ⟨r, rfl, rfl⟩
  · obtain ⟨d, hd, hdk⟩ := h w key id hw hkey hindex
    split
    · rename_i hsame
      obtain ⟨rfl, rfl⟩ := hsame
      exact ⟨r, rfl, (hkeeps d hd (hdk ▸ hkey)).trans hdk⟩
    · exact ⟨d, hd, hdk⟩

omit [LinearOrder K] in
theorem IndexTrue.drop (h : IndexTrue documents s) (hbacks : Backs documents s)
    {r : MemoryRecord K} (hname : Plain r.workspaceId r.id)
    (hpresent : (documents r.workspaceId r.id).isSome →
      s.records[recordMapKey r.workspaceId r.id]?.isSome) :
    IndexTrue (documents.apply (.drop r)) (s.removeRecordInMemory r) := by
  intro w key id hw hkey hindex
  rw [lookup_dedupIndex_remove] at hindex
  rw [Documents.apply]
  split at hindex
  · cases hindex
  · rename_i hkept
    obtain ⟨d, hd, hdk⟩ := h w key id hw hkey hindex
    split
    · rename_i hsame
      obtain ⟨rfl, rfl⟩ := hsame
      -- the record is resident, so its key has been cleared
      obtain ⟨held, hheld⟩ := Option.isSome_iff_exists.mp (hpresent (Option.isSome_iff_exists.mpr ⟨d, hd⟩))
      obtain ⟨d', hd', hess⟩ := hbacks.held _ _ held hname hheld
      obtain rfl := Option.some.inj (hd.symm.trans hd')
      obtain ⟨-, -, hsame, -⟩ := fields_of_essence hess
      refine absurd ⟨held, hheld, ?_, ?_⟩ hkept
      · rw [hsame, hdk]
        exact hkey
      · rw [hsame, hdk]
        rfl
    · exact ⟨d, hd, hdk⟩

theorem Indexed.put (h : Indexed documents s) (r : MemoryRecord K) :
    Indexed (documents.apply (.put r)) (s.upsertRecordInMemory env r) := by
  intro w id d hd hkey
  rw [Documents.apply] at hd
  split at hd
  · rename_i hsame
    obtain rfl := Option.some.inj hd
    rw [lookup_dedupIndex_upsert, if_pos ⟨hkey, by rw [← hsame.1]; rfl⟩]
    rfl
  · exact isSome_dedupIndex_upsert (h w id d hd hkey)

omit [LinearOrder K] in
theorem Indexed.drop (h : Indexed documents s) (hbacks : Backs documents s)
    (hunique : KeysUnique documents) (hnamed : ∀ w id d, documents w id = some d → 58 ∉ w)
    {r : MemoryRecord K} (hname : Plain r.workspaceId r.id) :
    Indexed (documents.apply (.drop r)) (s.removeRecordInMemory r) := by
  intro w id d hd hkey
  rw [Documents.apply] at hd
  split at hd
  · cases hd
  · rename_i hother
    rw [lookup_dedupIndex_remove, if_neg]
    · exact h w id d hd hkey
    · rintro ⟨held, hheld, hne, heq⟩
      obtain ⟨d', hd', hess⟩ := hbacks.held _ _ held hname hheld
      obtain ⟨hws, hsame⟩ := dedupMapKey_inj hname.2.2.1 (hnamed w id d hd) heq
      change r.workspaceId = w at hws
      subst hws
      obtain ⟨-, -, hheldkey, -⟩ := fields_of_essence hess
      have hkeys : d'.dedupKey = d.dedupKey := hheldkey.symm.trans hsame
      exact hother ⟨rfl, hunique _ _ _ d' d hd' hd hkeys (hkeys ▸ hkey)⟩

theorem Present.applyChange {names : Bytes → Bytes → Prop} (h : Present names documents s)
    {change : Change K} (hname : Plain change.record.workspaceId change.record.id) :
    Present names (documents.apply change) (s.applyChange env change) := by
  intro w id hn hplain hsome
  rw [lookup_applyChange s hname hplain]
  rw [Documents.apply] at hsome
  split at hsome
  · rename_i hsame
    rw [if_pos hsame]
    exact hsome
  · rename_i hother
    rw [if_neg hother]
    exact h w id hn hplain hsome

end Index

/-! ### Calls -/

section Calls
variable [Field K] [LinearOrder K] {env : Platform K} {t : Traced K}

/-- The keys of a map of documents are among those of another. -/
def KeysFrom (documents₀ documents : Documents K) : Prop :=
  ∀ w id d, documents w id = some d →
    ∃ d₀, documents₀ w id = some d₀ ∧ d₀.dedupKey = d.dedupKey

/-- The change leaves the document of its name its key. -/
def KeyKept (documents₀ : Documents K) (change : Change K) : Prop :=
  ∃ d₀, documents₀ change.record.workspaceId change.record.id = some d₀ ∧
    d₀.dedupKey = change.record.dedupKey

omit [Field K] [LinearOrder K] in
theorem KeysFrom.apply {documents₀ documents : Documents K} (h : KeysFrom documents₀ documents)
    {change : Change K} (hkept : KeyKept documents₀ change) :
    KeysFrom documents₀ (documents.apply change) := by
  intro w id d hd
  rw [Documents.apply] at hd
  split at hd
  · rename_i hsame
    cases change with
    | put r =>
      obtain rfl := Option.some.inj hd
      obtain ⟨rfl, rfl⟩ := hsame
      exact hkept
    | drop r => cases hd
  · exact h w id d hd

omit [Field K] [LinearOrder K] in
theorem KeysUnique.of_keysFrom {documents₀ documents : Documents K} (h : KeysUnique documents₀)
    (hfrom : KeysFrom documents₀ documents) : KeysUnique documents := by
  intro w a b x y hx hy hkey hne
  obtain ⟨x₀, hx₀, hkx⟩ := hfrom w a x hx
  obtain ⟨y₀, hy₀, hky⟩ := hfrom w b y hy
  refine h w a b x₀ y₀ hx₀ hy₀ ?_ ?_
  · rw [hkx, hky, hkey]
  · rw [hkx]
    exact hne

/-- Calls other than `Write` leave every key where it is. -/
theorem Tracked.keyKept (hlaw : env.Lawful) (h : Tracked env t) {call : Call K}
    (hcall : ∀ input, call ≠ .write input) {nowMs : UInt64} {change : Change K}
    (hprod : Produces env t.world nowMs call change) : KeyKept t.documents change := by
  -- each of the changes keeps the names and the key of a copy of the document
  cases hprod with
  | new => exact absurd rfl (hcall _)
  | pinned load =>
    obtain ⟨d, hd, hess⟩ := h.document_loaded hlaw load
    exact ⟨d, hd, (fields_of_essence hess).2.2.1.symm⟩
  | tombstoned _ held =>
    obtain ⟨d, hd, hess⟩ := h.document_held held
    exact ⟨d, hd, (fields_of_essence hess).2.2.1.symm⟩
  | dropped _ held =>
    obtain ⟨d, hd, hess⟩ := h.document_held held
    exact ⟨d, hd, (fields_of_essence hess).2.2.1.symm⟩

omit [Field K] [LinearOrder K] in
theorem keepsKeys_of_kept {documents₀ documents : Documents K} {changes : List (Change K)}
    (hfrom : KeysFrom documents₀ documents)
    (hkept : ∀ change ∈ changes, KeyKept documents₀ change) : KeepsKeys documents changes := by
  induction changes generalizing documents with
  | nil => trivial
  | cons change rest ih =>
    have hhead := hkept change List.mem_cons_self
    refine ⟨fun d hd _ => ?_, ih (hfrom.apply hhead) fun c hc => hkept c (List.mem_cons_of_mem _ hc)⟩
    obtain ⟨d₀, hd₀, hkey⟩ := hhead
    obtain ⟨d₁, hd₁, hkey₁⟩ := hfrom _ _ d hd
    obtain rfl := Option.some.inj (hd₀.symm.trans hd₁)
    rw [← hkey, hkey₁]

/-- What is resident after the changes of a call, up to evictions, has its index. -/
theorem dedupIndex_call (fate : Fate) (call : Call K) (w : World K) :
    (perform env fate w call).1.engine.dedupIndex =
      ((committed env w call fate).foldl (Resident.applyChange env)
        w.engine.toResident).dedupIndex := by
  have hout := perform_outcome env fate w call
  generalize (perform env fate w call).1 = w' at hout
  cases hout with
  | idle none agrees =>
    rw [committed_of_none none, agrees.resident]
    rfl
  | queried isQuery =>
    obtain rfl := isQuery
    obtain ⟨records, -, hres⟩ := (query_spec env w _).resident
    rw [committed_of_none rfl, hres]
    rfl
  | failed _ failed agrees =>
    rw [committed, if_neg (by simp [failed]), agrees.resident]
    rfl
  | committed some ok settled =>
    rw [PoorguyMem.committed, if_pos ok, some, Option.elim_some, ← Plan.applyInMemory_eq,
      settled.resident.dedupIndex]
    rfl

/-- The changes of a call name resident records where they drop. -/
theorem Tracked.present (hlaw : env.Lawful) (h : Tracked env t) (call : Call K) (fate : Fate) :
    Present (fun w id => ∃ r, Change.drop r ∈ committed env t.world call fate ∧
      r.workspaceId = w ∧ r.id = id) t.documents t.world.engine.toResident := by
  rintro w id ⟨r, hmem, rfl, rfl⟩ - -
  obtain ⟨i, -, hprod⟩ := h.produced_committed hlaw _ hmem
  cases hprod with
  | dropped _ held =>
    obtain ⟨hk, -⟩ := h.sourced.held _ _ held
    rw [← hk]
    exact Option.isSome_iff_exists.mpr ⟨r, held⟩

/-- The changes of a call keep what the index says true. -/
theorem IndexTrue.applyAll {documents : Documents K} {s : Resident K} {changes : List (Change K)}
    (h : IndexTrue documents s) (hbacks : Backs documents s)
    (hnames : ∀ change ∈ changes, Plain change.record.workspaceId change.record.id)
    (hkeeps : KeepsKeys documents changes)
    (hpresent : Present (fun w id => ∃ r, Change.drop r ∈ changes ∧ r.workspaceId = w ∧ r.id = id)
      documents s) :
    IndexTrue (documents.applyAll changes) (changes.foldl (Resident.applyChange env) s) := by
  induction changes generalizing documents s with
  | nil => exact h
  | cons change rest ih =>
    have hname := hnames change List.mem_cons_self
    obtain ⟨hkeep, hkeeps⟩ := hkeeps
    refine ih ?_ (hbacks.applyChange hname) (fun c hc => hnames c (List.mem_cons_of_mem _ hc))
      hkeeps ?_
    · cases change with
      | put r => exact h.put hname hkeep
      | drop r =>
        exact h.drop hbacks hname (hpresent _ _ ⟨r, List.mem_cons_self, rfl, rfl⟩ hname)
    · refine Present.applyChange (fun w id hn => ?_) hname
      obtain ⟨r, hr, hws, hid⟩ := hn
      exact hpresent w id ⟨r, List.mem_cons_of_mem _ hr, hws, hid⟩

theorem Indexed.applyAll (env : Platform K) {documents₀ documents : Documents K} {s : Resident K}
    {changes : List (Change K)} (h : Indexed documents s) (hbacks : Backs documents s)
    (hunique : KeysUnique documents₀) (hfrom : KeysFrom documents₀ documents)
    (hnamed : ∀ w id d, documents₀ w id = some d → 58 ∉ w)
    (hnames : ∀ change ∈ changes, Plain change.record.workspaceId change.record.id)
    (hkept : ∀ change ∈ changes, KeyKept documents₀ change) :
    Indexed (documents.applyAll changes) (changes.foldl (Resident.applyChange env) s) ∧
      KeysFrom documents₀ (documents.applyAll changes) := by
  induction changes generalizing documents s with
  | nil => exact ⟨h, hfrom⟩
  | cons change rest ih =>
    have hname := hnames change List.mem_cons_self
    refine ih ?_ (hbacks.applyChange hname) (hfrom.apply (hkept change List.mem_cons_self))
      (fun c hc => hnames c (List.mem_cons_of_mem _ hc))
      fun c hc => hkept c (List.mem_cons_of_mem _ hc)
    cases change with
    | put r => exact h.put r
    | drop r =>
      refine h.drop hbacks (hunique.of_keysFrom hfrom) (fun w id d hd => ?_) hname
      obtain ⟨d₀, hd₀, -⟩ := hfrom w id d hd
      exact hnamed w id d₀ hd₀

end Calls

/-! ### Restarts -/

section Restarts
variable [Field K] [LinearOrder K] {env : Platform K} {w : World K} {documents : Documents K}

theorem lookup_dedupIndex_loadRow {entries : List KeyValueEntry} {s : Resident K} {k id : Bytes}
    (h : (entries.foldl (loadRow env) s).dedupIndex[k]? = some id) :
    s.dedupIndex[k]? = some id ∨ ∃ e ∈ entries, ∃ r, rowRecord env e = some r ∧
      dedupMapKey r.workspaceId r.dedupKey = k ∧ r.id = id := by
  induction entries generalizing s with
  | nil => exact Or.inl h
  | cons e rest ih =>
    rcases ih h with hold | ⟨e', he', hrow⟩
    · rw [loadRow] at hold
      split at hold
      · rename_i r hr
        rw [lookup_dedupIndex_upsert] at hold
        split at hold
        · rename_i hkey
          exact Or.inr ⟨e, List.mem_cons_self, r, hr, hkey.2, Option.some.inj hold⟩
        · exact Or.inl hold
      · exact Or.inl hold
    · exact Or.inr ⟨e', List.mem_cons_of_mem _ he', hrow⟩

theorem isSome_dedupIndex_loadRow {entries : List KeyValueEntry} {s : Resident K} {k : Bytes}
    (h : s.dedupIndex[k]?.isSome) : (entries.foldl (loadRow env) s).dedupIndex[k]?.isSome := by
  induction entries generalizing s with
  | nil => exact h
  | cons e rest ih =>
    refine ih ?_
    rw [loadRow]
    split
    · exact isSome_dedupIndex_upsert h
    · exact h

theorem isSome_dedupIndex_of_mem {entries : List KeyValueEntry} {s : Resident K}
    {e : KeyValueEntry} (he : e ∈ entries) {r : MemoryRecord K} (hr : rowRecord env e = some r)
    (hkey : r.dedupKey ≠ []) : (entries.foldl (loadRow env) s).dedupIndex[
      dedupMapKey r.workspaceId r.dedupKey]?.isSome := by
  induction entries generalizing s with
  | nil => cases he
  | cons e' rest ih =>
    rcases List.mem_cons.mp he with rfl | he
    · have hload : loadRow env s e = s.upsertRecordInMemory env r := by rw [loadRow, hr]
      rw [List.foldl_cons, hload]
      refine isSome_dedupIndex_loadRow ?_
      rw [lookup_dedupIndex_upsert, if_pos ⟨hkey, rfl⟩]
      rfl
    · exact ih he

/-- The index a warmup fills says what the documents say. -/
theorem indexTrue_loadedRows (hlaw : env.Lawful) (hS : Sourced env Plain w)
    (hR : Represents env (w.store.table docNs) documents) :
    IndexTrue documents (loadedRows env w.store) := by
  intro workspaceId key id hws hkey hindex
  rcases lookup_dedupIndex_loadRow hindex with hnone | ⟨e, he, r, hr, heq, rfl⟩
  · exact absurd hnone (by simp [Resident.empty])
  · obtain ⟨hname, d, hd, hess⟩ := document_of_rowRecord hlaw hS hR he hr
    obtain ⟨rfl, rfl⟩ := dedupMapKey_inj hname.2.2.1 hws heq
    obtain ⟨-, -, hkeys, -⟩ := fields_of_essence hess
    exact ⟨d, hd, hkeys.symm⟩

theorem indexed_loadedRows (hlaw : env.Lawful)
    (hR : Represents env (w.store.table docNs) documents) (hload : Reloads env w.store) :
    Indexed documents (loadedRows env w.store) := by
  intro workspaceId id d hd hkey
  obtain ⟨e, he, r, hr, hess⟩ := rowRecord_of_document hlaw hR hload hd
  obtain ⟨hws, -, hkeys, -⟩ := fields_of_essence hess
  obtain ⟨hwd, -⟩ := hR.named _ _ d hd
  rw [← hwd, ← hws, ← hkeys]
  exact isSome_dedupIndex_of_mem he hr (hkeys ▸ hkey)

theorem dedupIndex_restart (hload : Reloads env w.store) (nodeId : Bytes)
    (options : MemoryEngineOptions K) : (restart env w nodeId options).engine.dedupIndex =
      (loadedRows env w.store).dedupIndex := by
  have hr := (restart_spec env w nodeId options).resident.dedupIndex
  rwa [recovered_eq_of_skipped hload.skipped] at hr

end Restarts

end PoorguyMem
