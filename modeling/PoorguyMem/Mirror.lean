import PoorguyMem.Provenance
import PoorguyMem.Reference

/-!
# The retrieval index

The retriever keeps a copy of every live resident record and a vector for it.
Records, snapshots and vectors are updated apart, on five paths; after each of
them the documents of a workspace are its live resident records, and its vectors
have the same ids.
-/

namespace PoorguyMem

open ByteString

variable {K : Type}

namespace HybridRetriever

def docAt (ret : HybridRetriever K) (workspaceId memoryId : Bytes) : Option (IndexedDoc K) :=
  ret.snapshots[workspaceId]?.bind (·.docs[memoryId]?)

def vectorAt (ret : HybridRetriever K) (workspaceId memoryId : Bytes) : Option (VectorEntry K) :=
  ret.vectorIndex[workspaceId]?.bind (·[memoryId]?)

/-! ### Lookups after an update -/

theorem docAt_remove (ret : HybridRetriever K) (w id v x : Bytes) :
    (ret.remove w id).docAt v x = if w = v ∧ id = x then none else ret.docAt v x := by
  simp only [docAt, remove, removeFromSnapshot]
  rcases hs : ret.snapshots[w]? with _ | snapshot
  · by_cases heq : w = v ∧ id = x
    · rw [if_pos heq, ← heq.1, hs, Option.bind_none]
    · rw [if_neg heq]
  · dsimp only
    rcases hd : snapshot.docs[id]? with _ | doc
    · by_cases heq : w = v ∧ id = x
      · rw [if_pos heq, ← heq.1, ← heq.2, hs]
        exact hd
      · rw [if_neg heq]
    · have hdocs : (removeDoc snapshot id doc).docs = snapshot.docs.erase id := rfl
      refine (bind_lookup_replace ret.snapshots w v x (removeDoc snapshot id doc) (·.docs)).trans ?_
      rw [hdocs, lookup_erase]
      by_cases hw : w = v
      · subst hw
        simp [hs]
      · simp [hw]

theorem vectorAt_remove (ret : HybridRetriever K) (w id v x : Bytes) :
    (ret.remove w id).vectorAt v x = if w = v ∧ id = x then none else ret.vectorAt v x := by
  simp only [vectorAt, remove, VectorIndex.remove]
  rcases hs : ret.vectorIndex[w]? with _ | vectors
  · by_cases heq : w = v ∧ id = x
    · rw [if_pos heq, ← heq.1, hs, Option.bind_none]
    · rw [if_neg heq]
  · refine (bind_lookup_replace ret.vectorIndex w v x (vectors.erase id) fun m => m).trans ?_
    rw [lookup_erase]
    by_cases hw : w = v
    · subst hw
      simp [hs]
    · simp [hw]

section Index
variable [Field K] [LinearOrder K] (env : Platform K) (ret : HybridRetriever K)
  (r : MemoryRecord K) (v x : Bytes)

theorem docAt_index : (ret.index env r).docAt v x =
    if r.workspaceId = v ∧ r.id = x then
      if r.tombstone then none else some (indexedDoc env r)
    else ret.docAt v x := by
  unfold index
  cases hdead : r.tombstone with
  | true =>
    simp only [if_true]
    exact docAt_remove ret ..
  | false =>
    simp only [Bool.false_eq_true, if_false, docAt]
    by_cases hw : r.workspaceId = v
    · subst hw
      rw [lookup_insert, if_pos rfl, Option.bind_some]
      have hdocs : (insertDoc ret.snapshots[r.workspaceId]? (indexedDoc env r)).docs[x]? =
          if r.id = x then some (indexedDoc env r)
          else ((ret.snapshots[r.workspaceId]?.map (·.docs)).getD ∅)[x]? := lookup_insert ..
      rw [hdocs]
      cases ret.snapshots[r.workspaceId]? <;> simp
    · rw [lookup_insert_ne _ hw, if_neg fun h => hw h.1]

/-- The entry of the vector index for a text. -/
def vectorEntry : VectorEntry K where
  vector := embed env r.content embeddingDim
  bucket := bucketForVector (embed env r.content embeddingDim)

theorem vectorAt_index : (ret.index env r).vectorAt v x =
    if r.workspaceId = v ∧ r.id = x then
      if r.tombstone then none else some (vectorEntry env r)
    else ret.vectorAt v x := by
  unfold index
  cases hdead : r.tombstone with
  | true =>
    simp only [if_true]
    exact vectorAt_remove ret ..
  | false =>
    simp only [Bool.false_eq_true, if_false, vectorAt, VectorIndex.upsert]
    by_cases hw : r.workspaceId = v
    · subst hw
      rw [lookup_insert, if_pos rfl, Option.bind_some, lookup_insert]
      by_cases hid : r.id = x
      · rw [if_pos hid, if_pos ⟨rfl, hid⟩]
        rfl
      · rw [if_neg hid, if_neg fun h => hid h.2]
        cases ret.vectorIndex[r.workspaceId]? <;> simp
    · rw [lookup_insert_ne _ hw, if_neg fun h => hw h.1]

theorem isSome_vectorAt_index : ((ret.index env r).vectorAt v x).isSome =
    if r.workspaceId = v ∧ r.id = x then !r.tombstone else (ret.vectorAt v x).isSome := by
  rw [vectorAt_index]
  split
  · cases r.tombstone <;> rfl
  · rfl

end Index

end HybridRetriever

/-! ### The mirror -/

/-- The live record held for a name. -/
def Resident.liveAt (s : Resident K) (workspaceId memoryId : Bytes) : Option (MemoryRecord K) :=
  s.records[recordMapKey workspaceId memoryId]?.filter fun r => !r.tombstone

/-- For workspaces without a colon the documents are the live records, apart from
accesses, and the vectors have the same ids; other workspaces have neither. -/
structure Mirrors (s : Resident K) : Prop where
  docs : ∀ w id : Bytes, 58 ∉ w → (s.retriever.docAt w id).map (·.record.withoutAccess) =
    (s.liveAt w id).map (·.withoutAccess)
  vectors : ∀ w id : Bytes, 58 ∉ w →
    (s.retriever.vectorAt w id).isSome = (s.retriever.docAt w id).isSome
  others : ∀ w id : Bytes, 58 ∈ w →
    s.retriever.docAt w id = none ∧ (s.retriever.vectorAt w id).isSome = false

theorem mirrors_empty : Mirrors (Resident.empty : Resident K) :=
  have hdoc : ∀ w id : Bytes, (HybridRetriever.empty : HybridRetriever K).docAt w id = none :=
    fun w id => by simp [HybridRetriever.docAt, HybridRetriever.empty]
  have hvec : ∀ w id : Bytes, (HybridRetriever.empty : HybridRetriever K).vectorAt w id = none :=
    fun w id => by simp [HybridRetriever.vectorAt, HybridRetriever.empty]
  ⟨fun w id _ => by simp [Resident.empty, Resident.liveAt, hdoc],
    fun w id _ => by simp [Resident.empty, hdoc, hvec],
    fun w id _ => by simp [Resident.empty, hdoc, hvec]⟩

/-- Taking a record out of the map and of the retriever together. -/
theorem Mirrors.erase {s s' : Resident K} (h : Mirrors s) {w id : Bytes} (hw : 58 ∉ w)
    (hrecords : s'.records = s.records.erase (recordMapKey w id))
    (hret : s'.retriever = s.retriever.remove w id) : Mirrors s' where
  docs v x hv := by
    rw [hret, HybridRetriever.docAt_remove, Resident.liveAt, hrecords, lookup_erase]
    by_cases heq : w = v ∧ id = x
    · obtain ⟨rfl, rfl⟩ := heq
      simp
    · have hkey : recordMapKey w id ≠ recordMapKey v x := fun hk => heq (recordMapKey_inj hw hv hk)
      rw [if_neg heq, if_neg hkey]
      exact h.docs v x hv
  vectors v x hv := by
    rw [hret, HybridRetriever.docAt_remove, HybridRetriever.vectorAt_remove]
    split
    · rfl
    · exact h.vectors v x hv
  others v x hv := by
    have hne : ¬ (w = v ∧ id = x) := fun heq => hw (heq.1 ▸ hv)
    rw [hret, HybridRetriever.docAt_remove, HybridRetriever.vectorAt_remove, if_neg hne,
      if_neg hne]
    exact h.others v x hv

section Preservation
variable [Field K] [LinearOrder K] {env : Platform K}

theorem Mirrors.upsert {s : Resident K} (h : Mirrors s) {r : MemoryRecord K}
    (hw : 58 ∉ r.workspaceId) : Mirrors (s.upsertRecordInMemory env r) where
  docs v x hv := by
    rw [Resident.retriever_upsert, HybridRetriever.docAt_index, Resident.liveAt,
      Resident.records_upsert, lookup_insert]
    by_cases heq : r.workspaceId = v ∧ r.id = x
    · obtain ⟨rfl, rfl⟩ := heq
      cases hdead : r.tombstone <;> simp [hdead, HybridRetriever.indexedDoc]
    · have hkey : recordMapKey r.workspaceId r.id ≠ recordMapKey v x :=
        fun hk => heq (recordMapKey_inj hw hv hk)
      rw [if_neg heq, if_neg hkey]
      exact h.docs v x hv
  vectors v x hv := by
    rw [Resident.retriever_upsert, HybridRetriever.docAt_index, HybridRetriever.isSome_vectorAt_index]
    by_cases heq : r.workspaceId = v ∧ r.id = x
    · rw [if_pos heq, if_pos heq]
      cases r.tombstone <;> rfl
    · rw [if_neg heq, if_neg heq]
      exact h.vectors v x hv
  others v x hv := by
    have hne : ¬ (r.workspaceId = v ∧ r.id = x) := fun heq => hw (heq.1 ▸ hv)
    rw [Resident.retriever_upsert, HybridRetriever.docAt_index, HybridRetriever.isSome_vectorAt_index,
      if_neg hne, if_neg hne]
    exact h.others v x hv

omit [Field K] [LinearOrder K] in
theorem Mirrors.remove {s : Resident K} (h : Mirrors s) {r : MemoryRecord K}
    (hw : 58 ∉ r.workspaceId) : Mirrors (s.removeRecordInMemory r) := by
  cases hheld : s.records[recordMapKey r.workspaceId r.id]? with
  | some held =>
    refine h.erase hw (s.records_remove r) ?_
    rw [Resident.removeRecordInMemory, hheld]
  | none =>
    have hret : (s.removeRecordInMemory r).retriever = s.retriever := by
      rw [Resident.removeRecordInMemory, hheld]
    have hrecords : (s.removeRecordInMemory r).records = s.records := by
      rw [Resident.removeRecordInMemory, hheld]
    refine ⟨fun v x hv => ?_, fun v x hv => ?_, fun v x hv => ?_⟩
    · rw [hret, Resident.liveAt, hrecords]
      exact h.docs v x hv
    · rw [hret]
      exact h.vectors v x hv
    · rw [hret]
      exact h.others v x hv

omit [Field K] [LinearOrder K] in
theorem Mirrors.access {s : Resident K} (h : Mirrors s) {records : StringMap (MemoryRecord K)}
    (hacc : AccessOnly s.records records) : Mirrors { s with records := records } where
  docs v x hv := by
    refine (h.docs v x hv).trans ?_
    have hk := hacc (recordMapKey v x)
    have hlive : ∀ o : Option (MemoryRecord K),
        (o.filter fun r => !r.tombstone).map (·.withoutAccess) =
          (o.map (·.withoutAccess)).filter fun r => !r.tombstone := by
      rintro (_ | r)
      · rfl
      · have hsame : r.withoutAccess.tombstone = r.tombstone := rfl
        cases hdead : r.tombstone <;> simp [Option.filter, hsame, hdead]
    rw [Resident.liveAt, Resident.liveAt, hlive, hlive, hk]
  vectors := h.vectors
  others := h.others

theorem preserved_mirrors {P : Bytes → Bytes → Prop} (hP : ∀ w id, P w id → 58 ∉ w) :
    Preserved env P fun s => (∀ (k : Bytes) r, s.records[k]? = some r →
      k = recordMapKey r.workspaceId r.id ∧ P r.workspaceId r.id) ∧ Mirrors s where
  upsert s r h named := ⟨(preserved_held env).upsert s r h.1 named, h.2.upsert (hP _ _ named)⟩
  remove s r h named :=
    ⟨(preserved_held env).remove s r h.1 named, h.2.remove (hP _ _ named)⟩
  evict s k victim h held unpinned :=
    ⟨(preserved_held env).evict s k victim h.1 held unpinned,
      h.2.erase (hP _ _ (h.1 k victim held).2) rfl rfl⟩
  access s records h hacc :=
    ⟨(preserved_held env).access s records h.1 hacc, h.2.access hacc⟩

/-- The names of a run whose workspaces are free of a byte. -/
def FreeOf (b : UInt8) (workspaceId memoryId : Bytes) : Prop :=
  workspaceId ≠ [] ∧ memoryId ≠ [] ∧ b ∉ workspaceId

omit [Field K] [LinearOrder K] in
theorem names_freeOf (b : UInt8) : Names (FreeOf b) := ⟨fun h => h.1, fun h => h.2.1⟩

/-- The record held for a name, whatever names share its key. -/
def Resident.Holds (s : Resident K) (workspaceId memoryId : Bytes) (r : MemoryRecord K) : Prop :=
  s.records[recordMapKey workspaceId memoryId]? = some r ∧ r.workspaceId = workspaceId ∧
    r.id = memoryId

theorem mirrors_run {P : Bytes → Bytes → Prop} (hlaw : env.Lawful) (hP : Names P)
    (hfree : ∀ w id, P w id → 58 ∉ w) (nodeId : Bytes) (options : MemoryEngineOptions K)
    {steps : List (Step K)} (hsteps : ∀ step ∈ steps, step.Admits P) :
    let s := (Runs.exec (next env) (World.initial nodeId options) steps).engine.toResident
    (∀ (k : Bytes) r, s.records[k]? = some r →
      k = recordMapKey r.workspaceId r.id ∧ P r.workspaceId r.id) ∧ Mirrors s :=
  ((preserved_mirrors hfree).run hlaw hP
    ⟨fun k r hr => absurd hr (by simp [Resident.empty]), mirrors_empty⟩ hsteps
    (sourced_initial nodeId options)
    ⟨fun k r hr => absurd hr (by simp [World.initial, MemoryEngine.new, Resident.empty]),
      mirrors_empty⟩).2

/-- In every run over workspaces without a colon, and for every workspace and id,
the index has a document exactly for the live resident record, the document is
that record apart from accesses, and the vectors have the same ids. -/
theorem index_mirrors_records (hlaw : env.Lawful) (nodeId : Bytes)
    (options : MemoryEngineOptions K) (steps : List (Step K))
    (hsteps : ∀ step ∈ steps, step.Workspaces (58 ∉ ·)) (workspaceId memoryId : Bytes) :
    let s := (Runs.exec (next env) (World.initial nodeId options) steps).engine.toResident
    ((s.retriever.docAt workspaceId memoryId).isSome ↔
        ∃ r, s.Holds workspaceId memoryId r ∧ r.tombstone = false) ∧
      (∀ doc r, s.retriever.docAt workspaceId memoryId = some doc →
        s.Holds workspaceId memoryId r → doc.record.withoutAccess = r.withoutAccess) ∧
      ((s.retriever.vectorAt workspaceId memoryId).isSome ↔
        (s.retriever.docAt workspaceId memoryId).isSome) := by
  intro s
  have hadmits : ∀ step ∈ steps, step.Admits (FreeOf 58) := fun step hmem =>
    (hsteps step hmem).admits fun w id hw hws hid => ⟨hws, hid, hw⟩
  obtain ⟨hheld, hmirror⟩ := mirrors_run hlaw (names_freeOf 58) (fun w id h => h.2.2) nodeId
    options hadmits
  change Mirrors s at hmirror
  by_cases hw : 58 ∈ workspaceId
  · obtain ⟨hdoc, hvec⟩ := hmirror.others workspaceId memoryId hw
    have hnone : ∀ r, ¬ s.Holds workspaceId memoryId r := by
      rintro r ⟨hr, hws, -⟩
      exact (hheld _ r hr).2.2.2 (hws ▸ hw)
    refine ⟨⟨fun h => ?_, fun ⟨r, hr, _⟩ => absurd hr (hnone r)⟩,
      fun doc r _ hr => absurd hr (hnone r), by rw [hdoc, hvec]; rfl⟩
    rw [hdoc] at h
    cases h
  · have hdocs := hmirror.docs workspaceId memoryId hw
    refine ⟨?_, ?_, by rw [hmirror.vectors workspaceId memoryId hw]⟩
    · have hsome : (s.retriever.docAt workspaceId memoryId).isSome =
          (s.liveAt workspaceId memoryId).isSome := by
        simpa using congrArg Option.isSome hdocs
      rw [hsome, Option.isSome_iff_exists]
      constructor
      · rintro ⟨r, hr⟩
        obtain ⟨hr, hlive⟩ := Option.filter_eq_some_iff.mp hr
        obtain ⟨hk, hname⟩ := hheld _ r hr
        obtain ⟨hws, hid⟩ := recordMapKey_inj hw hname.2.2 hk
        exact ⟨r, ⟨hr, hws.symm, hid.symm⟩, by simpa using hlive⟩
      · rintro ⟨r, ⟨hr, -, -⟩, hlive⟩
        exact ⟨r, Option.filter_eq_some_iff.mpr ⟨hr, by simp [hlive]⟩⟩
    · rintro doc r hdoc ⟨hr, -, -⟩
      rw [hdoc, Resident.liveAt, hr] at hdocs
      obtain ⟨r', hr', heq⟩ := Option.map_eq_some_iff.mp hdocs.symm
      obtain ⟨hrr, -⟩ := Option.filter_eq_some_iff.mp hr'
      cases hrr
      exact heq.symm

end Preservation

section Examples
open Reference

theorem workspaces_history {P : Bytes → Prop} (h : P (ascii "w")) :
    ∀ step ∈ history, step.Workspaces P := by
  intro step hstep
  simp only [history, List.mem_cons, List.not_mem_nil, or_false] at hstep
  rcases hstep with rfl | rfl | rfl
  · exact h
  · trivial
  · trivial

theorem index_mirrors_history :
    let s := (Runs.exec (next (platform ticking)) initial history).engine.toResident
    (s.retriever.docAt (ascii "w") (ascii "a")).isSome ↔
      ∃ r, s.Holds (ascii "w") (ascii "a") r ∧ r.tombstone = false :=
  (index_mirrors_records (lawful_platform _) _ _ history (workspaces_history (by decide))
    (ascii "w") (ascii "a")).1

end Examples

end PoorguyMem
