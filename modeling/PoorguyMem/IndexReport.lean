import PoorguyMem.Mirror
import PoorguyMem.Responses
import PoorguyMem.Statistics
import PoorguyMem.Victims
import PoorguyMem.Lib.NestedMap

/-!
# The index in the reports

`Stats` counts vectors and terms in the resident records and does not look at the index. The
retriever of an engine is at all times one that calls on the retriever have built, so that
its snapshots have the statistics of their documents; and these are the live records. What is
reported of the index is therefore what the index holds.
-/

namespace PoorguyMem

open ByteString HybridRetriever NestedMap

variable {K : Type}

/-! ### The retriever of an engine -/

section Built
variable [Field K] [LinearOrder K] {env : Platform K}

/-- The retriever is built by calls on it. -/
def Built (env : Platform K) (s : Resident K) : Prop :=
  ∃ calls : List (RetrieverCall K),
    s.retriever = calls.foldl (RetrieverCall.apply env) HybridRetriever.empty

theorem Built.call {s s' : Resident K} (h : Built env s) (call : RetrieverCall K)
    (hcall : s'.retriever = call.apply env s.retriever) : Built env s' := by
  obtain ⟨calls, hcalls⟩ := h
  refine ⟨calls ++ [call], ?_⟩
  rw [hcall, hcalls, List.foldl_append, List.foldl_cons, List.foldl_nil]

theorem preserved_built (env : Platform K) (P : Bytes → Bytes → Prop) :
    Preserved env P (Built env) where
  upsert s r h _ := h.call (.index r) (Resident.retriever_upsert ..)
  remove s r h _ := by
    cases hheld : s.records[recordMapKey r.workspaceId r.id]? with
    | none =>
      rw [Resident.removeRecordInMemory, hheld]
      exact h
    | some held =>
      refine h.call (.remove r.workspaceId r.id) ?_
      rw [Resident.removeRecordInMemory, hheld]
      rfl
  evict s k victim h _ _ := h.call (.remove victim.workspaceId victim.id) rfl
  access s records h _ := h

theorem Built.kept {s : Resident K} (h : Built env s) {workspaceId : Bytes}
    {snapshot : WorkspaceSnapshot K} (hs : s.retriever.snapshots[workspaceId]? = some snapshot) :
    snapshot.Kept := by
  obtain ⟨calls, hcalls⟩ := h
  rw [hcalls] at hs
  exact (catalogued_run env calls).kept workspaceId snapshot hs

end Built

/-! ### Terms -/

theorem lookup_countTerms_pos {tokens : List Bytes} {term : Bytes} :
    0 < (countTerms tokens).getD term 0 ↔ term ∈ tokens := by
  rw [Std.ExtTreeMap.getD_eq_getD_getElem?, countTerms_getElem?]
  by_cases hmem : term ∈ tokens
  · rw [if_pos hmem]
    exact iff_of_true (List.count_pos_iff.mpr hmem) hmem
  · rw [if_neg hmem]
    exact iff_of_false (Nat.not_lt_zero 0) hmem

/-- The terms with a frequency are those of the texts. -/
theorem WorkspaceSnapshot.Kept.mem_df {snapshot : WorkspaceSnapshot K} (h : snapshot.Kept)
    {term : Bytes} : term ∈ snapshot.df.keys ↔ ∃ (id : Bytes) (doc : IndexedDoc K),
      snapshot.docs[id]? = some doc ∧ term ∈ tokenize doc.record.content := by
  have hterm : ∀ (id : Bytes) (doc : IndexedDoc K), snapshot.docs[id]? = some doc →
      (0 < doc.tf.getD term 0 ↔ term ∈ tokenize doc.record.content) := by
    intro id doc hdoc
    obtain ⟨tokens, htf, -, htokens⟩ := h.docs id doc hdoc
    rw [htf, lookup_countTerms_pos, htokens]
  have hcount : term ∈ snapshot.df.keys ↔ 0 < documentCount snapshot.docs term := by
    rw [Std.ExtTreeMap.mem_keys, Std.ExtTreeMap.mem_iff_isSome_getElem?, h.exact.df]
    by_cases hzero : documentCount snapshot.docs term = 0
    · simp [hzero]
    · simp [hzero, Nat.pos_of_ne_zero hzero]
  rw [hcount, documentCount, List.countP_pos_iff]
  constructor
  · rintro ⟨⟨id, doc⟩, hmem, hpos⟩
    have hdoc := Std.ExtTreeMap.mem_toList_iff_getElem?_eq_some.mp hmem
    exact ⟨id, doc, hdoc, (hterm id doc hdoc).mp (by simpa using hpos)⟩
  · rintro ⟨id, doc, hdoc, hmem⟩
    exact ⟨(id, doc), Std.ExtTreeMap.mem_toList_iff_getElem?_eq_some.mpr hdoc,
      by simpa using (hterm id doc hdoc).mpr hmem⟩

/-! ### Live records and documents -/

/-- What a report on a workspace is about: everything for the empty name. -/
def inReport (workspaceId name : Bytes) : Bool := workspaceId = [] || name = workspaceId

/-- The live records that a report counts. -/
def Resident.reported (s : Resident K) (workspaceId : Bytes) : List (MemoryRecord K) :=
  (s.records.values.filter (inScope workspaceId)).filter fun r => !r.tombstone

/-- A resident state whose records lie at the keys of names without a colon, and whose
documents are the live ones. -/
structure Mirrored (s : Resident K) : Prop where
  held : ∀ (k : Bytes) r, s.records[k]? = some r →
    k = recordMapKey r.workspaceId r.id ∧ 58 ∉ r.workspaceId
  mirrors : Mirrors s

section Reported
variable {s : Resident K} {workspaceId : Bytes}

/-- A live record has a document of the same text, and a document a live record. -/
theorem Mirrored.docAt (h : Mirrored s) (w id : Bytes) :
    (∀ r, s.Holds w id r → r.tombstone = false →
      ∃ doc, s.retriever.docAt w id = some doc ∧ doc.record.content = r.content) ∧
    (∀ doc, s.retriever.docAt w id = some doc →
      ∃ r, s.Holds w id r ∧ r.tombstone = false ∧ doc.record.content = r.content) := by
  by_cases hw : 58 ∈ w
  · obtain ⟨hnone, -⟩ := h.mirrors.others w id hw
    constructor
    · rintro r ⟨hr, hws, -⟩ -
      exact absurd (hws ▸ hw) (h.held _ r hr).2
    · intro doc hdoc
      rw [hnone] at hdoc
      cases hdoc
  · have hdocs := h.mirrors.docs w id hw
    constructor
    · rintro r ⟨hr, -, -⟩ hlive
      rw [Resident.liveAt, hr, Option.filter_some, if_pos (by simp [hlive]), Option.map_some]
        at hdocs
      obtain ⟨doc, hdoc, heq⟩ := Option.map_eq_some_iff.mp hdocs
      have htext := congrArg MemoryRecord.content heq
      exact ⟨doc, hdoc, htext⟩
    · intro doc hdoc
      rw [hdoc, Option.map_some] at hdocs
      obtain ⟨r, hr, heq⟩ := Option.map_eq_some_iff.mp hdocs.symm
      obtain ⟨hr, hlive⟩ := Option.filter_eq_some_iff.mp hr
      obtain ⟨hk, hfree⟩ := h.held _ r hr
      obtain ⟨hws, hid⟩ := recordMapKey_inj hw hfree hk
      have htext := congrArg MemoryRecord.content heq
      exact ⟨r, ⟨hr, hws.symm, hid.symm⟩, by simpa using hlive, htext.symm⟩

theorem Mirrored.mem_reported (h : Mirrored s) {r : MemoryRecord K} :
    r ∈ s.reported workspaceId ↔ inReport workspaceId r.workspaceId = true ∧
      s.Holds r.workspaceId r.id r ∧ r.tombstone = false := by
  rw [Resident.reported, List.mem_filter, List.mem_filter, mem_values]
  constructor
  · rintro ⟨⟨⟨k, hk⟩, hscope⟩, hlive⟩
    obtain ⟨rfl, -⟩ := h.held k r hk
    exact ⟨hscope, ⟨hk, rfl, rfl⟩, by simpa using hlive⟩
  · rintro ⟨hscope, ⟨hr, -, -⟩, hlive⟩
    exact ⟨⟨⟨_, hr⟩, hscope⟩, by simp [hlive]⟩

theorem Mirrored.nodup_names (h : Mirrored s) :
    ((s.reported workspaceId).map fun r => (r.workspaceId, r.id)).Nodup := by
  refine List.Nodup.map_on ?_ ?_
  · rintro r hr r' hr' heq
    obtain ⟨-, ⟨hr, -, -⟩, -⟩ := h.mem_reported.mp hr
    obtain ⟨-, ⟨hr', -, -⟩, -⟩ := h.mem_reported.mp hr'
    obtain ⟨hws, hid⟩ := Prod.mk.inj heq
    rw [hws, hid, hr'] at hr
    exact (Option.some.inj hr).symm
  · exact ((nodup_values fun k r hr => (h.held k r hr).1).filter _).filter _

/-- The names of the live records are the paths of the documents. -/
theorem Mirrored.names_perm_docs (h : Mirrored s) (workspaceId : Bytes) :
    ((s.reported workspaceId).map fun r => (r.workspaceId, r.id)).Perm
      (paths (inReport workspaceId) WorkspaceSnapshot.docs s.retriever.snapshots) := by
  refine (List.perm_ext_iff_of_nodup h.nodup_names (nodup_paths ..)).mpr ?_
  rintro ⟨w, id⟩
  rw [mem_paths, List.mem_map]
  constructor
  · rintro ⟨r, hr, heq⟩
    obtain ⟨rfl, rfl⟩ := Prod.mk.inj heq
    obtain ⟨hscope, hholds, hlive⟩ := h.mem_reported.mp hr
    obtain ⟨doc, hdoc, -⟩ := (h.docAt _ _).1 r hholds hlive
    exact ⟨hscope, Option.isSome_iff_exists.mpr ⟨doc, hdoc⟩⟩
  · rintro ⟨hscope, hsome⟩
    obtain ⟨doc, hdoc⟩ := Option.isSome_iff_exists.mp hsome
    obtain ⟨r, ⟨hr, rfl, rfl⟩, hlive, -⟩ := (h.docAt w id).2 doc hdoc
    exact ⟨r, h.mem_reported.mpr ⟨hscope, ⟨hr, rfl, rfl⟩, hlive⟩, rfl⟩

/-- And those of the vectors. -/
theorem Mirrored.docs_perm_vectors (h : Mirrored s) (workspaceId : Bytes) :
    (paths (inReport workspaceId) WorkspaceSnapshot.docs s.retriever.snapshots).Perm
      (paths (inReport workspaceId) (fun vectors => vectors) s.retriever.vectorIndex) := by
  refine (List.perm_ext_iff_of_nodup (nodup_paths ..) (nodup_paths ..)).mpr ?_
  rintro ⟨w, id⟩
  rw [mem_paths, mem_paths]
  refine and_congr_right fun _ => ?_
  change (s.retriever.docAt w id).isSome = true ↔ (s.retriever.vectorAt w id).isSome = true
  by_cases hw : 58 ∈ w
  · obtain ⟨hdoc, hvector⟩ := h.mirrors.others w id hw
    rw [hdoc, hvector]
    rfl
  · rw [h.mirrors.vectors w id hw]

/-- A document of a snapshot in the report is one of a live record in it. -/
theorem Mirrored.of_docs (h : Mirrored s) {w id : Bytes} {snapshot : WorkspaceSnapshot K}
    {doc : IndexedDoc K}
    (hentry : (w, snapshot) ∈ entries (inReport workspaceId) s.retriever.snapshots)
    (hdoc : snapshot.docs[id]? = some doc) :
    ∃ r ∈ s.reported workspaceId, r.workspaceId = w ∧ doc.record.content = r.content := by
  obtain ⟨hscope, hsnapshot⟩ := (mem_entries ..).mp hentry
  have hat : s.retriever.docAt w id = some doc := by
    rw [HybridRetriever.docAt, hsnapshot]
    exact hdoc
  obtain ⟨r, ⟨hr, rfl, rfl⟩, hlive, htext⟩ := (h.docAt w id).2 doc hat
  exact ⟨r, h.mem_reported.mpr ⟨hscope, ⟨hr, rfl, rfl⟩, hlive⟩, rfl, htext⟩

/-- The terms of the live records are those with a frequency. -/
theorem Mirrored.mem_terms (h : Mirrored s)
    (hkept : ∀ (w : Bytes) snapshot, s.retriever.snapshots[w]? = some snapshot → snapshot.Kept)
    {term : Bytes} : term ∈ (s.reported workspaceId).flatMap (fun r => tokenize r.content) ↔
      term ∈ (entries (inReport workspaceId) s.retriever.snapshots).flatMap
        fun kv => kv.2.df.keys := by
  rw [List.mem_flatMap, List.mem_flatMap]
  constructor
  · rintro ⟨r, hr, hterm⟩
    obtain ⟨hscope, hholds, hlive⟩ := h.mem_reported.mp hr
    obtain ⟨doc, hdoc, htext⟩ := (h.docAt _ _).1 r hholds hlive
    obtain ⟨snapshot, hsnapshot, hdoc⟩ := Option.bind_eq_some_iff.mp hdoc
    refine ⟨(r.workspaceId, snapshot), (mem_entries ..).mpr ⟨hscope, hsnapshot⟩, ?_⟩
    exact (hkept _ _ hsnapshot).mem_df.mpr ⟨r.id, doc, hdoc, htext ▸ hterm⟩
  · rintro ⟨⟨w, snapshot⟩, hentry, hterm⟩
    have hsnapshot := ((mem_entries ..).mp hentry).2
    obtain ⟨id, doc, hdoc, hterm⟩ := (hkept w snapshot hsnapshot).mem_df.mp hterm
    obtain ⟨r, hr, -, htext⟩ := h.of_docs hentry hdoc
    exact ⟨r, hr, htext ▸ hterm⟩

/-- Every snapshot is that of a workspace with a record. -/
theorem Mirrored.length_snapshots (h : Mirrored s)
    (hkept : ∀ (w : Bytes) snapshot, s.retriever.snapshots[w]? = some snapshot → snapshot.Kept) :
    (entries (inReport workspaceId) s.retriever.snapshots).length ≤
      ((s.records.values.filter (inScope workspaceId)).map (·.workspaceId)).dedup.length := by
  have hnodup : ((entries (inReport workspaceId) s.retriever.snapshots).map Prod.fst).Nodup :=
    (MapTotal.nodup_fst_toList _).sublist (List.filter_sublist.map _)
  rw [← List.length_map Prod.fst]
  refine (hnodup.subperm fun w hw => ?_).length_le
  obtain ⟨⟨w, snapshot⟩, hentry, rfl⟩ := List.mem_map.mp hw
  have hnonempty := (hkept w snapshot ((mem_entries ..).mp hentry).2).nonempty
  rw [← Std.ExtTreeMap.isEmpty_keys, List.isEmpty_eq_false_iff_exists_mem] at hnonempty
  obtain ⟨id, hid⟩ := hnonempty
  rw [Std.ExtTreeMap.mem_keys] at hid
  obtain ⟨doc, hdoc⟩ := Option.isSome_iff_exists.mp
    (Std.ExtTreeMap.mem_iff_isSome_getElem?.mp hid)
  obtain ⟨r, hr, hws, -⟩ := h.of_docs hentry hdoc
  rw [List.mem_dedup, List.mem_map]
  exact ⟨r, (List.mem_filter.mp hr).1, hws⟩

end Reported

/-! ### The report -/

section Report
variable [Field K] [LinearOrder K] (srv : Server K)

/-- After any run over workspaces without a colon, whatever a report is about: the vectors it
counts are the documents of the snapshots and the entries of the vector index, the terms those
with a document frequency, the items the tombstones and the vectors, and no snapshot belongs to
a workspace that is not counted. -/
theorem stats_report_index (hlaw : srv.env.Lawful) (nodeId : Bytes)
    (options : MemoryEngineOptions K) (steps : List (Step K))
    (hsteps : ∀ step ∈ steps, step.Workspaces (58 ∉ ·)) (occ : Occasion K)
    (workspaceId : Bytes) :
    let w := Runs.exec (next srv.env) (World.initial nodeId options) steps
    let out := stats srv occ w workspaceId
    let snapshots := entries (inReport workspaceId) w.engine.retriever.snapshots
    let vectors := entries (inReport workspaceId) w.engine.retriever.vectorIndex
    out.indexStats.vectorCount = (snapshots.map fun kv => kv.2.docs.size).sum ∧
      out.indexStats.vectorCount = (vectors.map fun kv => kv.2.size).sum ∧
      out.indexStats.postingTerms = (snapshots.flatMap fun kv => kv.2.df.keys).dedup.length ∧
      out.itemCount = out.tombstoneCount + out.indexStats.vectorCount ∧
      snapshots.length ≤ out.indexStats.segmentCount := by
  intro w out snapshots vectors
  have hadmits : ∀ step ∈ steps, step.Admits (FreeOf 58) := fun step hmem =>
    (hsteps step hmem).admits fun w id hw hws hid => ⟨hws, hid, hw⟩
  obtain ⟨hheld, hmirrors⟩ := mirrors_run hlaw (names_freeOf 58) (fun w id h => h.2.2) nodeId
    options hadmits
  have hbuilt : Built srv.env w.engine.toResident :=
    ((preserved_built srv.env (FreeOf 58)).run hlaw (names_freeOf 58) ⟨[], rfl⟩ hadmits
      (sourced_initial nodeId options) ⟨[], rfl⟩).2
  have hmirrored : Mirrored w.engine.toResident :=
    ⟨fun k r hr => ⟨(hheld k r hr).1, (hheld k r hr).2.2.2⟩, hmirrors⟩
  have hdocs := (hmirrored.names_perm_docs workspaceId).length_eq
  have hvectors := (hmirrored.docs_perm_vectors workspaceId).length_eq
  rw [List.length_map, length_paths] at hdocs
  rw [length_paths, length_paths] at hvectors
  refine ⟨hdocs, hdocs.trans hvectors, ?_, ?_, hmirrored.length_snapshots fun _ _ => hbuilt.kept⟩
  · refine ((List.perm_ext_iff_of_nodup (List.nodup_dedup _) (List.nodup_dedup _)).mpr ?_).length_eq
    intro term
    rw [List.mem_dedup, List.mem_dedup]
    exact hmirrored.mem_terms fun _ _ => hbuilt.kept
  · have hcount := List.length_eq_countP_add_countP (fun r : MemoryRecord K => r.tombstone)
      (l := w.engine.records.values.filter (inScope workspaceId))
    change (w.engine.records.values.filter (inScope workspaceId)).length =
      (w.engine.records.values.filter (inScope workspaceId)).countP (fun r => r.tombstone) +
        (w.engine.toResident.reported workspaceId).length
    rw [hcount, Resident.reported, ← List.countP_eq_length_filter]
    simp only [Bool.not_eq_true, Bool.decide_eq_false]

end Report

section Examples
open Reference

/-- A record of one term is indexed again at a restart. -/
theorem stats_report_index_history :
    let w := Runs.exec (next server.env) (World.initial (ascii "node") options) history
    let out := stats server occasion w (ascii "w")
    out.itemCount = out.tombstoneCount + out.indexStats.vectorCount ∧
      out.indexStats.postingTerms = ((entries (inReport (ascii "w"))
        w.engine.retriever.snapshots).flatMap fun kv => kv.2.df.keys).dedup.length := by
  obtain ⟨-, -, hterms, hitems, -⟩ := stats_report_index server (lawful_platform ticking)
    (ascii "node") options history (workspaces_history (by decide)) occasion (ascii "w")
  exact ⟨hitems, hterms⟩

end Examples

end PoorguyMem
