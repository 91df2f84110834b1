import PoorguyMem.Documents
import PoorguyMem.Mirror
import PoorguyMem.Lib.MapTotal

/-!
# The statistics of the retriever

A snapshot keeps, beside its documents, in how many of them each term occurs and
the length of all of them. The first is counted anew after every update, the second
is kept by addition and subtraction. Both are those of the documents, and the
documents are those that were indexed last and not removed since.
-/

namespace PoorguyMem

open ByteString MapTotal

variable {K : Type}

/-- A call on the retriever. -/
inductive RetrieverCall (K : Type) where
  | index (record : MemoryRecord K)
  | remove (workspaceId memoryId : Bytes)

namespace RetrieverCall

/-- The documents after a call: a tombstone removes its record. -/
def catalog (documents : Documents K) : RetrieverCall K → Documents K
  | .index r => fun workspaceId id => if r.workspaceId = workspaceId ∧ r.id = id then
      (if r.tombstone then none else some r) else documents workspaceId id
  | .remove w x => fun workspaceId id => if w = workspaceId ∧ x = id then none
      else documents workspaceId id

def apply [Field K] [LinearOrder K] (env : Platform K) (ret : HybridRetriever K) :
    RetrieverCall K → HybridRetriever K
  | .index r => ret.index env r
  | .remove w x => ret.remove w x

end RetrieverCall

def catalogAfter (calls : List (RetrieverCall K)) : Documents K :=
  calls.foldl RetrieverCall.catalog Documents.empty

/-- The number of documents in which a term occurs. -/
def documentCount (docs : StringMap (IndexedDoc K)) (term : Bytes) : Nat :=
  docs.toList.countP fun kv => 0 < kv.2.tf.getD term 0

/-- A snapshot with the statistics of its documents. -/
structure WorkspaceSnapshot.Exact (s : WorkspaceSnapshot K) : Prop where
  nonempty : s.docs.isEmpty = false
  df : ∀ term, s.df[term]? =
    if documentCount s.docs term = 0 then none else some (documentCount s.docs term)
  totalDocLen : s.totalDocLen = (s.docs.toList.map fun kv => kv.2.docLen).sum
  tf : ∀ kv ∈ s.docs.toList, (kv.2.tf.toList.map Prod.snd).sum = kv.2.docLen ∧
    kv.2.docLen = (tokenize kv.2.record.content).length

/-! ### Terms -/

/-- The terms of a document that are counted. -/
def positiveTerms (tf : StringMap Nat) : List Bytes :=
  (tf.toList.filter fun term => 0 < term.2).map Prod.fst

/-- The frequencies are a count over the terms of all documents. -/
theorem buildDocumentFrequency_eq (docs : StringMap (IndexedDoc K)) :
    buildDocumentFrequency docs =
      countTerms (docs.toList.flatMap fun kv => positiveTerms kv.2.tf) := by
  rw [buildDocumentFrequency, countTerms, List.foldl_flatMap]
  refine List.foldl_ext _ _ _ fun df kv _ => ?_
  rw [positiveTerms, List.foldl_map, List.foldl_filter]
  simp only [decide_eq_true_eq]

theorem nodup_positiveTerms (tf : StringMap Nat) : (positiveTerms tf).Nodup :=
  (MapTotal.nodup_fst_toList tf).sublist (List.filter_sublist.map _)

theorem mem_positiveTerms {tf : StringMap Nat} {term : Bytes} :
    term ∈ positiveTerms tf ↔ 0 < tf.getD term 0 := by
  simp only [positiveTerms, List.mem_map, List.mem_filter, decide_eq_true_eq, Prod.exists,
    exists_and_right, exists_eq_right, Std.ExtTreeMap.mem_toList_iff_getElem?_eq_some,
    Std.ExtTreeMap.getD_eq_getD_getElem?]
  rcases tf[term]? with _ | n <;> simp

theorem count_positiveTerms (tf : StringMap Nat) (term : Bytes) :
    (positiveTerms tf).count term = if 0 < tf.getD term 0 then 1 else 0 := by
  rw [(nodup_positiveTerms tf).count]
  exact if_congr mem_positiveTerms rfl rfl

theorem buildDocumentFrequency_getElem? (docs : StringMap (IndexedDoc K)) (term : Bytes) :
    (buildDocumentFrequency docs)[term]? =
      if documentCount docs term = 0 then none else some (documentCount docs term) := by
  have hcount : (docs.toList.flatMap fun kv => positiveTerms kv.2.tf).count term =
      documentCount docs term := by
    rw [documentCount, List.count_flatMap]
    induction docs.toList with
    | nil => rfl
    | cons kv rest ih =>
      rw [List.map_cons, List.sum_cons, ih, List.countP_cons, Function.comp_apply,
        count_positiveTerms, Nat.add_comm]
      simp only [decide_eq_true_eq]
  rw [buildDocumentFrequency_eq, countTerms_getElem?, hcount]
  by_cases hzero : documentCount docs term = 0
  · rw [if_pos hzero, if_neg]
    rw [← List.count_eq_zero, hcount, hzero]
  · rw [if_neg hzero, if_pos]
    rw [← List.count_pos_iff, hcount]
    omega

/-- The counts of a text add up to its length. -/
theorem total_countTerms (tokens : List Bytes) : total (countTerms tokens) = tokens.length := by
  have fold : ∀ m : StringMap Nat,
      total (tokens.foldl (fun tf token => tf.insert token (tf.getD token 0 + 1)) m) =
        total m + tokens.length := by
    induction tokens with
    | nil => intro m; rfl
    | cons token rest ih =>
      intro m
      have hinsert := total_insert m token (m.getD token 0 + 1)
      have herase := total_erase m token
      rw [List.foldl_cons, ih, List.length_cons]
      omega
  have hfold := fold ∅
  rw [total_empty, Nat.zero_add] at hfold
  exact hfold

/-! ### Updates of a snapshot -/

/-- What every update of a snapshot keeps. -/
structure WorkspaceSnapshot.Kept (s : WorkspaceSnapshot K) : Prop where
  nonempty : s.docs.isEmpty = false
  df : s.df = buildDocumentFrequency s.docs
  totalDocLen : s.totalDocLen = weight s.docs IndexedDoc.docLen
  docs : ∀ (id : Bytes) (doc : IndexedDoc K), s.docs[id]? = some doc → ∃ tokens, doc.tf = countTerms tokens ∧
    doc.docLen = tokens.length ∧ tokens = tokenize doc.record.content

section Snapshots
variable [Field K] [LinearOrder K] {env : Platform K} {s : WorkspaceSnapshot K}

open HybridRetriever

theorem kept_insertDoc {old : Option (WorkspaceSnapshot K)} (h : ∀ s, old = some s → s.Kept)
    (r : MemoryRecord K) : (insertDoc old (indexedDoc env r)).Kept := by
  have hdocs : ∀ (id : Bytes) (doc : IndexedDoc K), ((old.map (·.docs)).getD ∅)[id]? = some doc → ∃ tokens,
      doc.tf = countTerms tokens ∧ doc.docLen = tokens.length ∧
        tokens = tokenize doc.record.content := by
    rcases old with _ | s
    · intro id doc hdoc
      simp at hdoc
    · exact (h s rfl).docs
  have htotal : (old.map (·.totalDocLen)).getD 0 =
      weight ((old.map (·.docs)).getD ∅) IndexedDoc.docLen := by
    rcases old with _ | s
    · rfl
    · exact (h s rfl).totalDocLen
  rw [insertDoc]
  generalize (old.map (·.docs)).getD ∅ = docs at hdocs htotal ⊢
  generalize (old.map (·.totalDocLen)).getD 0 = len at htotal ⊢
  constructor
  case nonempty => simp
  case df => rfl
  case totalDocLen =>
    rw [weight_insert]
    dsimp only
    rcases hprev : docs[r.id]? with _ | prev
    · have hid : (indexedDoc env r).record.id = r.id := rfl
      rw [hid, hprev, erase_eq_self docs hprev, htotal]
      exact Nat.add_comm _ _
    · have hid : (indexedDoc env r).record.id = r.id := rfl
      have hweight := weight_of_getElem? docs IndexedDoc.docLen hprev
      rw [hid, hprev]
      dsimp only
      rw [if_pos (by omega)]
      omega
  case docs =>
    intro id doc hdoc
    rw [lookup_insert] at hdoc
    split at hdoc
    · obtain rfl := Option.some.inj hdoc
      exact ⟨tokenize r.content, rfl, rfl, rfl⟩
    · exact hdocs id doc hdoc

omit [Field K] [LinearOrder K] in
theorem kept_removeDoc (h : s.Kept) {id : Bytes} {doc : IndexedDoc K} (hdoc : s.docs[id]? = some doc)
    (hne : (s.docs.erase id).isEmpty = false) : (removeDoc s id doc).Kept := by
  constructor
  case nonempty => exact hne
  case df => rfl
  case totalDocLen =>
    have hweight := weight_of_getElem? s.docs IndexedDoc.docLen hdoc
    have htotal := h.totalDocLen
    change (if doc.docLen ≤ s.totalDocLen then s.totalDocLen - doc.docLen else s.totalDocLen) =
      weight (s.docs.erase id) IndexedDoc.docLen
    rw [if_pos (by omega)]
    omega
  case docs =>
    intro id' doc' hdoc'
    change (s.docs.erase id)[id']? = some doc' at hdoc'
    rw [lookup_erase] at hdoc'
    split at hdoc'
    · cases hdoc'
    · exact h.docs id' doc' hdoc'

end Snapshots

/-! ### Runs -/

section Runs
variable [Field K] [LinearOrder K] {env : Platform K}

/-- A retriever with the documents of a catalog. -/
structure Catalogued (env : Platform K) (documents : Documents K) (ret : HybridRetriever K) :
    Prop where
  docs : ∀ w id, ret.docAt w id = (documents w id).map (HybridRetriever.indexedDoc env)
  vectors : ∀ w id, ret.vectorAt w id = (documents w id).map (HybridRetriever.vectorEntry env)
  kept : ∀ (w : Bytes) (s : WorkspaceSnapshot K), ret.snapshots[w]? = some s → s.Kept

theorem catalogued_empty : Catalogued env Documents.empty (HybridRetriever.empty : HybridRetriever K) where
  docs w id := by simp [HybridRetriever.docAt, HybridRetriever.empty, Documents.empty]
  vectors w id := by simp [HybridRetriever.vectorAt, HybridRetriever.empty, Documents.empty]
  kept w s h := by simp [HybridRetriever.empty] at h

theorem Catalogued.remove {documents : Documents K} {ret : HybridRetriever K}
    (h : Catalogued env documents ret) (w id : Bytes) :
    Catalogued env (RetrieverCall.catalog documents (.remove w id)) (ret.remove w id) := by
  constructor
  case docs =>
    intro v x
    rw [HybridRetriever.docAt_remove, RetrieverCall.catalog, apply_ite (Option.map _), h.docs]
    rfl
  case vectors =>
    intro v x
    rw [HybridRetriever.vectorAt_remove, RetrieverCall.catalog, apply_ite (Option.map _), h.vectors]
    rfl
  case kept =>
    intro v s hs
    rw [HybridRetriever.remove, HybridRetriever.removeFromSnapshot] at hs
    rcases hw : ret.snapshots[w]? with _ | snapshot
    · rw [hw] at hs
      exact h.kept v s hs
    · rw [hw] at hs
      dsimp only at hs
      rcases hdoc : snapshot.docs[id]? with _ | doc
      · rw [hdoc] at hs
        exact h.kept v s hs
      · rw [hdoc] at hs
        dsimp only at hs
        split at hs
        · rw [lookup_erase] at hs
          split at hs
          · cases hs
          · exact h.kept v s hs
        · rename_i hne
          rw [lookup_insert] at hs
          split at hs
          · obtain rfl := Option.some.inj hs
            exact kept_removeDoc (h.kept w snapshot hw) hdoc (Bool.eq_false_of_not_eq_true hne)
          · exact h.kept v s hs

theorem Catalogued.index {documents : Documents K} {ret : HybridRetriever K}
    (h : Catalogued env documents ret) (r : MemoryRecord K) :
    Catalogued env (RetrieverCall.catalog documents (.index r)) (ret.index env r) := by
  constructor
  case docs =>
    intro v x
    rw [HybridRetriever.docAt_index, RetrieverCall.catalog, apply_ite (Option.map _),
      apply_ite (Option.map _), h.docs]
    rfl
  case vectors =>
    intro v x
    rw [HybridRetriever.vectorAt_index, RetrieverCall.catalog, apply_ite (Option.map _),
      apply_ite (Option.map _), h.vectors]
    rfl
  case kept =>
    intro v s hs
    rw [HybridRetriever.index] at hs
    split at hs
    · exact (h.remove r.workspaceId r.id).kept v s hs
    · rw [lookup_insert] at hs
      split at hs
      · obtain rfl := Option.some.inj hs
        exact kept_insertDoc (fun s' hs' => h.kept r.workspaceId s' hs') r
      · exact h.kept v s hs

/-- The retriever after some calls has the documents they leave. -/
theorem catalogued_run (env : Platform K) (calls : List (RetrieverCall K)) :
    Catalogued env (catalogAfter calls)
      (calls.foldl (RetrieverCall.apply env) HybridRetriever.empty) := by
  have run : ∀ (documents : Documents K) (ret : HybridRetriever K), Catalogued env documents ret →
      Catalogued env (calls.foldl RetrieverCall.catalog documents)
        (calls.foldl (RetrieverCall.apply env) ret) := by
    induction calls with
    | nil => exact fun documents ret h => h
    | cons call rest ih =>
      intro documents ret h
      cases call with
      | index r => exact ih _ _ (h.index r)
      | remove w id => exact ih _ _ (h.remove w id)
  exact run Documents.empty HybridRetriever.empty catalogued_empty

omit [Field K] [LinearOrder K] in
theorem WorkspaceSnapshot.Kept.exact {s : WorkspaceSnapshot K} (h : s.Kept) : s.Exact := by
  constructor
  case nonempty => exact h.nonempty
  case df =>
    intro term
    rw [h.df]
    exact buildDocumentFrequency_getElem? s.docs term
  case totalDocLen => exact h.totalDocLen
  case tf =>
    rintro ⟨id, doc⟩ hmem
    obtain ⟨tokens, htf, hlen, rfl⟩ :=
      h.docs id doc (Std.ExtTreeMap.mem_toList_iff_getElem?_eq_some.mp hmem)
    exact ⟨by rw [htf, hlen]; exact total_countTerms _, hlen⟩

/-- After any calls the snapshots hold the records that were indexed last and not
removed since, with their statistics, and none of them is empty. -/
theorem retriever_statistics_exact (env : Platform K) (calls : List (RetrieverCall K)) :
    let ret := calls.foldl (RetrieverCall.apply env) HybridRetriever.empty
    (∀ workspaceId id, ret.docAt workspaceId id =
      (catalogAfter calls workspaceId id).map (HybridRetriever.indexedDoc env)) ∧
    ∀ (workspaceId : Bytes) (s : WorkspaceSnapshot K), ret.snapshots[workspaceId]? = some s → s.Exact := by
  have hrun := catalogued_run env calls
  exact ⟨hrun.docs, fun w s hs => (hrun.kept w s hs).exact⟩

end Runs

end PoorguyMem
