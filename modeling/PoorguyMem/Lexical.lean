import PoorguyMem.Ranking
import PoorguyMem.Reference

/-!
# The lexical score

A term of the query adds to the score of a document its inverse document
frequency, times a share that grows with how often the document has the term and
is zero where it does not. The frequency is positive because a term occurs in no
more documents than there are, and that holds after any calls on the retriever.
-/

namespace PoorguyMem

open ByteString HybridRetriever

variable {K : Type}

/-! ### Saturation -/

section Saturation
variable [Field K]

/-- What a term that occurs `n` times adds, `c` being the weight of the document's length. -/
def saturation (c n : K) : K := n * (3 / 2 + 1) / (n + c)

theorem saturation_zero (c : K) : saturation c 0 = 0 := by simp [saturation]

variable [LinearOrder K] [IsStrictOrderedRing K]

theorem saturation_lt {c m n : K} (hc : 0 < c) (hm : 0 ≤ m) (h : m < n) :
    saturation c m < saturation c n := by
  have hn : 0 < n := hm.trans_lt h
  have hcross : m * (3 / 2 + 1) * (n + c) < n * (3 / 2 + 1) * (m + c) := by
    nlinarith [mul_lt_mul_of_pos_right h hc]
  rw [saturation, saturation, div_lt_div_iff₀ (by linarith) (by linarith)]
  exact hcross

theorem saturation_le {c m n : K} (hc : 0 < c) (hm : 0 ≤ m) (h : m ≤ n) :
    saturation c m ≤ saturation c n := by
  rcases h.eq_or_lt with rfl | hlt
  · exact le_refl _
  · exact (saturation_lt hc hm hlt).le

theorem saturation_nonneg {c n : K} (hc : 0 < c) (hn : 0 ≤ n) : 0 ≤ saturation c n := by
  have hle := saturation_le hc (le_refl 0) hn
  rw [saturation_zero] at hle
  exact hle

theorem saturation_pos_iff {c n : K} (hc : 0 < c) (hn : 0 ≤ n) : 0 < saturation c n ↔ 0 < n := by
  constructor
  · intro h
    refine hn.lt_of_ne ?_
    rintro rfl
    rw [saturation_zero] at h
    exact lt_irrefl 0 h
  · intro h
    have hlt := saturation_lt hc (le_refl 0) h
    rw [saturation_zero] at hlt
    exact hlt

end Saturation

/-! ### The score of a document -/

section Scores
variable [Field K]

def inverseFrequency (env : Platform K) (s : WorkspaceSnapshot K) (term : Bytes) : K :=
  env.log (((s.docs.size : K) - s.df.getD term 0 + 1 / 2) / (s.df.getD term 0 + 1 / 2) + 1)

variable [LinearOrder K]

/-- The average length of the documents, as a query computes it. -/
def averageLength (s : WorkspaceSnapshot K) : K :=
  if 0 < s.docs.size then (s.totalDocLen : K) / s.docs.size else 1

def lengthWeight (s : WorkspaceSnapshot K) (doc : IndexedDoc K) : K :=
  3 / 2 * (1 - 3 / 4 + 3 / 4 *
    ((doc.docLen : K) / if 0 < averageLength s then averageLength s else 1))

/-- The score of a document of a snapshot for a text. -/
def documentScore (env : Platform K) (s : WorkspaceSnapshot K) (text : Bytes)
    (doc : IndexedDoc K) : K :=
  lexicalScore env doc (countTerms (tokenize text)) s.docs.size (averageLength s) s.df

/-- The documents that pass the filters and have a positive score, in the order of
the sparse path and before they are cut. -/
def sparseRanking (env : Platform K) (t : Nat) (s : WorkspaceSnapshot K) (input : QueryInput K) :
    List (Bytes × K) :=
  sortCandidates ((env.iterate t s.docs).filterMap fun kv =>
    if !passesFilter kv.2.record input.filters then none
    else
      let score := documentScore env s input.query kv.2
      if score ≤ 0 then none else some (kv.1, score))

theorem sparseCandidates_eq (env : Platform K) (t : Nat) (s : WorkspaceSnapshot K)
    (input : QueryInput K) : sparseCandidates env t s input = (sparseRanking env t s input).take
      (candidateLimit input.recallOptions.sparseK (effectiveTopK input)
        input.recallOptions.oversample) := rfl

/-- What a document has in common with a text. -/
def SharesToken (text : Bytes) (doc : IndexedDoc K) : Prop :=
  ∃ token ∈ tokenize text, token ∈ tokenize doc.record.content

def termScore (env : Platform K) (s : WorkspaceSnapshot K) (doc : IndexedDoc K) (term : Bytes) :
    K :=
  inverseFrequency env s term * saturation (lengthWeight s doc) (doc.tf.getD term 0 : Nat)

/-- The query's terms. -/
def queryTerms (text : Bytes) : List Bytes := (countTerms (tokenize text)).keys

theorem mem_queryTerms {text term : Bytes} : term ∈ queryTerms text ↔ term ∈ tokenize text := by
  rw [queryTerms, Std.ExtTreeMap.mem_keys, Std.ExtTreeMap.mem_iff_isSome_getElem?,
    countTerms_getElem?]
  split <;> simp [*]

omit [Field K] [LinearOrder K] in
theorem WorkspaceSnapshot.Kept.tf_pos_iff {s : WorkspaceSnapshot K} (h : s.Kept) {id : Bytes}
    {doc : IndexedDoc K} (hdoc : s.docs[id]? = some doc) (term : Bytes) :
    0 < doc.tf.getD term 0 ↔ term ∈ tokenize doc.record.content := by
  obtain ⟨tokens, htf, -, rfl⟩ := h.docs id doc hdoc
  rw [htf, Std.ExtTreeMap.getD_eq_getD_getElem?, countTerms_getElem?]
  split
  · rename_i hmem
    simp [hmem]
  · rename_i hmem
    simp [hmem]

/-- The score is a sum over the terms of the query. -/
theorem documentScore_eq {s : WorkspaceSnapshot K} (h : s.Kept) {id : Bytes}
    {doc : IndexedDoc K} (hdoc : s.docs[id]? = some doc) (env : Platform K) (text : Bytes) :
    documentScore env s text doc = ((queryTerms text).map (termScore env s doc)).sum := by
  have hsize : s.docs.size ≠ 0 := by
    intro hzero
    have hempty : s.docs.isEmpty = true := by
      rw [Std.ExtTreeMap.isEmpty_eq_size_beq_zero, hzero]
      rfl
    rw [h.nonempty] at hempty
    cases hempty
  have hterms : (queryTerms text).map (termScore env s doc) =
      (countTerms (tokenize text)).toList.map fun q => termScore env s doc q.1 := by
    rw [queryTerms, ← Std.ExtTreeMap.map_fst_toList_eq_keys, List.map_map]
    rfl
  rw [documentScore, lexicalScore, hterms]
  split
  · rename_i hguard
    -- neither an empty document nor an empty query has a term to add
    have hzero : ∀ q ∈ (countTerms (tokenize text)).toList, termScore env s doc q.1 = 0 := by
      intro q hq
      rcases hguard with hlen | hquery | hdocs
      · have hnone : doc.tf.getD q.1 0 = 0 := by
          obtain ⟨tokens, htf, hlength, -⟩ := h.docs id doc hdoc
          obtain rfl : tokens = [] := List.length_eq_zero_iff.mp (hlength.symm.trans hlen)
          rw [htf, countTerms, List.foldl_nil]
          simp
        rw [termScore, hnone, Nat.cast_zero, saturation_zero, mul_zero]
      · have hmem := Std.ExtTreeMap.mem_toList_iff_getElem?_eq_some.mp hq
        rw [Std.ExtTreeMap.isEmpty_iff.mp hquery] at hmem
        simp at hmem
      · exact absurd hdocs hsize
    exact (List.sum_eq_zero fun x hx => by
      obtain ⟨q, hq, rfl⟩ := List.mem_map.mp hx
      exact hzero q hq).symm
  · refine congrArg List.sum (List.map_congr_left fun q _ => ?_)
    have hcount : doc.tf.getD q.1 0 = doc.tf[q.1]?.getD 0 := Std.ExtTreeMap.getD_eq_getD_getElem?
    rw [termScore, hcount]
    cases doc.tf[q.1]? with
    | none => rw [Option.getD_none, Nat.cast_zero, saturation_zero, mul_zero]
    | some count => rfl

end Scores

/-! ### Signs and order -/

section Order
variable [Field K] [LinearOrder K] [IsStrictOrderedRing K] {env : Platform K}
  {s : WorkspaceSnapshot K}

theorem lengthWeight_pos (s : WorkspaceSnapshot K) (doc : IndexedDoc K) :
    0 < lengthWeight s doc := by
  have havg : (0 : K) < if 0 < averageLength s then averageLength s else 1 := by
    split
    · assumption
    · exact zero_lt_one
  have hratio : (0 : K) ≤ (doc.docLen : K) / if 0 < averageLength s then averageLength s else 1 :=
    div_nonneg (Nat.cast_nonneg _) havg.le
  rw [lengthWeight]
  linarith

omit [Field K] [LinearOrder K] [IsStrictOrderedRing K] in
/-- No term occurs in more documents than there are. -/
theorem WorkspaceSnapshot.Kept.df_le_size (h : s.Kept) (term : Bytes) :
    s.df.getD term 0 ≤ s.docs.size := by
  rw [Std.ExtTreeMap.getD_eq_getD_getElem?, h.df, buildDocumentFrequency_getElem?]
  split
  · exact Nat.zero_le _
  · rw [Option.getD_some, documentCount, ← Std.ExtTreeMap.length_toList]
    exact List.countP_le_length

variable (hlog : ∀ x, 1 < x → 0 < env.log x)
include hlog

theorem inverseFrequency_pos (h : s.Kept) (term : Bytes) : 0 < inverseFrequency env s term := by
  have hle : (s.df.getD term 0 : K) ≤ s.docs.size := Nat.cast_le.mpr (h.df_le_size term)
  have hpos : (0 : K) < s.df.getD term 0 + 1 / 2 := by positivity
  have hquotient : (0 : K) < ((s.docs.size : K) - s.df.getD term 0 + 1 / 2) /
      (s.df.getD term 0 + 1 / 2) := div_pos (by linarith) hpos
  apply hlog
  linarith

theorem termScore_nonneg (h : s.Kept) (doc : IndexedDoc K) (term : Bytes) :
    0 ≤ termScore env s doc term :=
  mul_nonneg (inverseFrequency_pos hlog h term).le
    (saturation_nonneg (lengthWeight_pos s doc) (Nat.cast_nonneg _))

theorem termScore_pos_iff (h : s.Kept) {id : Bytes} {doc : IndexedDoc K}
    (hdoc : s.docs[id]? = some doc) (term : Bytes) :
    0 < termScore env s doc term ↔ term ∈ tokenize doc.record.content := by
  have hcast : (0 : K) < (doc.tf.getD term 0 : Nat) ↔ 0 < doc.tf.getD term 0 := Nat.cast_pos
  rw [termScore, mul_pos_iff_of_pos_left (inverseFrequency_pos hlog h term),
    saturation_pos_iff (lengthWeight_pos s doc) (Nat.cast_nonneg _), hcast, h.tf_pos_iff hdoc]

theorem documentScore_nonneg (h : s.Kept) {id : Bytes} {doc : IndexedDoc K}
    (hdoc : s.docs[id]? = some doc) (text : Bytes) : 0 ≤ documentScore env s text doc := by
  rw [documentScore_eq h hdoc]
  apply List.sum_nonneg
  intro x hx
  obtain ⟨term, -, rfl⟩ := List.mem_map.mp hx
  exact termScore_nonneg hlog h doc term

theorem documentScore_pos_iff (h : s.Kept) {id : Bytes} {doc : IndexedDoc K}
    (hdoc : s.docs[id]? = some doc) (text : Bytes) :
    0 < documentScore env s text doc ↔ SharesToken text doc := by
  rw [documentScore_eq h hdoc]
  constructor
  · intro hpos
    by_contra hshares
    have hzero : ∀ x ∈ (queryTerms text).map (termScore env s doc), x = 0 := by
      intro x hx
      obtain ⟨term, hterm, rfl⟩ := List.mem_map.mp hx
      have hnotPos : ¬ 0 < termScore env s doc term := by
        rw [termScore_pos_iff hlog h hdoc]
        exact fun hmem => hshares ⟨term, mem_queryTerms.mp hterm, hmem⟩
      exact (not_lt.mp hnotPos).eq_of_not_lt (termScore_nonneg hlog h doc term).not_gt
    rw [List.sum_eq_zero hzero] at hpos
    exact lt_irrefl 0 hpos
  · rintro ⟨term, hquery, hmem⟩
    have hsum := List.sum_lt_sum (fun _ => (0 : K)) (termScore env s doc)
      (fun term _ => termScore_nonneg hlog h doc term)
      ⟨term, mem_queryTerms.mpr hquery, (termScore_pos_iff hlog h hdoc term).mpr hmem⟩
    simpa using hsum

/-- Of two documents of one length the one with more of the query's terms scores higher. -/
theorem documentScore_lt (h : s.Kept) {id id' : Bytes} {doc doc' : IndexedDoc K}
    (hdoc : s.docs[id]? = some doc) (hdoc' : s.docs[id']? = some doc')
    (hlen : doc.docLen = doc'.docLen) {text : Bytes}
    (hle : ∀ term ∈ tokenize text, doc.tf.getD term 0 ≤ doc'.tf.getD term 0)
    (hlt : ∃ term ∈ tokenize text, doc.tf.getD term 0 < doc'.tf.getD term 0) :
    documentScore env s text doc < documentScore env s text doc' := by
  have hweight : lengthWeight s doc = lengthWeight s doc' := by
    rw [lengthWeight, lengthWeight, hlen]
  have hpos := lengthWeight_pos s doc'
  rw [documentScore_eq h hdoc, documentScore_eq h hdoc']
  apply List.sum_lt_sum
  · intro term hterm
    rw [termScore, termScore, hweight]
    apply mul_le_mul_of_nonneg_left _ (inverseFrequency_pos hlog h term).le
    exact saturation_le hpos (Nat.cast_nonneg _) (Nat.cast_le.mpr (hle term (mem_queryTerms.mp hterm)))
  · obtain ⟨term, hterm, hmore⟩ := hlt
    refine ⟨term, mem_queryTerms.mpr hterm, ?_⟩
    rw [termScore, termScore, hweight]
    apply mul_lt_mul_of_pos_left _ (inverseFrequency_pos hlog h term)
    exact saturation_lt hpos (Nat.cast_nonneg _) (Nat.cast_lt.mpr hmore)

/-- The sparse path ranks the documents that pass the filters and share a token. -/
theorem mem_sparseRanking_iff (h : s.Kept) (t : Nat) (input : QueryInput K) (id : Bytes) :
    id ∈ (sparseRanking env t s input).map Prod.fst ↔ ∃ doc, s.docs[id]? = some doc ∧
      passesFilter doc.record input.filters = true ∧ SharesToken input.query doc := by
  simp only [sparseRanking, sortCandidates, List.mem_map, List.mem_insertionSort,
    List.mem_filterMap, Prod.exists, exists_and_right, exists_eq_right, env.mem_iterate]
  constructor
  · rintro ⟨score, id', doc, hdoc, hscored⟩
    split at hscored
    · cases hscored
    · rename_i hfilter
      split at hscored
      · cases hscored
      · rename_i hscore
        obtain ⟨rfl, rfl⟩ := Prod.mk.inj (Option.some.inj hscored)
        exact ⟨doc, hdoc, by simpa using hfilter,
          (documentScore_pos_iff hlog h hdoc input.query).mp (not_le.mp hscore)⟩
  · rintro ⟨doc, hdoc, hfilter, hshares⟩
    have hpos := (documentScore_pos_iff hlog h hdoc input.query).mpr hshares
    refine ⟨documentScore env s input.query doc, id, doc, hdoc, ?_⟩
    rw [hfilter, Bool.not_true, if_neg Bool.false_ne_true, if_neg (not_le.mpr hpos)]

end Order

/-- In a snapshot that any calls have left, no score is negative, those of the
documents that share a token with the query are positive, and of two documents of
one length the one that has no term of the query less often, and one more often,
scores higher. -/
theorem lexical_score_sound [Field K] [LinearOrder K] [IsStrictOrderedRing K] (env : Platform K)
    (hlog : ∀ x, 1 < x → 0 < env.log x) (calls : List (RetrieverCall K)) {workspaceId : Bytes}
    {s : WorkspaceSnapshot K} (hs : (retrieverAfter env calls).snapshots[workspaceId]? = some s)
    (text : Bytes) :
    (∀ (id : Bytes) (doc : IndexedDoc K), s.docs[id]? = some doc →
      0 ≤ documentScore env s text doc ∧
        (0 < documentScore env s text doc ↔ SharesToken text doc)) ∧
    (∀ t (input : QueryInput K) id, input.query = text →
      (id ∈ (sparseRanking env t s input).map Prod.fst ↔ ∃ doc, s.docs[id]? = some doc ∧
        passesFilter doc.record input.filters = true ∧ SharesToken text doc)) ∧
    ∀ (id id' : Bytes) (doc doc' : IndexedDoc K), s.docs[id]? = some doc →
      s.docs[id']? = some doc' → doc.docLen = doc'.docLen →
      (∀ term ∈ tokenize text, doc.tf.getD term 0 ≤ doc'.tf.getD term 0) →
      (∃ term ∈ tokenize text, doc.tf.getD term 0 < doc'.tf.getD term 0) →
      documentScore env s text doc < documentScore env s text doc' := by
  have hkept : s.Kept := (catalogued_run env calls).kept workspaceId s hs
  refine ⟨fun id doc hdoc => ?_, ?_, ?_⟩
  · exact ⟨documentScore_nonneg hlog hkept hdoc text, documentScore_pos_iff hlog hkept hdoc text⟩
  · rintro t input id rfl
    exact mem_sparseRanking_iff hlog hkept t input id
  · intro id id' doc doc' hdoc hdoc' hlen hle hlt
    exact documentScore_lt hlog hkept hdoc hdoc' hlen hle hlt

namespace Reference

/-- The platform over the real numbers, with the real logarithm and square root. -/
noncomputable def realPlatform : Platform ℝ where
  hash := fnv1a
  log := Real.log
  log1p x := Real.log (1 + x)
  sqrt := Real.sqrt
  showFloat _ := []
  json := JsonText.library
  translators := ⟨fun _ => [], fun _ => none, readUint64, readBool⟩
  clock := ticking
  iterOrder _ keys := keys
  iterOrder_perm _ keys := .refl keys

/-- A live record of the workspace `w`. -/
def liveRecord {K : Type} [Zero K] (id content : Bytes) : MemoryRecord K where
  id := id
  workspaceId := ascii "w"
  sessionId := []
  source := []
  content := content
  tags := []
  metadata := ∅
  dedupKey := []
  pinned := false
  tombstone := false
  createdAtMs := 0
  updatedAtMs := 0
  version := 1
  sizeBytes := 0
  lastAccessMs := 0
  hitCount := 0
  importanceScore := 0
  tier := []
  nodeId := []
  ttlS := 0
  shardId := []
  replicaRole := []
  routingEpoch := 0
  shardHint := []

end Reference

/-- The only document has a positive score for its own text. -/
theorem lexical_score_hello : 0 < documentScore Reference.realPlatform
    (insertDoc none (indexedDoc Reference.realPlatform
      (Reference.liveRecord (ascii "a") (ascii "hello")))) (ascii "hello")
    (indexedDoc Reference.realPlatform (Reference.liveRecord (ascii "a") (ascii "hello"))) := by
  have hsnapshot : (retrieverAfter Reference.realPlatform
      [.index (Reference.liveRecord (ascii "a") (ascii "hello"))]).snapshots[ascii "w"]? =
      some (insertDoc none (indexedDoc Reference.realPlatform
        (Reference.liveRecord (ascii "a") (ascii "hello")))) := by
    simp [retrieverAfter, RetrieverCall.apply, index, Reference.liveRecord, empty]
  have hdoc : (insertDoc none (indexedDoc Reference.realPlatform
      (Reference.liveRecord (ascii "a") (ascii "hello")))).docs[ascii "a"]? =
      some (indexedDoc Reference.realPlatform
        (Reference.liveRecord (ascii "a") (ascii "hello"))) := by
    simp [insertDoc, indexedDoc, Reference.liveRecord]
  have hsound := (lexical_score_sound Reference.realPlatform (fun _ => Real.log_pos) _ hsnapshot
    (ascii "hello")).1 _ _ hdoc
  exact hsound.2.mpr ⟨ascii "hello", by decide, by decide⟩

end PoorguyMem
