import PoorguyMem.Lexical

/-!
# Filters and recall

The sparse path takes the documents that pass the filters, ranks them and cuts the
ranking. The dense path lets the vector index rank all documents and cut, and takes
those that pass from what is left, so a document that passes is lost where others
that do not pass fill the places before it.
-/

namespace PoorguyMem

open ByteString HybridRetriever

variable {K : Type}

/-- The vectors of a workspace are those of its documents. -/
def MatchingIndex [Field K] [LinearOrder K] (s : WorkspaceSnapshot K)
    (vectors : StringMap (VectorEntry K)) : Prop :=
  ∀ id : Bytes, vectors[id]? = s.docs[id]?.map fun doc =>
    ⟨doc.embedding, bucketForVector doc.embedding⟩

/-- Whether the document of an id passes the filters. -/
def passesAt (s : WorkspaceSnapshot K) (filters : QueryFilter) (id : Bytes) : Bool :=
  match s.docs[id]? with
  | none => false
  | some doc => passesFilter doc.record filters

section Rankings
variable [Field K] [LinearOrder K]

def sparseLimit (input : QueryInput K) : Nat :=
  candidateLimit input.recallOptions.sparseK (effectiveTopK input) input.recallOptions.oversample

def denseLimit (input : QueryInput K) : Nat :=
  candidateLimit input.recallOptions.denseK (effectiveTopK input) input.recallOptions.oversample

def denseScore (q : List K) (doc : IndexedDoc K) : K :=
  let score := cosine q doc.embedding
  if bucketForVector doc.embedding = bucketForVector q then score + 1 / 20 else score

/-- All documents of a workspace by their lexical score and id. -/
def lexicalRanking (env : Platform K) (t : Nat) (s : WorkspaceSnapshot K) (input : QueryInput K) :
    List (Bytes × K) :=
  sortCandidates ((env.iterate t s.docs).map fun kv =>
    (kv.1, documentScore env s input.query kv.2))

/-- All documents of a workspace by their dense score and id. -/
def denseRanking (env : Platform K) (t : Nat) (s : WorkspaceSnapshot K) (input : QueryInput K) :
    List (Bytes × K) :=
  sortCandidates ((env.iterate t s.docs).map fun kv =>
    (kv.1, denseScore (embed env input.query embeddingDim) kv.2))

/-- The candidates of both paths are the first of the documents that pass the filters. -/
structure FiltersCostNothing (env : Platform K) (t : Nat) (ret : HybridRetriever K)
    (s : WorkspaceSnapshot K) (input : QueryInput K) : Prop where
  sparse : sparseCandidates env t s input =
    ((lexicalRanking env t s input).filter fun item =>
      passesAt s input.filters item.1 && decide (0 < item.2)).take (sparseLimit input)
  dense : denseCandidates env t ret s input =
    ((denseRanking env t s input).filter fun item => passesAt s input.filters item.1).take
      (denseLimit input)

/-- The documents the dense path keeps all pass the filters, or those it cuts off all
fail them. -/
def CutSparesPassing (env : Platform K) (t : Nat) (s : WorkspaceSnapshot K)
    (input : QueryInput K) : Prop :=
  (0 < denseLimit input ∧ ∀ item ∈ (denseRanking env t s input).take (denseLimit input),
    passesAt s input.filters item.1 = true) ∨
  ∀ item ∈ (denseRanking env t s input).drop (denseLimit input),
    passesAt s input.filters item.1 = false

/-! ### Sorting and filtering -/

omit [Field K] in
theorem filter_sortCandidates (p : Bytes × K → Bool) (cs : List (Bytes × K)) :
    (sortCandidates cs).filter p = sortCandidates (cs.filter p) := by
  have hsorted : ((sortCandidates cs).filter p).Pairwise fun l r => candidateBefore r l = false :=
    (List.pairwise_insertionSort (fun l r : Bytes × K => candidateBefore r l = false) cs).filter p
  have hself : sortCandidates ((sortCandidates cs).filter p) = (sortCandidates cs).filter p :=
    hsorted.insertionSort_eq
  rw [← hself]
  exact sortCandidates_eq_of_perm ((List.perm_insertionSort _ cs).filter p)

theorem filter_map_eq_filterMap {α β : Type} (f : α → β) (p : β → Bool) (l : List α) :
    (l.map f).filter p = l.filterMap fun a => if p (f a) then some (f a) else none := by
  induction l with
  | nil => rfl
  | cons a rest ih =>
    rw [List.map_cons, List.filter_cons, List.filterMap_cons, ih]
    split <;> rfl

omit [Field K] [LinearOrder K] in
theorem passesAt_of_mem_iterate {env : Platform K} {t : Nat} {s : WorkspaceSnapshot K}
    {kv : Bytes × IndexedDoc K} (hkv : kv ∈ env.iterate t s.docs) (filters : QueryFilter) :
    passesAt s filters kv.1 = passesFilter kv.2.record filters := by
  rw [passesAt, (env.mem_iterate t).mp hkv]

theorem sparseCandidates_eq_take (env : Platform K) (t : Nat) (s : WorkspaceSnapshot K)
    (input : QueryInput K) : sparseCandidates env t s input =
      ((lexicalRanking env t s input).filter fun item =>
        passesAt s input.filters item.1 && decide (0 < item.2)).take (sparseLimit input) := by
  have hsame : ((env.iterate t s.docs).map fun kv =>
      (kv.1, documentScore env s input.query kv.2)).filter (fun item =>
        passesAt s input.filters item.1 && decide (0 < item.2)) =
      (env.iterate t s.docs).filterMap fun kv =>
        if !passesFilter kv.2.record input.filters then none
        else
          let score := documentScore env s input.query kv.2
          if score ≤ 0 then none else some (kv.1, score) := by
    rw [filter_map_eq_filterMap]
    refine List.filterMap_congr fun kv hkv => ?_
    dsimp only
    rw [passesAt_of_mem_iterate hkv]
    cases passesFilter kv.2.record input.filters with
    | false => rfl
    | true =>
      by_cases hscore : documentScore env s input.query kv.2 ≤ 0
      · simp [hscore, not_lt.mpr hscore]
      · simp [hscore, not_le.mp hscore]
  rw [sparseCandidates_eq, sparseRanking, lexicalRanking, filter_sortCandidates, hsame]
  rfl

theorem embed_ne_nil (env : Platform K) (text : Bytes) : embed env text embeddingDim ≠ [] := by
  have hlength : ∀ (tokens : List Bytes) (emb : List K), (tokens.foldl
      (fun emb token => emb.modify ((env.hash token).toNat % embeddingDim) (· + 1)) emb).length =
        emb.length := by
    intro tokens
    induction tokens with
    | nil => exact fun _ => rfl
    | cons token rest ih =>
      intro emb
      rw [List.foldl_cons, ih, List.length_modify]
  have hdim : (embed env text embeddingDim).length = embeddingDim := by
    rw [embed, if_neg (by decide)]
    dsimp only
    split
    · rw [List.length_replicate]
    · split
      · rw [List.length_map, hlength, List.length_replicate]
      · rw [hlength, List.length_replicate]
  intro hnil
  rw [hnil] at hdim
  cases hdim

/-- The index ranks the vectors as their documents are ranked. -/
theorem sort_scoredVectors {env : Platform K} {s : WorkspaceSnapshot K}
    {vectors : StringMap (VectorEntry K)} (h : MatchingIndex s vectors) (t : Nat)
    (input : QueryInput K) :
    sortCandidates (scoredVectors env t vectors (embed env input.query embeddingDim)) =
      denseRanking env t s input := by
  have hvectors : vectors = s.docs.map fun _ doc =>
      ⟨doc.embedding, bucketForVector doc.embedding⟩ := by
    refine Std.ExtTreeMap.ext_getElem? fun id => ?_
    rw [h id, Std.ExtTreeMap.getElem?_map]
  have hkeys : vectors.keys = s.docs.keys := by
    rw [hvectors, Std.ExtTreeMap.keys_map]
  have hiterate : env.iterate t vectors = (env.iterate t s.docs).map fun kv =>
      (kv.1, ⟨kv.2.embedding, bucketForVector kv.2.embedding⟩) := by
    rw [Platform.iterate, Platform.iterate, hkeys, List.map_filterMap]
    refine List.filterMap_congr fun id _ => ?_
    rw [h id, Option.map_map, Option.map_map]
    rfl
  rw [scoredVectors, hiterate, List.map_map]
  rfl

theorem denseCandidates_eq {env : Platform K} {ret : HybridRetriever K} {s : WorkspaceSnapshot K}
    {input : QueryInput K} (h : MatchingIndex s (ret.vectorIndex[input.workspaceId]?.getD ∅))
    (t : Nat) : denseCandidates env t ret s input =
      (if denseLimit input = 0 then denseRanking env t s input
        else (denseRanking env t s input).take (denseLimit input)).filter fun item =>
          passesAt s input.filters item.1 := by
  have hcut : ret.vectorIndex.search env t input.workspaceId
      (embed env input.query embeddingDim) (denseLimit input) =
      if denseLimit input = 0 then denseRanking env t s input
        else (denseRanking env t s input).take (denseLimit input) := by
    rw [search_eq, if_neg (embed_ne_nil env input.query), sort_scoredVectors h]
    dsimp only
    by_cases hzero : denseLimit input = 0
    · rw [if_pos hzero, if_neg (by omega)]
    · rw [if_neg hzero]
      split
      · rfl
      · rw [List.take_of_length_le (by omega)]
  rw [← hcut]
  rfl

/-- The index matches after any calls. -/
theorem Catalogued.matchingIndex {env : Platform K} {documents : Documents K}
    {ret : HybridRetriever K} (h : Catalogued env documents ret) {workspaceId : Bytes}
    {s : WorkspaceSnapshot K} (hs : ret.snapshots[workspaceId]? = some s) :
    MatchingIndex s (ret.vectorIndex[workspaceId]?.getD ∅) := by
  intro id
  have hdoc : s.docs[id]? = (documents workspaceId id).map (indexedDoc env) := by
    rw [← h.docs, docAt, hs, Option.bind_some]
  have hvector : (ret.vectorIndex[workspaceId]?.getD ∅)[id]? =
      (documents workspaceId id).map (vectorEntry env) := by
    rw [← h.vectors, vectorAt]
    cases ret.vectorIndex[workspaceId]? with
    | none => simp
    | some vectors => rfl
  rw [hvector, hdoc, Option.map_map]
  rfl

end Rankings

namespace Reference

/-- Two texts that are the same are indexed, from two sessions. -/
def twoSessions : List (RetrieverCall ℚ) :=
  [.index { liveRecord (ascii "a") (ascii "x") with sessionId := ascii "s" },
    .index { liveRecord (ascii "b") (ascii "x") with sessionId := ascii "t" }]

def sessionRetriever : HybridRetriever ℚ := retrieverAfter (platform ticking) twoSessions

def sessionSnapshot : WorkspaceSnapshot ℚ :=
  sessionRetriever.snapshots[ascii "w"]?.getD ⟨∅, ∅, 0⟩

/-- A query for one hit from one of the sessions. -/
def sessionQuery (sessionId : Bytes) : QueryInput ℚ where
  workspaceId := ascii "w"
  query := ascii "x"
  topK := 1
  tokenBudget := 0
  filters := ⟨sessionId, [], [], 0, 0, false⟩
  recallOptions := ⟨1, 1, 1⟩
  rerank := ⟨1, 1, 1, 1⟩

end Reference

open Reference

end PoorguyMem
