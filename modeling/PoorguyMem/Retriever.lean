import PoorguyMem.Types
import PoorguyMem.Text

/-!
# The retriever

`HybridRetriever` with its default analyzer, hash embeddings and LSH vector
index: one snapshot of indexed documents and one vector table per workspace, and
the query that merges the sparse and the dense candidates. Scores are exact.
-/

namespace PoorguyMem

open ByteString

variable {K : Type}

/-- The analyzer, the embeddings and the vector index are built for this dimension. -/
def embeddingDim : Nat := 64

/-! ### Embeddings and the vector index -/

section Vectors
variable [Field K] [LinearOrder K]

/-- `HashEmbeddingProvider::Embed`; the norm is compared with the epsilon of `float`. -/
def embed (env : Platform K) (text : Bytes) (dim : Nat) : List K :=
  if dim = 0 then []
  else
    let tokens := tokenize text
    if tokens = [] then List.replicate dim 0
    else
      let counts := tokens.foldl
        (fun emb token => emb.modify ((env.hash token).toNat % dim) (· + 1))
        (List.replicate dim (0 : K))
      let norm := env.sqrt (counts.foldl (fun n v => n + v * v) 0)
      if 1 / 8388608 < norm then counts.map (· / norm) else counts

/-- One bit for each of the first 64 components that is positive. -/
def bucketForVector (vec : List K) : UInt64 :=
  (vec.take 64).zipIdx.foldl
    (fun bucket vi => if (0 : K) < vi.1 then bucket ||| 1 <<< UInt64.ofNat vi.2 else bucket) 0

def cosine (a b : List K) : K :=
  if a.length ≠ b.length ∨ a = [] then 0 else (List.zipWith (· * ·) a b).sum

end Vectors

structure VectorEntry (K : Type) where
  vector : List K
  bucket : UInt64

abbrev VectorIndex (K : Type) := StringMap (StringMap (VectorEntry K))

/-- The order in which candidates are listed: higher score first, then the smaller id. -/
def candidateBefore [LinearOrder K] (l r : Bytes × K) : Bool :=
  if l.2 = r.2 then lt l.1 r.1 else r.2 < l.2

def sortCandidates [LinearOrder K] (cs : List (Bytes × K)) : List (Bytes × K) :=
  cs.insertionSort fun l r => candidateBefore r l = false

namespace VectorIndex
variable [Field K] [LinearOrder K]

def upsert (ix : VectorIndex K) (workspaceId memoryId : Bytes) (vector : List K) :
    VectorIndex K :=
  ix.insert workspaceId
    ((ix[workspaceId]?.getD ∅).insert memoryId ⟨vector, bucketForVector vector⟩)

omit [Field K] [LinearOrder K] in
def remove (ix : VectorIndex K) (workspaceId memoryId : Bytes) : VectorIndex K :=
  match ix[workspaceId]? with
  | none => ix
  | some vectors =>
    let rest := vectors.erase memoryId
    if rest.isEmpty then ix.erase workspaceId else ix.insert workspaceId rest

def search (env : Platform K) (t : Nat) (ix : VectorIndex K) (workspaceId : Bytes)
    (query : List K) (topK : Nat) : List (Bytes × K) :=
  match ix[workspaceId]? with
  | none => []
  | some vectors =>
    if query = [] then []
    else
      let queryBucket := bucketForVector query
      let scored := (env.iterate t vectors).map fun kv =>
        let score := cosine query kv.2.vector
        (kv.1, if kv.2.bucket = queryBucket then score + 1 / 20 else score)
      let out := sortCandidates scored
      if 0 < topK ∧ topK < out.length then out.take topK else out

end VectorIndex

/-! ### Snapshots -/

structure IndexedDoc (K : Type) where
  record : MemoryRecord K
  tf : StringMap Nat
  docLen : Nat
  embedding : List K

structure WorkspaceSnapshot (K : Type) where
  docs : StringMap (IndexedDoc K)
  df : StringMap Nat
  totalDocLen : Nat

structure HybridRetriever (K : Type) where
  snapshots : StringMap (WorkspaceSnapshot K)
  vectorIndex : VectorIndex K

def countTerms (tokens : List Bytes) : StringMap Nat :=
  tokens.foldl (fun tf token => tf.insert token (tf.getD token 0 + 1)) ∅

/-- A term is counted as often as it occurs. -/
theorem countTerms_getElem? (tokens : List Bytes) (term : Bytes) :
    (countTerms tokens)[term]? = if term ∈ tokens then some (tokens.count term) else none := by
  -- for a map that has counted other tokens before
  have fold : ∀ m : StringMap Nat,
      (tokens.foldl (fun tf token => tf.insert token (tf.getD token 0 + 1)) m)[term]? =
        if term ∈ tokens then some (m.getD term 0 + tokens.count term) else m[term]? := by
    induction tokens with
    | nil => intro m; simp
    | cons token rest ih =>
      intro m
      rw [List.foldl_cons, ih]
      by_cases heq : token = term
      · subst heq
        rw [Std.ExtTreeMap.getD_insert_self, Std.ExtTreeMap.getElem?_insert_self,
          if_pos List.mem_cons_self, List.count_cons_self]
        by_cases hmem : token ∈ rest
        · rw [if_pos hmem]
          congr 1
          omega
        · rw [if_neg hmem, List.count_eq_zero_of_not_mem hmem]
      · have hcmp : compare token term ≠ .eq := fun h => heq (Std.compare_eq_iff_eq.mp h)
        simp [Std.ExtTreeMap.getD_insert, Std.ExtTreeMap.getElem?_insert, hcmp, heq, Ne.symm heq]
  simpa [countTerms] using fold ∅

def buildDocumentFrequency (docs : StringMap (IndexedDoc K)) : StringMap Nat :=
  docs.toList.foldl
    (fun df kv => kv.2.tf.toList.foldl
      (fun df term => if 0 < term.2 then df.insert term.1 (df.getD term.1 0 + 1) else df) df) ∅

namespace HybridRetriever

def empty : HybridRetriever K := ⟨∅, ∅⟩

def indexedDoc [Field K] [LinearOrder K] (env : Platform K) (record : MemoryRecord K) :
    IndexedDoc K :=
  let tokens := tokenize record.content
  { record := record
    tf := countTerms tokens
    docLen := tokens.length
    embedding := embed env record.content embeddingDim }

/-- The length of the text of the document that is replaced is taken off first. -/
def insertDoc (old : Option (WorkspaceSnapshot K)) (doc : IndexedDoc K) :
    WorkspaceSnapshot K :=
  let docs := (old.map (·.docs)).getD ∅
  let total := (old.map (·.totalDocLen)).getD 0
  let total := match docs[doc.record.id]? with
    | some prev => if prev.docLen ≤ total then total - prev.docLen else total
    | none => total
  let docs := docs.insert doc.record.id doc
  { docs := docs, df := buildDocumentFrequency docs, totalDocLen := total + doc.docLen }

def removeDoc (snapshot : WorkspaceSnapshot K) (memoryId : Bytes) (doc : IndexedDoc K) :
    WorkspaceSnapshot K :=
  let docs := snapshot.docs.erase memoryId
  { docs := docs
    df := buildDocumentFrequency docs
    totalDocLen :=
      if doc.docLen ≤ snapshot.totalDocLen then snapshot.totalDocLen - doc.docLen
      else snapshot.totalDocLen }

/-- The part of `Remove` under the retriever's lock. -/
def removeFromSnapshot (snapshots : StringMap (WorkspaceSnapshot K))
    (workspaceId memoryId : Bytes) : StringMap (WorkspaceSnapshot K) :=
  match snapshots[workspaceId]? with
  | none => snapshots
  | some snapshot =>
    match snapshot.docs[memoryId]? with
    | none => snapshots
    | some doc =>
      let next := removeDoc snapshot memoryId doc
      if next.docs.isEmpty then snapshots.erase workspaceId
      else snapshots.insert workspaceId next

/-- Every path through `Remove` removes the vector. -/
def remove (ret : HybridRetriever K) (workspaceId memoryId : Bytes) : HybridRetriever K :=
  { snapshots := removeFromSnapshot ret.snapshots workspaceId memoryId
    vectorIndex := ret.vectorIndex.remove workspaceId memoryId }

def index [Field K] [LinearOrder K] (env : Platform K) (ret : HybridRetriever K)
    (record : MemoryRecord K) : HybridRetriever K :=
  if record.tombstone then ret.remove record.workspaceId record.id
  else
    let doc := indexedDoc env record
    { snapshots := ret.snapshots.insert record.workspaceId
        (insertDoc ret.snapshots[record.workspaceId]? doc)
      vectorIndex := ret.vectorIndex.upsert record.workspaceId record.id doc.embedding }

/-! ### Queries -/

def containsAnyTag (haystack needle : List Bytes) : Bool :=
  needle.any fun want => haystack.contains want

def containsAnySource (source : Bytes) (allow : List Bytes) : Bool := allow.contains source

def passesFilter (record : MemoryRecord K) (filters : QueryFilter) : Bool :=
  if filters.sessionId ≠ [] ∧ record.sessionId ≠ filters.sessionId then false
  else if filters.sources ≠ [] ∧ !containsAnySource record.source filters.sources then false
  else if filters.tagsAny ≠ [] ∧ !containsAnyTag record.tags filters.tagsAny then false
  else if 0 < filters.updatedAfterMs ∧ record.updatedAtMs < filters.updatedAfterMs then false
  else if 0 < filters.updatedBeforeMs ∧ filters.updatedBeforeMs < record.updatedAtMs then false
  else if filters.pinnedOnly ∧ !record.pinned then false
  else !record.tombstone

/-- `now > then ? now - then : 0` -/
def ageMs (thenMs nowMs : UInt64) : UInt64 := if thenMs < nowMs then nowMs - thenMs else 0

section Query
variable [Field K] [LinearOrder K]

omit [LinearOrder K] in
def ageHours (thenMs nowMs : UInt64) : K := ((ageMs thenMs nowMs).toNat : K) / 3600000

omit [LinearOrder K] in
def freshnessScore (updatedAtMs nowMs : UInt64) : K := 1 / (1 + ageHours updatedAtMs nowMs)

def normalize (value maxValue : K) : K :=
  if value ≤ 0 ∨ maxValue ≤ 0 then 0 else value / maxValue

/-- BM25 with `k1 = 1.5` and `b = 0.75`. -/
def lexicalScore (env : Platform K) (doc : IndexedDoc K) (queryTf : StringMap Nat)
    (totalDocs : Nat) (avgDocLen : K) (df : StringMap Nat) : K :=
  if doc.docLen = 0 ∨ queryTf.isEmpty ∨ totalDocs = 0 then 0
  else
    let avgdl := if 0 < avgDocLen then avgDocLen else 1
    (queryTf.toList.map fun q =>
      match doc.tf[q.1]? with
      | none => 0
      | some count =>
        let tf : K := count
        let docFreq : K := df.getD q.1 0
        let idf := env.log (((totalDocs : K) - docFreq + 1 / 2) / (docFreq + 1 / 2) + 1)
        let denom := tf + 3 / 2 * (1 - 3 / 4 + 3 / 4 * ((doc.docLen : K) / avgdl))
        idf * (tf * (3 / 2 + 1) / denom)).sum

/-- `max(k, top_k * max(1, oversample))` in 64-bit arithmetic -/
def candidateLimit (k topK oversample : Nat) : Nat :=
  max k (topK * max 1 oversample % 2 ^ 64)

def effectiveTopK (input : QueryInput K) : Nat := if input.topK = 0 then 8 else input.topK

def sparseCandidates (env : Platform K) (t : Nat) (snapshot : WorkspaceSnapshot K)
    (input : QueryInput K) : List (Bytes × K) :=
  let queryTf := countTerms (tokenize input.query)
  let totalDocs := snapshot.docs.size
  let avgdl : K := if 0 < totalDocs then (snapshot.totalDocLen : K) / totalDocs else 1
  let scored := (env.iterate t snapshot.docs).filterMap fun kv =>
    if !passesFilter kv.2.record input.filters then none
    else
      let score := lexicalScore env kv.2 queryTf totalDocs avgdl snapshot.df
      if score ≤ 0 then none else some (kv.1, score)
  (sortCandidates scored).take
    (candidateLimit input.recallOptions.sparseK (effectiveTopK input)
      input.recallOptions.oversample)

def denseCandidates (env : Platform K) (t : Nat) (ret : HybridRetriever K)
    (snapshot : WorkspaceSnapshot K) (input : QueryInput K) : List (Bytes × K) :=
  let limit := candidateLimit input.recallOptions.denseK (effectiveTopK input)
    input.recallOptions.oversample
  let raw := ret.vectorIndex.search env t input.workspaceId
    (embed env input.query embeddingDim) limit
  raw.filter fun item =>
    match snapshot.docs[item.1]? with
    | none => false
    | some doc => passesFilter doc.record input.filters

/-- The sparse and the dense score of every candidate; the missing one is zero. -/
def mergeCandidates (sparse dense : List (Bytes × K)) : StringMap (K × K) :=
  dense.foldl (fun m item => m.insert item.1 ((m.getD item.1 (0, 0)).1, item.2))
    (sparse.foldl (fun m item => m.insert item.1 (item.2, (m.getD item.1 (0, 0)).2)) ∅)

def scoreBreakdown (rerank : RerankWeights K) (record : MemoryRecord K) (nowMs : UInt64)
    (score best : K × K) : ScoreBreakdown K :=
  let sparse := normalize score.1 best.1
  let dense := normalize score.2 best.2
  let freshness := freshnessScore record.updatedAtMs nowMs
  let pin := if record.pinned then 1 else 0
  { sparse := sparse
    dense := dense
    freshness := freshness
    pin := pin
    final := rerank.wSparse * sparse + rerank.wDense * dense + rerank.wFreshness * freshness +
      rerank.wPin * pin }

omit [Field K] [LinearOrder K] in
def queryHit (record : MemoryRecord K) (scores : ScoreBreakdown K) : QueryHit K where
  memoryId := record.id
  source := record.source
  content := record.content
  tags := record.tags
  metadata := record.metadata
  scores := scores
  updatedAtMs := record.updatedAtMs
  pinned := record.pinned

omit [Field K] in
/-- Higher final score first, then the later update. -/
def hitBefore (l r : QueryHit K) : Bool :=
  if l.scores.final = r.scores.final then r.updatedAtMs < l.updatedAtMs
  else r.scores.final < l.scores.final

/-- `HybridRetriever::Query` with the index of the next clock reading. -/
def query (env : Platform K) (ret : HybridRetriever K) (input : QueryInput K) (t : Nat) :
    QueryOutput K × Nat :=
  match ret.snapshots[input.workspaceId]? with
  | none => (⟨[], ⟨0, 0, 0⟩⟩, t)
  | some snapshot =>
    if snapshot.docs.isEmpty then (⟨[], ⟨0, 0, 0⟩⟩, t)
    else
      let sparse := sparseCandidates env t snapshot input
      let dense := denseCandidates env t ret snapshot input
      let merged := mergeCandidates sparse dense
      let sparseMax := merged.toList.foldl (fun best kv => max best kv.2.1) 0
      let denseMax := merged.toList.foldl (fun best kv => max best kv.2.2) 0
      let nowMs := env.clock t
      let hits := (env.iterate t merged).filterMap fun kv =>
        snapshot.docs[kv.1]?.map fun doc =>
          queryHit doc.record
            (scoreBreakdown input.rerank doc.record nowMs kv.2 (sparseMax, denseMax))
      let sorted := hits.insertionSort fun l r => hitBefore r l = false
      (⟨sorted.take (effectiveTopK input), ⟨sparse.length, dense.length, merged.size⟩⟩, t + 1)

end Query

/-! ### Sizes -/

/-- `EstimateDocBytes`: nothing for a tombstone, which is not indexed. -/
def estimateDocBytes (record : MemoryRecord K) : Nat :=
  if record.tombstone then 0
  else
    let tokens := tokenize record.content
    let uniqueTerms := tokens.dedup
    (recordTextBytes record + 320) + tokens.length * 8 + uniqueTerms.length * 48 +
      (uniqueTerms.map List.length).sum + embeddingDim * 4 + 128

end HybridRetriever

end PoorguyMem
