import PoorguyMem.Statistics
import PoorguyMem.Lib.TopK

/-!
# Which hits a query returns

A query depends on the documents of its workspace and on the order in which the
unordered maps are iterated. Candidates are listed by score and id, so that the
iteration does not matter to them; the hits are listed by final score and time of
update, and between hits that agree in both the iteration decides, before the cut
at `top_k` too.
-/

namespace PoorguyMem

open ByteString HybridRetriever

variable {K : Type}

/-- An order in which unordered maps are iterated. -/
structure IterationOrder where
  order : Nat → List Bytes → List Bytes
  perm : ∀ t keys, (order t keys).Perm keys

def Platform.withOrder (env : Platform K) (o : IterationOrder) : Platform K :=
  { env with
    iterOrder := o.order
    iterOrder_perm := o.perm }

section Orders
variable [LinearOrder K]

/-! ### The two orders -/

theorem candidateBefore_eq_false {l r : Bytes × K} : candidateBefore r l = false ↔
    r.2 < l.2 ∨ r.2 = l.2 ∧ le l.1 r.1 = true := by
  rw [candidateBefore]
  by_cases heq : r.2 = l.2
  · rw [if_pos heq, lt_eq_false]
    constructor
    · exact fun h => Or.inr ⟨heq, h⟩
    · rintro (hlt | ⟨-, h⟩)
      · exact absurd heq hlt.ne
      · exact h
  · rw [if_neg heq, decide_eq_false_iff_not, not_lt]
    constructor
    · exact fun h => Or.inl (lt_of_le_of_ne h heq)
    · rintro (hlt | ⟨h, -⟩)
      · exact hlt.le
      · exact absurd h heq

theorem hitBefore_eq_false {l r : QueryHit K} : hitBefore r l = false ↔
    toLex (r.scores.final, r.updatedAtMs.toNat) ≤ toLex (l.scores.final, l.updatedAtMs.toNat) := by
  rw [hitBefore, Prod.Lex.toLex_le_toLex]
  by_cases heq : r.scores.final = l.scores.final
  · rw [if_pos heq, decide_eq_false_iff_not, UInt64.not_lt, UInt64.le_iff_toNat_le]
    simp [heq]
  · rw [if_neg heq, decide_eq_false_iff_not, not_lt]
    constructor
    · exact fun h => Or.inl (lt_of_le_of_ne h heq)
    · rintro (hlt | ⟨h, -⟩)
      · exact hlt.le
      · exact absurd h heq

instance : Std.Total fun l r : QueryHit K => hitBefore r l = false where
  total l r := by
    rw [hitBefore_eq_false, hitBefore_eq_false]
    exact le_total (α := _ ×ₗ Nat) _ _

instance : IsTrans (QueryHit K) fun l r => hitBefore r l = false where
  trans a b c hab hbc := by
    rw [hitBefore_eq_false] at *
    exact hbc.trans hab

instance : Std.Total fun l r : Bytes × K => candidateBefore r l = false where
  total l r := by
    rw [candidateBefore_eq_false, candidateBefore_eq_false]
    rcases lt_trichotomy l.2 r.2 with hlt | heq | hgt
    · exact Or.inr (Or.inl hlt)
    · exact (ByteString.le_total l.1 r.1).imp (fun h => Or.inr ⟨heq.symm, h⟩)
        fun h => Or.inr ⟨heq, h⟩
    · exact Or.inl (Or.inl hgt)

instance : IsTrans (Bytes × K) fun l r => candidateBefore r l = false where
  trans a b c hab hbc := by
    rw [candidateBefore_eq_false] at *
    rcases hab with hab | ⟨hab, hle⟩
    · rcases hbc with hbc | ⟨hbc, -⟩
      · exact Or.inl (hbc.trans hab)
      · exact Or.inl (hbc ▸ hab)
    · rcases hbc with hbc | ⟨hbc, hle'⟩
      · exact Or.inl (hab ▸ hbc)
      · exact Or.inr ⟨hbc.trans hab, ByteString.le_trans hle hle'⟩

/-- Candidates of the same ids and scores are listed in one order. -/
theorem sortCandidates_eq_of_perm {cs cs' : List (Bytes × K)} (h : cs.Perm cs') :
    sortCandidates cs = sortCandidates cs' := by
  refine TopK.insertionSort_eq_of_perm h fun a _ b _ hab hba => ?_
  rw [candidateBefore_eq_false] at hab hba
  rcases hab with hab | ⟨hab, hle⟩
  · rcases hba with hba | ⟨hba, -⟩
    · exact absurd hba hab.not_gt
    · exact absurd hba.symm hab.ne
  · rcases hba with hba | ⟨-, hle'⟩
    · exact absurd hab hba.ne'
    · exact Prod.ext (ByteString.le_antisymm hle hle') hab.symm

end Orders

/-! ### One retriever, two iteration orders -/

theorem Platform.iterate_perm (env env' : Platform K) (t t' : Nat) {V : Type} (m : StringMap V) :
    (env.iterate t m).Perm (env'.iterate t' m) :=
  ((env.iterOrder_perm t m.keys).trans (env'.iterOrder_perm t' m.keys).symm).filterMap _

section Queries
variable [Field K] [LinearOrder K]

/-- The candidates of a query with their scores. -/
def candidates (env : Platform K) (t : Nat) (ret : HybridRetriever K)
    (snapshot : WorkspaceSnapshot K) (input : QueryInput K) : StringMap (K × K) :=
  mergeCandidates (sparseCandidates env t snapshot input) (denseCandidates env t ret snapshot input)

/-- The hit of a candidate. -/
def hitOf (env : Platform K) (t : Nat) (snapshot : WorkspaceSnapshot K) (input : QueryInput K)
    (merged : StringMap (K × K)) (kv : Bytes × (K × K)) : Option (QueryHit K) :=
  snapshot.docs[kv.1]?.map fun doc =>
    queryHit doc.record (scoreBreakdown input.rerank doc.record (env.clock t) kv.2
      (merged.toList.foldl (fun best kv => max best kv.2.1) 0,
        merged.toList.foldl (fun best kv => max best kv.2.2) 0))

/-- The hits of all candidates, before they are sorted and cut. -/
def candidateHits (env : Platform K) (ret : HybridRetriever K) (input : QueryInput K) (t : Nat) :
    List (QueryHit K) :=
  match ret.snapshots[input.workspaceId]? with
  | none => []
  | some snapshot =>
    (env.iterate t (candidates env t ret snapshot input)).filterMap
      (hitOf env t snapshot input (candidates env t ret snapshot input))

/-- Different hits with the same final score and time of update come after the cut. -/
def Untied (env : Platform K) (ret : HybridRetriever K) (input : QueryInput K) (t : Nat) : Prop :=
  ∀ a ∈ candidateHits env ret input t, ∀ b ∈ candidateHits env ret input t, a ≠ b →
    a.scores.final = b.scores.final → a.updatedAtMs = b.updatedAtMs →
    effectiveTopK input ≤ (candidateHits env ret input t).countP fun x => hitBefore x a

theorem query_hits (env : Platform K) (ret : HybridRetriever K) (input : QueryInput K) (t : Nat) :
    (HybridRetriever.query env ret input t).1.hits =
      ((candidateHits env ret input t).insertionSort fun l r => hitBefore r l = false).take
        (effectiveTopK input) := by
  rw [HybridRetriever.query, candidateHits]
  rcases hs : ret.snapshots[input.workspaceId]? with _ | snapshot
  · exact List.take_nil.symm
  · dsimp only
    split
    · rename_i hempty
      -- without documents no candidate has a hit
      have hnone : ∀ kv ∈ env.iterate t (candidates env t ret snapshot input),
          hitOf env t snapshot input (candidates env t ret snapshot input) kv = none := by
        intro kv _
        rw [hitOf, Std.ExtTreeMap.isEmpty_iff.mp hempty]
        simp
      rw [List.filterMap_eq_nil_iff.mpr hnone]
      exact List.take_nil.symm
    · rfl

/-! ### What a query depends on -/

/-- Retrievers that answer alike: they have the same snapshot and the same vectors. -/
structure SameWorkspace (ret ret' : HybridRetriever K) (workspaceId : Bytes) : Prop where
  snapshot : ret.snapshots[workspaceId]? = ret'.snapshots[workspaceId]?
  vectors : ret.vectorIndex[workspaceId]?.getD ∅ = ret'.vectorIndex[workspaceId]?.getD ∅

theorem Catalogued.sameWorkspace {env : Platform K} {documents : Documents K}
    {ret ret' : HybridRetriever K} (h : Catalogued env documents ret)
    (h' : Catalogued env documents ret') (w : Bytes) : SameWorkspace ret ret' w := by
  have lookup : ∀ {V : Type} (m : StringMap (StringMap V)) (id : Bytes),
      (m[w]?.getD ∅)[id]? = m[w]?.bind (·[id]?) := by
    intro V m id
    rcases m[w]? with _ | x
    · simp
    · rfl
  constructor
  case vectors =>
    refine Std.ExtTreeMap.ext_getElem? fun id => ?_
    rw [lookup, lookup]
    exact (h.vectors w id).trans (h'.vectors w id).symm
  case snapshot =>
    have hdocs : ∀ id : Bytes, ret.snapshots[w]?.bind (·.docs[id]?) =
        ret'.snapshots[w]?.bind (·.docs[id]?) := fun id => (h.docs w id).trans (h'.docs w id).symm
    -- a snapshot is not empty
    have hsome : ∀ {s : WorkspaceSnapshot K}, s.Kept → ∃ (id : Bytes), s.docs[id]? ≠ none := by
      intro s hs
      by_contra hall
      push Not at hall
      have hempty : s.docs = ∅ := Std.ExtTreeMap.ext_getElem? fun id => by rw [hall id]; simp
      exact absurd hs.nonempty (by rw [hempty]; simp)
    rcases hs : ret.snapshots[w]? with _ | s <;> rcases hs' : ret'.snapshots[w]? with _ | s'
    · rfl
    · obtain ⟨id, hid⟩ := hsome (h'.kept w s' hs')
      have heq := hdocs id
      rw [hs, hs'] at heq
      exact absurd heq.symm hid
    · obtain ⟨id, hid⟩ := hsome (h.kept w s hs)
      have heq := hdocs id
      rw [hs, hs'] at heq
      exact absurd heq hid
    · have hsame : s.docs = s'.docs := Std.ExtTreeMap.ext_getElem? fun id => by
        have heq := hdocs id
        rw [hs, hs'] at heq
        exact heq
      have hk := h.kept w s hs
      have hk' := h'.kept w s' hs'
      obtain ⟨docs, df, len⟩ := s
      obtain ⟨docs', df', len'⟩ := s'
      obtain rfl : docs = docs' := hsame
      obtain rfl : df = df' := hk.df.trans hk'.df.symm
      obtain rfl : len = len' := hk.totalDocLen.trans hk'.totalDocLen.symm
      rfl

/-- The list of a search, before it is cut. -/
def scoredVectors (env : Platform K) (t : Nat) (vectors : StringMap (VectorEntry K))
    (q : List K) : List (Bytes × K) :=
  (env.iterate t vectors).map fun kv =>
    let score := cosine q kv.2.vector
    (kv.1, if kv.2.bucket = bucketForVector q then score + 1 / 20 else score)

theorem search_eq (env : Platform K) (t : Nat) (ix : VectorIndex K) (w : Bytes) (q : List K)
    (topK : Nat) : ix.search env t w q topK =
      if q = [] then []
      else
        let out := sortCandidates (scoredVectors env t (ix[w]?.getD ∅) q)
        if 0 < topK ∧ topK < out.length then out.take topK else out := by
  rw [VectorIndex.search]
  rcases hw : ix[w]? with _ | vectors
  · have hempty : env.iterate t (∅ : StringMap (VectorEntry K)) = [] := by
      rw [List.eq_nil_iff_forall_not_mem]
      rintro ⟨k, v⟩ hmem
      rw [env.mem_iterate] at hmem
      simp at hmem
    have hnone : sortCandidates (scoredVectors env t (none.getD ∅) q) = [] := by
      rw [Option.getD_none, scoredVectors, hempty]
      rfl
    rw [hnone]
    simp
  · rfl

section Same
variable {env : Platform K} {ret ret' : HybridRetriever K} {input : QueryInput K}
  (h : SameWorkspace ret ret' input.workspaceId) (o : IterationOrder) (t : Nat)
include h

theorem SameWorkspace.candidates (snapshot : WorkspaceSnapshot K) :
    candidates (env.withOrder o) t ret' snapshot input = candidates env t ret snapshot input := by
  have hsparse : sparseCandidates (env.withOrder o) t snapshot input =
      sparseCandidates env t snapshot input := by
    have hperm := (env.withOrder o).iterate_perm env t t snapshot.docs
    exact congrArg (List.take _) (sortCandidates_eq_of_perm (hperm.filterMap _))
  have hscored : (scoredVectors (env.withOrder o) t (ret'.vectorIndex[input.workspaceId]?.getD ∅)
      (embed env input.query embeddingDim)).Perm
      (scoredVectors env t (ret.vectorIndex[input.workspaceId]?.getD ∅)
        (embed env input.query embeddingDim)) := by
    rw [h.vectors]
    exact ((env.withOrder o).iterate_perm env t t _).map _
  have hdense : denseCandidates (env.withOrder o) t ret' snapshot input =
      denseCandidates env t ret snapshot input := by
    have hsearch : ∀ q topK, q = embed env input.query embeddingDim →
        ret'.vectorIndex.search (env.withOrder o) t input.workspaceId q topK =
          ret.vectorIndex.search env t input.workspaceId q topK := by
      rintro q topK rfl
      rw [search_eq, search_eq, sortCandidates_eq_of_perm hscored]
    exact congrArg (List.filter _) (hsearch _ _ rfl)
  rw [PoorguyMem.candidates, PoorguyMem.candidates, hsparse, hdense]

theorem SameWorkspace.candidateHits_perm :
    (candidateHits (env.withOrder o) ret' input t).Perm (candidateHits env ret input t) := by
  rw [candidateHits, candidateHits, ← h.snapshot]
  rcases ret.snapshots[input.workspaceId]? with _ | snapshot
  · exact .nil
  · dsimp only
    rw [h.candidates o t]
    exact ((env.withOrder o).iterate_perm env t t _).filterMap _

end Same

/-! ### History -/

/-- The retriever after some calls. -/
def retrieverAfter (env : Platform K) (calls : List (RetrieverCall K)) : HybridRetriever K :=
  calls.foldl (RetrieverCall.apply env) HybridRetriever.empty

/-- Whatever calls left the documents and however maps are iterated, a query at one
time returns the same hits in the same order. -/
def HistoryFree (env : Platform K) (documents : Documents K) (input : QueryInput K) (t : Nat) :
    Prop :=
  ∀ calls calls', catalogAfter calls = documents → catalogAfter calls' = documents →
    ∀ o o' : IterationOrder,
      (HybridRetriever.query (env.withOrder o) (retrieverAfter (env.withOrder o) calls) input
        t).1.hits =
      (HybridRetriever.query (env.withOrder o') (retrieverAfter (env.withOrder o') calls') input
        t).1.hits

/-- The iteration that meets one key first. -/
def IterationOrder.front (key : Bytes) : IterationOrder where
  order _ keys := if key ∈ keys then key :: keys.erase key else keys
  perm _ keys := by
    split
    · rename_i hmem
      exact (List.perm_cons_erase hmem).symm
    · exact .refl _

theorem untied_iff {env : Platform K} {ret : HybridRetriever K} {input : QueryInput K} {t : Nat} :
    Untied env ret input t ↔ TopK.Untied (fun l r => hitBefore r l = false) (effectiveTopK input)
      (candidateHits env ret input t) := by
  have htied : ∀ a b : QueryHit K, (hitBefore b a = false ∧ hitBefore a b = false) ↔
      a.scores.final = b.scores.final ∧ a.updatedAtMs = b.updatedAtMs := by
    intro a b
    rw [hitBefore_eq_false, hitBefore_eq_false]
    constructor
    · rintro ⟨hba, hab⟩
      have heq := toLex.injective (hab.antisymm hba)
      obtain ⟨hfinal, hupdated⟩ := Prod.mk.inj heq
      exact ⟨hfinal, UInt64.toNat_inj.mp hupdated⟩
    · rintro ⟨hfinal, hupdated⟩
      rw [hfinal, hupdated]
      exact ⟨le_refl (α := K ×ₗ Nat) _, le_refl (α := K ×ₗ Nat) _⟩
  have hcount : ∀ a : QueryHit K, (candidateHits env ret input t).countP (fun x => hitBefore x a) =
      (candidateHits env ret input t).countP fun x => ¬ hitBefore x a = false := by
    intro a
    refine List.countP_congr fun x _ => ?_
    simp
  constructor
  · intro h a ha b hb hne hba hab
    obtain ⟨hfinal, hupdated⟩ := (htied a b).mp ⟨hba, hab⟩
    rw [← hcount]
    exact h a ha b hb hne hfinal hupdated
  · intro h a ha b hb hne hfinal hupdated
    obtain ⟨hba, hab⟩ := (htied a b).mpr ⟨hfinal, hupdated⟩
    rw [hcount]
    exact h a ha b hb hne hba hab

omit [Field K] [LinearOrder K] in
theorem Platform.iterate_front (env : Platform K) (t : Nat) {V : Type} {m : StringMap V}
    {key : Bytes} {v : V} (h : m[key]? = some v) :
    ∃ rest, (env.withOrder (.front key)).iterate t m = (key, v) :: rest := by
  have hkey : key ∈ m.keys := by
    rw [Std.ExtTreeMap.mem_keys, Std.ExtTreeMap.mem_iff_isSome_getElem?, h]
    rfl
  have horder : (env.withOrder (.front key)).iterOrder t m.keys = key :: m.keys.erase key :=
    if_pos hkey
  refine ⟨(m.keys.erase key).filterMap fun k => m[k]?.map fun v => (k, v), ?_⟩
  rw [Platform.iterate, horder]
  exact List.filterMap_cons_some (by rw [h]; rfl)

/-- The hits when one candidate is met first. -/
theorem candidateHits_front {env : Platform K} {ret : HybridRetriever K} {input : QueryInput K}
    {t : Nat} {a : QueryHit K} (ha : a ∈ candidateHits env ret input t) :
    ∃ key rest, candidateHits (env.withOrder (.front key)) ret input t = a :: rest := by
  rw [candidateHits] at ha
  rcases hs : ret.snapshots[input.workspaceId]? with _ | snapshot
  · rw [hs] at ha
    cases ha
  · rw [hs] at ha
    dsimp only at ha
    obtain ⟨⟨key, score⟩, hmem, hhit⟩ := List.mem_filterMap.mp ha
    have hsame : SameWorkspace ret ret input.workspaceId := ⟨rfl, rfl⟩
    obtain ⟨rest, hfront⟩ := Platform.iterate_front env t
      ((env.mem_iterate t).mp hmem)
    refine ⟨key, rest.filterMap (hitOf env t snapshot input (candidates env t ret snapshot input)), ?_⟩
    rw [candidateHits, hs]
    dsimp only
    rw [hsame.candidates (.front key) t, hfront]
    exact List.filterMap_cons_some hhit

/-- The answer to a query is the documents' alone exactly where no two hits are tied
before the cut. -/
theorem query_historyFree_iff (env : Platform K) (calls : List (RetrieverCall K))
    (input : QueryInput K) (t : Nat) : HistoryFree env (catalogAfter calls) input t ↔
      Untied env (retrieverAfter env calls) input t := by
  have hhits : ∀ calls', catalogAfter calls' = catalogAfter calls → ∀ o : IterationOrder,
      (candidateHits (env.withOrder o) (retrieverAfter env calls') input t).Perm
        (candidateHits env (retrieverAfter env calls) input t) := by
    intro calls' heq o
    have hcat' := catalogued_run env calls'
    rw [heq] at hcat'
    exact ((catalogued_run env calls).sameWorkspace hcat' input.workspaceId).candidateHits_perm o t
  have hrun : ∀ o calls', retrieverAfter (env.withOrder o) calls' = retrieverAfter env calls' :=
    fun o calls' => rfl
  constructor
  · intro h
    rw [untied_iff]
    intro a ha b hb hne hba hab
    obtain ⟨ka, as, has⟩ := candidateHits_front ha
    obtain ⟨kb, bs, hbs⟩ := candidateHits_front hb
    have heq := h calls calls rfl rfl (.front ka) (.front kb)
    rw [hrun, hrun, query_hits, query_hits, has, hbs] at heq
    have hpa := hhits calls rfl (.front ka)
    have hpb := hhits calls rfl (.front kb)
    rw [has] at hpa
    rw [hbs] at hpb
    rw [← hpa.countP_eq]
    exact TopK.le_countP_of_take_eq (hpa.trans hpb.symm) hne hba hab heq
  · intro h calls₁ calls₂ h₁ h₂ o o'
    have hp₁ := hhits calls₁ h₁ o
    have hp₂ := hhits calls₂ h₂ o'
    rw [hrun, hrun, query_hits, query_hits]
    exact TopK.take_insertionSort_eq (hp₁.trans hp₂.symm) ((untied_iff.mp h).perm hp₁.symm)

end Queries

section Examples
open Reference

/-- Two records of one text, written at one time. -/
def sameTexts : List (RetrieverCall ℚ) :=
  [ascii "a", ascii "b"].map fun id =>
    .index (newRecord initial.engine ⟨ascii "w", [], [], []⟩ (recordInput id (ascii "x") []) 1000
      id false)

def twinQuery : QueryInput ℚ where
  workspaceId := ascii "w"
  query := ascii "x"
  topK := 8
  tokenBudget := 0
  filters := ⟨[], [], [], 0, 0, false⟩
  recallOptions := ⟨0, 0, 0⟩
  rerank := ⟨1, 1, 1, 1⟩

/-- The hit that the iteration meets first is listed first. -/
theorem not_historyFree_twins :
    ¬ HistoryFree (platform ticking) (catalogAfter sameTexts) twinQuery 0 := by
  intro h
  have heq := congrArg (List.map (·.memoryId))
    (h sameTexts sameTexts rfl rfl (.front (ascii "a")) (.front (ascii "b")))
  exact absurd heq (by decide +kernel)

end Examples

end PoorguyMem
