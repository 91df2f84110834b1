import PoorguyMem.Ranking

/-!
# Score fusion

The sparse and the dense score of a hit are those of its candidate over the best
among all candidates, its freshness decays with the time since its update, and a
pin counts as a whole. The final score weighs the four.
-/

namespace PoorguyMem

open ByteString HybridRetriever

variable {K : Type}

section Scores
variable [Field K] [LinearOrder K]

structure RerankWeights.Nonneg (weights : RerankWeights K) : Prop where
  sparse : 0 ≤ weights.wSparse
  dense : 0 ≤ weights.wDense
  freshness : 0 ≤ weights.wFreshness
  pin : 0 ≤ weights.wPin

/-- The components lie between 0 and 1, the final score between 0 and the sum of the weights. -/
structure ScoreBreakdown.Bounded (weights : RerankWeights K) (scores : ScoreBreakdown K) :
    Prop where
  sparse : scores.sparse ∈ Set.Icc 0 1
  dense : scores.dense ∈ Set.Icc 0 1
  freshness : scores.freshness ∈ Set.Icc 0 1
  pin : scores.pin ∈ Set.Icc 0 1
  final : scores.final ∈
    Set.Icc 0 (weights.wSparse + weights.wDense + weights.wFreshness + weights.wPin)

/-- At least as large in every component, and larger in one that has a weight. -/
structure ScoreBreakdown.Dominates (weights : RerankWeights K) (a b : ScoreBreakdown K) :
    Prop where
  sparse : b.sparse ≤ a.sparse
  dense : b.dense ≤ a.dense
  freshness : b.freshness ≤ a.freshness
  pin : b.pin ≤ a.pin
  larger : (b.sparse < a.sparse ∧ 0 < weights.wSparse) ∨ (b.dense < a.dense ∧ 0 < weights.wDense) ∨
    (b.freshness < a.freshness ∧ 0 < weights.wFreshness) ∨ (b.pin < a.pin ∧ 0 < weights.wPin)

/-- The final score is the weighted sum of the components. -/
def ScoreBreakdown.Weighed (weights : RerankWeights K) (scores : ScoreBreakdown K) : Prop :=
  scores.final = weights.wSparse * scores.sparse + weights.wDense * scores.dense +
    weights.wFreshness * scores.freshness + weights.wPin * scores.pin

/-- All hits of a query in their order, before the cut at `top_k`. -/
def sortedHits (env : Platform K) (ret : HybridRetriever K) (input : QueryInput K) (t : Nat) :
    List (QueryHit K) :=
  (candidateHits env ret input t).insertionSort fun l r => hitBefore r l = false

variable {env : Platform K} {ret : HybridRetriever K} {input : QueryInput K} {t : Nat}

theorem hits_eq_take_sortedHits : (HybridRetriever.query env ret input t).1.hits =
    (sortedHits env ret input t).take (effectiveTopK input) :=
  query_hits env ret input t

theorem mem_sortedHits {hit : QueryHit K} :
    hit ∈ sortedHits env ret input t ↔ hit ∈ candidateHits env ret input t :=
  (List.perm_insertionSort _ _).mem_iff

end Scores

section Bounds
variable [Field K] [LinearOrder K] [IsStrictOrderedRing K]

/-! ### Components -/

theorem normalize_mem_Icc {value best : K} (h : value ≤ best) :
    HybridRetriever.normalize value best ∈ Set.Icc 0 1 := by
  rw [HybridRetriever.normalize]
  split
  · exact ⟨le_rfl, zero_le_one⟩
  · rename_i hpos
    obtain ⟨hvalue, hbest⟩ := not_or.mp hpos
    have hvalue : 0 < value := not_le.mp hvalue
    have hbest : 0 < best := not_le.mp hbest
    constructor
    · exact div_nonneg hvalue.le hbest.le
    · exact (div_le_one hbest).mpr h

theorem freshnessScore_mem_Icc (updatedAtMs nowMs : UInt64) :
    (freshnessScore updatedAtMs nowMs : K) ∈ Set.Icc 0 1 := by
  have hage : (0 : K) ≤ ageHours updatedAtMs nowMs := by
    rw [ageHours]
    positivity
  rw [freshnessScore]
  constructor
  · positivity
  · rw [div_le_one (by positivity)]
    exact le_add_of_nonneg_right hage

theorem pin_mem_Icc (pinned : Bool) : (if pinned then 1 else 0 : K) ∈ Set.Icc 0 1 := by
  cases pinned with
  | true => exact ⟨zero_le_one, le_rfl⟩
  | false => exact ⟨le_rfl, zero_le_one⟩

omit [Field K] [IsStrictOrderedRing K] in
/-- The best of a list is not below the start nor below any of the list. -/
theorem le_foldl_max {α : Type} (f : α → K) (l : List α) (start : K) :
    start ≤ l.foldl (fun best x => max best (f x)) start ∧
      ∀ x ∈ l, f x ≤ l.foldl (fun best x => max best (f x)) start := by
  induction l generalizing start with
  | nil => exact ⟨le_rfl, nofun⟩
  | cons x rest ih =>
    rw [List.foldl_cons]
    obtain ⟨hstart, hrest⟩ := ih (max start (f x))
    refine ⟨(le_max_left _ _).trans hstart, ?_⟩
    intro y hy
    rcases List.mem_cons.mp hy with rfl | hy
    · exact (le_max_right _ _).trans hstart
    · exact hrest y hy

/-- The vectors of `HashEmbeddingProvider` are counts, or counts over their norm. -/
theorem embed_nonneg (env : Platform K) (text : Bytes) (dim : Nat) :
    ∀ x ∈ embed env text dim, 0 ≤ x := by
  have hcounts : ∀ (tokens : List Bytes) (emb : List K), (∀ x ∈ emb, 0 ≤ x) →
      ∀ x ∈ tokens.foldl
        (fun emb token => emb.modify ((env.hash token).toNat % dim) (· + 1)) emb, 0 ≤ x := by
    intro tokens
    induction tokens with
    | nil => exact fun _ h => h
    | cons token rest ih =>
      intro emb hemb
      rw [List.foldl_cons]
      apply ih
      intro x hx
      obtain ⟨i, hi, rfl⟩ := List.mem_iff_getElem.mp hx
      rw [List.getElem_modify]
      have hold := hemb _ (List.getElem_mem (by simpa using hi))
      split
      · exact add_nonneg hold zero_le_one
      · exact hold
  have hzeros : ∀ x ∈ List.replicate dim (0 : K), 0 ≤ x := by
    intro x hx
    rw [List.eq_of_mem_replicate hx]
  intro x hx
  rw [embed] at hx
  split at hx
  · cases hx
  · dsimp only at hx
    split at hx
    · exact hzeros x hx
    · split at hx
      · rename_i hnorm
        obtain ⟨count, hcount, rfl⟩ := List.mem_map.mp hx
        have hpos : (0 : K) ≤ 1 / 8388608 := by positivity
        exact div_nonneg (hcounts _ _ hzeros count hcount) (hpos.trans hnorm.le)
      · exact hcounts _ _ hzeros x hx

/-! ### The final score -/

variable {weights : RerankWeights K} {a b : ScoreBreakdown K}

theorem ScoreBreakdown.bounded_of_weighed (hweights : weights.Nonneg) (h : a.Weighed weights)
    (hsparse : a.sparse ∈ Set.Icc 0 1) (hdense : a.dense ∈ Set.Icc 0 1)
    (hfreshness : a.freshness ∈ Set.Icc 0 1) (hpin : a.pin ∈ Set.Icc 0 1) :
    a.Bounded weights := by
  refine ⟨hsparse, hdense, hfreshness, hpin, ?_⟩
  have hterm : ∀ {w x : K}, 0 ≤ w → x ∈ Set.Icc 0 1 → 0 ≤ w * x ∧ w * x ≤ w :=
    fun hw hx => ⟨mul_nonneg hw hx.1, mul_le_of_le_one_right hw hx.2⟩
  have h₁ := hterm hweights.sparse hsparse
  have h₂ := hterm hweights.dense hdense
  have h₃ := hterm hweights.freshness hfreshness
  have h₄ := hterm hweights.pin hpin
  rw [h]
  constructor
  · linarith only [h₁.1, h₂.1, h₃.1, h₄.1]
  · linarith only [h₁.2, h₂.2, h₃.2, h₄.2]

/-- What dominates has the larger final score. -/
theorem ScoreBreakdown.Dominates.final_lt (hweights : weights.Nonneg) (ha : a.Weighed weights)
    (hb : b.Weighed weights) (h : a.Dominates weights b) : b.final < a.final := by
  have h₁ := mul_le_mul_of_nonneg_left h.sparse hweights.sparse
  have h₂ := mul_le_mul_of_nonneg_left h.dense hweights.dense
  have h₃ := mul_le_mul_of_nonneg_left h.freshness hweights.freshness
  have h₄ := mul_le_mul_of_nonneg_left h.pin hweights.pin
  rw [ha, hb]
  rcases h.larger with ⟨hlt, hw⟩ | ⟨hlt, hw⟩ | ⟨hlt, hw⟩ | ⟨hlt, hw⟩
  · linarith only [h₂, h₃, h₄, mul_lt_mul_of_pos_left hlt hw]
  · linarith only [h₁, h₃, h₄, mul_lt_mul_of_pos_left hlt hw]
  · linarith only [h₁, h₂, h₄, mul_lt_mul_of_pos_left hlt hw]
  · linarith only [h₁, h₂, h₃, mul_lt_mul_of_pos_left hlt hw]

/-! ### Hits -/

variable {env : Platform K} {ret : HybridRetriever K} {input : QueryInput K} {t : Nat}
  {hit : QueryHit K}

/-- The components of a candidate, and their sum. -/
theorem scores_of_mem_candidateHits (hhit : hit ∈ candidateHits env ret input t) :
    hit.scores.sparse ∈ Set.Icc 0 1 ∧ hit.scores.dense ∈ Set.Icc 0 1 ∧
      hit.scores.freshness ∈ Set.Icc 0 1 ∧ hit.scores.pin ∈ Set.Icc 0 1 ∧
      hit.scores.Weighed input.rerank := by
  rw [candidateHits] at hhit
  split at hhit
  · cases hhit
  · rename_i snapshot _
    obtain ⟨kv, hkv, hof⟩ := List.mem_filterMap.mp hhit
    obtain ⟨doc, -, rfl⟩ := Option.map_eq_some_iff.mp hof
    have hmem : kv ∈ (candidates env t ret snapshot input).toList :=
      Std.ExtTreeMap.mem_toList_iff_getElem?_eq_some.mpr ((env.mem_iterate t).mp hkv)
    have hsparse := (le_foldl_max (fun kv : Bytes × (K × K) => kv.2.1)
      (candidates env t ret snapshot input).toList 0).2 kv hmem
    have hdense := (le_foldl_max (fun kv : Bytes × (K × K) => kv.2.2)
      (candidates env t ret snapshot input).toList 0).2 kv hmem
    exact ⟨normalize_mem_Icc hsparse, normalize_mem_Icc hdense, freshnessScore_mem_Icc _ _,
      pin_mem_Icc _, rfl⟩

/-- Scores are bounded for every retriever and query, and a candidate that dominates
another is listed before it and not cut off where the other is kept. -/
theorem score_fusion (env : Platform K) (ret : HybridRetriever K) (input : QueryInput K) (t : Nat)
    (hweights : input.rerank.Nonneg) :
    (∀ hit ∈ (HybridRetriever.query env ret input t).1.hits, hit.scores.Bounded input.rerank) ∧
      (∀ a ∈ candidateHits env ret input t, ∀ b ∈ candidateHits env ret input t,
        a.scores.Dominates input.rerank b.scores →
        (∀ i j : Nat, (sortedHits env ret input t)[i]? = some a →
          (sortedHits env ret input t)[j]? = some b → i < j) ∧
        (b ∈ (HybridRetriever.query env ret input t).1.hits →
          a ∈ (HybridRetriever.query env ret input t).1.hits)) ∧
      ∀ text dim, ∀ x ∈ embed env text dim, 0 ≤ x := by
  refine ⟨?_, ?_, embed_nonneg env⟩
  · intro hit hhit
    rw [hits_eq_take_sortedHits] at hhit
    obtain ⟨hsparse, hdense, hfreshness, hpin, hweighed⟩ :=
      scores_of_mem_candidateHits (mem_sortedHits.mp (List.mem_of_mem_take hhit))
    exact ScoreBreakdown.bounded_of_weighed hweights hweighed hsparse hdense hfreshness hpin
  · intro a ha b hb hdominates
    obtain ⟨-, -, -, -, hweigheda⟩ := scores_of_mem_candidateHits ha
    obtain ⟨-, -, -, -, hweighedb⟩ := scores_of_mem_candidateHits hb
    have hlt := hdominates.final_lt hweights hweigheda hweighedb
    have hsorted : (sortedHits env ret input t).Pairwise fun l r => hitBefore r l = false :=
      List.pairwise_insertionSort (fun l r : QueryHit K => hitBefore r l = false) _
    have hnot : ¬ hitBefore a b = false := by
      simp [hitBefore, hlt.ne', hlt]
    have hne : a ≠ b := by
      rintro rfl
      exact hlt.ne rfl
    constructor
    · intro i j hi hj
      exact TopK.index_lt_of_not_rel hsorted hne hnot hi hj
    · rw [hits_eq_take_sortedHits]
      exact TopK.mem_take_of_not_rel hsorted hne hnot (mem_sortedHits.mpr ha)

end Bounds

/-- Twins are returned, with bounded scores. -/
theorem score_fusion_twins :
    ∃ hit ∈ (HybridRetriever.query (Reference.platform Reference.ticking)
      (retrieverAfter (Reference.platform Reference.ticking) sameTexts) twinQuery 0).1.hits,
      hit.scores.Bounded twinQuery.rerank := by
  have hweights : twinQuery.rerank.Nonneg := by
    constructor <;> decide
  have hsome : (HybridRetriever.query (Reference.platform Reference.ticking)
      (retrieverAfter (Reference.platform Reference.ticking) sameTexts)
      twinQuery 0).1.hits.head?.isSome = true := by decide +kernel
  obtain ⟨hit, hhead⟩ := Option.isSome_iff_exists.mp hsome
  have hhit := List.mem_of_mem_head? hhead
  exact ⟨hit, hhit, (score_fusion _ _ _ _ hweights).1 hit hhit⟩

end PoorguyMem
