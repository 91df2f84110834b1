import PoorguyMem.Recall
import PoorguyMem.TokenBudget

/-!
# Wide queries

A query whose limits are not below the number of documents of its workspace cuts
nothing off: without a token budget it returns every document that passes its
filters, unless the resident record has expired.
-/

namespace PoorguyMem

open ByteString HybridRetriever Budget

variable {K : Type}

/-- The limits of a query leave room for all documents and vectors of its workspace. -/
structure Wide (ret : HybridRetriever K) (input : QueryInput K) : Prop where
  workspace : input.workspaceId ≠ []
  topK : ∀ s, ret.snapshots[input.workspaceId]? = some s → s.docs.size ≤ effectiveTopK input
  denseK : ∀ vectors, ret.vectorIndex[input.workspaceId]? = some vectors →
    vectors.size ≤ denseLimit input
  unbudgeted : input.tokenBudget ≤ 0

theorem Platform.length_iterate (env : Platform K) (t : Nat) {V : Type} (m : StringMap V) :
    (env.iterate t m).length = m.size := by
  rw [← Std.ExtTreeMap.length_toList]
  exact (env.perm_iterate t m).length_eq

section Queries
variable [Field K] [LinearOrder K] {env : Platform K} {ret : HybridRetriever K}
  {input : QueryInput K} {s : WorkspaceSnapshot K} {t : Nat} {id : Bytes} {doc : IndexedDoc K}

/-- A wide search finds every vector, and the filters are all that a document has to pass. -/
theorem Wide.mem_denseCandidates (h : Wide ret input)
    (hvector : (ret.vectorAt input.workspaceId id).isSome = true) (hdoc : s.docs[id]? = some doc)
    (hpass : passesFilter doc.record input.filters = true) :
    id ∈ (denseCandidates env t ret s input).map Prod.fst := by
  obtain ⟨v, hv⟩ := Option.isSome_iff_exists.mp hvector
  obtain ⟨vectors, hvectors, hv⟩ := Option.bind_eq_some_iff.mp hv
  have hwide := h.denseK vectors hvectors
  have hlength : (sortCandidates (scoredVectors env t vectors
      (embed env input.query embeddingDim))).length = vectors.size := by
    rw [sortCandidates, List.length_insertionSort, scoredVectors, List.length_map,
      Platform.length_iterate]
  have hsearch : ret.vectorIndex.search env t input.workspaceId
      (embed env input.query embeddingDim) (denseLimit input) =
        sortCandidates (scoredVectors env t vectors (embed env input.query embeddingDim)) := by
    rw [search_eq, if_neg (embed_ne_nil env input.query), hvectors, Option.getD_some, if_neg]
    omega
  have hmem : (id, v) ∈ env.iterate t vectors := (env.mem_iterate t).mpr hv
  obtain ⟨item, hitem, hid⟩ : ∃ item ∈ scoredVectors env t vectors
      (embed env input.query embeddingDim), item.1 = id :=
    ⟨_, List.mem_map_of_mem hmem, rfl⟩
  refine List.mem_map.mpr ⟨item, List.mem_filter.mpr ⟨?_, ?_⟩, hid⟩
  · change item ∈ ret.vectorIndex.search env t input.workspaceId _ (denseLimit input)
    rw [hsearch, sortCandidates, List.mem_insertionSort]
    exact hitem
  · rw [hid, hdoc]
    exact hpass

omit [LinearOrder K] in
theorem isSome_mergeCandidates {sparse dense : List (Bytes × K)} (h : id ∈ dense.map Prod.fst) :
    (mergeCandidates sparse dense)[id]?.isSome = true := by
  rw [mergeCandidates]
  generalize sparse.foldl _ _ = m
  induction dense generalizing m with
  | nil => cases h
  | cons item rest ih =>
    rw [List.foldl_cons]
    have kept : ∀ (items : List (Bytes × K)) (m : StringMap (K × K)), m[id]?.isSome = true →
        (items.foldl (fun m item => m.insert item.1 ((m.getD item.1 (0, 0)).1, item.2))
          m)[id]?.isSome = true := by
      intro items
      induction items with
      | nil => exact fun m hm => hm
      | cons item rest ih =>
        intro m hm
        apply ih
        rw [lookup_insert]
        split
        · rfl
        · exact hm
    by_cases hid : item.1 = id
    · apply kept
      rw [lookup_insert, if_pos hid]
      rfl
    · apply ih
      rcases List.mem_cons.mp h with heq | hmem
      · exact absurd heq.symm hid
      · exact hmem

/-- No more documents can be hits than there are. -/
theorem length_candidateHits_le (env : Platform K) (t : Nat)
    (hs : ret.snapshots[input.workspaceId]? = some s) :
    (candidateHits env ret input t).length ≤ s.docs.size := by
  rw [candidateHits, hs]
  dsimp only
  generalize hmerged : candidates env t ret s input = merged
  have hlength : ((env.iterate t merged).filterMap (hitOf env t s input merged)).length =
      (((env.iterate t merged).map Prod.fst).filter fun k => s.docs[k]?.isSome).length := by
    generalize env.iterate t merged = l
    induction l with
    | nil => rfl
    | cons kv rest ih =>
      rw [List.filterMap_cons, List.map_cons, List.filter_cons, hitOf]
      cases s.docs[kv.1]? with
      | none => simpa using ih
      | some doc => simpa using ih
  rw [hlength, ← Std.ExtTreeMap.length_keys]
  refine (List.Nodup.subperm ((env.nodup_iterate_keys t merged).filter _) ?_).length_le
  intro k hk
  rw [Std.ExtTreeMap.mem_keys, Std.ExtTreeMap.mem_iff_isSome_getElem?]
  exact (List.mem_filter.mp hk).2

/-- A wide query returns a document that passes its filters and has not expired. -/
theorem Wide.mem_hits {w : World K} (h : Wide w.engine.retriever input)
    (hdoc : w.engine.retriever.docAt input.workspaceId id = some doc)
    (hvector : (w.engine.retriever.vectorAt input.workspaceId id).isSome = true)
    (hname : doc.record.id = id) (hpass : passesFilter doc.record input.filters = true)
    (hfresh : ∀ r, w.engine.records[recordMapKey input.workspaceId id]? = some r →
      isExpired r (env.clock (w.tick + 1)) = false) :
    ∃ hit ∈ (query env w input).2.hits, hit.memoryId = id := by
  obtain ⟨s, hs, hdoc⟩ := Option.bind_eq_some_iff.mp hdoc
  have hmerged := @isSome_mergeCandidates _ _ _ (sparseCandidates env w.tick s input) _
    (@Wide.mem_denseCandidates _ _ _ env _ _ _ w.tick _ _ h hvector hdoc hpass)
  obtain ⟨score, hscore⟩ := Option.isSome_iff_exists.mp hmerged
  -- the document is a candidate, and nothing is cut off
  obtain ⟨hit, hhit, hid⟩ : ∃ hit ∈ candidateHits env w.engine.retriever input w.tick,
      hit.memoryId = id := by
    have hmem : (id, score) ∈
        env.iterate w.tick (candidates env w.tick w.engine.retriever s input) :=
      (env.mem_iterate _).mpr hscore
    rw [candidateHits, hs]
    dsimp only
    obtain ⟨hit, hhit, hid⟩ : ∃ hit, hitOf env w.tick s input
        (candidates env w.tick w.engine.retriever s input) (id, score) = some hit ∧
          hit.memoryId = id := by
      rw [hitOf, hdoc]
      exact ⟨_, rfl, hname⟩
    exact ⟨hit, List.mem_filterMap.mpr ⟨_, hmem, hhit⟩, hid⟩
  have hranked : hit ∈ (w.engine.retriever.query env input w.tick).1.hits := by
    rw [query_hits, List.take_of_length_le, List.mem_insertionSort]
    · exact hhit
    · rw [List.length_insertionSort]
      exact (length_candidateHits_le env w.tick hs).trans (h.topK s hs)
  have hnonempty : s.docs.isEmpty = false := by
    by_contra hempty
    rw [Bool.not_eq_false, Std.ExtTreeMap.isEmpty_iff] at hempty
    rw [hempty] at hdoc
    simp at hdoc
  have htick : (w.engine.retriever.query env input w.tick).2 = w.tick + 1 := by
    rw [HybridRetriever.query, hs]
    dsimp only
    rw [hnonempty]
    rfl
  refine ⟨hit, ?_, hid⟩
  rw [query, if_neg h.workspace]
  dsimp only
  rw [htick]
  have hbudget : ∀ n, exceedsBudget input n = false := by
    intro n
    have hunbudgeted := h.unbudgeted
    simp only [exceedsBudget, decide_eq_false_iff_not]
    omega
  have hexpired : expiredHit w.engine input.workspaceId (env.clock (w.tick + 1)) hit = false := by
    rw [expiredHit, hid]
    split
    · rename_i r hr
      exact hfresh r hr
    · rfl
  rw [admitHits_eq, admitted_eq_kept fun n => hbudget (0 + n), kept, List.mem_filter]
  exact ⟨hranked, by rw [hexpired]; rfl⟩

end Queries

end PoorguyMem
