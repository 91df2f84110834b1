import PoorguyMem.Agreement
import PoorguyMem.Mirror

/-!
# What a query answers

A query goes through the snapshot of a workspace on two paths, merges the
candidates, ranks them and drops the expired ones. Every hit is a live document
row of the workspace that satisfies the filter; no memory is listed twice, and
the list is short and ranked.
-/

namespace PoorguyMem

open ByteString

variable {K : Type}

/-- What the fields of a filter ask of a record. -/
structure QueryFilter.Accepts (filters : QueryFilter) (record : MemoryRecord K) : Prop where
  sessionId : filters.sessionId ≠ [] → record.sessionId = filters.sessionId
  sources : filters.sources ≠ [] → record.source ∈ filters.sources
  tagsAny : filters.tagsAny ≠ [] → ∃ tag ∈ filters.tagsAny, tag ∈ record.tags
  updatedAfter : 0 < filters.updatedAfterMs → filters.updatedAfterMs ≤ record.updatedAtMs
  updatedBefore : 0 < filters.updatedBeforeMs → record.updatedAtMs ≤ filters.updatedBeforeMs
  pinnedOnly : filters.pinnedOnly = true → record.pinned = true

namespace HybridRetriever

theorem accepts_of_passesFilter {record : MemoryRecord K} {filters : QueryFilter}
    (h : passesFilter record filters = true) :
    filters.Accepts record ∧ record.tombstone = false := by
  unfold passesFilter at h
  split_ifs at h with hsession hsource htags hafter hbefore hpinned
  refine ⟨⟨?_, ?_, ?_, ?_, ?_, ?_⟩, by simpa using h⟩
  · intro hne
    by_contra hdiff
    exact hsession ⟨hne, hdiff⟩
  · intro hne
    by_contra hmiss
    exact hsource ⟨hne, by simpa [containsAnySource] using hmiss⟩
  · intro hne
    by_contra hmiss
    refine htags ⟨hne, ?_⟩
    simpa [containsAnyTag] using hmiss
  · intro hpos
    by_contra hlt
    exact hafter ⟨hpos, UInt64.not_le.mp hlt⟩
  · intro hpos
    by_contra hlt
    exact hbefore ⟨hpos, UInt64.not_le.mp hlt⟩
  · intro hpin
    by_contra hdiff
    exact hpinned ⟨hpin, by simpa using hdiff⟩

section Candidates
variable [Field K] [LinearOrder K] {env : Platform K} {t : Nat} {ret : HybridRetriever K}
  {snapshot : WorkspaceSnapshot K} {input : QueryInput K}

/-- A candidate is a document of the snapshot that passes the filter. -/
def Passing (snapshot : WorkspaceSnapshot K) (filters : QueryFilter) (id : Bytes) : Prop :=
  ∃ doc, snapshot.docs[id]? = some doc ∧ passesFilter doc.record filters = true

omit [Field K] in
theorem key_of_scored [Zero K] {score : K} {id : Bytes} {item : Bytes × K}
    (h : (if score ≤ 0 then none else some (id, score)) = some item) : item.1 = id := by
  split at h
  · cases h
  · rw [← Option.some.inj h]

theorem passing_sparse {item : Bytes × K} (h : item ∈ sparseCandidates env t snapshot input) :
    Passing snapshot input.filters item.1 := by
  have hmem := List.mem_of_mem_take h
  rw [sortCandidates, List.mem_insertionSort, List.mem_filterMap] at hmem
  obtain ⟨kv, hkv, hscored⟩ := hmem
  split at hscored
  · cases hscored
  · rename_i hpass
    have hkey : item.1 = kv.1 := key_of_scored hscored
    rw [hkey]
    exact ⟨kv.2, (env.mem_iterate t).mp hkv, by simpa using hpass⟩

theorem passing_dense {item : Bytes × K} (h : item ∈ denseCandidates env t ret snapshot input) :
    Passing snapshot input.filters item.1 := by
  have hpass := (List.mem_filter.mp h).2
  split at hpass
  · cases hpass
  · rename_i doc hdoc
    exact ⟨doc, hdoc, hpass⟩

omit [LinearOrder K] in
/-- A merged candidate was found on one of the two paths. -/
theorem merged_cases {sparse dense : List (Bytes × K)} {id : Bytes} {scores : K × K}
    (h : (mergeCandidates sparse dense)[id]? = some scores) :
    id ∈ sparse.map Prod.fst ∨ id ∈ dense.map Prod.fst := by
  have loop : ∀ (f : StringMap (K × K) → Bytes × K → K × K) (items : List (Bytes × K))
      (m : StringMap (K × K)),
      (items.foldl (fun m item => m.insert item.1 (f m item)) m)[id]? = some scores →
      m[id]? = some scores ∨ id ∈ items.map Prod.fst := by
    intro f items
    induction items with
    | nil => exact fun m h => Or.inl h
    | cons item rest ih =>
      intro m h
      rcases ih _ h with hold | hrest
      · rw [lookup_insert] at hold
        split at hold
        · rename_i hid
          exact Or.inr (by simp [hid])
        · exact Or.inl hold
      · exact Or.inr (List.mem_cons_of_mem _ hrest)
  rcases loop _ dense _ h with hsparse | hdense
  · rcases loop _ sparse _ hsparse with hnone | hsparse
    · exact absurd hnone (by simp)
    · exact Or.inl hsparse
  · exact Or.inr hdense

end Candidates

/-! ### The ranking -/

section Ranking
variable [LinearOrder K]

theorem hitBefore_eq_false {l r : QueryHit K} : hitBefore r l = false ↔
    r.scores.final < l.scores.final ∨
      r.scores.final = l.scores.final ∧ r.updatedAtMs ≤ l.updatedAtMs := by
  unfold hitBefore
  by_cases h : r.scores.final = l.scores.final
  · simp [h]
  · simp [h, le_iff_lt_or_eq]

instance : Std.Total fun l r : QueryHit K => hitBefore r l = false where
  total l r := by
    simp only [hitBefore_eq_false]
    rcases lt_trichotomy r.scores.final l.scores.final with h | h | h
    · exact Or.inl (Or.inl h)
    · rcases UInt64.le_total r.updatedAtMs l.updatedAtMs with h' | h'
      · exact Or.inl (Or.inr ⟨h, h'⟩)
      · exact Or.inr (Or.inr ⟨h.symm, h'⟩)
    · exact Or.inr (Or.inl h)

instance : IsTrans (QueryHit K) fun l r => hitBefore r l = false where
  trans a b c hab hbc := by
    simp only [hitBefore_eq_false] at hab hbc ⊢
    rcases hab with hab | ⟨hab, hab'⟩ <;> rcases hbc with hbc | ⟨hbc, hbc'⟩
    · exact Or.inl (hbc.trans hab)
    · exact Or.inl (hbc ▸ hab)
    · exact Or.inl (hab ▸ hbc)
    · exact Or.inr ⟨hbc.trans hab, UInt64.le_trans hbc' hab'⟩

end Ranking

/-! ### The hits of a snapshot -/

section Hits
variable [Field K] [LinearOrder K] {env : Platform K} {t : Nat} {ret : HybridRetriever K}
  {input : QueryInput K}

/-- The hits of the retriever: documents of the workspace that pass the filter,
none of them twice, no more than asked for, and ranked. -/
structure Ranked (ret : HybridRetriever K) (input : QueryInput K) (hits : List (QueryHit K)) :
    Prop where
  found : ∀ hit ∈ hits, ∃ doc scores, ret.docAt input.workspaceId hit.memoryId = some doc ∧
    passesFilter doc.record input.filters = true ∧ hit = queryHit doc.record scores
  distinct : (hits.map (·.memoryId)).Nodup
  ranked : hits.Pairwise fun a b => b.scores.final ≤ a.scores.final
  short : hits.length ≤ effectiveTopK input

omit [Field K] in
theorem Ranked.sublist {hits hits' : List (QueryHit K)} (h : Ranked ret input hits)
    (hsub : hits'.Sublist hits) : Ranked ret input hits' where
  found hit hhit := h.found hit (hsub.subset hhit)
  distinct := (hsub.map _).nodup h.distinct
  ranked := h.ranked.sublist hsub
  short := hsub.length_le.trans h.short

omit [Field K] in
theorem ranked_nil : Ranked ret input [] :=
  ⟨fun _ h => (by cases h), List.nodup_nil, .nil, Nat.zero_le _⟩

/-- The retriever ranks the documents that pass, where each has the id of its key. -/
theorem ranked_query (hkeyed : ∀ id doc, ret.docAt input.workspaceId id = some doc →
    doc.record.id = id) : Ranked ret input (ret.query env input t).1.hits := by
  unfold query
  rcases hsnap : ret.snapshots[input.workspaceId]? with _ | snapshot
  · exact ranked_nil
  dsimp only
  split
  · exact ranked_nil
  have hdocAt : ∀ id, ret.docAt input.workspaceId id = snapshot.docs[id]? := by
    intro id
    rw [docAt, hsnap, Option.bind_some]
  have hpassing : ∀ {id scores}, (mergeCandidates (sparseCandidates env t snapshot input)
      (denseCandidates env t ret snapshot input))[id]? = some scores →
      Passing snapshot input.filters id := by
    intro id scores h
    rcases merged_cases h with hmem | hmem
    · obtain ⟨item, hitem, rfl⟩ := List.mem_map.mp hmem
      exact passing_sparse hitem
    · obtain ⟨item, hitem, rfl⟩ := List.mem_map.mp hmem
      exact passing_dense hitem
  generalize mergeCandidates (sparseCandidates env t snapshot input)
    (denseCandidates env t ret snapshot input) = merged at hpassing ⊢
  generalize merged.toList.foldl (fun best kv => max best kv.2.1) 0 = sparseMax
  generalize merged.toList.foldl (fun best kv => max best kv.2.2) 0 = denseMax
  -- the hits before they are sorted and cut
  have hfound : ∀ hit ∈ (env.iterate t merged).filterMap (fun kv => snapshot.docs[kv.1]?.map
      fun doc => queryHit doc.record
        (scoreBreakdown input.rerank doc.record (env.clock t) kv.2 (sparseMax, denseMax))),
      ∃ doc scores, ret.docAt input.workspaceId hit.memoryId = some doc ∧
        passesFilter doc.record input.filters = true ∧ hit = queryHit doc.record scores := by
    intro hit hhit
    obtain ⟨kv, hkv, hmap⟩ := List.mem_filterMap.mp hhit
    obtain ⟨doc, hdoc, rfl⟩ := Option.map_eq_some_iff.mp hmap
    obtain ⟨doc', hdoc', hpass⟩ := hpassing ((env.mem_iterate t).mp hkv)
    obtain rfl := Option.some.inj (hdoc.symm.trans hdoc')
    have hat := (hdocAt kv.1).trans hdoc
    refine ⟨doc, _, ?_, hpass, rfl⟩
    change ret.docAt input.workspaceId doc.record.id = some doc
    rw [hkeyed kv.1 doc hat]
    exact hat
  have hids : ((env.iterate t merged).filterMap (fun kv => snapshot.docs[kv.1]?.map
      fun doc => queryHit doc.record
        (scoreBreakdown input.rerank doc.record (env.clock t) kv.2 (sparseMax, denseMax)))).map
      (·.memoryId) = ((env.iterate t merged).map Prod.fst).filter
        fun id => (snapshot.docs[id]?).isSome := by
    rw [List.map_filterMap, List.filter_map, ← List.filterMap_eq_filter, List.map_filterMap]
    refine List.filterMap_congr fun kv _ => ?_
    rcases hdoc : snapshot.docs[kv.1]? with _ | doc
    · simp only [Function.comp_apply, hdoc, Option.guard, Option.map_none, Option.isSome_none,
        Bool.false_eq_true, if_false]
    · have hid := hkeyed kv.1 doc ((hdocAt kv.1).trans hdoc)
      simp only [Function.comp_apply, hdoc, Option.guard, Option.map_some, Option.isSome_some,
        if_true, queryHit, hid]
  generalize (env.iterate t merged).filterMap _ = hits at hfound hids ⊢
  have hsorted : Ranked ret input ((hits.insertionSort fun l r => hitBefore r l = false).take
      (effectiveTopK input)) := by
    have hsub := List.take_sublist (effectiveTopK input)
      (hits.insertionSort fun l r => hitBefore r l = false)
    refine ⟨fun hit hhit => ?_, ?_, ?_, List.length_take_le _ _⟩
    · exact hfound hit ((List.mem_insertionSort _).mp (hsub.subset hhit))
    · refine (hsub.map _).nodup ?_
      rw [((List.perm_insertionSort _ hits).map _).nodup_iff, hids]
      exact (env.nodup_iterate_keys t merged).filter _
    · refine List.Pairwise.sublist hsub ?_
      refine (List.pairwise_insertionSort _ hits).imp fun {a b} hab => ?_
      rcases hitBefore_eq_false.mp hab with hlt | ⟨heq, -⟩
      · exact hlt.le
      · exact heq.le
  exact hsorted

end Hits

end HybridRetriever

/-! ### Queries of a run -/

section Runs
variable [Field K] [LinearOrder K] {env : Platform K} {w : World K} {input : QueryInput K}

/-- The clock reading by which a query judges what has expired. -/
def queriedAt (env : Platform K) (w : World K) (input : QueryInput K) : UInt64 :=
  env.clock (w.engine.retriever.query env input w.tick).2

/-- A hit shows a live document row of the workspace that the filter accepts. -/
structure Shows (env : Platform K) (w : World K) (input : QueryInput K) (hit : QueryHit K)
    (d : MemoryRecord K) : Prop where
  row : ∃ v, (w.store.table docNs)[buildDocKey input.workspaceId hit.memoryId]? = some v ∧
    deserializeRecord env v.value = some d
  named : d.workspaceId = input.workspaceId ∧ d.id = hit.memoryId
  live : d.tombstone = false
  content : hit.content = d.content
  source : hit.source = d.source
  tags : hit.tags = d.tags
  metadata : hit.metadata = d.metadata
  pinned : hit.pinned = d.pinned
  updatedAtMs : hit.updatedAtMs = d.updatedAtMs
  accepted : input.filters.Accepts d
  unexpired : isExpired d (queriedAt env w input) = false

omit [Field K] [LinearOrder K] in
/-- A hit ends the list, is dropped, or is kept because it has not expired. -/
theorem admitHits_cons (engine : MemoryEngine K) (input : QueryInput K) (nowMs : UInt64)
    (usedTokens : Nat) (hit : QueryHit K) (rest : List (QueryHit K)) :
    admitHits engine input nowMs usedTokens (hit :: rest) = [] ∨
    admitHits engine input nowMs usedTokens (hit :: rest) =
      admitHits engine input nowMs usedTokens rest ∨
    ∃ used, admitHits engine input nowMs usedTokens (hit :: rest) =
        hit :: admitHits engine input nowMs used rest ∧
      ∀ r, engine.records[recordMapKey input.workspaceId hit.memoryId]? = some r →
        isExpired r nowMs = false := by
  rw [admitHits]
  dsimp only
  split
  · exact Or.inl rfl
  · rcases hr : engine.records[recordMapKey input.workspaceId hit.memoryId]? with _ | record
    · exact Or.inr (Or.inr ⟨_, rfl, fun r h => by cases h⟩)
    · dsimp only
      split
      · exact Or.inr (Or.inl rfl)
      · rename_i hfresh
        refine Or.inr (Or.inr ⟨_, rfl, fun r h => ?_⟩)
        obtain rfl := Option.some.inj h
        simpa using hfresh

omit [Field K] [LinearOrder K] in
theorem admitHits_sublist (engine : MemoryEngine K) (input : QueryInput K) (nowMs : UInt64)
    (usedTokens : Nat) (hits : List (QueryHit K)) :
    (admitHits engine input nowMs usedTokens hits).Sublist hits := by
  induction hits generalizing usedTokens with
  | nil => exact List.Sublist.refl _
  | cons hit rest ih =>
    rcases admitHits_cons engine input nowMs usedTokens hit rest with h | h | ⟨used, h, -⟩ <;> rw [h]
    · exact List.nil_sublist _
    · exact (ih _).cons hit
    · exact (ih _).cons_cons hit

omit [Field K] [LinearOrder K] in
theorem unexpired_of_mem_admitHits {engine : MemoryEngine K} {nowMs : UInt64} {usedTokens : Nat}
    {hits : List (QueryHit K)} {hit : QueryHit K}
    (h : hit ∈ admitHits engine input nowMs usedTokens hits) {r : MemoryRecord K}
    (hr : engine.records[recordMapKey input.workspaceId hit.memoryId]? = some r) :
    isExpired r nowMs = false := by
  induction hits generalizing usedTokens with
  | nil => cases h
  | cons first rest ih =>
    rcases admitHits_cons engine input nowMs usedTokens first rest with heq | heq | ⟨_, heq, hfresh⟩ <;>
      rw [heq] at h
    · cases h
    · exact ih h
    · rcases List.mem_cons.mp h with rfl | h
      · exact hfresh r hr
      · exact ih h

omit [LinearOrder K] in
/-- An indexed document is a live resident record and its document row. -/
theorem Consistent.document (h : Consistent env w) (hm : Mirrors w.engine.toResident)
    {workspaceId id : Bytes} {doc : IndexedDoc K}
    (hdoc : w.engine.retriever.docAt workspaceId id = some doc) :
    ∃ r d v, w.engine.records[recordMapKey workspaceId id]? = some r ∧
      (w.store.table docNs)[buildDocKey workspaceId id]? = some v ∧
      deserializeRecord env v.value = some d ∧ d.workspaceId = workspaceId ∧ d.id = id ∧
      doc.record.withoutAccess = d.withoutAccess ∧ r.withoutAccess = d.withoutAccess := by
  by_cases hws : 58 ∈ workspaceId
  · cases hdoc.symm.trans (hm.others workspaceId id hws).1
  · have hlive := hm.docs workspaceId id hws
    rw [hdoc] at hlive
    obtain ⟨r, hr, hsame⟩ := Option.map_eq_some_iff.mp hlive.symm
    obtain ⟨hr, -⟩ := Option.filter_eq_some_iff.mp hr
    obtain ⟨hkey, hname⟩ := h.sourced.held _ r hr
    obtain ⟨rfl, rfl⟩ := recordMapKey_inj hws hname.2.2.1 hkey
    have hbacked := h.coherent r.workspaceId r.id hname
    rw [hr] at hbacked
    rcases hd : (w.store.table docNs).recordAt env r.workspaceId r.id with _ | d
    · rw [hd] at hbacked
      cases hbacked
    · obtain ⟨hdws, hdid, -⟩ := h.durable.row_of_recordAt hname hd
      obtain ⟨v, hv, hdecode⟩ := Option.bind_eq_some_iff.mp hd
      rw [hd] at hbacked
      cases hbacked with
      | held same => exact ⟨r, d, v, hr, hv, hdecode, hdws, hdid, hsame.symm.trans same, same⟩

omit [Field K] [LinearOrder K] in
theorem passesFilter_withoutAccess {r d : MemoryRecord K} {filters : QueryFilter}
    (h : r.withoutAccess = d.withoutAccess) :
    HybridRetriever.passesFilter r filters = HybridRetriever.passesFilter d filters := by
  change HybridRetriever.passesFilter r.withoutAccess filters = _
  rw [h]
  rfl

omit [Field K] [LinearOrder K] in
theorem isExpired_withoutAccess {r d : MemoryRecord K} {nowMs : UInt64}
    (h : r.withoutAccess = d.withoutAccess) : isExpired r nowMs = isExpired d nowMs := by
  change isExpired r.withoutAccess nowMs = _
  rw [h]
  rfl

/-- A query answers with hits of the retriever, as far as they are admitted. -/
theorem query_hits_cases (env : Platform K) (w : World K) (input : QueryInput K) :
    (query env w input).2.hits = [] ∨
      (query env w input).2.hits = admitHits w.engine input (queriedAt env w input) 0
        (w.engine.retriever.query env input w.tick).1.hits := by
  unfold query
  split
  · exact Or.inl rfl
  · exact Or.inr rfl

theorem query_hits_sublist (env : Platform K) (w : World K) (input : QueryInput K) :
    (query env w input).2.hits.Sublist (w.engine.retriever.query env input w.tick).1.hits := by
  rcases query_hits_cases env w input with h | h <;> rw [h]
  · exact List.nil_sublist _
  · exact admitHits_sublist w.engine input (queriedAt env w input) 0 _

/-- A query of a consistent state answers with hits that are ranked and show rows. -/
theorem Consistent.query (h : Consistent env w) (hm : Mirrors w.engine.toResident)
    (input : QueryInput K) :
    (∀ hit ∈ (query env w input).2.hits, ∃ d, Shows env w input hit d) ∧
      HybridRetriever.Ranked w.engine.retriever input (query env w input).2.hits := by
  have hranked : HybridRetriever.Ranked w.engine.retriever input
      (w.engine.retriever.query env input w.tick).1.hits := by
    refine HybridRetriever.ranked_query fun id doc hdoc => ?_
    obtain ⟨r, d, v, -, -, -, -, hid, hsame, -⟩ := h.document hm hdoc
    exact (congrArg (·.id) hsame).trans hid
  rcases query_hits_cases env w input with hnone | hhead
  · rw [hnone]
    exact ⟨fun _ hhit => (by cases hhit), HybridRetriever.ranked_nil⟩
  · rw [hhead]
    have hsub := admitHits_sublist w.engine input (queriedAt env w input) 0
      (w.engine.retriever.query env input w.tick).1.hits
    refine ⟨fun hit hhit => ?_, hranked.sublist hsub⟩
    obtain ⟨doc, scores, hdoc, hpass, hshown⟩ := hranked.found hit (hsub.subset hhit)
    obtain ⟨r, d, v, hr, hv, hdecode, hws, hid, hsame, hheld⟩ := h.document hm hdoc
    rw [passesFilter_withoutAccess hsame] at hpass
    obtain ⟨haccepts, hlive⟩ := HybridRetriever.accepts_of_passesFilter hpass
    have hfresh := unexpired_of_mem_admitHits hhit hr
    rw [isExpired_withoutAccess hheld] at hfresh
    refine ⟨d, ⟨v, hv, hdecode⟩, ⟨hws, hid⟩, hlive, ?_, ?_, ?_, ?_, ?_, ?_, haccepts, hfresh⟩ <;>
      rw [hshown]
    · exact congrArg (·.content) hsame
    · exact congrArg (·.source) hsame
    · exact congrArg (·.tags) hsame
    · exact congrArg (·.metadata) hsame
    · exact congrArg (·.pinned) hsame
    · exact congrArg (·.updatedAtMs) hsame

/-- In every run with steady clocks, whole batches and restarts at any point,
every query answers with live document rows of its workspace that its filter
accepts and that have not expired, each at most once, at most `top_k` of them,
and by falling score. -/
theorem query_sound (hlaw : env.Lawful) (hsteady : env.Steady) (nodeId : Bytes)
    (options : MemoryEngineOptions K) (steps : List (Step K))
    (hsteps : Runs.Along (next env) (fun w step => step.Sound env w)
      (World.initial nodeId options) steps) (input : QueryInput K) :
    let w := Runs.exec (next env) (World.initial nodeId options) steps
    let hits := (query env w input).2.hits
    (∀ hit ∈ hits, ∃ d, Shows env w input hit d) ∧
      (hits.map (·.memoryId)).Nodup ∧
      hits.length ≤ (if input.topK = 0 then 8 else input.topK) ∧
      hits.Pairwise fun a b => b.scores.final ≤ a.scores.final := by
  intro w hits
  have h : Consistent env w := consistent_run hlaw hsteady nodeId options steps hsteps
  have hadmits : ∀ step ∈ steps, step.Admits Plain := by
    refine Runs.forall_of_along (fun w step hsound => ?_) hsteps
    refine Step.Workspaces.admits ?_ fun w id hw hws hid => ⟨hws, hid, hw⟩
    match step with
    | .call c fate => exact hsound.plain
    | .restart none _ _ => trivial
    | .restart (some (c, fate)) _ _ => exact hsound.1.plain
  have hm : Mirrors w.engine.toResident :=
    (mirrors_run hlaw names_plain (fun w id hname => hname.2.2.1) nodeId options hadmits).2
  obtain ⟨hshows, hranked⟩ := h.query hm input
  exact ⟨hshows, hranked.distinct, hranked.short, hranked.ranked⟩

end Runs

section Examples
open Reference

def question : QueryInput ℚ where
  workspaceId := ascii "w"
  query := ascii "other"
  topK := 3
  tokenBudget := 0
  filters := ⟨[], [], [], 0, 0, true⟩
  recallOptions := ⟨0, 0, 0⟩
  rerank := ⟨1, 1, 1, 1⟩

theorem query_sound_after_history :
    let w := Runs.exec (next (platform ticking)) initial history
    let hits := (query (platform ticking) w question).2.hits
    (∀ hit ∈ hits, ∃ d, Shows (platform ticking) w question hit d) ∧ hits.length ≤ 3 := by
  have h := query_sound (lawful_platform _) steady_ticking _ _ history sound_history question
  exact ⟨h.1, h.2.2.1⟩

end Examples

end PoorguyMem
