import PoorguyMem.EloqStore
import PoorguyMem.Reference

/-!
# Routing

A row goes to the partition that its namespace, its workspace and the last part of its key
hash to. So the rows of one document in two namespaces, and a term and its postings, are
kept together by no hash in particular: only a single partition keeps them together always.
-/

namespace PoorguyMem

open ByteString

variable {K : Type}

/-- The document row and the vector row of a document are in one partition, and so are the
dictionary row of a term and a posting row of it. -/
structure CoLocates (env : Platform K) (adapter : EloqStoreAdapter)
    (workspaceId memoryId term : Bytes) (bucket : UInt64) (blockId : Bytes) : Prop where
  document : adapter.resolvePartitionId env docNs (buildDocKey workspaceId memoryId) =
    adapter.resolvePartitionId env vecFpNs (buildVecFpKey workspaceId memoryId)
  term : adapter.resolvePartitionId env termDictNs (buildTermDictKey workspaceId term) =
    adapter.resolvePartitionId env postingBlkNs (buildPostingKey workspaceId term bucket blockId)

/-! ### Seeds -/

theorem workspacePrefix_of_key {w : Bytes} (hw : 47 ∉ w) (rest : Bytes) :
    workspacePrefix (ascii "ws/" ++ w ++ 47 :: rest) = w := by
  have hprefix : (ascii "ws/").isPrefixOf (ascii "ws/" ++ w ++ 47 :: rest) = true := by
    rw [List.isPrefixOf_iff_prefix, List.append_assoc]
    exact List.prefix_append _ _
  have hdrop : (ascii "ws/" ++ w ++ 47 :: rest).drop 3 = w ++ 47 :: rest := by
    rw [List.append_assoc]
    rfl
  rw [workspacePrefix, if_pos hprefix, hdrop,
    List.takeWhile_append_of_pos fun c hc => by simpa using ne_of_mem_of_not_mem hc hw]
  simp

theorem suffixAfterLastColon_of_key {id : Bytes} (hne : id ≠ []) (hid : 47 ∉ id) (front : Bytes) :
    suffixAfterLastColon (front ++ 47 :: id) = id := by
  have hlast : afterLast 47 (front ++ 47 :: id) = id := by
    have hall : ∀ c ∈ id.reverse, (decide (c ≠ 47)) = true := by
      intro c hc
      simpa using ne_of_mem_of_not_mem (List.mem_reverse.mp hc) hid
    rw [afterLast, List.reverse_append, List.reverse_cons, List.append_assoc,
      List.takeWhile_append_of_pos hall]
    simp
  rw [suffixAfterLastColon, hlast, if_pos ⟨by simp, hne⟩]

/-- The seed of a key that ends with the name of a row. -/
theorem partitionRoutingSeed_eq {ns w id : Bytes}
    (hns : ns ∈ [docNs, termDictNs, postingBlkNs, vecCodeNs, vecFpNs, eventsNs])
    (hw : w ≠ []) (hslash : 47 ∉ w) (hid : id ≠ []) (hslash' : 47 ∉ id) (middle : Bytes) :
    partitionRoutingSeed ns (ascii "ws/" ++ w ++ 47 :: middle ++ 47 :: id) =
      ns ++ ascii "|" ++ (w ++ ascii ":" ++ id) := by
  have hnot : ¬ (ns = routeMetaNs ∨ ns = projectionCkptNs) := by
    revert ns
    decide
  have hworkspace : workspacePrefix (ascii "ws/" ++ w ++ 47 :: middle ++ 47 :: id) = w := by
    rw [List.append_assoc, List.cons_append, workspacePrefix_of_key hslash]
  rw [partitionRoutingSeed, routingShardKey, if_neg hnot, if_pos hns, hworkspace,
    suffixAfterLastColon_of_key hid hslash', if_pos ⟨hw, hid⟩]

/-- Seeds of different namespaces are different. -/
theorem partitionRoutingSeed_ne {ns ns' : Bytes} (hns : 124 ∉ ns) (hns' : 124 ∉ ns')
    (hne : ns ≠ ns') (key key' : Bytes) :
    partitionRoutingSeed ns key ≠ partitionRoutingSeed ns' key' := by
  intro h
  have hbar : (ascii "|" : Bytes) = [124] := rfl
  have hcut : ∀ {n : Bytes} (s : Bytes), 124 ∉ n →
      (n ++ [124] ++ s).takeWhile (fun c => decide (c ≠ 124)) = n := by
    intro n s hn
    rw [List.append_assoc,
      List.takeWhile_append_of_pos fun c hc => by simpa using ne_of_mem_of_not_mem hc hn]
    simp
  rw [partitionRoutingSeed, partitionRoutingSeed, hbar] at h
  apply hne
  rw [← hcut (routingShardKey ns key) hns, h, hcut _ hns']

/-- For one hash function, the rows are together where the hashes of their seeds agree. The
seed of a posting row has its block id, not the term. -/
theorem coLocates_iff_hash (env : Platform K) (adapter : EloqStoreAdapter)
    {w id term blockId : Bytes} (bucket : UInt64) (hw : w ≠ []) (hwSlash : 47 ∉ w) (hid : id ≠ [])
    (hidSlash : 47 ∉ id) (hterm : term ≠ []) (htermSlash : 47 ∉ term) (hblock : blockId ≠ [])
    (hblockSlash : 47 ∉ blockId) : CoLocates env adapter w id term bucket blockId ↔
      (env.hash (docNs ++ ascii "|" ++ (w ++ ascii ":" ++ id))).toNat ≡
        (env.hash (vecFpNs ++ ascii "|" ++ (w ++ ascii ":" ++ id))).toNat
          [MOD adapter.numPartitions] ∧
      (env.hash (termDictNs ++ ascii "|" ++ (w ++ ascii ":" ++ term))).toNat ≡
        (env.hash (postingBlkNs ++ ascii "|" ++ (w ++ ascii ":" ++ blockId))).toNat
          [MOD adapter.numPartitions] := by
  have hdoc : buildDocKey w id = ascii "ws/" ++ w ++ 47 :: ascii "doc" ++ 47 :: id := by
    simp [buildDocKey, ascii]
  have hvec : buildVecFpKey w id = ascii "ws/" ++ w ++ 47 :: ascii "vecfp" ++ 47 :: id := by
    simp [buildVecFpKey, ascii]
  have hdict : buildTermDictKey w term =
      ascii "ws/" ++ w ++ 47 :: ascii "term" ++ 47 :: term := by
    simp [buildTermDictKey, ascii]
  have hpost : buildPostingKey w term bucket blockId = ascii "ws/" ++ w ++
      47 :: (ascii "term/" ++ term ++ ascii "/b/" ++ decimal bucket.toNat ++ ascii "/blk") ++
        47 :: blockId := by
    simp [buildPostingKey, ascii]
  have hseed := @partitionRoutingSeed_eq
  constructor
  · rintro ⟨hdocument, hterms⟩
    rw [EloqStoreAdapter.resolvePartitionId, EloqStoreAdapter.resolvePartitionId, hdoc, hvec,
      hseed (by decide) hw hwSlash hid hidSlash, hseed (by decide) hw hwSlash hid hidSlash]
      at hdocument
    rw [EloqStoreAdapter.resolvePartitionId, EloqStoreAdapter.resolvePartitionId, hdict, hpost,
      hseed (by decide) hw hwSlash hterm htermSlash,
      hseed (by decide) hw hwSlash hblock hblockSlash] at hterms
    exact ⟨hdocument, hterms⟩
  · rintro ⟨hdocument, hterms⟩
    constructor
    · rw [EloqStoreAdapter.resolvePartitionId, EloqStoreAdapter.resolvePartitionId, hdoc, hvec,
        hseed (by decide) hw hwSlash hid hidSlash, hseed (by decide) hw hwSlash hid hidSlash]
      exact hdocument
    · rw [EloqStoreAdapter.resolvePartitionId, EloqStoreAdapter.resolvePartitionId, hdict, hpost,
        hseed (by decide) hw hwSlash hterm htermSlash,
        hseed (by decide) hw hwSlash hblock hblockSlash]
      exact hterms

/-- Some hash separates the rows of two namespaces, unless there is one partition. -/
theorem eq_one_of_routed_together (env : Platform K) (adapter : EloqStoreAdapter)
    {ns ns' key key' : Bytes} (hne : partitionRoutingSeed ns key ≠ partitionRoutingSeed ns' key')
    (h : ∀ hash, adapter.resolvePartitionId { env with hash := hash } ns key =
      adapter.resolvePartitionId { env with hash := hash } ns' key') :
    adapter.numPartitions = 1 := by
  have hsplit := h fun s => if s = partitionRoutingSeed ns key then 1 else 0
  rw [EloqStoreAdapter.resolvePartitionId, EloqStoreAdapter.resolvePartitionId] at hsplit
  dsimp only at hsplit
  rw [if_pos rfl, if_neg hne.symm] at hsplit
  have hpos := adapter.numPartitions_pos
  by_contra hmany
  have hone : 1 % adapter.numPartitions = 1 := Nat.mod_eq_of_lt (by omega)
  change 1 % adapter.numPartitions = 0 % adapter.numPartitions at hsplit
  rw [hone, Nat.zero_mod] at hsplit
  cases hsplit

/-- The rows are together under every hash function if and only if there is one partition. -/
theorem coLocates_iff_one_partition (env : Platform K) (adapter : EloqStoreAdapter)
    (workspaceId memoryId term : Bytes) (bucket : UInt64) (blockId : Bytes) :
    (∀ hash, CoLocates { env with hash := hash } adapter workspaceId memoryId term bucket
      blockId) ↔ adapter.numPartitions = 1 := by
  constructor
  · intro h
    refine eq_one_of_routed_together env adapter ?_ fun hash => (h hash).document
    exact partitionRoutingSeed_ne (by decide) (by decide) (by decide) _ _
  · intro hone hash
    have hzero : ∀ ns key, adapter.resolvePartitionId { env with hash := hash } ns key = 0 := by
      intro ns key
      rw [EloqStoreAdapter.resolvePartitionId, hone, Nat.mod_one]
    constructor
    · rw [hzero, hzero]
    · rw [hzero, hzero]

section Examples
open Reference

/-- The default count of partitions, of which nothing was written. -/
def unwritten : EloqStoreAdapter where
  started := true
  numPartitions := 64
  numPartitions_pos := by decide
  store := ⟨fun _ => none, fun limit _ rows => rows.take limit⟩

/-- The vector of a document is in another partition. -/
theorem not_coLocates_unwritten : ¬ CoLocates (platform ticking) unwritten (ascii "w") (ascii "a")
    (ascii "hello") 0 (ascii "a") := by
  intro h
  exact absurd h.document (by decide)

end Examples

end PoorguyMem
