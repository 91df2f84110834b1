import PoorguyMem.Lossless
import PoorguyMem.Documents
import PoorguyMem.Domination
import PoorguyMem.IndexRows
import PoorguyMem.Lib.TopK

/-!
# Victims

A compaction buries live records of its scope that are not pinned, those of the
lowest rank first, until the batch is full. What room is left goes to the old
tombstones of the scope, which are removed. A record that cannot be written makes
the call throw, before anything has changed.
-/

namespace PoorguyMem

open ByteString PropertyTree Throwing

variable {K : Type}

/-! ### Who may be chosen -/

/-- The record is not pinned, or it is a tombstone. -/
def MemoryRecord.Expendable (r : MemoryRecord K) : Prop := r.pinned = false ∨ r.tombstone = true

instance (r : MemoryRecord K) : Decidable r.Expendable := inferInstanceAs (Decidable (_ ∨ _))

/-- `write_json` throws on an expendable record that is resident. -/
def Jammed (env : Platform K) (records : StringMap (MemoryRecord K)) : Prop :=
  ∃ (k : Bytes) (r : MemoryRecord K), records[k]? = some r ∧ r.Expendable ∧
    (recordTree env r).writable = false

theorem writable_eq (env : Platform K) (r : MemoryRecord K) :
    (recordTree env r).writable = ((makeArray r.tags).verify && (metadataTree r.metadata).verify) := by
  rw [recordTree_eq, Ptree.writable, Ptree.verify, recordChildren, verifyAll_append,
    verifyAll_leaves]
  simp [Ptree.verifyAll]

theorem writable_tombstoneOf (env : Platform K) (engine : MemoryEngine K) (c : MemoryRecord K)
    (nowMs : UInt64) :
    (recordTree env (tombstoneOf engine c nowMs)).writable = (recordTree env c).writable := by
  rw [writable_eq, writable_eq]
  rfl

/-- A live record that a compaction buries. -/
def MemoryRecord.Buriable (r : MemoryRecord K) : Prop := r.pinned = false ∧ r.tombstone = false

/-- A tombstone that a compaction drops. -/
def Ripe (engine : MemoryEngine K) (nowMs : UInt64) (r : MemoryRecord K) : Prop :=
  r.tombstone = true ∧
    engine.options.tombstoneRetentionMs ≤ HybridRetriever.ageMs r.updatedAtMs nowMs

instance (r : MemoryRecord K) : Decidable r.Buriable := inferInstanceAs (Decidable (_ ∧ _))

instance (engine : MemoryEngine K) (nowMs : UInt64) (r : MemoryRecord K) :
    Decidable (Ripe engine nowMs r) := inferInstanceAs (Decidable (_ ∧ _))

/-- How many records a compaction acts on at most. -/
def batchBound (engine : MemoryEngine K) : Nat :=
  if engine.options.gcBatchSize = 0 then 256 else engine.options.gcBatchSize

theorem batchBound_pos (engine : MemoryEngine K) : 0 < batchBound engine := by
  unfold batchBound
  split <;> omega

section Order
variable [Field K] [LinearOrder K]

/-- The place of a record in the order of burial. -/
def burialRank (env : Platform K) (nowMs : UInt64) (r : MemoryRecord K) : K ×ₗ Nat :=
  toLex (evictionRank env r nowMs, r.updatedAtMs.toNat)

/-- The records that a compaction of a scope buries and those it drops. -/
structure Victims (env : Platform K) (engine : MemoryEngine K) (scope : Bytes) (nowMs : UInt64)
    (buried dropped : List (MemoryRecord K)) : Prop where
  buried_mem : ∀ r ∈ buried, r ∈ engine.records.values ∧ inScope scope r ∧ r.Buriable
  buried_nodup : buried.Nodup
  buried_count : buried.length =
    min (batchBound engine) (engine.records.values.countP fun r => inScope scope r ∧ r.Buriable)
  least : ∀ r ∈ buried, ∀ r' ∈ engine.records.values, inScope scope r' → r'.Buriable →
    r' ∉ buried → burialRank env nowMs r ≤ burialRank env nowMs r'
  dropped_mem : ∀ r ∈ dropped, r ∈ engine.records.values ∧ inScope scope r ∧ Ripe engine nowMs r
  dropped_nodup : dropped.Nodup
  dropped_count : dropped.length =
    if engine.options.enableTombstoneGc then min (batchBound engine - buried.length)
      (engine.records.values.countP fun r => inScope scope r ∧ Ripe engine nowMs r)
    else 0

/-! ### The order and the snapshot -/

theorem rankBefore_eq_false {env : Platform K} {nowMs : UInt64} {l r : MemoryRecord K} :
    rankBefore env nowMs r l = false ↔ burialRank env nowMs l ≤ burialRank env nowMs r := by
  rw [burialRank, burialRank, rankBefore, Prod.Lex.toLex_le_toLex]
  by_cases heq : evictionRank env r nowMs = evictionRank env l nowMs
  · rw [if_pos heq, decide_eq_false_iff_not, UInt64.not_lt, UInt64.le_iff_toNat_le]
    simp [heq]
  · rw [if_neg heq, decide_eq_false_iff_not, not_lt]
    constructor
    · exact fun h => Or.inl (lt_of_le_of_ne h (Ne.symm heq))
    · rintro (hlt | ⟨h, -⟩)
      · exact hlt.le
      · exact absurd h.symm heq

instance (env : Platform K) (nowMs : UInt64) :
    Std.Total fun l r : MemoryRecord K => rankBefore env nowMs r l = false where
  total l r := by
    rw [rankBefore_eq_false, rankBefore_eq_false]
    exact le_total (burialRank env nowMs l) (burialRank env nowMs r)

instance (env : Platform K) (nowMs : UInt64) :
    IsTrans (MemoryRecord K) fun l r => rankBefore env nowMs r l = false where
  trans a b c hab hbc := by
    rw [rankBefore_eq_false] at *
    exact hab.trans hbc

omit [Field K] [LinearOrder K] in
theorem mem_values {records : StringMap (MemoryRecord K)} {r : MemoryRecord K} :
    r ∈ records.values ↔ ∃ k : Bytes, records[k]? = some r := by
  rw [MapTotal.values_eq, List.mem_map]
  constructor
  · rintro ⟨kv, hkv, rfl⟩
    exact ⟨kv.1, Std.ExtTreeMap.mem_toList_iff_getElem?_eq_some.mp hkv⟩
  · rintro ⟨k, hk⟩
    exact ⟨(k, r), Std.ExtTreeMap.mem_toList_iff_getElem?_eq_some.mpr hk, rfl⟩

omit [Field K] [LinearOrder K] in
theorem perm_iterate_values (env : Platform K) (t : Nat) (records : StringMap (MemoryRecord K)) :
    ((env.iterate t records).map Prod.snd).Perm records.values := by
  rw [MapTotal.values_eq]
  exact (env.perm_iterate t records).map Prod.snd

omit [Field K] [LinearOrder K] in
/-- Records that lie at the keys of their names lie at one key each. -/
theorem nodup_values {records : StringMap (MemoryRecord K)}
    (hkeys : ∀ (k : Bytes) r, records[k]? = some r → k = recordMapKey r.workspaceId r.id) :
    records.values.Nodup := by
  rw [MapTotal.values_eq]
  refine List.Nodup.map_on ?_ (MapTotal.nodup_toList records)
  rintro ⟨k, r⟩ hr ⟨k', r'⟩ hr' heq
  rw [Std.ExtTreeMap.mem_toList_iff_getElem?_eq_some] at hr hr'
  obtain rfl : r = r' := heq
  rw [hkeys k r hr, hkeys k' r hr']

end Order

/-! ### The two loops -/

section Draft
variable [Field K] [LinearOrder K] {env : Platform K} {engine : MemoryEngine K} {nowMs : UInt64}
  {c : Cursor}

theorem holds_persistRecord_or_unwritable (records : StringMap (MemoryRecord K))
    (r : MemoryRecord K) {E : Cursor → Prop} (hE : (recordTree env r).writable = false → ∀ c, E c) :
    Holds (persistRecord env records r) c (fun _ _ => True) E := by
  unfold persistRecord
  apply holds_bind
  apply holds_ofOption
  · intro text _
    exact holds_bind (holds_advance (holds_pure trivial))
  · intro hnone
    apply hE
    rw [serializeRecord, toJsonString] at hnone
    split at hnone
    · cases hnone
    · rename_i hw
      simpa using hw

omit [Field K] [LinearOrder K] in
theorem holds_appendProjectionEvent_or_unwritable (nodeId : Bytes) (r : MemoryRecord K)
    (opType : OpType) (reason : Bytes) {E : Cursor → Prop}
    (hE : (recordTree env r).writable = false → ∀ c, E c) :
    Holds (appendProjectionEvent env nodeId r opType reason) c (fun _ _ => True) E := by
  unfold appendProjectionEvent
  apply holds_bind
  apply holds_advance
  apply holds_bind
  apply holds_advance
  apply holds_bind
  apply holds_ofOption
  · intro payload _
    exact holds_pure trivial
  · intro hnone
    apply hE
    rw [serializeRecord, toJsonString] at hnone
    split at hnone
    · cases hnone
    · rename_i hw
      simpa using hw

omit [Field K] [LinearOrder K] in
theorem holds_deleteRecordStorage_returns (r : MemoryRecord K) {E : Cursor → Prop} :
    Holds (deleteRecordStorage env r) c (fun _ _ => True) E := by
  refine holds_bind (holds_advance ?_)
  refine holds_bind (holds_advance (holds_bind (holds_advance (holds_bind (holds_advance ?_)))))
  apply holds_foldlM (I := fun _ _ => True)
  · intro term _ rows c' _
    exact holds_bind (holds_advance (holds_pure trivial))
  · trivial

/-- A pass over a live record buries it where it qualifies and there is room. -/
theorem holds_tombstoneRecord_quota {maxBatch : Nat} {k : Bytes} {candidate : MemoryRecord K}
    (hheld : engine.records[k]? = some candidate) {passed : List (MemoryRecord K)} {plan : Plan K}
    (hputs : plan.upserts =
      (TopK.quota (fun r => r.Buriable) maxBatch passed).map (tombstoneOf engine · nowMs))
    (hdrops : plan.removals = []) :
    Holds (tombstoneRecord env engine nowMs maxBatch plan candidate) c
      (fun plan' _ => plan'.upserts =
          (TopK.quota (fun r => r.Buriable) maxBatch (passed ++ [candidate])).map
            (tombstoneOf engine · nowMs) ∧ plan'.removals = [])
      (fun _ => Jammed env engine.records) := by
  have hacted : plan.actions = (TopK.quota (fun r => r.Buriable) maxBatch passed).length := by
    rw [Plan.actions, hputs, hdrops, List.length_map, List.length_nil, Nat.add_zero]
  simp only [TopK.quota_concat, decide_eq_true_eq]
  unfold tombstoneRecord
  split
  · rename_i hskip
    apply holds_pure
    refine ⟨?_, hdrops⟩
    rw [if_neg, hputs]
    rintro ⟨⟨hpin, hdead⟩, hroom⟩
    rcases hskip with hfull | hpinned | htomb
    · omega
    · rw [hpin] at hpinned
      cases hpinned
    · rw [hdead] at htomb
      cases htomb
  · rename_i hskip
    simp only [not_or, Bool.not_eq_true] at hskip
    have hjam : (recordTree env (tombstoneOf engine candidate nowMs)).writable = false →
        ∀ _ : Cursor, Jammed env engine.records := by
      intro hw _
      rw [writable_tombstoneOf] at hw
      exact ⟨k, candidate, hheld, Or.inl hskip.2.1, hw⟩
    refine holds_bind ((holds_persistRecord_or_unwritable _ _ hjam).mono ?_ fun _ hE => hE)
    intro rows c' _
    refine holds_bind ((holds_appendProjectionEvent_or_unwritable _ _ _ _ hjam).mono ?_
      fun _ hE => hE)
    intro event c'' _
    apply holds_pure
    refine ⟨?_, hdrops⟩
    rw [if_pos ⟨hskip.2, by omega⟩, List.map_append, hputs]
    rfl

omit [Field K] [LinearOrder K] in
/-- A pass over a tombstone drops it where it is old enough and there is room. -/
theorem holds_deleteTombstone_quota {maxBatch : Nat} {k : Bytes} {candidate : MemoryRecord K}
    (hheld : engine.records[k]? = some candidate) (hdead : candidate.tombstone = true)
    {puts passed : List (MemoryRecord K)} {plan : Plan K} (hputs : plan.upserts = puts)
    (hdrops : plan.removals =
      TopK.quota (fun r => Ripe engine nowMs r) (maxBatch - puts.length) passed) :
    Holds (deleteTombstone env engine nowMs maxBatch plan candidate) c
      (fun plan' _ => plan'.upserts = puts ∧ plan'.removals =
        TopK.quota (fun r => Ripe engine nowMs r) (maxBatch - puts.length) (passed ++ [candidate]))
      (fun _ => Jammed env engine.records) := by
  have hacted : plan.actions = puts.length +
      (TopK.quota (fun r => Ripe engine nowMs r) (maxBatch - puts.length) passed).length := by
    rw [Plan.actions, hputs, hdrops]
  simp only [TopK.quota_concat, decide_eq_true_eq]
  unfold deleteTombstone
  split
  · rename_i hskip
    apply holds_pure
    refine ⟨hputs, ?_⟩
    rw [if_neg, hdrops]
    rintro ⟨⟨-, hold⟩, hroom⟩
    rcases hskip with hfull | hyoung
    · omega
    · exact absurd hold (by simpa using hyoung)
  · rename_i hskip
    rw [not_or, UInt64.not_lt] at hskip
    refine holds_bind (holds_deleteRecordStorage_returns candidate |>.mono ?_ fun _ hE => hE)
    intro rows c' _
    have hjam : (recordTree env candidate).writable = false →
        ∀ _ : Cursor, Jammed env engine.records :=
      fun hw _ => ⟨k, candidate, hheld, Or.inr hdead, hw⟩
    refine holds_bind ((holds_appendProjectionEvent_or_unwritable _ _ _ _ hjam).mono ?_
      fun _ hE => hE)
    intro event c'' _
    apply holds_pure
    refine ⟨hputs, ?_⟩
    rw [if_pos ⟨⟨hdead, hskip.2⟩, by omega⟩, hdrops]

/-- What a quota takes of the sorted live records. -/
theorem buried_of_quota {snapshot active : List (MemoryRecord K)} {scope : Bytes}
    (hperm : snapshot.Perm engine.records.values) (hnodup : engine.records.values.Nodup)
    (hactive : ((snapshot.filter (inScope scope)).filter fun r => !r.tombstone).insertionSort
      (fun l r => rankBefore env nowMs r l = false) = active) {buried : List (MemoryRecord K)}
    (hburied : buried = TopK.quota (fun r => r.Buriable) (batchBound engine) active) :
    (∀ r ∈ buried, r ∈ engine.records.values ∧ inScope scope r ∧ r.Buriable) ∧ buried.Nodup ∧
      buried.length = min (batchBound engine)
        (engine.records.values.countP fun r => inScope scope r ∧ r.Buriable) ∧
      ∀ r ∈ buried, ∀ r' ∈ engine.records.values, inScope scope r' → r'.Buriable → r' ∉ buried →
        burialRank env nowMs r ≤ burialRank env nowMs r' := by
  have hpermActive : active.Perm ((snapshot.filter (inScope scope)).filter fun r => !r.tombstone) := by
    rw [← hactive]
    exact List.perm_insertionSort _ _
  have hsorted : active.Pairwise fun l r => rankBefore env nowMs r l = false := by
    rw [← hactive]
    exact List.pairwise_insertionSort _ _
  have hmem : ∀ r, r ∈ active ↔
      (r ∈ engine.records.values ∧ inScope scope r = true) ∧ (!r.tombstone) = true := by
    intro r
    rw [hpermActive.mem_iff, List.mem_filter, List.mem_filter, hperm.mem_iff]
  subst hburied
  refine ⟨?_, ?_, ?_, ?_⟩
  · intro r hr
    obtain ⟨hr, hb⟩ := TopK.mem_of_mem_quota hr
    obtain ⟨⟨hheld, hscope⟩, -⟩ := (hmem r).mp hr
    exact ⟨hheld, hscope, of_decide_eq_true hb⟩
  · apply TopK.nodup_quota
    rw [hpermActive.nodup_iff]
    exact ((hperm.nodup_iff.mpr hnodup).filter _).filter _
  · rw [TopK.length_quota, hpermActive.countP_eq, List.countP_filter, List.countP_filter,
      hperm.countP_eq]
    congr 1
    apply List.countP_congr
    intro r _
    simp only [Bool.and_eq_true, decide_eq_true_eq, Bool.not_eq_true']
    constructor
    · exact fun ⟨⟨hb, _⟩, hscope⟩ => ⟨hscope, hb⟩
    · exact fun ⟨hscope, hb⟩ => ⟨⟨hb, hb.2⟩, hscope⟩
  · intro r hr r' hheld hscope hb hleft
    rw [← rankBefore_eq_false]
    refine TopK.rel_of_mem_quota hsorted hr ?_ (decide_eq_true hb) hleft
    exact (hmem r').mpr ⟨⟨hheld, hscope⟩, by simp [hb.2]⟩

omit [Field K] [LinearOrder K] in
/-- What a quota takes of the tombstones. -/
theorem dropped_of_quota {snapshot dropped : List (MemoryRecord K)} {scope : Bytes} {room : Nat}
    (hperm : snapshot.Perm engine.records.values) (hnodup : engine.records.values.Nodup)
    (hdropped : dropped = TopK.quota (fun r => Ripe engine nowMs r) room
      ((snapshot.filter (inScope scope)).filter fun r => r.tombstone)) :
    (∀ r ∈ dropped, r ∈ engine.records.values ∧ inScope scope r ∧ Ripe engine nowMs r) ∧
      dropped.Nodup ∧ dropped.length = min room
        (engine.records.values.countP fun r => inScope scope r ∧ Ripe engine nowMs r) := by
  subst hdropped
  refine ⟨?_, ?_, ?_⟩
  · intro r hr
    obtain ⟨hr, hripe⟩ := TopK.mem_of_mem_quota hr
    rw [List.mem_filter, List.mem_filter, hperm.mem_iff] at hr
    exact ⟨hr.1.1, hr.1.2, of_decide_eq_true hripe⟩
  · apply TopK.nodup_quota
    exact ((hperm.nodup_iff.mpr hnodup).filter _).filter _
  · rw [TopK.length_quota, List.countP_filter, List.countP_filter, hperm.countP_eq]
    congr 1
    apply List.countP_congr
    intro r _
    simp only [Bool.and_eq_true, decide_eq_true_eq]
    constructor
    · exact fun ⟨⟨hripe, _⟩, hscope⟩ => ⟨hscope, hripe⟩
    · exact fun ⟨hscope, hripe⟩ => ⟨⟨hripe, hripe.1⟩, hscope⟩

/-- The two loops choose the victims, unless a record they come to cannot be written. -/
theorem holds_compactDraft_victims (env : Platform K) (engine : MemoryEngine K) (scope : Bytes)
    (c : Cursor)
    (hkeys : ∀ (k : Bytes) r, engine.records[k]? = some r → k = recordMapKey r.workspaceId r.id) :
    Holds (compactDraft env engine scope) c
      (fun draft _ => ∃ buried, Victims env engine scope (env.clock c.tick) buried
          draft.plan.removals ∧
        draft.plan.upserts = buried.map (tombstoneOf engine · (env.clock c.tick)))
      (fun _ => Jammed env engine.records) := by
  have hperm := perm_iterate_values env (c.tick + 1) engine.records
  have hnodup := nodup_values hkeys
  refine holds_bind (holds_advance (holds_bind (holds_advance (holds_bind ?_))))
  apply (holds_foldlM_passed (I := fun passed plan _ => plan.upserts =
      (TopK.quota (fun r => r.Buriable) (batchBound engine) passed).map
        (tombstoneOf engine · (env.clock c.tick)) ∧ plan.removals = [])
    (E := fun _ => Jammed env engine.records) ?_ ⟨by simp [Plan.empty, TopK.quota], rfl⟩).mono ?_
      fun _ hE => hE
  · rintro passed x rest plan c' hlist ⟨hputs, hdrops⟩
    have hmem : x ∈ passed ++ x :: rest := List.mem_append_right _ List.mem_cons_self
    rw [← hlist] at hmem
    obtain ⟨-, k, hk⟩ := mem_active hmem
    exact holds_tombstoneRecord_quota hk hputs hdrops
  · rintro plan c' ⟨hputs, hdrops⟩
    obtain ⟨hmem, hnd, hcount, hleast⟩ := buried_of_quota hperm hnodup rfl rfl
    split
    · rename_i hgc
      apply holds_bind
      apply (holds_foldlM_passed (I := fun passed plan' _ => plan'.upserts = plan.upserts ∧
          plan'.removals = TopK.quota (fun r => Ripe engine (env.clock c.tick) r)
            (batchBound engine - plan.upserts.length) passed)
        (E := fun _ => Jammed env engine.records) ?_
        ⟨rfl, by simp [hdrops, TopK.quota]⟩).mono ?_ fun _ hE => hE
      · rintro passed x rest plan' c'' hlist ⟨hputs', hdrops'⟩
        have hmem' : x ∈ passed ++ x :: rest := List.mem_append_right _ List.mem_cons_self
        rw [← hlist] at hmem'
        obtain ⟨hdead, -, k, hk⟩ := mem_tombstones hmem'
        exact holds_deleteTombstone_quota hk hdead hputs' hdrops'
      · rintro plan' c'' ⟨hputs', hdrops'⟩
        apply holds_pure
        obtain ⟨hmem', hnd', hcount'⟩ := dropped_of_quota hperm hnodup hdrops'
        refine ⟨_, ⟨hmem, hnd, hcount, hleast, hmem', hnd', ?_⟩, hputs'.trans hputs⟩
        rw [if_pos hgc, hcount', hputs, List.length_map]
    · rename_i hgc
      apply holds_pure
      refine ⟨_, ⟨hmem, hnd, hcount, hleast, ?_, ?_, ?_⟩, hputs⟩
      · rw [hdrops]
        intro r hr
        cases hr
      · rw [hdrops]
        exact List.nodup_nil
      · rw [hdrops, if_neg hgc]
        rfl

end Draft

/-! ### What a compaction does -/

section Effect
variable [Field K] [LinearOrder K] {env : Platform K} {w : World K} {fate : Fate}

/-- A compaction throws, or it has a plan that it carries out. -/
theorem compactInternal_cases (env : Platform K) (w : World K) (scope : Bytes)
    (hok : fate.main.ok = true) :
    (∃ c, compactDraft env w.engine scope w.cursor = (none, c) ∧
      (compactInternal env fate w scope true).2 = none ∧
      (compactInternal env fate w scope true).1.engine.records = w.engine.records ∧
      (compactInternal env fate w scope true).1.store = w.store) ∨
    ∃ draft c out, compactDraft env w.engine scope w.cursor = (some draft, c) ∧
      (compactInternal env fate w scope true).2 = some out ∧
      out.tombstonedCount = draft.plan.upserts.length ∧
      out.deletedCount = draft.plan.removals.length ∧
      (compactInternal env fate w scope true).1.engine.records =
        (if draft.plan.writes = [] then w.engine.records
          else (draft.plan.applyInMemory env w.engine.toResident).records) ∧
      (compactInternal env fate w scope true).1.store = w.store.apply draft.plan.writes := by
  simp only [compactInternal, Bool.not_true, Bool.false_and, Bool.false_eq_true, if_false]
  rcases hrun : compactDraft env w.engine scope w.cursor with ⟨_ | ⟨nowMs, plan⟩, c⟩
  · exact Or.inl ⟨c, rfl, rfl, rfl, rfl⟩
  · right
    refine ⟨⟨nowMs, plan⟩, c, _, rfl, rfl, rfl, rfl, ?_⟩
    dsimp only
    by_cases hwrites : plan.writes = []
    · rw [hwrites]
      constructor
      · simp [closeCompact, World.atCursor]
      · simp [closeCompact, World.atCursor]
    · have hsettled : (decide (plan.writes ≠ []) && fate.main.ok) = true := by simp [hwrites, hok]
      rw [if_neg hwrites, if_neg hwrites, if_pos hsettled]
      constructor
      · rfl
      · exact Store.batchWrite_of_ok w.store hok plan.writes

/-- A plan carried out on the records and on the documents. -/
structure Enacted (env : Platform K) (w w' : World K) (plan : Plan K) : Prop where
  writable : ∀ change ∈ plan.changes, (recordTree env change.record).writable = true
  records : w'.engine.records = (plan.applyInMemory env w.engine.toResident).records
  docs : ∃ items : List (LogItem K), items.map (·.change) = plan.changes ∧
    w'.store.table docNs = (w.store.table docNs).apply (items.map (·.docEntry env))

/-- A compaction whose batch is written disposes of its victims, unless it throws. -/
theorem compactInternal_spec (hlaw : env.Lawful) (hS : Sourced env NonemptyNames w)
    (hok : fate.main.ok = true) (scope : Bytes) :
    ((compactInternal env fate w scope true).2 = none ∧ Jammed env w.engine.records ∧
      (compactInternal env fate w scope true).1.engine.records = w.engine.records ∧
      (compactInternal env fate w scope true).1.store = w.store) ∨
    ∃ out plan buried, (compactInternal env fate w scope true).2 = some out ∧
      out.tombstonedCount = plan.upserts.length ∧ out.deletedCount = plan.removals.length ∧
      Victims env w.engine scope (env.clock w.tick) buried plan.removals ∧
      plan.upserts = buried.map (tombstoneOf w.engine · (env.clock w.tick)) ∧
      Enacted env w (compactInternal env fate w scope true).1 plan := by
  have hvictims := holds_compactDraft_victims env w.engine scope w.cursor
    fun k r hr => (hS.held k r hr).1
  rcases compactInternal_cases env w scope hok with ⟨c, hrun, hnone, hrecords, hstore⟩ |
    ⟨draft, c, out, hrun, hsome, hburied, hdropped, hrecords, hstore⟩
  · exact Or.inl ⟨hnone, hvictims.thrown c hrun, hrecords, hstore⟩
  · right
    obtain ⟨buried, hv, hputs⟩ := hvictims.returned draft c hrun
    have hcall : (Call.compact scope : Call K).compacts = some scope := rfl
    have hdraft := holds_compactDraft env hcall (hS.named hlaw names_nonempty).held
    obtain ⟨items, hd⟩ := hdraft.returned draft c hrun
    refine ⟨out, draft.plan, buried, hsome, hburied, hdropped, hv, hputs, ?_, ?_,
      items, hd.changes.symm, ?_⟩
    · intro change hchange
      rw [hd.changes] at hchange
      obtain ⟨item, hitem, rfl⟩ := List.mem_map.mp hchange
      exact hd.logs.writable item hitem
    · rw [hrecords]
      split
      · rename_i hwrites
        -- a plan without a batch has no changes
        have hitems : items.map (·.docEntry env) = [] := by
          rw [← hd.logs.docs, hwrites]
          rfl
        have hchanges : draft.plan.changes = [] := by
          rw [hd.changes, List.map_eq_nil_iff.mp hitems]
          rfl
        rw [Plan.applyInMemory_eq, hchanges]
        rfl
      · rfl
    · rw [hstore, Store.table_apply, hd.logs.docs]

theorem lookup_foldl_upsert (env : Platform K) (rs : List (MemoryRecord K)) (s : Resident K) (k : Bytes) :
    ((∀ r ∈ rs, recordMapKey r.workspaceId r.id ≠ k) ∧
      (rs.foldl (Resident.upsertRecordInMemory env) s).records[k]? = s.records[k]?) ∨
    ∃ r ∈ rs, recordMapKey r.workspaceId r.id = k ∧
      (rs.foldl (Resident.upsertRecordInMemory env) s).records[k]? = some r := by
  induction rs generalizing s with
  | nil =>
    left
    constructor
    · intro r hr
      cases hr
    · rfl
  | cons r rest ih =>
    rcases ih (s.upsertRecordInMemory env r) with ⟨hnone, hsame⟩ | ⟨r', hr', hkey, hsome⟩
    · rw [Resident.records_upsert, lookup_insert] at hsame
      by_cases hk : recordMapKey r.workspaceId r.id = k
      · rw [if_pos hk] at hsame
        exact Or.inr ⟨r, List.mem_cons_self, hk, hsame⟩
      · rw [if_neg hk] at hsame
        exact Or.inl ⟨List.forall_mem_cons.mpr ⟨hk, hnone⟩, hsame⟩
    · exact Or.inr ⟨r', List.mem_cons_of_mem _ hr', hkey, hsome⟩

omit [Field K] [LinearOrder K] in
theorem lookup_foldl_remove (rs : List (MemoryRecord K)) (s : Resident K) (k : Bytes) :
    ((∀ r ∈ rs, recordMapKey r.workspaceId r.id ≠ k) ∧
      (rs.foldl Resident.removeRecordInMemory s).records[k]? = s.records[k]?) ∨
    (∃ r ∈ rs, recordMapKey r.workspaceId r.id = k) ∧
      (rs.foldl Resident.removeRecordInMemory s).records[k]? = none := by
  induction rs generalizing s with
  | nil =>
    left
    constructor
    · intro r hr
      cases hr
    · rfl
  | cons r rest ih =>
    rcases ih (s.removeRecordInMemory r) with ⟨hnone, hsame⟩ | ⟨⟨r', hr', hkey⟩, hgone⟩
    · rw [Resident.records_remove, lookup_erase] at hsame
      by_cases hk : recordMapKey r.workspaceId r.id = k
      · rw [if_pos hk] at hsame
        exact Or.inr ⟨⟨r, List.mem_cons_self, hk⟩, hsame⟩
      · rw [if_neg hk] at hsame
        exact Or.inl ⟨List.forall_mem_cons.mpr ⟨hk, hnone⟩, hsame⟩
    · exact Or.inr ⟨⟨r', List.mem_cons_of_mem _ hr', hkey⟩, hgone⟩

/-- The victims are buried and dropped, and all others are as they were. -/
structure Reclaimed (env : Platform K) (w w' : World K) (nowMs : UInt64)
    (buried dropped : List (MemoryRecord K)) : Prop where
  tombstones : ∀ r ∈ buried, w'.engine.records[recordMapKey r.workspaceId r.id]? =
    some (tombstoneOf w.engine r nowMs)
  removed : ∀ r ∈ dropped, w'.engine.records[recordMapKey r.workspaceId r.id]? = none ∧
    (w'.store.table docNs)[buildDocKey r.workspaceId r.id]? = none
  spared : ∀ (k : Bytes) r, w.engine.records[k]? = some r → r ∉ buried → r ∉ dropped →
    w'.engine.records[k]? = some r
  unborn : ∀ k : Bytes, w.engine.records[k]? = none → w'.engine.records[k]? = none
  tombstone_rows : ∀ r ∈ buried, (∀ r' ∈ buried ++ dropped,
      buildDocKey r'.workspaceId r'.id = buildDocKey r.workspaceId r.id → r' = r) →
    ∃ v, (w'.store.table docNs)[buildDocKey r.workspaceId r.id]? = some v ∧
      v.value = recordText env (tombstoneOf w.engine r nowMs)
  spared_rows : ∀ key, (∀ r ∈ buried ++ dropped, buildDocKey r.workspaceId r.id ≠ key) →
    (w'.store.table docNs)[key]? = (w.store.table docNs)[key]?

section Outcome
variable {w' : World K} {plan : Plan K} {nowMs : UInt64} {buried : List (MemoryRecord K)}

/-- The entry of a key is that of a victim, or it is unchanged. -/
theorem Enacted.lookup (h : Enacted env w w' plan)
    (hputs : plan.upserts = buried.map (tombstoneOf w.engine · nowMs)) (k : Bytes) :
    (∃ r ∈ plan.removals, recordMapKey r.workspaceId r.id = k) ∧ w'.engine.records[k]? = none ∨
    (∃ r ∈ buried, recordMapKey r.workspaceId r.id = k ∧
      w'.engine.records[k]? = some (tombstoneOf w.engine r nowMs)) ∨
    (∀ r ∈ buried ++ plan.removals, recordMapKey r.workspaceId r.id ≠ k) ∧
      w'.engine.records[k]? = w.engine.records[k]? := by
  rw [h.records, Plan.applyInMemory]
  rcases lookup_foldl_remove plan.removals
    (plan.upserts.foldl (Resident.upsertRecordInMemory env) w.engine.toResident) k with
    ⟨hundropped, hsame⟩ | ⟨hr, hgone⟩
  · right
    rw [hsame]
    rcases lookup_foldl_upsert env plan.upserts w.engine.toResident k with
      ⟨hunburied, hsame'⟩ | ⟨t, ht, hkey, hsome⟩
    · right
      refine ⟨?_, hsame'⟩
      intro r hr
      rcases List.mem_append.mp hr with hr | hr
      · exact hunburied (tombstoneOf w.engine r nowMs) (hputs ▸ List.mem_map_of_mem hr)
      · exact hundropped r hr
    · left
      rw [hputs] at ht
      obtain ⟨r, hr, rfl⟩ := List.mem_map.mp ht
      exact ⟨r, hr, hkey, hsome⟩
  · exact Or.inl ⟨hr, hgone⟩

/-- The batch puts the rows of the tombstones, then it deletes those of the dropped records. -/
theorem Enacted.entries (h : Enacted env w w' plan) :
    ∃ puts deletes, w'.store.table docNs = ((w.store.table docNs).apply puts).apply deletes ∧
      (∀ e ∈ puts, ∃ r ∈ plan.upserts, e = docEntry r (recordText env r)) ∧
      (∀ r ∈ plan.upserts, docEntry r (recordText env r) ∈ puts) ∧
      (∀ e ∈ deletes, ∃ r ∈ plan.removals, ∃ ts,
        e = deleteEntry docNs (buildDocKey r.workspaceId r.id) ts) ∧
      ∀ r ∈ plan.removals, ∃ ts, deleteEntry docNs (buildDocKey r.workspaceId r.id) ts ∈ deletes := by
  obtain ⟨items, hchanges, htable⟩ := h.docs
  obtain ⟨first, last, rfl, hfirst, hlast⟩ := List.map_eq_append_iff.mp hchanges
  refine ⟨first.map (·.docEntry env), last.map (·.docEntry env), ?_, ?_, ?_, ?_, ?_⟩
  · rw [htable, List.map_append, Table.apply, List.foldl_append]
    rfl
  · intro e he
    obtain ⟨item, hitem, rfl⟩ := List.mem_map.mp he
    have hmem : item.change ∈ plan.upserts.map Change.put := hfirst ▸ List.mem_map_of_mem hitem
    obtain ⟨r, hr, heq⟩ := List.mem_map.mp hmem
    refine ⟨r, hr, ?_⟩
    rw [LogItem.docEntry, ← heq]
  · intro r hr
    have hmem : Change.put r ∈ first.map (·.change) := hfirst ▸ List.mem_map_of_mem hr
    obtain ⟨item, hitem, heq⟩ := List.mem_map.mp hmem
    refine List.mem_map.mpr ⟨item, hitem, ?_⟩
    rw [LogItem.docEntry, heq]
  · intro e he
    obtain ⟨item, hitem, rfl⟩ := List.mem_map.mp he
    have hmem : item.change ∈ plan.removals.map Change.drop := hlast ▸ List.mem_map_of_mem hitem
    obtain ⟨r, hr, heq⟩ := List.mem_map.mp hmem
    refine ⟨r, hr, item.docTs, ?_⟩
    rw [LogItem.docEntry, ← heq]
  · intro r hr
    have hmem : Change.drop r ∈ last.map (·.change) := hlast ▸ List.mem_map_of_mem hr
    obtain ⟨item, hitem, heq⟩ := List.mem_map.mp hmem
    refine ⟨item.docTs, List.mem_map.mpr ⟨item, hitem, ?_⟩⟩
    rw [LogItem.docEntry, heq]

variable {scope : Bytes}

omit [Field K] [LinearOrder K] in
theorem held_of_mem_values
    (hkeys : ∀ (k : Bytes) r, w.engine.records[k]? = some r → k = recordMapKey r.workspaceId r.id)
    {r : MemoryRecord K} (hr : r ∈ w.engine.records.values) :
    w.engine.records[recordMapKey r.workspaceId r.id]? = some r := by
  obtain ⟨k, hk⟩ := mem_values.mp hr
  rw [← hkeys k r hk]
  exact hk

omit [Field K] [LinearOrder K] in
theorem eq_of_recordMapKey_eq
    (hkeys : ∀ (k : Bytes) r, w.engine.records[k]? = some r → k = recordMapKey r.workspaceId r.id)
    {r r' : MemoryRecord K} (hr : r ∈ w.engine.records.values) (hr' : r' ∈ w.engine.records.values)
    (hkey : recordMapKey r.workspaceId r.id = recordMapKey r'.workspaceId r'.id) : r = r' := by
  have heq := held_of_mem_values hkeys hr
  rw [hkey, held_of_mem_values hkeys hr'] at heq
  exact (Option.some.inj heq).symm

/-- No record is both buried and dropped. -/
theorem Victims.disjoint {dropped : List (MemoryRecord K)}
    (hv : Victims env w.engine scope nowMs buried dropped) {r : MemoryRecord K} (hb : r ∈ buried)
    (hd : r ∈ dropped) : False := by
  have hlive := (hv.buried_mem r hb).2.2.2
  have hdead := (hv.dropped_mem r hd).2.2.1
  rw [hlive] at hdead
  cases hdead

section Records
variable (h : Enacted env w w' plan)
  (hkeys : ∀ (k : Bytes) r, w.engine.records[k]? = some r → k = recordMapKey r.workspaceId r.id)
  (hv : Victims env w.engine scope nowMs buried plan.removals)
  (hputs : plan.upserts = buried.map (tombstoneOf w.engine · nowMs))
include h hkeys hv hputs

theorem Enacted.lookup_buried {r : MemoryRecord K} (hr : r ∈ buried) :
    w'.engine.records[recordMapKey r.workspaceId r.id]? = some (tombstoneOf w.engine r nowMs) := by
  have hheld := (hv.buried_mem r hr).1
  rcases h.lookup hputs (recordMapKey r.workspaceId r.id) with
    ⟨⟨d, hd, hkey⟩, -⟩ | ⟨b, hb, hkey, hsome⟩ | ⟨hnone, -⟩
  · obtain rfl := eq_of_recordMapKey_eq hkeys (hv.dropped_mem d hd).1 hheld hkey
    exact (hv.disjoint hr hd).elim
  · obtain rfl := eq_of_recordMapKey_eq hkeys (hv.buried_mem b hb).1 hheld hkey
    exact hsome
  · exact absurd rfl (hnone r (List.mem_append_left _ hr))

theorem Enacted.lookup_dropped {r : MemoryRecord K} (hr : r ∈ plan.removals) :
    w'.engine.records[recordMapKey r.workspaceId r.id]? = none := by
  have hheld := (hv.dropped_mem r hr).1
  rcases h.lookup hputs (recordMapKey r.workspaceId r.id) with
    ⟨-, hgone⟩ | ⟨b, hb, hkey, -⟩ | ⟨hnone, -⟩
  · exact hgone
  · obtain rfl := eq_of_recordMapKey_eq hkeys (hv.buried_mem b hb).1 hheld hkey
    exact (hv.disjoint hb hr).elim
  · exact absurd rfl (hnone r (List.mem_append_right _ hr))

theorem Enacted.lookup_spared {k : Bytes} {r : MemoryRecord K} (hr : w.engine.records[k]? = some r)
    (hunburied : r ∉ buried) (hundropped : r ∉ plan.removals) :
    w'.engine.records[k]? = some r := by
  have hheld : r ∈ w.engine.records.values := mem_values.mpr ⟨k, hr⟩
  have hk : k = recordMapKey r.workspaceId r.id := hkeys k r hr
  rcases h.lookup hputs k with ⟨⟨d, hd, hkey⟩, -⟩ | ⟨b, hb, hkey, -⟩ | ⟨-, hsame⟩
  · obtain rfl := eq_of_recordMapKey_eq hkeys (hv.dropped_mem d hd).1 hheld (hkey.trans hk)
    exact absurd hd hundropped
  · obtain rfl := eq_of_recordMapKey_eq hkeys (hv.buried_mem b hb).1 hheld (hkey.trans hk)
    exact absurd hb hunburied
  · rw [hsame, hr]

theorem Enacted.lookup_unborn {k : Bytes} (hnone : w.engine.records[k]? = none) :
    w'.engine.records[k]? = none := by
  rcases h.lookup hputs k with ⟨-, hgone⟩ | ⟨b, hb, hkey, -⟩ | ⟨-, hsame⟩
  · exact hgone
  · have hheld := held_of_mem_values hkeys (hv.buried_mem b hb).1
    rw [hkey, hnone] at hheld
    cases hheld
  · rw [hsame, hnone]

theorem Enacted.reclaimed : Reclaimed env w w' nowMs buried plan.removals := by
  obtain ⟨puts, deletes, htable, hput, hput', hdelete, hdelete'⟩ := h.entries
  constructor
  · exact fun r hr => h.lookup_buried hkeys hv hputs hr
  · intro r hr
    refine ⟨h.lookup_dropped hkeys hv hputs hr, ?_⟩
    rw [htable]
    apply Table.lookup_apply_deletes
    · intro e he
      obtain ⟨d, -, ts, rfl⟩ := hdelete e he
      rfl
    · obtain ⟨ts, hmem⟩ := hdelete' r hr
      exact Or.inr ⟨_, hmem, rfl⟩
  · exact fun k r => h.lookup_spared hkeys hv hputs
  · exact fun k => h.lookup_unborn hkeys hv hputs
  · intro r hr hown
    have hlast : ∀ e ∈ deletes, e.entry.key ≠ buildDocKey r.workspaceId r.id := by
      intro e he hkey
      obtain ⟨d, hd, ts, rfl⟩ := hdelete e he
      obtain rfl := hown d (List.mem_append_right _ hd) hkey
      exact hv.disjoint hr hd
    refine ⟨⟨recordText env (tombstoneOf w.engine r nowMs), nowMs⟩, ?_, rfl⟩
    rw [htable, Table.lookup_apply_of_notMem hlast]
    have hmem : tombstoneOf w.engine r nowMs ∈ plan.upserts := hputs ▸ List.mem_map_of_mem hr
    apply Table.lookup_apply_upserts
    · intro e he
      obtain ⟨t, -, rfl⟩ := hput e he
      rfl
    · intro e he hkey
      obtain ⟨t, ht, rfl⟩ := hput e he
      rw [hputs] at ht
      obtain ⟨b, hb, rfl⟩ := List.mem_map.mp ht
      obtain rfl := hown b (List.mem_append_left _ hb) hkey
      rfl
    · exact Or.inr ⟨_, hput' _ hmem, rfl⟩
  · intro key hfree
    rw [htable, Table.lookup_apply_of_notMem, Table.lookup_apply_of_notMem]
    · intro e he hkey
      obtain ⟨t, ht, rfl⟩ := hput e he
      rw [hputs] at ht
      obtain ⟨b, hb, rfl⟩ := List.mem_map.mp ht
      exact hfree b (List.mem_append_left _ hb) hkey
    · intro e he hkey
      obtain ⟨d, hd, ts, rfl⟩ := hdelete e he
      exact hfree d (List.mem_append_right _ hd) hkey

end Records

end Outcome

end Effect

section Examples
open Reference

/-- A batch of one action. -/
def single : MemoryEngineOptions ℚ := { options with gcBatchSize := 1 }

end Examples

end PoorguyMem
