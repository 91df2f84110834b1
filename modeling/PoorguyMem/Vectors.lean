import PoorguyMem.IndexRows
import PoorguyMem.Reference

/-!
# Vectors

A live document has a row in `mem_vec_code` and one in `mem_vec_fp`. The key of the
first contains a bucket: the one of the vector when the row is written, and the
posting bucket of the id when it is deleted. A row is deleted only where the two
happen to be equal.
-/

namespace PoorguyMem

open ByteString DerivedRows

variable {K : Type} [Field K] [LinearOrder K]

/-- The bucket under which the vector of a text is written. -/
def vectorBucket (env : Platform K) (content : Bytes) : UInt64 :=
  bucketForVector (embed env content embeddingDim) % 256

/-- The deletions of a change, if it makes any, go to the bucket in which the vector of
the document it replaces was written, or the new vector is written there. -/
def CodeErased (env : Platform K) (records : StringMap (MemoryRecord K)) (d : MemoryRecord K)
    (change : Change K) : Prop :=
  d.tombstone = false →
    (change.live.isSome ∧ vectorBucket env change.record.content = vectorBucket env d.content) ∨
    (vectorBucket env d.content = bucketForPosting env d.workspaceId d.id ∧
      (change.live = none ∨
        records[recordMapKey change.record.workspaceId change.record.id]?.isSome))

instance (env : Platform K) (records : StringMap (MemoryRecord K)) (d : MemoryRecord K)
    (change : Change K) : Decidable (CodeErased env records d change) :=
  have : Decidable (change.live = none) := decidable_of_iff _ Option.isNone_iff_eq_none
  inferInstanceAs (Decidable (_ → _ ∨ _))

/-- Each live document has one row in each table, and no other name has any. -/
structure VectorsMatch (env : Platform K) (t : Traced K) : Prop where
  documents : Represents env (t.world.store.table docNs) t.documents
  code : ∀ workspaceId id d, t.documents workspaceId id = some d → d.tombstone = false →
    ∃! b : UInt64, ((t.world.store.table vecCodeNs)[buildVecCodeKey workspaceId b id]?).isSome
  fp : ∀ workspaceId id d, t.documents workspaceId id = some d → d.tombstone = false →
    ((t.world.store.table vecFpNs)[buildVecFpKey workspaceId id]?).isSome
  noCode : ∀ workspaceId id, Plain workspaceId id →
    (∀ d, t.documents workspaceId id = some d → d.tombstone = true) →
    ∀ b : UInt64, (t.world.store.table vecCodeNs)[buildVecCodeKey workspaceId b id]? = none
  noFp : ∀ workspaceId id, Plain workspaceId id →
    (∀ d, t.documents workspaceId id = some d → d.tombstone = true) →
    (t.world.store.table vecFpNs)[buildVecFpKey workspaceId id]? = none
  named : ∀ k, ((t.world.store.table vecCodeNs)[k]?.isSome →
      ∃ workspaceId b id, Plain workspaceId id ∧ k = buildVecCodeKey workspaceId b id) ∧
    ((t.world.store.table vecFpNs)[k]?.isSome →
      ∃ workspaceId id, Plain workspaceId id ∧ k = buildVecFpKey workspaceId id)

variable {env : Platform K} {t : Traced K}

theorem indexRow_vecCodeNs {d : MemoryRecord K} {k : Bytes} {v : StoredValue} :
    IndexRow env d vecCodeNs k v ↔
      k = buildVecCodeKey d.workspaceId (vectorBucket env d.content) d.id ∧
        v = (vecCodeEntry env d).stored := by
  constructor
  · rintro ⟨e, he, hns, rfl, rfl⟩
    cases he with
    | posting mem => exact absurd hns postingBlkNs_ne_vecCodeNs
    | vecCode => exact ⟨rfl, rfl⟩
    | vecFp => exact absurd hns.symm vecCodeNs_ne_vecFpNs
  · rintro ⟨rfl, rfl⟩
    exact ⟨_, .vecCode, rfl, rfl, rfl⟩

theorem indexRow_vecFpNs {d : MemoryRecord K} {k : Bytes} {v : StoredValue} :
    IndexRow env d vecFpNs k v ↔
      k = buildVecFpKey d.workspaceId d.id ∧ v = (vecFpEntry env d).stored := by
  constructor
  · rintro ⟨e, he, hns, rfl, rfl⟩
    cases he with
    | posting mem => exact absurd hns postingBlkNs_ne_vecFpNs
    | vecCode => exact absurd hns vecCodeNs_ne_vecFpNs
    | vecFp => exact ⟨rfl, rfl⟩
  · rintro ⟨rfl, rfl⟩
    exact ⟨_, .vecFp, rfl, rfl, rfl⟩

omit [Field K] [LinearOrder K] in
theorem erased_vecCode (r : MemoryRecord K) : Erased env r vecCodeNs
    (buildVecCodeKey r.workspaceId (bucketForPosting env r.workspaceId r.id) r.id) :=
  ⟨_, .vecCode 0, rfl, rfl⟩

omit [Field K] [LinearOrder K] in
theorem erased_vecFp (r : MemoryRecord K) :
    Erased env r vecFpNs (buildVecFpKey r.workspaceId r.id) :=
  ⟨_, .vecFp 0, rfl, rfl⟩

omit [Field K] [LinearOrder K] in
theorem Change.live_eq_none {r : MemoryRecord K} :
    (Change.put r).live = none ↔ r.tombstone = true := by
  simp [Change.live, Change.value]

omit [Field K] [LinearOrder K] in
theorem Change.live_eq_some {r : MemoryRecord K} :
    (Change.put r).live = some r ↔ r.tombstone = false := by
  simp [Change.live, Change.value]

theorem clears_vecCode {records : StringMap (MemoryRecord K)} (hheld : HeldNames records)
    {d : MemoryRecord K} {change : Change K}
    (hname : Plain change.record.workspaceId change.record.id)
    (herased : CodeErased env records d change) : Clears env vecCodeNs records d change := by
  intro hlive hws hid k a hrow
  obtain ⟨rfl, -⟩ := indexRow_vecCodeNs.mp hrow
  rcases herased hlive with ⟨hsome, hsame⟩ | ⟨hbucket, hdeleted⟩
  · -- the new vector is written in the bucket
    cases change with
    | put r =>
      obtain ⟨r', hr'⟩ := Option.isSome_iff_exists.mp hsome
      obtain ⟨hvalue, -⟩ := Option.filter_eq_some_iff.mp hr'
      obtain rfl := Option.some.inj hvalue
      refine Or.inl ⟨r, _, hr', indexRow_vecCodeNs.mpr ⟨?_, rfl⟩⟩
      rw [hws, hid, ← hsame]
      rfl
    | drop r => cases hsome
  · rw [hbucket, hws, hid]
    cases change with
    | put r =>
      rcases hdeleted with hnone | hheld'
      · exact Or.inr (Or.inr ⟨Change.live_eq_none.mp hnone, erased_vecCode r⟩)
      · obtain ⟨old, hold⟩ := Option.isSome_iff_exists.mp hheld'
        obtain ⟨hkey, hold'⟩ := hheld _ _ hold
        obtain ⟨hws', hid'⟩ := recordMapKey_inj hname.2.2.1 hold'.2.2.1 hkey
        refine Or.inr (Or.inl ⟨old, hold, ?_⟩)
        rw [hws', hid']
        exact erased_vecCode old
    | drop r => exact Or.inr (erased_vecCode r)

/-- The key of a fingerprint has no bucket, so that it is always found again. -/
theorem clears_vecFp (records : StringMap (MemoryRecord K)) (d : MemoryRecord K)
    (change : Change K) : Clears env vecFpNs records d change := by
  intro _ hws hid k a hrow
  obtain ⟨rfl, -⟩ := indexRow_vecFpNs.mp hrow
  rw [hws, hid]
  cases change with
  | put r =>
    rcases hdead : r.tombstone with _ | _
    · exact Or.inl ⟨r, _, Change.live_eq_some.mpr hdead, indexRow_vecFpNs.mpr ⟨rfl, rfl⟩⟩
    · exact Or.inr (Or.inr ⟨hdead, erased_vecFp r⟩)
  | drop r => exact Or.inr (erased_vecFp r)

theorem Tracked.clears_vecCode (hlaw : env.Lawful) (h : Tracked env t) {step : Step K}
    (hregular : step.Regular env t.world)
    (herased : Replacing (CodeErased env t.world.engine.records) t.documents
      (step.committed env t.world)) :
    Replacing (Clears env vecCodeNs t.world.engine.records) t.documents
      (step.committed env t.world) := by
  have hnames : ∀ c ∈ step.committed env t.world, Plain c.record.workspaceId c.record.id := by
    match step with
    | .call c fate => exact h.plain_committed hlaw hregular.1.workspaces fate
    | .restart none _ _ =>
      intro c hc
      cases hc
    | .restart (some (c, fate)) _ _ => exact h.plain_committed hlaw hregular.1.1.workspaces fate
  refine herased.imp₂ herased ?_
  intro d c hc hcode _
  exact PoorguyMem.clears_vecCode h.sourced.held (hnames c hc) hcode

/-- In every run whose steps delete vectors from the buckets they were written in, the
vector rows are those of the live documents. -/
theorem vectors_match_documents (hlaw : env.Lawful) (nodeId : Bytes)
    (options : MemoryEngineOptions K) {steps : List (Step K)}
    (hsteps : Runs.Along (Traced.next env) (fun t step => step.Regular env t.world ∧
      Replacing (CodeErased env t.world.engine.records) t.documents (step.committed env t.world))
      (Traced.initial nodeId options) steps) :
    VectorsMatch env (Runs.exec (Traced.next env) (Traced.initial nodeId options) steps) := by
  have hcodeNs : vecCodeNs ∈ derivedNamespaces := by decide
  have hfpNs : vecFpNs ∈ derivedNamespaces := by decide
  obtain ⟨hT, hcode⟩ := current_run hcodeNs hlaw nodeId options
    (Runs.along_imp (fun t step h => ⟨h.1, fun hT => hT.clears_vecCode hlaw h.1 h.2⟩) hsteps)
  obtain ⟨-, hfp⟩ := current_run hfpNs hlaw nodeId options
    (Runs.along_imp (fun t step h => ⟨h.1, fun _ => replacing_of_forall fun d c _ =>
      clears_vecFp _ d c⟩) hsteps)
  generalize Runs.exec (Traced.next env) (Traced.initial nodeId options) steps = t at hT hcode hfp ⊢
  constructor
  case documents => exact hT.represents
  case code =>
    intro w id d hd hlive
    obtain ⟨rfl, rfl, hname, -⟩ := hT.represents.named w id d hd
    refine ⟨vectorBucket env d.content, ?_, ?_⟩
    · exact Option.isSome_of_eq_some
        (hcode.row hT hd hlive (indexRow_vecCodeNs.mpr ⟨rfl, rfl⟩))
    · intro b hb
      obtain ⟨v, hv⟩ := Option.isSome_iff_exists.mp hb
      obtain ⟨d', hd', hname', -, hrow⟩ := hcode.document hv
      obtain ⟨hkey, -⟩ := indexRow_vecCodeNs.mp hrow
      obtain ⟨hws, hbucket, hid⟩ := buildVecCodeKey_inj hname.2.2.2 hname'.2.2.2 hkey
      rw [← hws, ← hid] at hd'
      rw [hbucket, Option.some.inj (hd'.symm.trans hd)]
  case fp =>
    intro w id d hd hlive
    obtain ⟨rfl, rfl, -⟩ := hT.represents.named w id d hd
    exact Option.isSome_of_eq_some (hfp.row hT hd hlive (indexRow_vecFpNs.mpr ⟨rfl, rfl⟩))
  case noCode =>
    intro w id hname hdead b
    exact hcode.no_row hname hdead (.vecCode b rfl rfl)
  case noFp =>
    intro w id hname hdead
    exact hfp.no_row hname hdead (.vecFp rfl rfl)
  case named =>
    intro k
    constructor
    · intro hk
      obtain ⟨v, hv⟩ := Option.isSome_iff_exists.mp hk
      obtain ⟨d, -, hname, -, hrow⟩ := hcode.document hv
      exact ⟨_, _, _, hname, (indexRow_vecCodeNs.mp hrow).1⟩
    · intro hk
      obtain ⟨v, hv⟩ := Option.isSome_iff_exists.mp hk
      obtain ⟨d, -, hname, -, hrow⟩ := hfp.document hv
      exact ⟨_, _, hname, (indexRow_vecFpNs.mp hrow).1⟩

section Examples
open Reference

/-- A record is written and pinned. -/
def keepsBucket : List (Step ℚ) :=
  [.call (put (ascii "w") (ascii "a") (ascii "x")) applied,
    .call (.pin (ascii "w") (ascii "a") true) applied]

theorem vectors_match_keepsBucket : VectorsMatch (platform ticking)
    (Runs.exec (Traced.next (platform ticking)) (Traced.initial (ascii "node") options)
      keepsBucket) := by
  have hclean : Clean (ascii "w") := ⟨by decide, by decide⟩
  refine vectors_match_documents (lawful_platform ticking) (ascii "node") options
    ⟨⟨⟨hclean, trivial⟩, ?_⟩, ⟨⟨hclean, trivial⟩, ?_⟩, trivial⟩
  all_goals decide +kernel

/-- A record is written and compacted to a tombstone. -/
def compacted : Traced ℚ :=
  Runs.exec (Traced.next (platform ticking)) (Traced.initial (ascii "node") options)
    [.call (put (ascii "w") (ascii "a") (ascii "x")) applied,
      .call (.compact (ascii "w")) applied]

/-- The vector of a tombstone stays in its bucket. -/
theorem not_vectorsMatch_compacted : ¬ VectorsMatch (platform ticking) compacted := by
  intro h
  have hdead : (compacted.documents (ascii "w") (ascii "a")).map (·.tombstone) = some true := by
    decide
  have hnone := h.noCode (ascii "w") (ascii "a") ⟨by decide, by decide, by decide, by decide⟩
    (fun d hd => by rw [hd] at hdead; exact Option.some.inj hdead)
    (vectorBucket (platform ticking) (ascii "x"))
  exact absurd hnone (by decide +kernel)

end Examples

end PoorguyMem
