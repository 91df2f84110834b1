import PoorguyMem.Fidelity
import PoorguyMem.Lib.Histogram

/-!
# Metrics

The engine measures its calls: latencies fall into buckets, and the tokens of a write are
counted before and after the records it does not store are left out. A snapshot reports the
bound of a bucket as the 95th percentile of the latencies. Doubles are numbers of an ordered
field, and the counters count without a bound.
-/

namespace PoorguyMem

open ByteString Throwing

variable {K : Type}

/-! ### The counters -/

local instance atLeastTwo100 : Nat.AtLeastTwo 100 := ⟨by decide⟩

section Latencies
variable [Field K]

def kLatencyBucketUpperMs : List K :=
  [1 / 10, 1 / 5, 1 / 2, 1, 2, 5, 10, 20, 40, 80, 120, 200, 400, 800, 1600, 3200]

variable [LinearOrder K]

/-- `BucketIndex`: a negative latency is counted with the shortest. -/
def bucketIndex (ms : K) : Nat :=
  if ms < 0 then 0 else (kLatencyBucketUpperMs : List K).findIdx fun bound => ms ≤ bound

/-- `ComputeP95` over the counts of the buckets. -/
def computeP95 [FloorSemiring K] (hist : List Nat) : K :=
  let total := hist.sum
  if total = 0 then 0
  else
    (Histogram.firstReaching ⌈(total : K) * (95 / 100)⌉₊ 0 hist).elim 3200
      fun i => kLatencyBucketUpperMs.getD i 3200

end Latencies

structure Metrics where
  readLatHist : List Nat
  writeLatHist : List Nat
  tokenBefore : Nat
  tokenAfter : Nat
  fallbackTotal : Nat
  fallbackUsed : Nat

namespace Metrics

def new : Metrics := ⟨List.replicate 17 0, List.replicate 17 0, 0, 0, 0, 0⟩

def recordTokenReduction (metrics : Metrics) (beforeTokens afterTokens : Nat) : Metrics :=
  { metrics with
    tokenBefore := metrics.tokenBefore + beforeTokens
    tokenAfter := metrics.tokenAfter + afterTokens }

def recordFallback (metrics : Metrics) (usedFallback : Bool) : Metrics :=
  { metrics with
    fallbackTotal := metrics.fallbackTotal + 1
    fallbackUsed := metrics.fallbackUsed + if usedFallback then 1 else 0 }

variable [Field K] [LinearOrder K]

def recordReadLatency (metrics : Metrics) (ms : K) : Metrics :=
  { metrics with readLatHist := metrics.readLatHist.modify (bucketIndex ms) (· + 1) }

def recordWriteLatency (metrics : Metrics) (ms : K) : Metrics :=
  { metrics with writeLatHist := metrics.writeLatHist.modify (bucketIndex ms) (· + 1) }

def snapshot [FloorSemiring K] (metrics : Metrics) : MetricsSnapshot K where
  p95ReadMs := computeP95 metrics.readLatHist
  p95WriteMs := computeP95 metrics.writeLatHist
  tokenReductionRatio :=
    if 0 < metrics.tokenBefore ∧ metrics.tokenAfter ≤ metrics.tokenBefore then
      ((metrics.tokenBefore - metrics.tokenAfter : Nat) : K) / metrics.tokenBefore
    else 0
  fallbackRate :=
    if 0 < metrics.fallbackTotal then (metrics.fallbackUsed : K) / metrics.fallbackTotal else 0

end Metrics

/-! ### What a call records -/

section Recording
variable [Field K] [LinearOrder K]

def contentTokens (contents : List Bytes) : Nat := (contents.map estimateTokenCount).sum

/-- What the end of `Write` records, where the call comes to it. -/
def recordWrite (env : Platform K) (fate : Fate) (w : World K) (input : WriteInput K) (ms : K)
    (metrics : Metrics) : Metrics :=
  if input.workspaceId = [] ∨ input.records = [] then metrics
  else
    match writeDraft env w.engine input w.cursor with
    | (none, _) => metrics
    | (some draft, _) =>
      if draft.plan.writes = [] then metrics
      else if fate.main.ok then
        (metrics.recordTokenReduction (contentTokens (input.records.map (·.content)))
          (contentTokens (draft.plan.upserts.map (·.content)))).recordWriteLatency ms
      else metrics

def recordQuery (input : QueryInput K) (ms : K) (metrics : Metrics) : Metrics :=
  if input.workspaceId = [] then metrics
  else (metrics.recordFallback false).recordReadLatency ms

def recordCall (env : Platform K) (fate : Fate) (w : World K) (ms : K) (metrics : Metrics) :
    Call K → Metrics
  | .write input => recordWrite env fate w input ms metrics
  | .query input => recordQuery input ms metrics
  | _ => metrics

/-- A `Write` that came to its end: its inputs, those it stored, and the time it took. -/
structure WriteNote (K : Type) where
  inputs : List (WriteRecordInput K)
  stored : List (WriteRecordInput K)
  ms : K

/-- A running engine with its metrics, and the calls they are about: the times of its queries
and its completed writes, since it was started. -/
structure Observed (K : Type) where
  world : World K
  metrics : Metrics
  queries : List K
  writes : List (WriteNote K)

namespace Observed

def note (env : Platform K) (s : Observed K) (fate : Fate) (ms : K) : Call K → Observed K
  | .write input =>
    if ((prepare env fate s.world (.write input)).1).isSome ∧ fate.main.ok = true then
      { s with writes := s.writes ++ [⟨input.records, storedInputs s.world.engine input, ms⟩] }
    else s
  | .query input => if input.workspaceId = [] then s else { s with queries := s.queries ++ [ms] }
  | _ => s

/-- A step and the time it takes. A restart makes a new engine, with new metrics. -/
def next (env : Platform K) (s : Observed K) : Step K × K → Observed K
  | (.call call fate, ms) =>
    { s.note env fate ms call with
      world := PoorguyMem.next env s.world (.call call fate)
      metrics := recordCall env fate s.world ms s.metrics call }
  | (.restart interrupted nodeId options, _) =>
    ⟨PoorguyMem.next env s.world (.restart interrupted nodeId options), .new, [], []⟩

def initial (w : World K) : Observed K := ⟨w, .new, [], []⟩

end Observed

end Recording

/-! ### Percentiles -/

section Percentiles
variable [Field K] [LinearOrder K] [IsStrictOrderedRing K]

/-- The bound reported for some latencies: the least one that 95 of a hundred are within, or
the last where no bound is. -/
def IsP95 (xs : List K) (p : K) : Prop :=
  (xs = [] → p = 0) ∧ (xs ≠ [] → p ∈ (kLatencyBucketUpperMs : List K) ∧
    (95 * xs.length ≤ 100 * xs.countP (fun x => x ≤ p) ∨ p = 3200) ∧
    ∀ bound ∈ (kLatencyBucketUpperMs : List K), bound < p →
      100 * xs.countP (fun x => x ≤ bound) < 95 * xs.length)

theorem increasing_kLatencyBucketUpperMs :
    (kLatencyBucketUpperMs : List K).Pairwise (· < ·) := by
  simp only [kLatencyBucketUpperMs, List.pairwise_cons, List.mem_cons, List.not_mem_nil,
    or_false, forall_eq_or_imp, forall_eq, IsEmpty.forall_iff, implies_true, List.Pairwise.nil]
  norm_num

theorem bucketIndex_eq (ms : K) :
    bucketIndex ms = Histogram.bucket (kLatencyBucketUpperMs : List K) ms := by
  rw [bucketIndex]
  split
  · rename_i hneg
    have hfirst : ms ≤ 1 / 10 := hneg.le.trans (by norm_num)
    rw [Histogram.bucket, kLatencyBucketUpperMs, List.findIdx_cons, decide_eq_true hfirst]
    rfl
  · rfl

variable [FloorSemiring K]

theorem target_le_iff (n c : Nat) :
    ⌈(n : K) * (95 / 100)⌉₊ ≤ c ↔ 95 * n ≤ 100 * c := by
  have hcast : (95 * n ≤ 100 * c) ↔ (95 * n : K) ≤ 100 * c := by exact_mod_cast Iff.rfl
  rw [Nat.ceil_le, hcast, mul_div_assoc', div_le_iff₀ (by norm_num), mul_comm (n : K),
    mul_comm (c : K)]

theorem isP95_computeP95 (xs : List K) :
    IsP95 xs (computeP95 (Histogram.counts kLatencyBucketUpperMs xs)) := by
  refine ⟨?_, fun hne => ?_⟩
  · rintro rfl
    rw [computeP95, Histogram.sum_counts]
    rfl
  · have hpos : xs.length ≠ 0 := fun h => hne (List.eq_nil_of_length_eq_zero h)
    have htarget : ⌈(xs.length : K) * (95 / 100)⌉₊ ≤ xs.length :=
      (target_le_iff _ _).mpr (by omega)
    obtain ⟨k, hk, hle, hwithin, hbefore⟩ :=
      Histogram.firstReaching_counts increasing_kLatencyBucketUpperMs htarget
    have hlength : (kLatencyBucketUpperMs : List K).length = 16 := rfl
    have hcompute : computeP95 (Histogram.counts kLatencyBucketUpperMs xs) =
        (kLatencyBucketUpperMs : List K).getD k 3200 := by
      rw [computeP95, Histogram.sum_counts, if_neg hpos, hk, Option.elim_some]
    have hlast : (kLatencyBucketUpperMs : List K)[15] = 3200 := rfl
    have hless : ∀ bound ∈ (kLatencyBucketUpperMs : List K),
        bound < (kLatencyBucketUpperMs : List K).getD k 3200 →
          100 * xs.countP (fun x => x ≤ bound) < 95 * xs.length := by
      intro bound hmem hlt
      obtain ⟨j, hj, rfl⟩ := List.getElem_of_mem hmem
      have hjk : j < k := by
        by_contra hkj
        have hk16 : k < (kLatencyBucketUpperMs : List K).length := by omega
        rw [List.getD_eq_getElem _ _ hk16] at hlt
        rcases Nat.lt_or_eq_of_le (Nat.le_of_not_lt hkj) with hkj | rfl
        · exact absurd hlt (List.pairwise_iff_getElem.mp increasing_kLatencyBucketUpperMs
            _ _ hk16 hj hkj).not_gt
        · exact absurd hlt (lt_irrefl _)
      have hfew := mt (target_le_iff xs.length _).mpr (Nat.not_le_of_lt (hbefore j hj hjk))
      omega
    rw [hcompute]
    by_cases hk16 : k < (kLatencyBucketUpperMs : List K).length
    · have hmany := (target_le_iff _ _).mp (hwithin hk16)
      rw [List.getD_eq_getElem _ _ hk16] at hless ⊢
      exact ⟨List.getElem_mem hk16, Or.inl hmany, hless⟩
    · have hover : (kLatencyBucketUpperMs : List K).getD k 3200 = 3200 := by
        rw [List.getD_eq_getElem?_getD, List.getElem?_eq_none (by omega)]
        rfl
      rw [hover] at hless ⊢
      exact ⟨hlast ▸ List.getElem_mem (by omega), Or.inr rfl, hless⟩

end Percentiles

/-! ### Runs -/

section Runs
variable [Field K] [LinearOrder K]

/-- The counters are those of the calls. -/
structure Observed.Counted (s : Observed K) : Prop where
  reads : s.metrics.readLatHist =
    Histogram.counts (kLatencyBucketUpperMs : List K) s.queries
  writes : s.metrics.writeLatHist =
    Histogram.counts (kLatencyBucketUpperMs : List K) (s.writes.map (·.ms))
  before : s.metrics.tokenBefore =
    contentTokens ((s.writes.flatMap (·.inputs)).map (·.content))
  after : s.metrics.tokenAfter =
    contentTokens ((s.writes.flatMap (·.stored)).map (·.content))
  stored : ∀ note ∈ s.writes, note.stored.Sublist note.inputs
  fallback : s.metrics.fallbackUsed = 0

theorem contentTokens_append (xs ys : List Bytes) :
    contentTokens (xs ++ ys) = contentTokens xs + contentTokens ys := by
  simp [contentTokens]

theorem contentTokens_le {xs ys : List Bytes} (h : xs.Sublist ys) :
    contentTokens xs ≤ contentTokens ys :=
  (h.map _).sum_le_sum fun _ _ => Nat.zero_le _

omit [Field K] [LinearOrder K] in
theorem stored_sublist {notes : List (WriteNote K)}
    (h : ∀ note ∈ notes, note.stored.Sublist note.inputs) :
    (notes.flatMap (·.stored)).Sublist (notes.flatMap (·.inputs)) := by
  induction notes with
  | nil => exact List.Sublist.refl _
  | cons note notes ih =>
    rw [List.flatMap_cons, List.flatMap_cons]
    exact (h note List.mem_cons_self).append (ih fun n hn => h n (List.mem_cons_of_mem _ hn))

theorem counted_initial (w : World K) : (Observed.initial w).Counted where
  reads := rfl
  writes := rfl
  before := rfl
  after := rfl
  stored note h := by cases h
  fallback := rfl

/-- The records that a completed write puts have the contents of its stored inputs. -/
theorem contents_made {engine : MemoryEngine K} {input : WriteInput K} {nowMs : UInt64}
    {inputs : List (WriteRecordInput K)} {rs : List (MemoryRecord K)}
    (h : List.Forall₂ (MadeOf engine input nowMs) inputs rs) :
    rs.map (·.content) = inputs.map (·.content) := by
  induction h with
  | nil => rfl
  | cons hmade _ ih =>
    obtain ⟨id, pinned, -, -, rfl⟩ := hmade
    rw [List.map_cons, List.map_cons, ih]
    rfl

/-- The drafted records of a write have the contents of its stored inputs. -/
theorem contents_upserts {env : Platform K} (fate : Fate) {w : World K} {input : WriteInput K}
    {draft : WriteDraft K} {c : Cursor}
    (h : prepareWrite env w input = (some (.write input draft), c)) :
    draft.plan.upserts.map (·.content) = (storedInputs w.engine input).map (·.content) := by
  rcases prepareWrite_cases env w input with ⟨draft', c', hprep, -, hfresh⟩ | ⟨hnone, -⟩
  · obtain ⟨hrequest, -⟩ := Prod.mk.inj (h.symm.trans hprep)
    obtain ⟨-, rfl⟩ := Request.write.inj (Option.some.inj hrequest)
    have hsome : (prepare env fate w (.write input)).1 = some (.write input draft) := by
      rw [prepare, hprep]
    obtain ⟨rs, hchanges, hmade⟩ := prepare_write_stores hsome
    rw [Request.plan, Plan.changes, hfresh.removals, List.map_nil, List.append_nil] at hchanges
    have hupserts : draft.plan.upserts = rs :=
      List.map_injective_iff.mpr (fun _ _ heq => Change.put.inj heq) hchanges
    rw [hupserts, contents_made hmade]
  · rw [h] at hnone
    cases hnone

/-- A write records something where its batch is built and committed. -/
theorem recordWrite_eq (env : Platform K) (fate : Fate) (w : World K) (input : WriteInput K)
    (ms : K) (metrics : Metrics) : recordWrite env fate w input ms metrics =
      if ((prepare env fate w (.write input)).1).isSome ∧ fate.main.ok = true then
        (metrics.recordTokenReduction (contentTokens (input.records.map (·.content)))
          (contentTokens ((storedInputs w.engine input).map (·.content)))).recordWriteLatency ms
      else metrics := by
  rw [recordWrite, prepare]
  by_cases hvoid : input.workspaceId = [] ∨ input.records = []
  · rw [if_pos hvoid, prepareWrite, if_pos hvoid]
    exact (if_neg fun h => by simp at h).symm
  · rw [if_neg hvoid]
    rcases hrun : writeDraft env w.engine input w.cursor with ⟨_ | draft, c⟩
    · have hprep : prepareWrite env w input = (none, c) := by
        rw [prepareWrite, if_neg hvoid, hrun]
      rw [hprep]
      exact (if_neg fun h => by simp at h).symm
    · dsimp only
      by_cases hempty : draft.plan.writes = []
      · have hprep : prepareWrite env w input = (none, c) := by
          rw [prepareWrite, if_neg hvoid, hrun]
          exact congrArg (·, c) (if_pos hempty)
        rw [if_pos hempty, hprep]
        exact (if_neg fun h => by simp at h).symm
      · have hprep : prepareWrite env w input = (some (.write input draft), c) := by
          rw [prepareWrite, if_neg hvoid, hrun]
          exact congrArg (·, c) (if_neg hempty)
        rw [if_neg hempty, hprep, contents_upserts fate hprep]
        by_cases hok : fate.main.ok = true
        · rw [if_pos hok, if_pos ⟨rfl, hok⟩]
        · rw [if_neg hok, if_neg fun h => hok h.2]

variable [IsStrictOrderedRing K] {env : Platform K} {s : Observed K}

theorem Observed.Counted.call (h : s.Counted) (fate : Fate) (ms : K) (call : Call K) :
    (next env s (.call call fate, ms)).Counted := by
  cases call with
  | write input =>
    rw [next, note, recordCall, recordWrite_eq]
    split
    · refine ⟨h.reads, ?_, ?_, ?_, ?_, h.fallback⟩
      · change s.metrics.writeLatHist.modify (bucketIndex ms) (· + 1) = _
        rw [h.writes, bucketIndex_eq, List.map_append, List.map_cons, List.map_nil,
          Histogram.counts_append_singleton]
      · change s.metrics.tokenBefore + _ = _
        rw [h.before, List.flatMap_append, List.map_append, contentTokens_append]
        simp
      · change s.metrics.tokenAfter + _ = _
        rw [h.after, List.flatMap_append, List.map_append, contentTokens_append]
        simp
      · intro note hnote
        rcases List.mem_append.mp hnote with hold | hnew
        · exact h.stored note hold
        · rw [List.mem_singleton.mp hnew]
          exact List.filter_sublist
    · exact ⟨h.reads, h.writes, h.before, h.after, h.stored, h.fallback⟩
  | query input =>
    rw [next, note, recordCall, recordQuery]
    split
    · exact ⟨h.reads, h.writes, h.before, h.after, h.stored, h.fallback⟩
    · refine ⟨?_, h.writes, h.before, h.after, h.stored, h.fallback⟩
      change s.metrics.readLatHist.modify (bucketIndex ms) (· + 1) = _
      rw [h.reads, bucketIndex_eq, Histogram.counts_append_singleton]
  | pin => exact ⟨h.reads, h.writes, h.before, h.after, h.stored, h.fallback⟩
  | compact => exact ⟨h.reads, h.writes, h.before, h.after, h.stored, h.fallback⟩
  | gc => exact ⟨h.reads, h.writes, h.before, h.after, h.stored, h.fallback⟩

theorem Observed.Counted.next (h : s.Counted) (step : Step K × K) :
    (next env s step).Counted := by
  obtain ⟨step, ms⟩ := step
  cases step with
  | call call fate => exact h.call fate ms call
  | restart interrupted nodeId options => exact counted_initial _

end Runs

section Examples
open Reference

/-- Two queries are made, of three milliseconds and of half a second. -/
def timedQueries : List (Step ℚ × ℚ) :=
  [(.call (.query question) applied, 3), (.call (.query question) applied, 500)]

theorem queries_timedQueries : (Runs.exec (Observed.next (platform ticking))
    (Observed.initial (World.initial (ascii "node") options)) timedQueries).queries =
      [3, 500] :=
  rfl

end Examples

end PoorguyMem
