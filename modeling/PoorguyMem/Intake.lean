import PoorguyMem.Documents

/-!
# What a write stores

Which records of its input a `Write` stores depends on the input, on the options
and on the dedup index before the call, and not on the clock: an id that the
engine draws has a fixed length. The records of the batch are made from the
stored inputs in their order.
-/

namespace PoorguyMem

open ByteString Throwing

variable {K : Type} [Field K] [LinearOrder K]

section Related
variable {α β : Type} {R : α → β → Prop} {xs : List α} {ys : List β}

theorem exists_right_of_forall₂ (h : List.Forall₂ R xs ys) {x : α} (hmem : x ∈ xs) :
    ∃ y ∈ ys, R x y := by
  induction h with
  | nil => cases hmem
  | cons hhead _ ih =>
    rcases List.mem_cons.mp hmem with rfl | hmem
    · exact ⟨_, List.mem_cons_self, hhead⟩
    · obtain ⟨y, hy, hrel⟩ := ih hmem
      exact ⟨y, List.mem_cons_of_mem _ hy, hrel⟩

theorem exists_left_of_forall₂ (h : List.Forall₂ R xs ys) {y : β} (hmem : y ∈ ys) :
    ∃ x ∈ xs, R x y :=
  exists_right_of_forall₂ h.flip hmem

end Related

/-- The length of the id a record gets: 43 for a drawn one. -/
def inputIdLength (recIn : WriteRecordInput K) : Nat :=
  if recIn.recordId = [] then 43 else recIn.recordId.length

def inputSize (engine : MemoryEngine K) (input : WriteInput K) (recIn : WriteRecordInput K) : Nat :=
  (newRecord engine input recIn 0 (List.replicate (inputIdLength recIn) 0) false).sizeBytes

/-- The record is not empty, not suppressed and not oversized. -/
def isStored (engine : MemoryEngine K) (input : WriteInput K) (recIn : WriteRecordInput K) : Bool :=
  recIn.content ≠ [] && (suppressedBy engine input recIn).isNone &&
    decide (inputSize engine input recIn ≤ engine.options.maxRecordBytes)

def storedInputs (engine : MemoryEngine K) (input : WriteInput K) : List (WriteRecordInput K) :=
  input.records.filter (isStored engine input)

/-- The id that holds the key of a record which is not empty. -/
def dedupedBy (engine : MemoryEngine K) (input : WriteInput K) (recIn : WriteRecordInput K) :
    Option Bytes :=
  if recIn.content = [] then none else suppressedBy engine input recIn

/-- The record a `Write` makes of an input it stores. -/
def MadeOf (engine : MemoryEngine K) (input : WriteInput K) (nowMs : UInt64)
    (recIn : WriteRecordInput K) (r : MemoryRecord K) : Prop :=
  ∃ id pinned, id ≠ [] ∧ (recIn.recordId ≠ [] → id = recIn.recordId) ∧
    r = newRecord engine input recIn nowMs id pinned

variable {env : Platform K} {w : World K}

theorem sizeBytes_newRecord (engine : MemoryEngine K) (input : WriteInput K)
    (recIn : WriteRecordInput K) (nowMs : UInt64) {id : Bytes} (pinned : Bool)
    (hid : id.length = inputIdLength recIn) :
    (newRecord engine input recIn nowMs id pinned).sizeBytes = inputSize engine input recIn := by
  simp only [inputSize, newRecord, computeRecordSizeBytes, recordTextBytes, hid,
    List.length_replicate]

omit [Field K] [LinearOrder K] in
theorem holds_inputRecordId (recIn : WriteRecordInput K) (c : Cursor) :
    Holds (inputRecordId env recIn) c
      (fun id _ => id ≠ [] ∧ (recIn.recordId ≠ [] → id = recIn.recordId) ∧
        id.length = inputIdLength recIn)
      (fun _ => True) := by
  rw [inputRecordId, inputIdLength]
  split
  · rename_i hnone
    refine holds_bind (holds_advance (holds_bind (holds_advance (holds_pure ⟨?_, ?_, ?_⟩))))
    · simp [ascii]
    · exact fun h => absurd hnone h
    · have hprefix : (ascii "m-").length = 2 := by decide
      have hdash : (ascii "-").length = 1 := by decide
      simp only [List.length_append, length_zeroPadUint64, hprefix, hdash]
  · rename_i hsome
    exact holds_pure ⟨hsome, fun _ => rfl, rfl⟩

/-- The invariant of the loop of `Write`: of the inputs passed, the stored ones are in
the plan and the suppressed ones are reported, in order. -/
structure Taken (env : Platform K) (w : World K) (input : WriteInput K)
    (passed : List (WriteRecordInput K)) (draft : WriteDraft K) : Prop where
  removals : draft.plan.removals = []
  nowMs : draft.nowMs = env.clock w.tick
  made : List.Forall₂ (MadeOf w.engine input (env.clock w.tick))
    (passed.filter (isStored w.engine input)) draft.plan.upserts
  deduped : draft.dedupedIds = passed.filterMap (dedupedBy w.engine input)

theorem Taken.skip {input : WriteInput K} {passed : List (WriteRecordInput K)}
    {draft draft' : WriteDraft K} (h : Taken env w input passed draft)
    {recIn : WriteRecordInput K} (hskip : isStored w.engine input recIn = false)
    (hplan : draft'.plan = draft.plan) (hnow : draft'.nowMs = draft.nowMs)
    (hids : draft'.dedupedIds = draft.dedupedIds ++ (dedupedBy w.engine input recIn).toList) :
    Taken env w input (passed ++ [recIn]) draft' where
  removals := hplan ▸ h.removals
  nowMs := hnow.trans h.nowMs
  made := by
    have hfilter : (passed ++ [recIn]).filter (isStored w.engine input) =
        passed.filter (isStored w.engine input) := by
      simp [List.filter_append, hskip]
    rw [hfilter, hplan]
    exact h.made
  deduped := by
    rw [hids, h.deduped, List.filterMap_append]
    cases hby : dedupedBy w.engine input recIn <;> simp [hby]

/-- The loop of `Write` stores exactly the stored inputs, in order. -/
theorem holds_writeDraft_stores (env : Platform K) (w : World K) (input : WriteInput K) :
    Holds (writeDraft env w.engine input) w.cursor
      (fun draft _ => Taken env w input input.records draft) (fun _ => True) := by
  refine holds_bind (holds_advance (holds_foldlM_passed
    (I := fun passed draft _ => Taken env w input passed draft) ?_ ⟨rfl, rfl, .nil, rfl⟩))
  rintro passed recIn rest draft c - h
  rw [writeRecord]
  split
  · rename_i hcontent
    exact holds_pure (h.skip (by simp [isStored, hcontent]) rfl rfl
      (by simp [dedupedBy, hcontent, WriteDraft.warn]))
  · rename_i hcontent
    split
    · rename_i id hsup
      exact holds_pure (h.skip (by simp [isStored, hsup]) rfl rfl
        (by simp [dedupedBy, hcontent, hsup]))
    · rename_i hfresh
      refine holds_bind ((holds_inputRecordId recIn c).mono ?_ fun _ _ => trivial)
      rintro id c₁ ⟨hne, hgiven, hlength⟩
      obtain ⟨hplan, hnow, hids⟩ := governPin_plan w.engine.options draft recIn.pin id
      generalize governPin w.engine.options draft recIn.pin id = governed at hplan hnow hids
      obtain ⟨pinned, governed⟩ := governed
      dsimp only at hplan hnow hids ⊢
      have hnone : dedupedBy w.engine input recIn = none := by
        rw [dedupedBy, if_neg hcontent, hfresh]
      have hsize := sizeBytes_newRecord w.engine input recIn governed.nowMs pinned hlength
      split
      · rename_i hover
        rw [hsize] at hover
        refine holds_pure (h.skip (by simp [isStored, hover]) hplan hnow ?_)
        rw [hnone]
        simpa [WriteDraft.warn] using hids
      · rename_i hfits
        rw [hsize] at hfits
        refine holds_bind ((holds_any _ _).mono (fun rows c₂ _ => ?_) fun _ _ => trivial)
        refine holds_bind ((holds_any _ _).mono (fun event c₃ _ => ?_) fun _ _ => trivial)
        have hkeep : isStored w.engine input recIn = true := by
          simp [isStored, hcontent, hfresh, Nat.le_of_not_lt hfits]
        have hfilter : (passed ++ [recIn]).filter (isStored w.engine input) =
            passed.filter (isStored w.engine input) ++ [recIn] := by
          simp [List.filter_append, hkeep]
        refine holds_pure ⟨hplan ▸ h.removals, hnow.trans h.nowMs, ?_, ?_⟩
        · rw [hfilter]
          refine List.rel_append (hplan ▸ h.made) (.cons ⟨id, pinned, hne, hgiven, ?_⟩ .nil)
          rw [hnow.trans h.nowMs]
        · rw [List.filterMap_append, ← h.deduped]
          simpa [hnone] using hids

/-- The changes of a `Write` are the records made of its stored inputs. -/
theorem prepare_write_stores {fate : Fate} {input : WriteInput K} {request : Request K}
    (hsome : (prepare env fate w (.write input)).1 = some request) :
    ∃ rs, request.plan.changes = rs.map .put ∧
      List.Forall₂ (MadeOf w.engine input (env.clock w.tick)) (storedInputs w.engine input) rs := by
  simp only [prepare, prepareWrite] at hsome
  split at hsome
  · cases hsome
  · have hdraft := holds_writeDraft_stores env w input
    split at hsome
    · rename_i draft c hrun
      have htaken := hdraft.returned draft c hrun
      dsimp only at hsome
      split at hsome
      · cases hsome
      · obtain rfl := Option.some.inj hsome
        refine ⟨draft.plan.upserts, ?_, htaken.made⟩
        rw [Request.plan, Plan.changes, htaken.removals, List.map_nil, List.append_nil]
    · cases hsome

/-- The ids a `Write` reports as deduplicated are those of its suppressed inputs. -/
theorem write_deduped {fate : Fate} {input : WriteInput K} {output : WriteOutput}
    (hout : (write env fate w input).2 = some output) :
    output.dedupedIds = [] ∨
      output.dedupedIds = input.records.filterMap (dedupedBy w.engine input) := by
  rw [write] at hout
  split at hout
  · obtain rfl := Option.some.inj hout
    exact Or.inl rfl
  · split at hout
    · obtain rfl := Option.some.inj hout
      exact Or.inl rfl
    · have hdraft := holds_writeDraft_stores env w input
      split at hout
      · cases hout
      · rename_i draft c hrun
        right
        rw [← (hdraft.returned draft c hrun).deduped]
        dsimp only at hout
        split at hout
        · obtain rfl := Option.some.inj hout
          rfl
        · split at hout
          · obtain rfl := Option.some.inj hout
            rfl
          · obtain rfl := Option.some.inj hout
            rfl

end PoorguyMem
