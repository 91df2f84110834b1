import PoorguyMem.Statistics
import PoorguyMem.Lib.Runs

/-!
# Documents and vectors under concurrent calls

`Index` and `Remove` change the snapshot under the retriever's lock and the vector index
after they have left it. So the vector writes of two calls for one name can come in the
other order than their snapshot writes, and then a vector stays that is not the one of the
document, or one stays without a document.
-/

namespace PoorguyMem

open ByteString HybridRetriever

variable {K : Type}

/-! ### Atomic steps -/

/-- What a call does to the vector index after it has left the lock. -/
inductive VectorWrite (K : Type) where
  | upsert (workspaceId memoryId : Bytes) (vector : List K)
  | remove (workspaceId memoryId : Bytes)

/-- The retriever, and what the calls in flight still have to write. -/
structure SharedRetriever (K : Type) where
  retriever : HybridRetriever K
  owed : List (VectorWrite K)

def SharedRetriever.empty : SharedRetriever K := ⟨HybridRetriever.empty, []⟩

/-- `locked` is the part of a call under the lock, and `vector i` the vector write of a call
in flight. -/
inductive RetrieverStep (K : Type) where
  | locked (call : RetrieverCall K)
  | vector (i : Nat)

/-- The locked part of `Remove`. Where there is no document, it removes the vector before it
leaves the lock and returns. -/
def SharedRetriever.lockedRemove (s : SharedRetriever K) (workspaceId memoryId : Bytes) :
    SharedRetriever K :=
  match s.retriever.docAt workspaceId memoryId with
  | none =>
    { s with retriever :=
        { s.retriever with vectorIndex := s.retriever.vectorIndex.remove workspaceId memoryId } }
  | some _ =>
    { retriever :=
        { s.retriever with
          snapshots := removeFromSnapshot s.retriever.snapshots workspaceId memoryId }
      owed := s.owed ++ [.remove workspaceId memoryId] }

section Steps
variable [Field K] [LinearOrder K]

def VectorWrite.apply (ix : VectorIndex K) : VectorWrite K → VectorIndex K
  | .upsert workspaceId memoryId vector => ix.upsert workspaceId memoryId vector
  | .remove workspaceId memoryId => ix.remove workspaceId memoryId

def SharedRetriever.next (env : Platform K) (s : SharedRetriever K) :
    RetrieverStep K → SharedRetriever K
  | .locked (.index record) =>
    if record.tombstone then s.lockedRemove record.workspaceId record.id
    else
      let doc := indexedDoc env record
      { retriever :=
          { s.retriever with
            snapshots := s.retriever.snapshots.insert record.workspaceId
              (insertDoc s.retriever.snapshots[record.workspaceId]? doc) }
        owed := s.owed ++ [.upsert record.workspaceId record.id doc.embedding] }
  | .locked (.remove workspaceId memoryId) => s.lockedRemove workspaceId memoryId
  | .vector i =>
    match s.owed[i]? with
    | none => s
    | some write =>
      { retriever :=
          { s.retriever with vectorIndex := write.apply s.retriever.vectorIndex }
        owed := s.owed.eraseIdx i }

omit [Field K] [LinearOrder K] in
theorem removeFromSnapshot_of_none {ret : HybridRetriever K} {workspaceId memoryId : Bytes}
    (h : ret.docAt workspaceId memoryId = none) :
    removeFromSnapshot ret.snapshots workspaceId memoryId = ret.snapshots := by
  rw [HybridRetriever.docAt] at h
  rw [removeFromSnapshot]
  cases hs : ret.snapshots[workspaceId]? with
  | none => rfl
  | some snapshot =>
    rw [hs, Option.bind_some] at h
    dsimp only
    rw [h]

theorem remove_alone (env : Platform K) (ret : HybridRetriever K) (workspaceId memoryId : Bytes) :
    (Runs.exec (SharedRetriever.next env) ⟨ret, []⟩
      [.locked (.remove workspaceId memoryId), .vector 0]).retriever =
        ret.remove workspaceId memoryId := by
  rw [Runs.exec_cons, SharedRetriever.next, SharedRetriever.lockedRemove, HybridRetriever.remove]
  cases hdoc : ret.docAt workspaceId memoryId with
  | some doc => rfl
  | none =>
    rw [removeFromSnapshot_of_none hdoc]
    rfl

/-- A call that is alone does what the call as a whole does. -/
theorem index_alone (env : Platform K) (ret : HybridRetriever K) (record : MemoryRecord K) :
    (Runs.exec (SharedRetriever.next env) ⟨ret, []⟩
      [.locked (.index record), .vector 0]).retriever = ret.index env record := by
  cases hdead : record.tombstone with
  | true =>
    rw [HybridRetriever.index, hdead, if_pos rfl, ← remove_alone env, Runs.exec_cons,
      Runs.exec_cons, SharedRetriever.next, if_pos hdead]
    rfl
  | false =>
    rw [HybridRetriever.index, hdead, if_neg Bool.false_ne_true, Runs.exec_cons,
      SharedRetriever.next, hdead, if_neg Bool.false_ne_true]
    rfl

/-- The entry of the vector index for an embedding. -/
def entryOf (vector : List K) : VectorEntry K := ⟨vector, bucketForVector vector⟩

/-- Every document has the vector of its content, and there is no other vector. -/
def PairedVectors (env : Platform K) (ret : HybridRetriever K) : Prop :=
  ∀ workspaceId memoryId, ret.vectorAt workspaceId memoryId =
    (ret.docAt workspaceId memoryId).map fun doc =>
      entryOf (embed env doc.record.content embeddingDim)

/-! ### Writes for a name -/

/-- A name and the embedding that is written for it, or nothing where it is removed. -/
abbrev NameWrite (K : Type) := (Bytes × Bytes) × Option (List K)

/-- What a call writes. -/
def RetrieverCall.write (env : Platform K) : RetrieverCall K → NameWrite K
  | .index record => ((record.workspaceId, record.id),
      if record.tombstone then none else some (embed env record.content embeddingDim))
  | .remove workspaceId memoryId => ((workspaceId, memoryId), none)

omit [Field K] [LinearOrder K] in
def VectorWrite.write : VectorWrite K → NameWrite K
  | .upsert workspaceId memoryId vector => ((workspaceId, memoryId), some vector)
  | .remove workspaceId memoryId => ((workspaceId, memoryId), none)

/-- What a step writes to the snapshots. -/
def snapshotWrite (env : Platform K) : RetrieverStep K → Option (NameWrite K)
  | .locked call => some (call.write env)
  | .vector _ => none

/-- What a step writes to the vector index. -/
def vectorWrite (env : Platform K) (s : SharedRetriever K) :
    RetrieverStep K → Option (NameWrite K)
  | .locked call =>
    let write := call.write env
    if write.2 = none ∧ s.retriever.docAt write.1.1 write.1.2 = none then some write else none
  | .vector i => s.owed[i]?.map VectorWrite.write

def snapshotTrace (env : Platform K) (steps : List (RetrieverStep K)) : List (NameWrite K) :=
  steps.filterMap (snapshotWrite env)

def vectorTrace (env : Platform K) : SharedRetriever K → List (RetrieverStep K) → List (NameWrite K)
  | _, [] => []
  | s, step :: steps => (vectorWrite env s step).toList ++ vectorTrace env (s.next env step) steps

omit [Field K] [LinearOrder K] in
/-- What the last write for a name leaves, after `first`. -/
def lastWrite (name : Bytes × Bytes) (first : Option (List K))
    (writes : List (NameWrite K)) : Option (List K) :=
  writes.foldl (fun last write => if write.1 = name then write.2 else last) first

/-- For every name the call that is the last to write the snapshot and the one that is the last
to write the vector leave the same. -/
def InOrder (env : Platform K) (steps : List (RetrieverStep K)) : Prop :=
  ∀ name, lastWrite name none (vectorTrace env SharedRetriever.empty steps) =
    lastWrite name none (snapshotTrace env steps)

/-! ### What a step leaves for a name -/

variable {env : Platform K} {s : SharedRetriever K}

/-- The embedding of the content of a document. -/
def docEmbedding (env : Platform K) (ret : HybridRetriever K) (name : Bytes × Bytes) :
    Option (List K) :=
  (ret.docAt name.1 name.2).map fun doc => embed env doc.record.content embeddingDim

theorem docEmbedding_lockedRemove (workspaceId memoryId : Bytes) (name : Bytes × Bytes) :
    docEmbedding env (s.lockedRemove workspaceId memoryId).retriever name =
      if (workspaceId, memoryId) = name then none else docEmbedding env s.retriever name := by
  obtain ⟨v, x⟩ := name
  rw [SharedRetriever.lockedRemove]
  cases hdoc : s.retriever.docAt workspaceId memoryId with
  | none =>
    change docEmbedding env s.retriever (v, x) = _
    split
    · rename_i hname
      cases hname
      rw [docEmbedding, hdoc]
      rfl
    · rfl
  | some doc =>
    change ((s.retriever.remove workspaceId memoryId).docAt v x).map _ = _
    rw [docAt_remove]
    simp only [Prod.mk.injEq]
    split <;> rfl

/-- A step changes the document of the name that it writes. -/
theorem docEmbedding_next (step : RetrieverStep K) (name : Bytes × Bytes) :
    docEmbedding env (s.next env step).retriever name =
      lastWrite name (docEmbedding env s.retriever name) (snapshotWrite env step).toList := by
  obtain ⟨v, x⟩ := name
  cases step with
  | vector i =>
    rw [SharedRetriever.next]
    cases s.owed[i]? <;> rfl
  | locked call =>
    cases call with
    | remove workspaceId memoryId => exact docEmbedding_lockedRemove workspaceId memoryId (v, x)
    | index record =>
      rw [SharedRetriever.next]
      cases hdead : record.tombstone with
      | true =>
        rw [if_pos rfl, docEmbedding_lockedRemove]
        simp [lastWrite, snapshotWrite, RetrieverCall.write, hdead]
      | false =>
        have hindex := docAt_index env s.retriever record v x
        rw [HybridRetriever.index, hdead, if_neg Bool.false_ne_true] at hindex
        rw [if_neg Bool.false_ne_true]
        change (HybridRetriever.docAt _ v x).map _ = _
        refine (congrArg _ hindex).trans ?_
        rw [if_neg Bool.false_ne_true]
        simp only [lastWrite, snapshotWrite, RetrieverCall.write, hdead, Option.toList_some,
          List.foldl_cons, List.foldl_nil, Prod.mk.injEq, Bool.false_eq_true, if_false]
        split <;> rfl

theorem vectorAt_upsert (ix : VectorIndex K) (snapshots : StringMap (WorkspaceSnapshot K))
    (w id : Bytes) (vector : List K) (v x : Bytes) :
    HybridRetriever.vectorAt ⟨snapshots, ix.upsert w id vector⟩ v x =
      if w = v ∧ id = x then some (entryOf vector) else HybridRetriever.vectorAt ⟨snapshots, ix⟩ v x := by
  simp only [vectorAt, VectorIndex.upsert]
  by_cases hw : w = v
  · subst hw
    rw [lookup_insert, if_pos rfl, Option.bind_some, lookup_insert]
    by_cases hid : id = x
    · rw [if_pos hid, if_pos ⟨rfl, hid⟩]
      rfl
    · rw [if_neg hid, if_neg fun h => hid h.2]
      cases ix[w]? <;> simp
  · rw [lookup_insert_ne _ hw, if_neg fun h => hw h.1]

theorem vectorAt_write (write : VectorWrite K) (ret : HybridRetriever K) (v x : Bytes) :
    HybridRetriever.vectorAt { ret with vectorIndex := write.apply ret.vectorIndex } v x =
      if write.write.1 = (v, x) then write.write.2.map entryOf else ret.vectorAt v x := by
  cases write with
  | upsert w id vector =>
    rw [VectorWrite.apply, vectorAt_upsert]
    simp only [VectorWrite.write, Prod.mk.injEq, Option.map_some]
  | remove w id =>
    refine (vectorAt_remove ret w id v x).trans ?_
    simp only [VectorWrite.write, Prod.mk.injEq, Option.map_none]

omit [Field K] [LinearOrder K] in
theorem vectorAt_lockedRemove (workspaceId memoryId v x : Bytes) :
    (s.lockedRemove workspaceId memoryId).retriever.vectorAt v x =
      if s.retriever.docAt workspaceId memoryId = none ∧ (workspaceId, memoryId) = (v, x) then none
      else s.retriever.vectorAt v x := by
  rw [SharedRetriever.lockedRemove]
  cases hdoc : s.retriever.docAt workspaceId memoryId with
  | none =>
    refine (vectorAt_remove s.retriever workspaceId memoryId v x).trans ?_
    simp only [Prod.mk.injEq, true_and]
  | some doc =>
    rw [if_neg fun h => by cases h.1]
    rfl

/-- A removal under the lock writes nothing, or removes the vector at once. -/
theorem vectorAt_locked_of_none {call : RetrieverCall K} {last : Option (List K)} {v x : Bytes}
    (hwrite : (call.write env).2 = none)
    (hnext : s.next env (.locked call) = s.lockedRemove (call.write env).1.1 (call.write env).1.2)
    (h : s.retriever.vectorAt v x = last.map entryOf) :
    (s.next env (.locked call)).retriever.vectorAt v x =
      (lastWrite (v, x) last (vectorWrite env s (.locked call)).toList).map entryOf := by
  rw [hnext, vectorAt_lockedRemove, vectorWrite]
  simp only [hwrite, true_and]
  cases hdoc : s.retriever.docAt (call.write env).1.1 (call.write env).1.2 with
  | some doc =>
    simp only [reduceCtorEq, false_and, if_false]
    exact h
  | none =>
    simp only [true_and, if_true, Option.toList_some, lastWrite, List.foldl_cons, List.foldl_nil,
      Prod.mk.eta, hwrite]
    split
    · rfl
    · exact h

/-- A step changes the vector of the name that it writes. -/
theorem vectorAt_next (step : RetrieverStep K) {last : Option (List K)} {v x : Bytes}
    (h : s.retriever.vectorAt v x = last.map entryOf) :
    (s.next env step).retriever.vectorAt v x =
      (lastWrite (v, x) last (vectorWrite env s step).toList).map entryOf := by
  cases step with
  | vector i =>
    rw [SharedRetriever.next, vectorWrite]
    cases s.owed[i]? with
    | none => exact h
    | some write =>
      refine (vectorAt_write write s.retriever v x).trans ?_
      simp only [Option.map_some, Option.toList_some, lastWrite, List.foldl_cons, List.foldl_nil]
      split
      · rfl
      · exact h
  | locked call =>
    cases call with
    | remove workspaceId memoryId => exact vectorAt_locked_of_none rfl rfl h
    | index record =>
      cases hdead : record.tombstone with
      | true =>
        apply vectorAt_locked_of_none _ _ h
        · simp [RetrieverCall.write, hdead]
        · rw [SharedRetriever.next, if_pos hdead]
          rfl
      | false =>
        have hnone : vectorWrite env s (.locked (.index record)) = none := by
          simp [vectorWrite, RetrieverCall.write, hdead]
        rw [hnone, SharedRetriever.next, hdead, if_neg Bool.false_ne_true]
        exact h

/-! ### Runs -/

/-- The documents and the vectors after a run are what the last writes leave. -/
theorem lookups_exec (steps : List (RetrieverStep K)) {last : Option (List K)} {v x : Bytes}
    (h : s.retriever.vectorAt v x = last.map entryOf) :
    docEmbedding env (Runs.exec (SharedRetriever.next env) s steps).retriever (v, x) =
        lastWrite (v, x) (docEmbedding env s.retriever (v, x)) (snapshotTrace env steps) ∧
      (Runs.exec (SharedRetriever.next env) s steps).retriever.vectorAt v x =
        (lastWrite (v, x) last (vectorTrace env s steps)).map entryOf := by
  induction steps generalizing s last with
  | nil => exact ⟨rfl, h⟩
  | cons step steps ih =>
    obtain ⟨hdoc, hvector⟩ := ih (@vectorAt_next _ _ _ env _ step _ _ _ h)
    have htrace : snapshotTrace env (step :: steps) =
        (snapshotWrite env step).toList ++ snapshotTrace env steps := by
      rw [snapshotTrace, List.filterMap_cons]
      cases snapshotWrite env step <;> rfl
    rw [Runs.exec_cons, hdoc, hvector, docEmbedding_next, htrace, vectorTrace]
    constructor
    · rw [lastWrite, lastWrite, lastWrite, List.foldl_append]
    · rw [lastWrite, lastWrite, lastWrite, List.foldl_append]

omit [LinearOrder K] in
theorem entryOf_injective [LinearOrder K] {a b : Option (List K)}
    (h : a.map entryOf = b.map entryOf) : a = b :=
  Option.map_injective (fun _ _ hab => congrArg VectorEntry.vector hab) h

/-- In every interleaving documents and vectors are paired if and only if, for every name, the
last write of the snapshot and the last one of the vector leave the same. -/
theorem pairedVectors_iff_inOrder (env : Platform K) (steps : List (RetrieverStep K)) :
    PairedVectors env (Runs.exec (SharedRetriever.next env) SharedRetriever.empty steps).retriever ↔
      InOrder env steps := by
  have hlookups : ∀ v x, _ := fun v x =>
    @lookups_exec _ _ _ env SharedRetriever.empty steps none v x
      (by simp [SharedRetriever.empty, HybridRetriever.vectorAt, HybridRetriever.empty])
  have hempty : ∀ name, docEmbedding env (SharedRetriever.empty : SharedRetriever K).retriever name =
      none := by
    intro name
    simp [docEmbedding, SharedRetriever.empty, HybridRetriever.docAt, HybridRetriever.empty]
  have hpaired : ∀ (ret : HybridRetriever K) (v x : Bytes), (ret.docAt v x).map (fun doc =>
      entryOf (embed env doc.record.content embeddingDim)) =
        (docEmbedding env ret (v, x)).map entryOf := by
    intro ret v x
    rw [docEmbedding, Option.map_map]
    rfl
  constructor
  · rintro h ⟨v, x⟩
    obtain ⟨hdoc, hvector⟩ := hlookups v x
    have hname := h v x
    rw [hpaired, hvector, hdoc, hempty] at hname
    exact entryOf_injective hname
  · intro h v x
    obtain ⟨hdoc, hvector⟩ := hlookups v x
    rw [hpaired, hvector, hdoc, hempty, h (v, x)]

/-! ### Calls that do not overlap -/

/-- No call takes the lock while another one for the same name is in flight. -/
def Separate (env : Platform K) (s : SharedRetriever K) : RetrieverStep K → Prop
  | .locked call => (call.write env).1 ∉ s.owed.map (·.write.1)
  | .vector _ => True

/-- The names in flight have one call each, which will write the vector of the document; all
others have theirs. -/
structure Settling (env : Platform K) (s : SharedRetriever K) : Prop where
  names : (s.owed.map (·.write.1)).Nodup
  owed : ∀ write ∈ s.owed, write.write.2 = docEmbedding env s.retriever write.write.1
  settled : ∀ v x, (v, x) ∉ s.owed.map (·.write.1) →
    s.retriever.vectorAt v x = (docEmbedding env s.retriever (v, x)).map entryOf

theorem settling_empty : Settling env (SharedRetriever.empty : SharedRetriever K) where
  names := List.nodup_nil
  owed _ h := by cases h
  settled v x _ := by
    simp [docEmbedding, SharedRetriever.empty, HybridRetriever.vectorAt, HybridRetriever.docAt,
      HybridRetriever.empty]

/-- What a locked step leaves to be written. -/
theorem owed_locked (call : RetrieverCall K) :
    (∃ write : VectorWrite K, write.write = call.write env ∧
      (s.next env (.locked call)).owed = s.owed ++ [write] ∧
      vectorWrite env s (.locked call) = none) ∨
    (s.next env (.locked call)).owed = s.owed ∧
      vectorWrite env s (.locked call) = some (call.write env) := by
  have hremove : ∀ w id : Bytes, call.write env = ((w, id), none) →
      s.next env (.locked call) = s.lockedRemove w id →
      (∃ write : VectorWrite K, write.write = call.write env ∧
        (s.next env (.locked call)).owed = s.owed ++ [write] ∧
        vectorWrite env s (.locked call) = none) ∨
      (s.next env (.locked call)).owed = s.owed ∧
        vectorWrite env s (.locked call) = some (call.write env) := by
    intro w id hwrite hnext
    rw [hnext, vectorWrite, hwrite]
    cases hdoc : s.retriever.docAt w id with
    | none =>
      right
      rw [SharedRetriever.lockedRemove, hdoc]
      simp
    | some doc =>
      left
      refine ⟨.remove w id, rfl, ?_⟩
      rw [SharedRetriever.lockedRemove, hdoc]
      simp
  cases call with
  | remove w id => exact hremove w id rfl rfl
  | index record =>
    cases hdead : record.tombstone with
    | true =>
      apply hremove record.workspaceId record.id
      · simp [RetrieverCall.write, hdead]
      · rw [SharedRetriever.next, if_pos hdead]
    | false =>
      left
      refine ⟨.upsert record.workspaceId record.id (embed env record.content embeddingDim), ?_, ?_, ?_⟩
      · simp [RetrieverCall.write, VectorWrite.write, hdead]
      · rw [SharedRetriever.next, hdead, if_neg Bool.false_ne_true]
        rfl
      · simp [vectorWrite, RetrieverCall.write, hdead]

theorem Settling.locked (h : Settling env s) {call : RetrieverCall K}
    (hseparate : Separate env s (.locked call)) : Settling env (s.next env (.locked call)) := by
  have hdoc : ∀ name, docEmbedding env (s.next env (.locked call)).retriever name =
      if (call.write env).1 = name then (call.write env).2
      else docEmbedding env s.retriever name := docEmbedding_next (.locked call)
  have hkept : ∀ write ∈ s.owed,
      write.write.2 = docEmbedding env (s.next env (.locked call)).retriever write.write.1 := by
    intro write hwrite
    have hne : (call.write env).1 ≠ write.write.1 := by
      intro heq
      exact hseparate (heq.symm ▸ List.mem_map_of_mem hwrite)
    rw [hdoc, if_neg hne]
    exact h.owed write hwrite
  rcases @owed_locked _ _ _ env s call with ⟨write, hwrite, howed, hvector⟩ |
    ⟨howed, hvector⟩
  · constructor
    · rw [howed, List.map_append, List.map_singleton, hwrite]
      exact List.nodup_append.mpr ⟨h.names, List.nodup_singleton _, fun a ha b hb => by
        rw [List.mem_singleton.mp hb]
        exact fun heq => hseparate (heq ▸ ha)⟩
    · intro other hother
      rw [howed] at hother
      rcases List.mem_append.mp hother with hother | hother
      · exact hkept other hother
      · rw [List.mem_singleton.mp hother, hdoc, hwrite, if_pos rfl]
    · intro v x hname
      rw [howed, List.map_append, List.map_singleton, hwrite, List.mem_append,
        List.mem_singleton, not_or] at hname
      rw [vectorAt_next (.locked call) (h.settled v x hname.1), hvector, hdoc,
        if_neg fun heq => hname.2 heq.symm]
      rfl
  · constructor
    · rw [howed]
      exact h.names
    · rw [howed]
      exact hkept
    · intro v x hname
      rw [howed] at hname
      rw [vectorAt_next (.locked call) (h.settled v x hname), hvector, hdoc]
      rfl

theorem Settling.vector (h : Settling env s) (i : Nat) :
    Settling env (s.next env (.vector i)) := by
  rw [SharedRetriever.next]
  cases hi : s.owed[i]? with
  | none => exact h
  | some write =>
    obtain ⟨hlt, hget⟩ := List.getElem?_eq_some_iff.mp hi
    have hperm : (write :: s.owed.eraseIdx i).Perm s.owed := by
      rw [← hget]
      exact List.getElem_cons_eraseIdx_perm hlt
    have hnames := (hperm.map (·.write.1)).nodup_iff.mpr h.names
    rw [List.map_cons, List.nodup_cons] at hnames
    constructor
    · exact hnames.2
    · exact fun other hother => h.owed other (hperm.mem_iff.mp (List.mem_cons_of_mem _ hother))
    · intro v x hname
      refine (vectorAt_write write s.retriever v x).trans ?_
      change _ = (docEmbedding env s.retriever (v, x)).map entryOf
      split
      · rename_i heq
        rw [h.owed write (hperm.mem_iff.mp List.mem_cons_self), heq]
      · rename_i hne
        apply h.settled v x
        intro hmem
        rcases List.mem_cons.mp ((hperm.map (·.write.1)).mem_iff.mpr hmem) with heq | hmem
        · exact hne heq.symm
        · exact hname hmem

/-- Where calls for one name do not overlap, every document has its vector once all have
finished, and no other vector is left. -/
theorem pairedVectors_of_separate (env : Platform K) {steps : List (RetrieverStep K)}
    (h : Runs.Along (SharedRetriever.next env) (Separate env) SharedRetriever.empty steps)
    (hdone : (Runs.exec (SharedRetriever.next env) SharedRetriever.empty steps).owed = []) :
    PairedVectors env
      (Runs.exec (SharedRetriever.next env) SharedRetriever.empty steps).retriever := by
  have hsettling : Settling env (Runs.exec (SharedRetriever.next env) SharedRetriever.empty steps) := by
    refine Runs.invariant (I := Settling env) (fun s step hstep hs => ?_) h settling_empty
    cases step with
    | locked call => exact hs.locked hstep
    | vector i => exact hs.vector i
  intro v x
  rw [hsettling.settled v x (by rw [hdone]; simp), docEmbedding, Option.map_map]
  rfl

end Steps

section Examples
open Reference

def helloDoc : MemoryRecord ℚ :=
  newRecord initial.engine ⟨ascii "w", [], [], ascii "upsert"⟩ (recordInput (ascii "a") (ascii "hello") []) 1000
    (ascii "a") false

/-- A document is indexed and removed by two calls, whose vector writes come in the other
order. -/
def crossed : List (RetrieverStep ℚ) :=
  [.locked (.index helloDoc), .locked (.remove (ascii "w") (ascii "a")), .vector 1, .vector 0]

/-- The vector is left without its document. -/
theorem not_pairedVectors_crossed :
    (Runs.exec (SharedRetriever.next (platform ticking)) SharedRetriever.empty crossed).owed = [] ∧
      ¬ PairedVectors (platform ticking)
        (Runs.exec (SharedRetriever.next (platform ticking)) SharedRetriever.empty crossed).retriever := by
  refine ⟨by decide, fun h => ?_⟩
  obtain ⟨hdoc, hvector⟩ := @lookups_exec _ _ _ (platform ticking) SharedRetriever.empty crossed none
    (ascii "w") (ascii "a")
    (by simp [SharedRetriever.empty, HybridRetriever.vectorAt, HybridRetriever.empty])
  have hremoved : lastWrite (ascii "w", ascii "a") none (snapshotTrace (platform ticking) crossed) =
      none := rfl
  have hleft : (lastWrite (ascii "w", ascii "a") none
      (vectorTrace (platform ticking) SharedRetriever.empty crossed)).isSome = true := by
    decide
  have hnodoc := Option.map_eq_none_iff.mp (hdoc.trans hremoved)
  have hname := h (ascii "w") (ascii "a")
  rw [hvector, hnodoc, Option.map_none, Option.map_eq_none_iff] at hname
  rw [hname] at hleft
  cases hleft

end Examples

end PoorguyMem
