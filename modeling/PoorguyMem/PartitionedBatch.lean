import PoorguyMem.Startup

/-!
# Batches over a partitioned store

`EloqStoreAdapter::BatchWrite` writes one partition after the other and stops at
the first that fails, so what it wrote before stays. A failed batch is invisible
exactly where the partitions it wrote already held what they were given, as far
as reads can tell.
-/

namespace PoorguyMem

open ByteString

variable {K : Type}

/-! ### The batch of a partition -/

/-- The row a write leaves under its key. -/
def WriteDataEntry.outcome (e : WriteDataEntry) : Option StoredValue :=
  match e.op with
  | .delete => none
  | .upsert => some ⟨e.value, e.ts⟩

/-- The entries of a batch lie at their own keys. -/
def Keyed (batch : StringMap WriteDataEntry) : Prop :=
  ∀ (key : Bytes) e, batch[key]? = some e → e.key = key

theorem lookup_applyBatch {rows : Option Table} {batch : StringMap WriteDataEntry}
    (hkeyed : Keyed batch) (key : Bytes) :
    (EloqStore.applyBatch rows batch)[key]? =
      match batch[key]? with
      | some e => e.outcome
      | none => rows.bind (·[key]?) := by
  have loop : ∀ (items : List (Bytes × WriteDataEntry)) (table : Table),
      (∀ item ∈ items, item.2.key = item.1) →
      items.Pairwise (fun a b => a.1 ≠ b.1) →
      (∀ e, (key, e) ∈ items → (items.foldl (fun rows item =>
        match item.2.op with
        | .delete => rows.erase item.2.key
        | .upsert => rows.insert item.2.key ⟨item.2.value, item.2.ts⟩) table)[key]? = e.outcome) ∧
      ((∀ e, (key, e) ∉ items) → (items.foldl (fun rows item =>
        match item.2.op with
        | .delete => rows.erase item.2.key
        | .upsert => rows.insert item.2.key ⟨item.2.value, item.2.ts⟩) table)[key]? =
          table[key]?) := by
    intro items
    induction items with
    | nil => exact fun table _ _ => ⟨fun e he => by (cases he), fun _ => rfl⟩
    | cons item rest ih =>
      intro table hkeys hdistinct
      obtain ⟨hhead, htail⟩ := List.pairwise_cons.mp hdistinct
      obtain ⟨k, e⟩ := item
      have hk : e.key = k := hkeys (k, e) List.mem_cons_self
      obtain ⟨ihmem, ihnot⟩ := ih (match e.op with
        | .delete => table.erase e.key
        | .upsert => table.insert e.key ⟨e.value, e.ts⟩)
        (fun i hi => hkeys i (List.mem_cons_of_mem _ hi)) htail
      refine ⟨fun e' he' => ?_, fun hnot => ?_⟩
      · rcases List.mem_cons.mp he' with heq | he'
        · obtain ⟨rfl, rfl⟩ := Prod.mk.inj heq
          refine (ihnot fun e'' he'' => hhead _ he'' rfl).trans ?_
          rw [WriteDataEntry.outcome]
          cases e'.op with
          | delete => exact (lookup_erase ..).trans (if_pos hk)
          | upsert => exact (lookup_insert ..).trans (if_pos hk)
        · exact ihmem e' he'
      · have hne : e.key ≠ key := by
          rintro rfl
          exact hnot e (by simp [hk])
        refine (ihnot fun e' he' => hnot e' (List.mem_cons_of_mem _ he')).trans ?_
        cases e.op with
        | delete => exact lookup_erase_ne hne
        | upsert => exact lookup_insert_ne _ hne
  obtain ⟨hmem, hnot⟩ := loop batch.toList (rows.getD ∅)
    (fun item hitem => hkeyed item.1 item.2
      (Std.ExtTreeMap.mem_toList_iff_getElem?_eq_some.mp hitem))
    (Std.ExtTreeMap.distinct_keys_toList.imp fun {a b} hab heq =>
      hab (by rw [heq]; exact Std.compare_self))
  rw [EloqStore.applyBatch]
  rcases hbatch : batch[key]? with _ | e
  · refine (hnot fun e he => ?_).trans ?_
    · cases hbatch.symm.trans (Std.ExtTreeMap.mem_toList_iff_getElem?_eq_some.mp he)
    · cases rows <;> simp
  · exact hmem e (Std.ExtTreeMap.mem_toList_iff_getElem?_eq_some.mpr hbatch)

/-- Every batch goes to an existing partition, and its keys are routed there. -/
theorem groupByPartition_spec (env : Platform K) (adapter : EloqStoreAdapter)
    (entries : List WriteEntry) {pid : Nat} {batch : StringMap WriteDataEntry}
    (h : (adapter.groupByPartition env entries)[pid]? = some batch) :
    pid < adapter.numPartitions ∧ Keyed batch ∧
      ∀ (key : Bytes) e, batch[key]? = some e → ∃ nameSpace k,
        key = composeKey nameSpace k ∧ adapter.resolvePartitionId env nameSpace k = pid := by
  let Good := fun (batches : Std.ExtTreeMap Nat (StringMap WriteDataEntry) compare) =>
    ∀ (pid : Nat) batch, batches[pid]? = some batch → pid < adapter.numPartitions ∧ Keyed batch ∧
      ∀ (key : Bytes) e, batch[key]? = some e → ∃ nameSpace k,
        key = composeKey nameSpace k ∧ adapter.resolvePartitionId env nameSpace k = pid
  suffices hgood : Good (adapter.groupByPartition env entries) from hgood pid batch h
  refine List.foldlRecOn (motive := Good) entries _ ?_ ?_
  · intro pid batch h
    simp at h
  · intro batches hgood w _ pid batch h
    dsimp only at h
    rw [Std.ExtTreeMap.getElem?_insert] at h
    split at h
    · rename_i hpid
      obtain rfl := Std.compare_eq_iff_eq.mp hpid
      obtain rfl := Option.some.inj h
      have hold : ∀ (key : Bytes) e, (batches.getD
          (adapter.resolvePartitionId env w.entry.nameSpace w.entry.key) ∅)[key]? = some e →
          e.key = key ∧ ∃ nameSpace k, key = composeKey nameSpace k ∧
            adapter.resolvePartitionId env nameSpace k =
              adapter.resolvePartitionId env w.entry.nameSpace w.entry.key := by
        intro key e he
        rw [Std.ExtTreeMap.getD_eq_getD_getElem?] at he
        rcases hb : batches[adapter.resolvePartitionId env w.entry.nameSpace w.entry.key]? with
          _ | batch
        · rw [hb] at he
          simp at he
        · rw [hb] at he
          obtain ⟨-, hkeyed, hrouted⟩ := hgood _ batch hb
          exact ⟨hkeyed key e he, hrouted key e he⟩
      refine ⟨adapter.resolvePartitionId_lt env _ _, fun key e he => ?_, fun key e he => ?_⟩ <;>
        rw [lookup_insert] at he <;> split at he
      · rename_i hkey
        obtain rfl := Option.some.inj he
        exact hkey
      · exact (hold key e he).1
      · rename_i hkey
        exact ⟨_, _, hkey.symm, rfl⟩
      · exact (hold key e he).2
    · exact hgood pid batch h

/-! ### The loop over the partitions -/

section Loop
variable {fails : Nat → Option KvError} {items : List (Nat × StringMap WriteDataEntry)}
  {store : EloqStore}

/-- The batch of a partition that is written: no partition up to it fails. -/
def Written (fails : Nat → Option KvError) (items : List (Nat × StringMap WriteDataEntry))
    (pid : Nat) (batch : StringMap WriteDataEntry) : Prop :=
  (pid, batch) ∈ items ∧ ∀ item ∈ items, item.1 ≤ pid → fails item.1 = none

/-- The loop writes these batches, leaves the other partitions, and is fine where
no request fails. -/
theorem writeLoop_spec (store : EloqStore) (hsorted : items.Pairwise fun a b => a.1 < b.1) :
    (EloqStoreAdapter.writeLoop fails items store).1.paginate = store.paginate ∧
    ((EloqStoreAdapter.writeLoop fails items store).2.ok = true ↔
      ∀ item ∈ items, fails item.1 = none) ∧
    (∀ pid batch, Written fails items pid batch →
      (EloqStoreAdapter.writeLoop fails items store).1.partition pid =
        some (EloqStore.applyBatch (store.partition pid) batch)) ∧
    (∀ pid, (∀ batch, ¬ Written fails items pid batch) →
      (EloqStoreAdapter.writeLoop fails items store).1.partition pid = store.partition pid) := by
  induction items generalizing store with
  | nil =>
    refine ⟨rfl, ⟨fun _ item hitem => (by cases hitem), fun _ => rfl⟩, ?_,
      fun _ _ => rfl⟩
    rintro pid batch ⟨hmem, -⟩
    cases hmem
  | cons item rest ih =>
    obtain ⟨hhead, htail⟩ := List.pairwise_cons.mp hsorted
    obtain ⟨first, batch₀⟩ := item
    have hle : ∀ item ∈ (first, batch₀) :: rest, first ≤ item.1 := by
      intro item hitem
      rcases List.mem_cons.mp hitem with rfl | hitem
      · exact Nat.le_refl _
      · exact Nat.le_of_lt (hhead item hitem)
    rcases hfail : fails first with _ | error
    · rw [EloqStoreAdapter.writeLoop, hfail]
      dsimp only
      obtain ⟨hpage, hok, hwritten, hkept⟩ := ih (store.batchWrite first batch₀) htail
      have hfirst : ∀ batch, ¬ Written fails rest first batch := fun batch h =>
        Nat.lt_irrefl first (hhead (first, batch) h.1)
      refine ⟨hpage, ?_, ?_, ?_⟩
      · rw [hok, List.forall_mem_cons]
        exact ⟨fun h => ⟨hfail, h⟩, fun h => h.2⟩
      · rintro pid batch ⟨hmem, hnone⟩
        rcases List.mem_cons.mp hmem with heq | hmem
        · obtain ⟨rfl, rfl⟩ := Prod.mk.inj heq
          rw [hkept pid hfirst]
          exact Function.update_self ..
        · have hne : pid ≠ first := Nat.ne_of_gt (hhead _ hmem)
          rw [hwritten pid batch ⟨hmem, fun item hitem =>
            hnone item (List.mem_cons_of_mem _ hitem)⟩]
          exact congrArg (fun rows => some (EloqStore.applyBatch rows batch))
            (Function.update_of_ne hne ..)
      · intro pid hnot
        have hne : pid ≠ first := by
          rintro rfl
          refine hnot batch₀ ⟨List.mem_cons_self, fun item hitem hitem' => ?_⟩
          rw [Nat.le_antisymm hitem' (hle item hitem)]
          exact hfail
        refine (hkept pid fun batch h => hnot batch ⟨List.mem_cons_of_mem _ h.1, ?_⟩).trans
          (Function.update_of_ne hne ..)
        intro item hitem hitem'
        rcases List.mem_cons.mp hitem with rfl | hitem
        · exact hfail
        · exact h.2 item hitem hitem'
    · rw [EloqStoreAdapter.writeLoop, hfail]
      refine ⟨rfl, ⟨fun h => (by cases h), fun h => ?_⟩, ?_, fun _ _ => rfl⟩
      · cases hfail.symm.trans (h _ List.mem_cons_self)
      · rintro pid batch ⟨hmem, hnone⟩
        cases hfail.symm.trans (hnone _ List.mem_cons_self (hle _ hmem))

end Loop

/-! ### What reads can tell -/

namespace EloqStoreAdapter

/-- Two adapters answer every read alike. -/
def ReadsAlike (env : Platform K) (a b : EloqStoreAdapter) : Prop :=
  (∀ nameSpace key, b.get env nameSpace key = a.get env nameSpace key) ∧
    ∀ nameSpace begin endKey limit,
      b.scan nameSpace begin endKey limit = a.scan nameSpace begin endKey limit

variable {env : Platform K} {adapter : EloqStoreAdapter} {store : EloqStore}

theorem get_congr (h : ∀ pid key, (store.read pid key).map (·.value) =
      (adapter.store.read pid key).map (·.value)) (nameSpace key : Bytes) :
    { adapter with store := store }.get env nameSpace key = adapter.get env nameSpace key := by
  have hread := h (adapter.resolvePartitionId env nameSpace key) (composeKey nameSpace key)
  by_cases hstarted : adapter.started = true
  swap
  · rw [get, get, if_pos (by simpa using hstarted), if_pos (by simpa using hstarted)]
  rw [get_of_started hstarted, get_of_started (by exact hstarted)]
  change (store.read (adapter.resolvePartitionId env nameSpace key)
    (composeKey nameSpace key)).elim _ _ = _
  rcases hb : store.read (adapter.resolvePartitionId env nameSpace key)
      (composeKey nameSpace key) with _ | v <;>
    rcases ha : adapter.store.read (adapter.resolvePartitionId env nameSpace key)
      (composeKey nameSpace key) with _ | v' <;> rw [ha, hb] at hread
  · cases hread
  · cases hread
  · have hvalue : v.value = v'.value := Option.some.inj hread
    rw [Option.elim_some, Option.elim_some, hvalue]

/-- A scan does not look beyond the first partition that was never written. -/
theorem scanLoop_congr {a b : EloqStore} (hpage : b.paginate = a.paginate)
    (h : ∀ pid, (∀ q < pid, (a.partition q).isSome) → b.partition pid = a.partition pid)
    (nameSpace beginKey endKey : Bytes) (limit n start : Nat) (out : List KeyValueEntry)
    (hbefore : ∀ q < start, (a.partition q).isSome) :
    scanLoop b nameSpace beginKey endKey limit (List.range' start n) out =
      scanLoop a nameSpace beginKey endKey limit (List.range' start n) out := by
  induction n generalizing start out with
  | zero => rfl
  | succ n ih =>
    have hscan : b.scan start beginKey endKey limit = a.scan start beginKey endKey limit := by
      rw [EloqStore.scan, EloqStore.scan, h start hbefore, hpage]
    rw [List.range'_succ, scanLoop, scanLoop, hscan]
    rcases hres : a.scan start beginKey endKey limit with error | rows
    · rfl
    · refine ih _ _ fun q hq => ?_
      rcases Nat.lt_succ_iff_lt_or_eq.mp hq with hlt | rfl
      · exact hbefore q hlt
      · rw [EloqStore.scan] at hres
        split at hres
        · cases hres
        · rename_i rows hp
          rw [hp]
          rfl

theorem scan_congr (hpage : store.paginate = adapter.store.paginate)
    (h : ∀ pid, (∀ q < pid, (adapter.store.partition q).isSome) →
      store.partition pid = adapter.store.partition pid)
    (nameSpace begin endKey : Bytes) (limit : Nat) :
    { adapter with store := store }.scan nameSpace begin endKey limit =
      adapter.scan nameSpace begin endKey limit := by
  have hloop := scanLoop_congr hpage h nameSpace (composeKey nameSpace begin)
    (if endKey = [] then nameSpace ++ ascii ";" else composeKey nameSpace endKey) limit
    adapter.numPartitions 0 [] (fun q hq => absurd hq (Nat.not_lt_zero q))
  rw [← List.range_eq_range'] at hloop
  unfold scan
  dsimp only
  rw [hloop]

/-- The error of a scan names the partition it ended at. -/
theorem scanError_inj {p q : Nat} (h : scanError p .notFound = scanError q .notFound) : p = q := by
  have hdigits : ∀ n, 32 ∉ decimal n := by
    intro n hmem
    have := (isDigits_decimal n 32 hmem).1
    simp at this
  simp only [scanError, List.append_assoc] at h
  have hdec := (separated_inj (hdigits p) (hdigits q) (List.append_cancel_left h)).1
  rw [← digitsValue_decimal p, hdec, digitsValue_decimal]

end EloqStoreAdapter

/-! ### Failed batches -/

/-- A partition already holds its batch, as far as reads can tell: every key its
value, and, where scans reach the partition, that row with its time. -/
structure AlreadyHolds (store : EloqStore) (pid : Nat) (batch : StringMap WriteDataEntry) :
    Prop where
  values : ∀ (key : Bytes) e, batch[key]? = some e →
    (store.read pid key).map (·.value) = e.outcome.map (·.value)
  rows : (∀ q < pid, (store.partition q).isSome) → (store.partition pid).isSome ∧
    ∀ (key : Bytes) e, batch[key]? = some e → store.read pid key = e.outcome

namespace EloqStoreAdapter

/-- The batches of a call, by partition in ascending order. -/
def batches (env : Platform K) (adapter : EloqStoreAdapter) (entries : List WriteEntry) :
    List (Nat × StringMap WriteDataEntry) :=
  (adapter.groupByPartition env entries).toList

section
variable {env : Platform K} {adapter : EloqStoreAdapter} {entries : List WriteEntry}
  {fails : Nat → Option KvError}

theorem batches_sorted : (adapter.batches env entries).Pairwise fun a b => a.1 < b.1 :=
  Std.ExtTreeMap.ordered_keys_toList.imp fun {_ _} hab => Nat.compare_eq_lt.mp hab

theorem batches_spec {pid : Nat} {batch : StringMap WriteDataEntry}
    (h : (pid, batch) ∈ adapter.batches env entries) :
    pid < adapter.numPartitions ∧ Keyed batch ∧
      ∀ (key : Bytes) e, batch[key]? = some e → ∃ nameSpace k,
        key = composeKey nameSpace k ∧ adapter.resolvePartitionId env nameSpace k = pid :=
  groupByPartition_spec env adapter entries (Std.ExtTreeMap.mem_toList_iff_getElem?_eq_some.mp h)

/-- What a started adapter's store holds after a batch: the written partitions
their batches, the others what they held. -/
theorem batchWrite_spec (env : Platform K) (fails : Nat → Option KvError)
    (entries : List WriteEntry) (hstarted : adapter.started = true) :
    ∃ store : EloqStore, (adapter.batchWrite env fails entries).1 = { adapter with store := store } ∧
      store.paginate = adapter.store.paginate ∧
      ((adapter.batchWrite env fails entries).2.ok = true ↔
        ∀ item ∈ adapter.batches env entries, fails item.1 = none) ∧
      (∀ pid batch, Written fails (adapter.batches env entries) pid batch →
        store.partition pid = some (EloqStore.applyBatch (adapter.store.partition pid) batch)) ∧
      (∀ pid, (∀ batch, ¬ Written fails (adapter.batches env entries) pid batch) →
        store.partition pid = adapter.store.partition pid) := by
  refine ⟨(writeLoop fails (adapter.batches env entries) adapter.store).1, ?_, ?_⟩
  · rw [batchWrite, hstarted]
    rfl
  · have hresult : (adapter.batchWrite env fails entries).2 =
        (writeLoop fails (adapter.batches env entries) adapter.store).2 := by
      rw [batchWrite, hstarted]
      rfl
    rw [hresult]
    exact writeLoop_spec _ batches_sorted

/-- The rows of a partition after it was written. -/
theorem read_written {store : EloqStore} {pid : Nat} {batch : StringMap WriteDataEntry}
    (hkeyed : Keyed batch)
    (h : store.partition pid = some (EloqStore.applyBatch (adapter.store.partition pid) batch))
    (key : Bytes) : store.read pid key =
      match batch[key]? with
      | some e => e.outcome
      | none => adapter.store.read pid key := by
  rw [EloqStore.read, h, Option.bind_some, lookup_applyBatch hkeyed]
  rfl

/-- A batch that partitions already hold is invisible. -/
theorem readsAlike_of_alreadyHolds (hstarted : adapter.started = true)
    (h : ∀ pid batch, Written fails (adapter.batches env entries) pid batch →
      AlreadyHolds adapter.store pid batch) :
    ReadsAlike env adapter (adapter.batchWrite env fails entries).1 := by
  obtain ⟨store, heq, hpage, -, hwritten, hkept⟩ :=
    batchWrite_spec env fails entries hstarted
  rw [heq]
  have hcases : ∀ pid, (∃ batch, Written fails (adapter.batches env entries) pid batch) ∨
      store.partition pid = adapter.store.partition pid := by
    intro pid
    by_cases hw : ∃ batch, Written fails (adapter.batches env entries) pid batch
    · exact Or.inl hw
    · exact Or.inr (hkept pid fun batch hb => hw ⟨batch, hb⟩)
  refine ⟨get_congr fun pid key => ?_, scan_congr hpage fun pid hbefore => ?_⟩
  · rcases hcases pid with ⟨batch, hw⟩ | hsame
    · rw [read_written (batches_spec hw.1).2.1 (hwritten pid batch hw)]
      rcases hb : batch[key]? with _ | e
      · rfl
      · exact ((h pid batch hw).values key e hb).symm
    · rw [EloqStore.read, EloqStore.read, hsame]
  · rcases hcases pid with ⟨batch, hw⟩ | hsame
    · obtain ⟨hsome, hrows⟩ := (h pid batch hw).rows hbefore
      obtain ⟨rows, hp⟩ := Option.isSome_iff_exists.mp hsome
      rw [hwritten pid batch hw, hp]
      refine congrArg some (Std.ExtTreeMap.ext_getElem? fun key => ?_)
      rw [lookup_applyBatch (batches_spec hw.1).2.1]
      rcases hb : batch[key]? with _ | e
      · rfl
      · have hread := hrows key e hb
        rw [EloqStore.read, hp] at hread
        exact hread.symm
    · exact hsame

/-- Reads tell a batch from none unless the partitions already held it. -/
theorem alreadyHolds_of_readsAlike (hstarted : adapter.started = true)
    (hdist : adapter.Distributed)
    (halike : ReadsAlike env adapter (adapter.batchWrite env fails entries).1) :
    ∀ pid batch, Written fails (adapter.batches env entries) pid batch →
      AlreadyHolds adapter.store pid batch := by
  obtain ⟨store, heq, hpage, -, hwritten, hkept⟩ :=
    batchWrite_spec env fails entries hstarted
  rw [heq] at halike
  obtain ⟨hget, hscan⟩ := halike
  have hvalues : ∀ pid batch, Written fails (adapter.batches env entries) pid batch →
      ∀ (key : Bytes) e, batch[key]? = some e →
        (adapter.store.read pid key).map (·.value) = e.outcome.map (·.value) := by
    intro pid batch hw key e hb
    obtain ⟨-, hkeyed, hrouted⟩ := batches_spec hw.1
    obtain ⟨nameSpace, k, rfl, hroute⟩ := hrouted key e hb
    have hread := read_written hkeyed (hwritten pid batch hw) (composeKey nameSpace k)
    rw [hb] at hread
    have hsame := hget nameSpace k
    unfold get at hsame
    have hroute' : { adapter with store := store }.resolvePartitionId env nameSpace k = pid := hroute
    rw [hroute', hroute] at hsame
    simp only [hstarted, Bool.not_true, Bool.false_eq_true, if_false, hread] at hsame
    rcases hold : adapter.store.read pid (composeKey nameSpace k) with _ | v <;>
      rcases hout : e.outcome with _ | v' <;> rw [hold, hout] at hsame
    · cases hsame
    · cases hsame
    · exact congrArg some (GetResult.mk.inj hsame).2.1.symm
  -- every key keeps its value, in whichever partition
  have hall : ∀ pid key, (store.read pid key).map (·.value) =
      (adapter.store.read pid key).map (·.value) := by
    intro pid key
    by_cases hw : ∃ batch, Written fails (adapter.batches env entries) pid batch
    · obtain ⟨batch, hw⟩ := hw
      rw [read_written (batches_spec hw.1).2.1 (hwritten pid batch hw)]
      rcases hb : batch[key]? with _ | e
      · rfl
      · exact (hvalues pid batch hw key e hb).symm
    · rw [EloqStore.read, EloqStore.read, hkept pid fun batch hb => hw ⟨batch, hb⟩]
  have hsome : ∀ pid, (adapter.store.partition pid).isSome → (store.partition pid).isSome := by
    intro pid hp
    by_cases hw : ∃ batch, Written fails (adapter.batches env entries) pid batch
    · obtain ⟨batch, hw⟩ := hw
      rw [hwritten pid batch hw]
      rfl
    · rwa [hkept pid fun batch hb => hw ⟨batch, hb⟩]
  intro pid batch hw
  refine ⟨hvalues pid batch hw, fun hbefore => ?_⟩
  obtain ⟨hpid, hkeyed, hrouted⟩ := batches_spec hw.1
  have hreached : (adapter.store.partition pid).isSome := by
    -- a scan would no longer end at this partition
    rw [Option.isSome_iff_ne_none]
    intro hnone
    have hold := scan_of_unwritten hstarted hpid hnone hbefore []
    have herror := congrArg ScanResult.error (hscan [] [] [] 0)
    rw [hold] at herror
    have hstarted' : { adapter with store := store }.started = true := hstarted
    rcases written_or_first { adapter with store := store } with hfull | ⟨p, hp, hpnone, hpbefore⟩
    · rw [scan_of_written hstarted' hfull] at herror
      simp [scanError, ascii] at herror
    · rw [scan_of_unwritten hstarted' hp hpnone hpbefore] at herror
      obtain rfl := scanError_inj herror
      change store.partition p = none at hpnone
      rw [hwritten p batch hw] at hpnone
      cases hpnone
  refine ⟨hreached, fun key e hb => ?_⟩
  have hvalue := hvalues pid batch hw key e hb
  rcases hold : adapter.store.read pid key with _ | v
  · rw [hold] at hvalue
    exact (Option.map_eq_none_iff.mp hvalue.symm).symm
  · -- the entry a scan showed before is still stored, and only in this partition
    obtain ⟨nameSpace, k, rfl, -⟩ := hrouted key e hb
    let entry : KeyValueEntry := ⟨nameSpace, k, v.value, v.ts⟩
    have hmem : entry ∈ (adapter.scan nameSpace [] [] 0).entries := by
      rcases adapter.written_or_first with hfull | ⟨p, hp, hpnone, hpbefore⟩
      · exact (scansAll_of_written hstarted hdist hfull nameSpace).2 entry rfl ⟨pid, hpid, hold⟩
      · rw [scan_of_unwritten hstarted hp hpnone hpbefore]
        have hlt : pid < p := by
          rcases Nat.lt_trichotomy pid p with hlt | rfl | hgt
          · exact hlt
          · rw [hpnone] at hreached
            cases hreached
          · have := hbefore p hgt
            rw [hpnone] at this
            cases this
        exact mem_collected.mpr ⟨rfl, pid, hlt, hold⟩
    rw [← hscan] at hmem
    obtain ⟨-, q, hq, hstored⟩ := stores_of_mem_scan hmem
    have hstored' : store.read q (composeKey nameSpace k) = some ⟨v.value, v.ts⟩ := hstored
    have hqold : (adapter.store.read q (composeKey nameSpace k)).isSome := by
      have hmap := hall q (composeKey nameSpace k)
      rw [hstored'] at hmap
      rcases hr : adapter.store.read q (composeKey nameSpace k) with _ | v'
      · rw [hr] at hmap
        cases hmap
      · rfl
    obtain rfl := hdist q pid _ hq hpid hqold (by rw [hold]; rfl)
    have hread := read_written hkeyed (hwritten q batch hw) (composeKey nameSpace k)
    rw [hb, hstored'] at hread
    exact hread

end

/-- A batch that reports a failure leaves no trace in any read exactly where the
adapter never ran, no request failed, or every partition that was written before
the failing one already held what it was given. -/
theorem batchWrite_all_or_nothing_iff (env : Platform K) {adapter : EloqStoreAdapter}
    (hdist : adapter.Distributed) (fails : Nat → Option KvError) (entries : List WriteEntry) :
    ((adapter.batchWrite env fails entries).2.ok = false →
        ReadsAlike env adapter (adapter.batchWrite env fails entries).1) ↔
      adapter.started = false ∨
        (∀ item ∈ adapter.batches env entries, fails item.1 = none) ∨
        ∀ pid batch, Written fails (adapter.batches env entries) pid batch →
          AlreadyHolds adapter.store pid batch := by
  cases hstarted : adapter.started with
  | false =>
    refine ⟨fun _ => Or.inl rfl, fun _ _ => ?_⟩
    rw [batchWrite, hstarted]
    exact ⟨fun _ _ => rfl, fun _ _ _ _ => rfl⟩
  | true =>
    obtain ⟨-, -, -, hok, -⟩ := batchWrite_spec env fails entries hstarted
    constructor
    · intro h
      refine Or.inr ?_
      by_cases hnone : ∀ item ∈ adapter.batches env entries, fails item.1 = none
      · exact Or.inl hnone
      · refine Or.inr (alreadyHolds_of_readsAlike hstarted hdist (h ?_))
        exact Bool.eq_false_iff.mpr fun h => hnone (hok.mp h)
    · rintro (hfalse | hnone | hholds) hfailed
      · cases hfalse
      · rw [hok.mpr hnone] at hfailed
        cases hfailed
      · exact readsAlike_of_alreadyHolds hstarted hholds

end EloqStoreAdapter

section Examples
open Reference

/-- Entries that go to different ones of two partitions. -/
def splitEntries : List WriteEntry :=
  [upsertEntry docNs (buildDocKey (ascii "w") (ascii "a")) (ascii "one") 1,
    upsertEntry docNs (buildDocKey (ascii "w") (ascii "b")) (ascii "two") 1]

def emptyPair : EloqStoreAdapter := adapterOver [some ∅, some ∅] (by decide)

/-- The request for this partition alone fails. -/
def failsAt (pid : Nat) : Nat → Option KvError :=
  fun p => if p = pid then some (.failed (ascii "io")) else none

theorem distributed_emptyPair : emptyPair.Distributed := by
  intro p q key hp _ hread _
  have hp : p = 0 ∨ p = 1 := by
    change p < 2 at hp
    omega
  have hnone : emptyPair.store.read p key = none := by
    rcases hp with rfl | rfl <;> exact Std.ExtTreeMap.getElem?_empty
  rw [hnone] at hread
  cases hread

/-- The first request fails, and nothing is written. -/
theorem batchWrite_splitEntries_fails_first :
    EloqStoreAdapter.ReadsAlike (platform ticking) emptyPair
      (emptyPair.batchWrite (platform ticking) (failsAt 0) splitEntries).1 := by
  refine (EloqStoreAdapter.batchWrite_all_or_nothing_iff (platform ticking) distributed_emptyPair
    (failsAt 0) splitEntries).mpr (Or.inr (Or.inr ?_)) (by decide)
  rintro pid batch ⟨-, hbefore⟩
  have hfirst : (emptyPair.batches (platform ticking) splitEntries).head?.map Prod.fst = some 0 := by
    decide
  obtain ⟨item, hitem, h0⟩ := Option.map_eq_some_iff.mp hfirst
  have := hbefore item (List.mem_of_mem_head? hitem) (by omega)
  rw [h0] at this
  cases this

/-- The second request fails after the first was written. -/
theorem batchWrite_splitEntries_torn :
    ¬ ((emptyPair.batchWrite (platform ticking) (failsAt 1) splitEntries).2.ok = false →
      EloqStoreAdapter.ReadsAlike (platform ticking) emptyPair
        (emptyPair.batchWrite (platform ticking) (failsAt 1) splitEntries).1) := by
  intro h
  have hget := (h (by decide)).1 docNs (buildDocKey (ascii "w") (ascii "a"))
  exact absurd hget (by decide)

end Examples

end PoorguyMem
