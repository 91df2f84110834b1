import PoorguyMem.Backends
import PoorguyMem.Lib.MapTotal

/-!
# The usage of the partitioned store

`EloqStoreAdapter` keeps the size of every value it wrote since it started, and two counters
that follow it by differences. A batch is counted after its last partition, each key once, so
that a batch that fails is not counted though a part of it is stored. The counters are those
of the writes that were accepted since the start.
-/

namespace PoorguyMem

open ByteString

variable {K : Type}

/-! ### The ledger -/

/-- `key_size_bytes_` with the two counters. -/
structure UsageLedger where
  keySizeBytes : StringMap Nat
  approxMemUsedBytes : UInt64
  approxItemCount : UInt64

namespace UsageLedger

def empty : UsageLedger := ⟨∅, 0, 0⟩

def onUpsertCommitted (ledger : UsageLedger) (fullKey : Bytes) (nextSize : Nat) : UsageLedger :=
  match ledger.keySizeBytes[fullKey]? with
  | none =>
    { keySizeBytes := ledger.keySizeBytes.insert fullKey nextSize
      approxMemUsedBytes := ledger.approxMemUsedBytes + UInt64.ofNat nextSize
      approxItemCount := ledger.approxItemCount + 1 }
  | some prevSize =>
    { ledger with
      keySizeBytes := ledger.keySizeBytes.insert fullKey nextSize
      approxMemUsedBytes :=
        if prevSize ≤ nextSize then ledger.approxMemUsedBytes + UInt64.ofNat (nextSize - prevSize)
        else ledger.approxMemUsedBytes - UInt64.ofNat (prevSize - nextSize) }

def onDeleteCommitted (ledger : UsageLedger) (fullKey : Bytes) : UsageLedger :=
  match ledger.keySizeBytes[fullKey]? with
  | none => ledger
  | some prevSize =>
    { keySizeBytes := ledger.keySizeBytes.erase fullKey
      approxMemUsedBytes := ledger.approxMemUsedBytes - UInt64.ofNat prevSize
      approxItemCount := ledger.approxItemCount - 1 }

/-- One pass of the loop over the committed entries. -/
def onCommitted (ledger : UsageLedger) (e : WriteDataEntry) : UsageLedger :=
  match e.op with
  | .delete => ledger.onDeleteCommitted e.key
  | .upsert => ledger.onUpsertCommitted e.key e.value.length

/-- The counters are those of the sizes. -/
structure Balanced (ledger : UsageLedger) : Prop where
  bytes : ledger.approxMemUsedBytes = UInt64.ofNat (MapTotal.total ledger.keySizeBytes)
  items : ledger.approxItemCount = UInt64.ofNat ledger.keySizeBytes.size

section Ledger
variable {ledger : UsageLedger}

theorem balanced_empty : empty.Balanced :=
  ⟨by rw [empty, MapTotal.total_empty]; rfl, rfl⟩

theorem ofNat_sub {a b : Nat} (h : b ≤ a) :
    UInt64.ofNat (a - b) = UInt64.ofNat a - UInt64.ofNat b := by
  rw [eq_sub_iff_add_eq, ← UInt64.ofNat_add, Nat.sub_add_cancel h]

theorem Balanced.onUpsertCommitted (h : ledger.Balanced) (fullKey : Bytes) (nextSize : Nat) :
    (ledger.onUpsertCommitted fullKey nextSize).Balanced := by
  have hinsert := MapTotal.total_insert ledger.keySizeBytes fullKey nextSize
  have herase := MapTotal.total_erase ledger.keySizeBytes fullKey
  rw [Std.ExtTreeMap.getD_eq_getD_getElem?] at herase
  rw [UsageLedger.onUpsertCommitted]
  rcases hfound : ledger.keySizeBytes[fullKey]? with _ | prevSize
  · rw [hfound, Option.getD_none] at herase
    refine ⟨?_, ?_⟩
    · dsimp only
      rw [h.bytes, ← UInt64.ofNat_add]
      congr 1
      omega
    · have hnot : ledger.keySizeBytes.contains fullKey = false := by
        rw [Std.ExtTreeMap.contains_eq_isSome_getElem?, hfound]
        rfl
      dsimp only
      rw [Std.ExtTreeMap.size_insert, if_neg (by simp [hnot]), h.items, UInt64.ofNat_add]
      rfl
  · rw [hfound, Option.getD_some] at herase
    refine ⟨?_, ?_⟩
    · dsimp only
      rw [h.bytes]
      split
      · rw [← UInt64.ofNat_add]
        congr 1
        omega
      · rw [← ofNat_sub (by omega)]
        congr 1
        omega
    · have hmem : ledger.keySizeBytes.contains fullKey = true := by
        rw [Std.ExtTreeMap.contains_eq_isSome_getElem?, hfound]
        rfl
      dsimp only
      rw [Std.ExtTreeMap.size_insert, if_pos hmem, h.items]

/-- A deletion takes off what the key adds, never more than there is. -/
theorem Balanced.onDeleteCommitted (h : ledger.Balanced) (fullKey : Bytes) :
    (ledger.onDeleteCommitted fullKey).Balanced := by
  have herase := MapTotal.total_erase ledger.keySizeBytes fullKey
  rw [Std.ExtTreeMap.getD_eq_getD_getElem?] at herase
  rw [UsageLedger.onDeleteCommitted]
  rcases hfound : ledger.keySizeBytes[fullKey]? with _ | prevSize
  · exact h
  · rw [hfound, Option.getD_some] at herase
    have hmem : ledger.keySizeBytes.contains fullKey = true := by
      rw [Std.ExtTreeMap.contains_eq_isSome_getElem?, hfound]
      rfl
    refine ⟨?_, ?_⟩
    · dsimp only
      rw [h.bytes, ← ofNat_sub (by omega)]
      congr 1
      omega
    · have hpos : 0 < ledger.keySizeBytes.size := by
        rw [Nat.pos_iff_ne_zero]
        intro hzero
        have hempty := Std.ExtTreeMap.eq_empty_iff_size_eq_zero.mpr hzero
        rw [hempty] at hfound
        simp at hfound
      dsimp only
      rw [Std.ExtTreeMap.size_erase, if_pos hmem, h.items, ofNat_sub hpos]
      rfl

theorem Balanced.onCommitted (h : ledger.Balanced) (e : WriteDataEntry) :
    (ledger.onCommitted e).Balanced := by
  rw [UsageLedger.onCommitted]
  cases e.op with
  | delete => exact h.onDeleteCommitted e.key
  | upsert => exact h.onUpsertCommitted e.key e.value.length

/-- The size of what a write left. -/
def sizeOf (v : Option StoredValue) : Option Nat := v.map (·.value.length)

theorem lookup_onCommitted (ledger : UsageLedger) (e : WriteDataEntry) (fullKey : Bytes) :
    (ledger.onCommitted e).keySizeBytes[fullKey]? =
      if e.key = fullKey then sizeOf e.outcome else ledger.keySizeBytes[fullKey]? := by
  rw [onCommitted, WriteDataEntry.outcome]
  cases e.op with
  | delete =>
    dsimp only
    rw [onDeleteCommitted]
    split
    · rename_i hnone
      split
      · rename_i hkey
        rw [← hkey, hnone]
        rfl
      · rfl
    · exact lookup_erase ..
  | upsert =>
    dsimp only
    rw [onUpsertCommitted]
    split <;> exact lookup_insert ..

end Ledger

end UsageLedger

/-! ### The metered adapter -/

/-- A running adapter with its ledger. -/
structure MeteredAdapter where
  adapter : EloqStoreAdapter
  ledger : UsageLedger

namespace MeteredAdapter

/-- `OnUpsertCommitted` after a `Put` that is fine. -/
def put (env : Platform K) (metered : MeteredAdapter) (failure : Option KvError)
    (nameSpace key value : Bytes) (ts : UInt64) : MeteredAdapter × StoreResult :=
  let (adapter, result) := metered.adapter.put env failure nameSpace key value ts
  if result.ok then
    (⟨adapter, metered.ledger.onUpsertCommitted (composeKey nameSpace key) value.length⟩, result)
  else (⟨adapter, metered.ledger⟩, result)

/-- `OnDeleteCommitted` after a `Delete` that is fine. -/
def delete (env : Platform K) (metered : MeteredAdapter) (failure : Option KvError)
    (nameSpace key : Bytes) (ts : UInt64) : MeteredAdapter × StoreResult :=
  let (adapter, result) := metered.adapter.delete env failure nameSpace key ts
  if result.ok then
    (⟨adapter, metered.ledger.onDeleteCommitted (composeKey nameSpace key)⟩, result)
  else (⟨adapter, metered.ledger⟩, result)

/-- The entries of a batch, in the order they are sent to the partitions. -/
def committedEntries (env : Platform K) (adapter : EloqStoreAdapter) (entries : List WriteEntry) :
    List WriteDataEntry :=
  (adapter.groupByPartition env entries).toList.flatMap fun batch => batch.2.toList.map (·.2)

def batchWrite (env : Platform K) (metered : MeteredAdapter) (fails : Nat → Option KvError)
    (entries : List WriteEntry) : MeteredAdapter × StoreResult :=
  let (adapter, result) := metered.adapter.batchWrite env fails entries
  if result.ok then
    (⟨adapter, (committedEntries env metered.adapter entries).foldl UsageLedger.onCommitted
      metered.ledger⟩, result)
  else (⟨adapter, metered.ledger⟩, result)

/-- `ApproximateUsage`, given the size of the directory. -/
def approximateUsage (metered : MeteredAdapter) (directorySizeBytes : Nat) : StoreUsage where
  memUsedBytes := metered.ledger.approxMemUsedBytes.toNat
  diskUsedBytes := directorySizeBytes
  itemCount := metered.ledger.approxItemCount.toNat

/-- A call, with the partitions whose requests fail. -/
def call (env : Platform K) (metered : MeteredAdapter) (fails : Nat → Option KvError) :
    StoreCall → MeteredAdapter × StoreResult
  | .put nameSpace key value ts =>
    metered.put env (fails (metered.adapter.resolvePartitionId env nameSpace key)) nameSpace key
      value ts
  | .delete nameSpace key ts =>
    metered.delete env (fails (metered.adapter.resolvePartitionId env nameSpace key)) nameSpace
      key ts
  | .batchWrite entries => metered.batchWrite env fails entries

end MeteredAdapter

/-! ### Committed entries -/

section Committed
open MeteredAdapter EloqStoreAdapter
variable {env : Platform K} {adapter : EloqStoreAdapter} {ledger : UsageLedger}

theorem mem_committedEntries {entries : List WriteEntry} {e : WriteDataEntry} :
    e ∈ committedEntries env adapter entries ↔
      ∃ pid, adapter.batched env entries pid e.key = some e := by
  rw [committedEntries, List.mem_flatMap]
  constructor
  · rintro ⟨⟨pid, batch⟩, hbatch, he⟩
    obtain ⟨⟨key, e'⟩, hitem, rfl⟩ := List.mem_map.mp he
    have hpid := Std.ExtTreeMap.mem_toList_iff_getElem?_eq_some.mp hbatch
    have hkey := Std.ExtTreeMap.mem_toList_iff_getElem?_eq_some.mp hitem
    dsimp only at hpid hkey ⊢
    have hsame := (groupByPartition_spec env adapter entries hpid).2.1 key e' hkey
    refine ⟨pid, ?_⟩
    rw [batched, hpid, hsame]
    exact hkey
  · rintro ⟨pid, he⟩
    obtain ⟨batch, hpid, hkey⟩ := Option.bind_eq_some_iff.mp he
    refine ⟨(pid, batch), Std.ExtTreeMap.mem_toList_iff_getElem?_eq_some.mpr hpid, ?_⟩
    exact List.mem_map.mpr
      ⟨(e.key, e), Std.ExtTreeMap.mem_toList_iff_getElem?_eq_some.mpr hkey, rfl⟩

theorem balanced_foldl (h : ledger.Balanced) (entries : List WriteDataEntry) :
    (entries.foldl UsageLedger.onCommitted ledger).Balanced :=
  List.foldlRecOn (motive := UsageLedger.Balanced) entries _ h fun _ h e _ => h.onCommitted e

/-- Entries of one key that agree leave the size they agree on. -/
theorem lookup_foldl_onCommitted (entries : List WriteDataEntry) (ledger : UsageLedger)
    (fullKey : Bytes) :
    ((∀ e ∈ entries, e.key ≠ fullKey) →
      (entries.foldl UsageLedger.onCommitted ledger).keySizeBytes[fullKey]? =
        ledger.keySizeBytes[fullKey]?) ∧
    ∀ left, (∃ e ∈ entries, e.key = fullKey) →
      (∀ e ∈ entries, e.key = fullKey → UsageLedger.sizeOf e.outcome = left) →
      (entries.foldl UsageLedger.onCommitted ledger).keySizeBytes[fullKey]? = left := by
  induction entries using List.reverseRecOn with
  | nil => exact ⟨fun _ => rfl, fun left ⟨e, he, _⟩ => by cases he⟩
  | append_singleton entries e ih =>
    rw [List.foldl_append, List.foldl_cons, List.foldl_nil, UsageLedger.lookup_onCommitted]
    refine ⟨fun hnone => ?_, fun left hsome hagree => ?_⟩
    · rw [if_neg (hnone e (by simp))]
      exact ih.1 fun e' he' => hnone e' (List.mem_append_left _ he')
    · split
      · rename_i hkey
        exact hagree e (by simp) hkey
      · rename_i hkey
        obtain ⟨e', he', hkey'⟩ := hsome
        have hmem : e' ∈ entries := by
          rcases List.mem_append.mp he' with hmem | hmem
          · exact hmem
          · rw [List.mem_singleton.mp hmem] at hkey'
            exact absurd hkey' hkey
        exact ih.2 left ⟨e', hmem, hkey'⟩ fun e'' he'' =>
          hagree e'' (List.mem_append_left _ he'')

end Committed

/-! ### What the ledger credits -/

/-- The sizes are those of the values of a store, under their composed keys. -/
structure UsageLedger.Credits (ledger : UsageLedger) (store : Store) : Prop where
  balanced : ledger.Balanced
  sizes : ∀ nameSpace key, ColonFree nameSpace →
    ledger.keySizeBytes[composeKey nameSpace key]? =
      UsageLedger.sizeOf (store.table nameSpace)[key]?
  named : ∀ fullKey, (ledger.keySizeBytes[fullKey]?).isSome →
    ∃ nameSpace key, ColonFree nameSpace ∧ fullKey = composeKey nameSpace key

section Credits
open MeteredAdapter EloqStoreAdapter UsageLedger
variable {env : Platform K} {adapter : EloqStoreAdapter} {ledger : UsageLedger} {store : Store}

theorem credits_empty : empty.Credits Store.empty where
  balanced := UsageLedger.balanced_empty
  sizes nameSpace key _ := by simp [empty, Store.empty, UsageLedger.sizeOf]
  named fullKey h := by simp [empty] at h

theorem UsageLedger.Credits.onCommitted (h : ledger.Credits store) {w : WriteEntry}
    (hw : ColonFree w.entry.nameSpace) {e : WriteDataEntry}
    (hkey : e.key = composeKey w.entry.nameSpace w.entry.key) (hleft : e.outcome = w.outcome) :
    (ledger.onCommitted e).Credits (store.applyEntry w) where
  balanced := h.balanced.onCommitted e
  sizes nameSpace key hns := by
    rw [lookup_onCommitted, Store.lookup_applyEntry, hkey, hleft, h.sizes nameSpace key hns]
    simp only [composeKey_inj hw hns]
    split <;> rfl
  named fullKey hfound := by
    rw [lookup_onCommitted] at hfound
    split at hfound
    · rename_i hsame
      exact ⟨_, _, hw, hsame.symm.trans hkey⟩
    · exact h.named fullKey hfound

/-- What a batch has for a key is one of its entries. -/
theorem batched_named {entries : List WriteEntry} {pid : Nat} {fullKey : Bytes}
    {e : WriteDataEntry} (h : adapter.batched env entries pid fullKey = some e) :
    e.key = fullKey ∧ ∃ w ∈ entries, fullKey = composeKey w.entry.nameSpace w.entry.key := by
  induction entries using List.reverseRecOn with
  | nil => simp [batched, groupByPartition] at h
  | append_singleton entries w ih =>
    rw [batched_snoc] at h
    split at h
    · rename_i hsame
      obtain rfl := Option.some.inj h
      exact ⟨rfl, w, by simp, hsame.2.symm⟩
    · obtain ⟨hkey, w', hw', hname⟩ := ih h
      exact ⟨hkey, w', List.mem_append_left _ hw', hname⟩

theorem UsageLedger.Credits.batch (h : ledger.Credits store) (env : Platform K)
    (adapter : EloqStoreAdapter) {entries : List WriteEntry}
    (hentries : ∀ w ∈ entries, ColonFree w.entry.nameSpace) :
    ((committedEntries env adapter entries).foldl UsageLedger.onCommitted ledger).Credits
      (store.apply entries) where
  balanced := balanced_foldl h.balanced _
  sizes nameSpace key hns := by
    obtain ⟨hkept, hleft⟩ := lookup_foldl_onCommitted (committedEntries env adapter entries) ledger
      (composeKey nameSpace key)
    -- a key is sent to one partition, with its last entry
    have hspec := fun pid => batched_spec env adapter store hentries pid hns key
    by_cases hsent : ∃ e ∈ committedEntries env adapter entries, e.key = composeKey nameSpace key
    · refine hleft _ hsent fun e he hkey => ?_
      obtain ⟨pid, hpid⟩ := mem_committedEntries.mp he
      have hone := hspec pid
      rw [← hkey, hpid] at hone
      exact congrArg sizeOf hone.2
    · rw [hkept fun e he hkey => hsent ⟨e, he, hkey⟩, h.sizes nameSpace key hns]
      have hone := hspec (adapter.resolvePartitionId env nameSpace key)
      rcases hbatched : adapter.batched env entries (adapter.resolvePartitionId env nameSpace key)
          (composeKey nameSpace key) with _ | e
      · rw [hbatched] at hone
        rw [hone rfl]
      · have hkey := (batched_named hbatched).1
        exact absurd ⟨e, mem_committedEntries.mpr ⟨_, by rw [hkey]; exact hbatched⟩, hkey⟩ hsent
  named fullKey hfound := by
    obtain ⟨hkept, -⟩ := lookup_foldl_onCommitted (committedEntries env adapter entries) ledger fullKey
    by_cases hsent : ∃ e ∈ committedEntries env adapter entries, e.key = fullKey
    · obtain ⟨e, he, rfl⟩ := hsent
      obtain ⟨pid, hpid⟩ := mem_committedEntries.mp he
      obtain ⟨-, w, hw, hname⟩ := batched_named hpid
      exact ⟨_, _, hentries w hw, hname⟩
    · rw [hkept fun e he hkey => hsent ⟨e, he, hkey⟩] at hfound
      exact h.named fullKey hfound

/-- A call that is fine is credited, any other leaves the ledger. -/
theorem UsageLedger.Credits.call {metered : MeteredAdapter} (h : metered.ledger.Credits store)
    (env : Platform K) (fails : Nat → Option KvError) {call : StoreCall}
    (hcall : call.Names ColonFree) :
    (metered.call env fails call).1.ledger.Credits
      (if (metered.call env fails call).2.ok = true then call.onStore store else store) := by
  cases call with
  | put nameSpace key value ts =>
    rw [MeteredAdapter.call, MeteredAdapter.put]
    dsimp only
    split
    · exact h.onCommitted (w := upsertEntry nameSpace key value ts)
        (e := ⟨composeKey nameSpace key, value, ts, .upsert⟩) hcall rfl rfl
    · exact h
  | delete nameSpace key ts =>
    rw [MeteredAdapter.call, MeteredAdapter.delete]
    dsimp only
    split
    · exact h.onCommitted (w := deleteEntry nameSpace key ts)
        (e := ⟨composeKey nameSpace key, [], ts, .delete⟩) hcall rfl rfl
    · exact h
  | batchWrite entries =>
    rw [MeteredAdapter.call, MeteredAdapter.batchWrite]
    dsimp only
    split
    · exact h.batch env metered.adapter hcall
    · exact h

end Credits

/-! ### Runs -/

/-- A call with the partitions whose requests fail, or a new start over what is stored. -/
inductive MeteredStep where
  | call (fails : Nat → Option KvError) (call : StoreCall)
  | restart

/-- The namespaces of a step are free of the separator. -/
def MeteredStep.Named : MeteredStep → Prop
  | .call _ c => c.Names ColonFree
  | .restart => True

/-- The adapter, with the writes it accepted since its start, as one ordered map. -/
structure Metering where
  metered : MeteredAdapter
  accepted : Store

namespace Metering

def start (adapter : EloqStoreAdapter) : Metering := ⟨⟨adapter, .empty⟩, .empty⟩

def next (env : Platform K) (s : Metering) : MeteredStep → Metering
  | .call fails call =>
    let (metered, result) := s.metered.call env fails call
    ⟨metered, if result.ok = true then call.onStore s.accepted else s.accepted⟩
  | .restart => start s.metered.adapter

variable {env : Platform K} {s : Metering}

theorem credits_next {step : MeteredStep} (hstep : step.Named)
    (h : s.metered.ledger.Credits s.accepted) :
    (next env s step).metered.ledger.Credits (next env s step).accepted := by
  cases step with
  | call fails call => exact h.call env fails hstep
  | restart => exact credits_empty

theorem adapter_served (metered : MeteredAdapter) (call : StoreCall) :
    (metered.call env (fun _ => none) call).1.adapter = call.onEloqStore env metered.adapter := by
  cases call with
  | put nameSpace key value ts =>
    rw [MeteredAdapter.call, MeteredAdapter.put]
    dsimp only
    split <;> rfl
  | delete nameSpace key ts =>
    rw [MeteredAdapter.call, MeteredAdapter.delete]
    dsimp only
    split <;> rfl
  | batchWrite entries =>
    rw [MeteredAdapter.call, MeteredAdapter.batchWrite]
    dsimp only
    split <;> rfl

/-- A running adapter whose requests are all served accepts every call. -/
theorem accepts_served {metered : MeteredAdapter} (h : metered.adapter.started = true)
    (call : StoreCall) : (metered.call env (fun _ => none) call).2.ok = true := by
  cases call with
  | put nameSpace key value ts =>
    have hok : (metered.adapter.put env none nameSpace key value ts).2.ok = true := by
      rw [EloqStoreAdapter.put, EloqStoreAdapter.writeOne, h]
      rfl
    rw [MeteredAdapter.call, MeteredAdapter.put]
    dsimp only
    rw [if_pos hok]
    exact hok
  | delete nameSpace key ts =>
    have hok : (metered.adapter.delete env none nameSpace key ts).2.ok = true := by
      rw [EloqStoreAdapter.delete, EloqStoreAdapter.writeOne, h]
      rfl
    rw [MeteredAdapter.call, MeteredAdapter.delete]
    dsimp only
    rw [if_pos hok]
    exact hok
  | batchWrite entries =>
    obtain ⟨-, -, -, hok, -⟩ :=
      EloqStoreAdapter.batchWrite_spec env (fun _ => none) entries h
    rw [MeteredAdapter.call, MeteredAdapter.batchWrite]
    dsimp only
    rw [if_pos (hok.mpr fun _ _ => rfl)]
    exact hok.mpr fun _ _ => rfl

theorem refines_served (h : EloqStoreAdapter.Refines env s.metered.adapter s.accepted)
    {call : StoreCall} (hcall : call.Names ColonFree) :
    EloqStoreAdapter.Refines env (next env s (.call (fun _ => none) call)).metered.adapter
      (next env s (.call (fun _ => none) call)).accepted := by
  rw [next]
  dsimp only
  rw [adapter_served, if_pos (accepts_served h.started call)]
  exact h.call hcall

/-- Whatever calls are made, whichever partitions fail and however often the adapter is
started, the usage is the number and the bytes of the values that the accepted calls since the
last start left, as counters of 64 bits. Where no request fails, and the partitions were empty
at the start, these are the values that are stored. -/
theorem eloqstore_usage_exact (env : Platform K) (adapter : EloqStoreAdapter)
    {steps : List MeteredStep} (hsteps : ∀ step ∈ steps, step.Named) :
    let last := Runs.exec (next env) (start adapter) steps
    let sizes := last.metered.ledger.keySizeBytes
    (∀ size, last.metered.approximateUsage size =
      ⟨MapTotal.total sizes % 2 ^ 64, size, sizes.size % 2 ^ 64⟩) ∧
    (∀ nameSpace key, ColonFree nameSpace → sizes[composeKey nameSpace key]? =
      ((last.accepted.table nameSpace)[key]?).map (·.value.length)) ∧
    (∀ fullKey, (sizes[fullKey]?).isSome →
      ∃ nameSpace key, ColonFree nameSpace ∧ fullKey = composeKey nameSpace key) ∧
    ∀ n, adapter = EloqStoreAdapter.fresh n →
      (∀ step ∈ steps, ∃ call, step = .call (fun _ => none) call) →
      ∀ nameSpace key, ColonFree nameSpace → sizes[composeKey nameSpace key]? =
        (last.metered.adapter.store.read
          (last.metered.adapter.resolvePartitionId env nameSpace key)
          (composeKey nameSpace key)).map (·.value.length) := by
  intro last sizes
  have hcredits : last.metered.ledger.Credits last.accepted :=
    Runs.invariant_of_forall (R := MeteredStep.Named)
      (I := fun (s : Metering) => s.metered.ledger.Credits s.accepted)
      (fun _ _ hstep hs => credits_next hstep hs) hsteps credits_empty
  refine ⟨fun size => ?_, hcredits.sizes, hcredits.named, fun n hfresh hserved ns key hns => ?_⟩
  · rw [MeteredAdapter.approximateUsage, hcredits.balanced.bytes, hcredits.balanced.items,
      UInt64.toNat_ofNat', UInt64.toNat_ofNat']
  · have hrefines : EloqStoreAdapter.Refines env last.metered.adapter last.accepted := by
      refine Runs.invariant_of_forall (R := fun step =>
        step.Named ∧ ∃ call, step = .call (fun _ => none) call)
        (I := fun (s : Metering) => EloqStoreAdapter.Refines env s.metered.adapter s.accepted)
        (fun s step hstep hs => ?_) (fun step hstep => ⟨hsteps step hstep, hserved step hstep⟩) ?_
      · obtain ⟨hnames, call, rfl⟩ := hstep
        exact refines_served hs hnames
      · rw [hfresh]
        exact EloqStoreAdapter.refines_fresh env n
    rw [hcredits.sizes ns key hns, hrefines.rows _ ns key hns, if_pos rfl]
    rfl

end Metering

section Examples
open Reference

/-- A row is put, and a batch fails at the only partition. -/
def refusedBatch : List MeteredStep :=
  [.call (fun _ => none) (.put docNs (ascii "a") (ascii "one") 1),
    .call (fun _ => some (.failed (ascii "io"))) (.batchWrite [deleteEntry docNs (ascii "a") 2])]

theorem sizes_refusedBatch :
    let sizes := (Runs.exec (Metering.next (platform ticking))
      (Metering.start (EloqStoreAdapter.fresh 1)) refusedBatch).metered.ledger.keySizeBytes
    MapTotal.total sizes % 2 ^ 64 = 3 ∧ sizes.size % 2 ^ 64 = 1 := by
  decide +kernel

/-- One value of three bytes is counted. -/
theorem eloqstore_usage_refused : (Runs.exec (Metering.next (platform ticking))
    (Metering.start (EloqStoreAdapter.fresh 1)) refusedBatch).metered.approximateUsage 512 =
      ⟨3, 512, 1⟩ := by
  have hput : (MeteredStep.call (fun _ => none) (.put docNs (ascii "a") (ascii "one") 1)).Named :=
    (by decide : ColonFree docNs)
  have hbatch : (MeteredStep.call (fun _ => some (.failed (ascii "io")))
      (.batchWrite [deleteEntry docNs (ascii "a") 2])).Named :=
    (by decide : ∀ w ∈ [deleteEntry docNs (ascii "a") 2], ColonFree w.entry.nameSpace)
  have hsteps : ∀ step ∈ refusedBatch, step.Named :=
    List.forall_mem_cons.mpr ⟨hput, List.forall_mem_singleton.mpr hbatch⟩
  obtain ⟨husage, -⟩ := Metering.eloqstore_usage_exact (platform ticking) (.fresh 1) hsteps
  refine (husage 512).trans ?_
  rw [sizes_refusedBatch.1, sizes_refusedBatch.2]

end Examples

end PoorguyMem
