import PoorguyMem.PartitionedBatch
import PoorguyMem.InMemoryStore

/-!
# The two backends

Where every partition answers, `EloqStoreAdapter` is one ordered map as well: the
row of a key lies in the partition of its routing key alone, and a scan merges
the first page of every partition into the first page of the namespace. Both
adapters then answer like the same store.
-/

namespace PoorguyMem

open ByteString SortedPages

variable {K : Type}

/-! ### Keys of a namespace -/

/-- A namespace without the separator that joins it to a key. -/
def ColonFree (nameSpace : Bytes) : Prop := 58 ∉ nameSpace

instance : DecidablePred ColonFree := fun nameSpace => inferInstanceAs (Decidable (58 ∉ nameSpace))

theorem composeKey_inj {ns ns' key key' : Bytes} (hns : ColonFree ns) (hns' : ColonFree ns') :
    composeKey ns key = composeKey ns' key' ↔ ns = ns' ∧ key = key' :=
  ⟨recordMapKey_inj hns hns', fun h => by rw [h.1, h.2]⟩

theorem le_composeKey (ns a b : Bytes) : le (composeKey ns a) (composeKey ns b) = le a b := by
  rw [le, composeKey, composeKey, compare_append_left, le]

theorem lt_composeKey (ns a b : Bytes) : lt (composeKey ns a) (composeKey ns b) = lt a b := by
  rw [lt, composeKey, composeKey, compare_append_left, lt]

/-- What lies between the first key of a namespace and its sentinel begins with
the namespace and the separator. -/
theorem prefix_of_inRange {ns key : Bytes} (hbegin : le (ns ++ ascii ":") key = true)
    (hend : lt key (ns ++ ascii ";") = true) : ns ++ ascii ":" <+: key := by
  induction ns generalizing key with
  | nil =>
    cases key with
    | nil => cases hbegin
    | cons c key =>
      rw [List.nil_append, ascii, le] at hbegin
      rw [List.nil_append, ascii, lt] at hend
      change (compare (58 :: []) (c :: key)).isLE = true at hbegin
      change (compare (c :: key) (59 :: [])).isLT = true at hend
      rw [List.compare_cons_cons] at hbegin hend
      have hlow : (58 : UInt8) ≤ c := by
        by_contra hlt
        have hcmp : compare 58 c = .gt := Std.OrientedCmp.gt_of_lt
          (Std.compare_eq_lt.mpr (UInt8.not_le.mp hlt))
        rw [hcmp] at hbegin
        cases hbegin
      have hhigh : c < (59 : UInt8) := by
        by_contra hge
        rcases UInt8.lt_or_eq_of_le (UInt8.not_lt.mp hge) with hlt | heq
        · rw [Std.OrientedCmp.gt_of_lt (Std.compare_eq_lt.mpr hlt)] at hend
          cases hend
        · rw [← heq, Std.compare_self] at hend
          cases key <;> cases hend
      have hc : c = 58 := by
        rw [UInt8.le_iff_toNat_le] at hlow
        rw [UInt8.lt_iff_toNat_lt] at hhigh
        apply UInt8.toNat_inj.mp
        simp at hlow hhigh ⊢
        omega
      rw [hc]
      exact ⟨key, rfl⟩
  | cons a ns ih =>
    cases key with
    | nil => cases hbegin
    | cons c key =>
      rw [le, List.cons_append, List.compare_cons_cons] at hbegin
      rw [lt, List.cons_append, List.compare_cons_cons] at hend
      have hac : compare a c = .eq := by
        have hca := @Std.OrientedCmp.eq_swap _ compare _ c a
        rw [hca] at hend
        cases hcmp : compare a c with
        | eq => rfl
        | lt =>
          rw [hcmp] at hend
          cases hend
        | gt =>
          rw [hcmp] at hbegin
          cases hbegin
      obtain rfl := Std.compare_eq_iff_eq.mp hac
      rw [Std.compare_self] at hbegin hend
      obtain ⟨rest, hrest⟩ := ih hbegin hend
      exact ⟨rest, by rw [List.cons_append, List.cons_append, hrest]⟩

/-! ### Batches -/

namespace EloqStoreAdapter
variable {env : Platform K} {adapter : EloqStoreAdapter} {store : Store}

/-- The last entry a batch has for a key, in the partition it is sent to. -/
def batched (env : Platform K) (adapter : EloqStoreAdapter) (entries : List WriteEntry) (pid : Nat)
    (key : Bytes) : Option WriteDataEntry :=
  (adapter.groupByPartition env entries)[pid]?.bind fun batch => batch[key]?

theorem batched_snoc (entries : List WriteEntry) (w : WriteEntry) (pid : Nat) (key : Bytes) :
    adapter.batched env (entries ++ [w]) pid key =
      if adapter.resolvePartitionId env w.entry.nameSpace w.entry.key = pid ∧
          composeKey w.entry.nameSpace w.entry.key = key then
        some ⟨key, if w.op = .delete then [] else w.entry.value, w.entry.ts, w.op⟩
      else adapter.batched env entries pid key := by
  rw [batched, batched, groupByPartition, List.foldl_append, ← groupByPartition]
  rw [List.foldl_cons, List.foldl_nil, Std.ExtTreeMap.getElem?_insert]
  simp only [Std.compare_eq_iff_eq]
  by_cases hpid : adapter.resolvePartitionId env w.entry.nameSpace w.entry.key = pid
  · subst hpid
    rw [if_pos rfl, Option.bind_some, lookup_insert]
    simp only [true_and]
    split
    · rename_i hkey
      rw [hkey]
    · rw [Std.ExtTreeMap.getD_eq_getD_getElem?]
      cases (adapter.groupByPartition env entries)[
        adapter.resolvePartitionId env w.entry.nameSpace w.entry.key]? <;> simp
  · rw [if_neg hpid, if_neg fun h => hpid h.1]

/-- What a batch has for a key is what applying its entries one by one comes to. -/
theorem batched_spec (env : Platform K) (adapter : EloqStoreAdapter) (store : Store)
    {entries : List WriteEntry} (hentries : ∀ w ∈ entries, ColonFree w.entry.nameSpace) (pid : Nat)
    {nameSpace : Bytes} (hns : ColonFree nameSpace) (key : Bytes) :
    match adapter.batched env entries pid (composeKey nameSpace key) with
    | some e => pid = adapter.resolvePartitionId env nameSpace key ∧
        e.outcome = ((store.apply entries).table nameSpace)[key]?
    | none => pid = adapter.resolvePartitionId env nameSpace key →
        ((store.apply entries).table nameSpace)[key]? = (store.table nameSpace)[key]? := by
  induction entries using List.reverseRecOn with
  | nil => exact fun _ => rfl
  | append_singleton entries w ih =>
    have hw := hentries w (List.mem_append_right _ (List.mem_singleton_self w))
    have ih := ih fun x hx => hentries x (List.mem_append_left _ hx)
    have happly : store.apply (entries ++ [w]) = (store.apply entries).applyEntry w := by
      rw [Store.apply, Store.apply, List.foldl_append]
      rfl
    rw [batched_snoc, happly, Store.lookup_applyEntry]
    by_cases hsame : w.entry.nameSpace = nameSpace ∧ w.entry.key = key
    · obtain ⟨rfl, rfl⟩ := hsame
      simp only [and_true, and_self, if_true]
      by_cases hpid : adapter.resolvePartitionId env w.entry.nameSpace w.entry.key = pid
      · rw [if_pos hpid]
        refine ⟨hpid.symm, ?_⟩
        rw [WriteDataEntry.outcome, WriteEntry.outcome]
        cases w.op <;> rfl
      · -- the key is routed to another partition
        rw [if_neg hpid]
        split
        · rename_i hbatched
          rw [hbatched] at ih
          exact absurd ih.1.symm hpid
        · exact fun hroute => absurd hroute.symm hpid
    · rw [if_neg fun h => hsame ((composeKey_inj hw hns).mp h.2), if_neg hsame]
      exact ih

/-! ### The adapter is one ordered map -/

/-- All partitions answer, no page is cut short by its size, and the row of a key
lies in the partition the key is routed to. -/
structure Refines (env : Platform K) (adapter : EloqStoreAdapter) (store : Store) : Prop where
  started : adapter.started = true
  paginate : ∀ limit bytes rows, adapter.store.paginate limit bytes rows = rows.take limit
  written : ∀ pid, (adapter.store.partition pid).isSome
  rows : ∀ pid nameSpace key, ColonFree nameSpace →
    adapter.store.read pid (composeKey nameSpace key) =
      if pid = adapter.resolvePartitionId env nameSpace key then (store.table nameSpace)[key]?
      else none

theorem Refines.batchWrite (h : Refines env adapter store) (entries : List WriteEntry)
    (hentries : ∀ w ∈ entries, ColonFree w.entry.nameSpace) :
    Refines env (adapter.batchWrite env (fun _ => none) entries).1 (store.apply entries) := by
  obtain ⟨next, heq, hpage, -, hwritten, hkept⟩ :=
    batchWrite_spec env (fun _ => none) entries h.started
  rw [heq]
  -- every batch is written, since no request fails
  have hcases : ∀ pid, (∃ batch, (adapter.groupByPartition env entries)[pid]? = some batch ∧
      next.partition pid = some (EloqStore.applyBatch (adapter.store.partition pid) batch)) ∨
      (adapter.groupByPartition env entries)[pid]? = none ∧
        next.partition pid = adapter.store.partition pid := by
    intro pid
    rcases hbatch : (adapter.groupByPartition env entries)[pid]? with _ | batch
    · refine Or.inr ⟨rfl, hkept pid ?_⟩
      rintro batch ⟨hmem, -⟩
      cases hbatch.symm.trans (Std.ExtTreeMap.mem_toList_iff_getElem?_eq_some.mp hmem)
    · exact Or.inl ⟨batch, rfl, hwritten pid batch
        ⟨Std.ExtTreeMap.mem_toList_iff_getElem?_eq_some.mpr hbatch, fun _ _ _ => rfl⟩⟩
  constructor
  case started => exact h.started
  case paginate =>
    intro limit bytes rows
    change next.paginate limit bytes rows = _
    rw [hpage]
    exact h.paginate limit bytes rows
  case written =>
    intro pid
    change (next.partition pid).isSome
    rcases hcases pid with ⟨batch, -, hnext⟩ | ⟨-, hnext⟩
    · rw [hnext]
      rfl
    · rw [hnext]
      exact h.written pid
  case rows =>
    intro pid nameSpace key hns
    have hold := h.rows pid nameSpace key hns
    have hspec := batched_spec env adapter store hentries pid hns key
    have hread : next.read pid (composeKey nameSpace key) =
        match adapter.batched env entries pid (composeKey nameSpace key) with
        | some e => e.outcome
        | none => adapter.store.read pid (composeKey nameSpace key) := by
      rw [batched]
      rcases hcases pid with ⟨batch, hbatch, hnext⟩ | ⟨hbatch, hnext⟩
      · rw [hbatch, Option.bind_some]
        exact read_written (groupByPartition_spec env adapter entries hbatch).2.1 hnext _
      · rw [hbatch, EloqStore.read, hnext]
        rfl
    change next.read pid (composeKey nameSpace key) =
      if pid = adapter.resolvePartitionId env nameSpace key then _ else none
    rw [hread]
    split at hspec
    · rename_i e hbatched
      rw [if_pos hspec.1]
      exact hspec.2
    · rw [hold]
      split
      · rename_i hroute
        exact (hspec hroute).symm
      · rfl

/-- A single write is a batch of one entry. -/
theorem writeOne_eq (op : WriteOp) (nameSpace key value : Bytes) (ts : UInt64)
    (hvalue : op = .delete → value = []) :
    (adapter.writeOne env none op nameSpace key value ts).1 =
      (adapter.batchWrite env (fun _ => none) [⟨op, ⟨nameSpace, key, value, ts⟩⟩]).1 := by
  rw [writeOne, EloqStoreAdapter.batchWrite]
  split
  · rfl
  · have hsent : (if op = .delete then [] else value) = value := by
      split
      · rename_i hop
        exact (hvalue hop).symm
      · rfl
    have hgroup : adapter.groupByPartition env [⟨op, ⟨nameSpace, key, value, ts⟩⟩] =
        (∅ : Std.ExtTreeMap Nat (StringMap WriteDataEntry) compare).insert
          (adapter.resolvePartitionId env nameSpace key)
          ((∅ : StringMap WriteDataEntry).insert (composeKey nameSpace key)
            ⟨composeKey nameSpace key, value, ts, op⟩) := by
      rw [groupByPartition, List.foldl_cons, List.foldl_nil]
      dsimp only
      rw [hsent]
      congr 2
    rw [hgroup]
    rfl

theorem Refines.get (h : Refines env adapter store) {nameSpace : Bytes} (hns : ColonFree nameSpace)
    (key : Bytes) : adapter.get env nameSpace key = store.get nameSpace key := by
  have hrow := h.rows (adapter.resolvePartitionId env nameSpace key) nameSpace key hns
  rw [if_pos rfl] at hrow
  rw [EloqStoreAdapter.get, h.started, Store.get, hrow]
  rfl

/-! ### Scans -/

/-- The upper end of a scan. -/
def lastKey (nameSpace endKey : Bytes) : Bytes :=
  if endKey = [] then nameSpace ++ ascii ";" else composeKey nameSpace endKey

theorem lt_lastKey (nameSpace endKey key : Bytes) :
    lt (composeKey nameSpace key) (lastKey nameSpace endKey) = true ↔
      endKey = [] ∨ lt key endKey = true := by
  rw [lastKey]
  split
  · rename_i hend
    simp [hend, (inRange_composeKey nameSpace key).2]
  · rename_i hend
    simp [hend, lt_composeKey]

/-- Whatever a scan of a partition finds belongs to the namespace. -/
theorem prefix_of_scanned {nameSpace begin endKey key : Bytes}
    (hbegin : le (composeKey nameSpace begin) key = true)
    (hend : lt key (lastKey nameSpace endKey) = true) : nameSpace ++ ascii ":" <+: key := by
  refine prefix_of_inRange (le_trans ?_ hbegin) ?_
  · have hfirst := (inRange_composeKey nameSpace begin).1
    rwa [composeKey, List.append_nil] at hfirst
  · rw [lastKey] at hend
    split at hend
    · exact hend
    · exact Ordering.isLT_iff_eq_lt.mpr (Std.TransCmp.lt_trans (Ordering.isLT_iff_eq_lt.mp hend)
        (Ordering.isLT_iff_eq_lt.mp (inRange_composeKey nameSpace endKey).2))

/-- The entries of a partition in a range of a namespace. -/
def foundInRange (store : EloqStore) (nameSpace begin endKey : Bytes) (pid : Nat) :
    List KeyValueEntry :=
  (((store.partition pid).getD ∅).toList.filter fun kv =>
    le (composeKey nameSpace begin) kv.1 && lt kv.1 (lastKey nameSpace endKey)).filterMap
      (rowEntry nameSpace)

theorem mem_foundInRange {store : EloqStore} {nameSpace begin endKey : Bytes} {pid : Nat}
    {e : KeyValueEntry} : e ∈ foundInRange store nameSpace begin endKey pid ↔
      e.nameSpace = nameSpace ∧
        store.read pid (composeKey nameSpace e.key) = some ⟨e.value, e.ts⟩ ∧
          InRange begin endKey e.key := by
  have hread : store.read pid (composeKey nameSpace e.key) = some ⟨e.value, e.ts⟩ ↔
      (composeKey nameSpace e.key, (⟨e.value, e.ts⟩ : StoredValue)) ∈
        ((store.partition pid).getD ∅).toList := by
    rw [Std.ExtTreeMap.mem_toList_iff_getElem?_eq_some, EloqStore.read]
    cases store.partition pid <;> simp
  simp only [foundInRange, List.mem_filterMap, List.mem_filter, rowEntry_eq_some, hread, InRange,
    Bool.and_eq_true]
  constructor
  · rintro ⟨row, ⟨hrow, hbegin, hend⟩, hns, rfl⟩
    refine ⟨hns, hrow, ?_, (lt_lastKey nameSpace endKey e.key).mp hend⟩
    rwa [le_composeKey] at hbegin
  · rintro ⟨hns, hrow, hbegin, hend⟩
    refine ⟨_, ⟨hrow, ?_, (lt_lastKey nameSpace endKey e.key).mpr hend⟩, hns, rfl⟩
    rwa [le_composeKey]

theorem pairwise_foundInRange {store : EloqStore} {nameSpace begin endKey : Bytes} {pid : Nat} :
    (foundInRange store nameSpace begin endKey pid).Pairwise KeyBefore := by
  refine List.Pairwise.filterMap _ ?_ (((store.partition pid).getD ∅).pairwise_toList.filter _)
  intro a b hab e he e' he'
  obtain ⟨-, rfl⟩ := rowEntry_eq_some.mp he
  obtain ⟨-, rfl⟩ := rowEntry_eq_some.mp he'
  rwa [lt_composeKey] at hab

/-- The rows of a page are entries of the namespace, none left out. -/
theorem filterMap_take {α β : Type} {f : α → Option β} {l : List α} (h : ∀ a ∈ l, (f a).isSome)
    (n : Nat) : (l.take n).filterMap f = (l.filterMap f).take n := by
  induction l generalizing n with
  | nil => simp
  | cons a l ih =>
    obtain ⟨b, hb⟩ := Option.isSome_iff_exists.mp (h a List.mem_cons_self)
    cases n with
    | zero => simp
    | succ n =>
      rw [List.take_succ_cons, List.filterMap_cons_some hb, List.filterMap_cons_some hb,
        List.take_succ_cons, ih fun x hx => h x (List.mem_cons_of_mem _ hx)]

/-- What a scan with a limit takes of a list. -/
def firstPage {α : Type} (limit : Nat) (l : List α) : List α :=
  if 0 < limit then l.take limit else l

/-- A scan goes through the first pages of all partitions. -/
theorem Refines.scanLoop_eq (h : Refines env adapter store) (nameSpace begin endKey : Bytes)
    (limit : Nat) (pids : List Nat) (out : List KeyValueEntry) :
    scanLoop adapter.store nameSpace (composeKey nameSpace begin) (lastKey nameSpace endKey) limit
        pids out =
      (out ++ pids.flatMap fun pid =>
        firstPage limit (foundInRange adapter.store nameSpace begin endKey pid), none) := by
  induction pids generalizing out with
  | nil => simp [scanLoop]
  | cons pid pids ih =>
    obtain ⟨rows, hp⟩ := Option.isSome_iff_exists.mp (h.written pid)
    let inRange := rows.toList.filter fun kv =>
      le (composeKey nameSpace begin) kv.1 && lt kv.1 (lastKey nameSpace endKey)
    have hscan : adapter.store.scan pid (composeKey nameSpace begin) (lastKey nameSpace endKey)
        limit = .ok (firstPage limit inRange) := by
      rw [EloqStore.scan, hp]
      dsimp only
      rw [h.paginate]
      rfl
    have hfound : (firstPage limit inRange).filterMap (rowEntry nameSpace) =
        firstPage limit (foundInRange adapter.store nameSpace begin endKey pid) := by
      have hrows : foundInRange adapter.store nameSpace begin endKey pid =
          inRange.filterMap (rowEntry nameSpace) := by
        rw [foundInRange, hp, Option.getD_some]
      rw [hrows, firstPage, firstPage]
      split
      · refine filterMap_take (fun kv hkv => ?_) limit
        have hrange := (List.mem_filter.mp hkv).2
        rw [Bool.and_eq_true] at hrange
        rw [rowEntry, if_pos (List.isPrefixOf_iff_prefix.mpr
          (prefix_of_scanned hrange.1 hrange.2))]
        rfl
      · rfl
    rw [scanLoop, hscan]
    dsimp only
    rw [ih, hfound, List.flatMap_cons, List.append_assoc]

/-- A scan of the partitions is a scan of the store. -/
theorem Refines.scan (h : Refines env adapter store) {nameSpace : Bytes}
    (hns : ColonFree nameSpace) (begin endKey : Bytes) (limit : Nat) :
    adapter.scan nameSpace begin endKey limit = store.scan nameSpace begin endKey limit := by
  let found := foundInRange adapter.store nameSpace begin endKey
  let entries := (store.table nameSpace).rangeEntries nameSpace begin endKey
  let out := (List.range adapter.numPartitions).flatMap fun pid => firstPage limit (found pid)
  have hfound : ∀ pid e, e ∈ found pid ↔ e.nameSpace = nameSpace ∧
      (if pid = adapter.resolvePartitionId env nameSpace e.key then (store.table nameSpace)[e.key]?
        else none) = some ⟨e.value, e.ts⟩ ∧ InRange begin endKey e.key := by
    intro pid e
    rw [mem_foundInRange, h.rows pid nameSpace e.key hns]
  have hrouted : ∀ pid e, e ∈ found pid → pid = adapter.resolvePartitionId env nameSpace e.key := by
    intro pid e he
    obtain ⟨-, hread, -⟩ := (hfound pid e).mp he
    by_contra hother
    rw [if_neg hother] at hread
    cases hread
  have hpage : ∀ pid, (firstPage limit (found pid)).Sublist (found pid) := by
    intro pid
    rw [firstPage]
    split
    · exact List.take_sublist _ _
    · exact List.Sublist.refl _
  have hdistinct : out.Pairwise fun a b => a.key ≠ b.key := by
    refine List.pairwise_flatMap.mpr ⟨fun pid _ => ?_, ?_⟩
    · refine (pairwise_foundInRange.sublist (hpage pid)).imp fun {a b} hab hkey => ?_
      rw [KeyBefore, hkey, lt, Std.compare_self] at hab
      cases hab
    · refine (List.pairwise_lt_range (n := adapter.numPartitions)).imp ?_
      intro p q hpq a ha b hb hkey
      have hp := hrouted p a ((hpage p).subset ha)
      have hq := hrouted q b ((hpage q).subset hb)
      rw [hkey] at hp
      omega
  have hsorted := pairwise_sorted hdistinct
  have hdestutter : (out.insertionSort fun l r => entryBefore r l = false).destutter
      (fun kept entry => kept.key ≠ entry.key) =
        out.insertionSort fun l r => entryBefore r l = false :=
    List.destutter_of_isChain _ _ (((List.perm_insertionSort _ out).pairwise_iff
      fun {a b} hab => Ne.symm hab).mpr hdistinct).isChain
  have hmem : ∀ e, e ∈ entries ↔
      ∃ p ∈ (List.range adapter.numPartitions).map found, e ∈ p := by
    intro e
    simp only [entries, Table.mem_rangeEntries, List.mem_map, List.mem_range,
      exists_exists_and_eq_and, hfound]
    constructor
    · rintro ⟨hens, hread, hrange⟩
      exact ⟨_, adapter.resolvePartitionId_lt env nameSpace e.key, hens, (if_pos rfl).trans hread,
        hrange⟩
    · rintro ⟨pid, -, hens, hread, hrange⟩
      split at hread
      · exact ⟨hens, hread, hrange⟩
      · cases hread
  have hresult : firstPage limit (out.insertionSort fun l r => entryBefore r l = false) =
      firstPage limit entries := by
    have hpages : ∀ e, e ∈ out.insertionSort (fun l r => entryBefore r l = false) ↔
        ∃ p ∈ (List.range adapter.numPartitions).map found, e ∈ firstPage limit p := by
      intro e
      simp only [List.mem_insertionSort, out, List.mem_flatMap, List.mem_map,
        exists_exists_and_eq_and]
    simp only [firstPage] at hpages ⊢
    split
    · rename_i hlimit
      simp only [if_pos hlimit] at hpages
      refine take_merge (fun p hp => ?_) Table.pairwise_rangeEntries hsorted hmem hpages
      obtain ⟨pid, -, rfl⟩ := List.mem_map.mp hp
      exact pairwise_foundInRange
    · rename_i hlimit
      simp only [if_neg hlimit] at hpages
      exact hsorted.eq_of_mem_iff Table.pairwise_rangeEntries fun e =>
        (hpages e).trans (hmem e).symm
  have hloop := h.scanLoop_eq nameSpace begin endKey limit (List.range adapter.numPartitions) []
  rw [lastKey, List.nil_append] at hloop
  rw [EloqStoreAdapter.scan, h.started]
  simp only [Bool.not_true, Bool.false_eq_true, if_false, hloop]
  rw [Store.scan_eq]
  dsimp only
  rw [hdestutter]
  exact congrArg (fun entries => (⟨entries, []⟩ : ScanResult)) hresult

end EloqStoreAdapter

/-! ### Runs -/

/-- The calls of a store adapter that change it. -/
inductive StoreCall where
  | put (nameSpace key value : Bytes) (ts : UInt64)
  | delete (nameSpace key : Bytes) (ts : UInt64)
  | batchWrite (entries : List WriteEntry)

namespace StoreCall

/-- The namespaces a call names satisfy `P`. -/
def Names (P : Bytes → Prop) : StoreCall → Prop
  | put nameSpace _ _ _ => P nameSpace
  | delete nameSpace _ _ => P nameSpace
  | batchWrite entries => ∀ w ∈ entries, P w.entry.nameSpace

instance {P : Bytes → Prop} [DecidablePred P] : DecidablePred (Names P)
  | put nameSpace _ _ _ => inferInstanceAs (Decidable (P nameSpace))
  | delete nameSpace _ _ => inferInstanceAs (Decidable (P nameSpace))
  | batchWrite entries => inferInstanceAs (Decidable (∀ w ∈ entries, P w.entry.nameSpace))

/-- The call on one ordered map. -/
def onStore (store : Store) : StoreCall → Store
  | put nameSpace key value ts => store.applyEntry (upsertEntry nameSpace key value ts)
  | delete nameSpace key ts => store.applyEntry (deleteEntry nameSpace key ts)
  | batchWrite entries => store.apply entries

def onInMemory (env : Platform K) (adapter : InMemoryStoreAdapter) :
    StoreCall → InMemoryStoreAdapter
  | put nameSpace key value ts => (adapter.put env nameSpace key value ts).1
  | delete nameSpace key ts => (adapter.delete env nameSpace key ts).1
  | batchWrite entries => (adapter.batchWrite env entries).1

/-- The call where every request succeeds. -/
def onEloqStore (env : Platform K) (adapter : EloqStoreAdapter) : StoreCall → EloqStoreAdapter
  | put nameSpace key value ts => (adapter.put env none nameSpace key value ts).1
  | delete nameSpace key ts => (adapter.delete env none nameSpace key ts).1
  | batchWrite entries => (adapter.batchWrite env (fun _ => none) entries).1

end StoreCall

/-- A started adapter over empty partitions, all of which answer, with pages that
only their limit cuts; a configured count of zero counts as one. -/
def EloqStoreAdapter.fresh (numPartitions : Nat) : EloqStoreAdapter where
  started := true
  numPartitions := max 1 numPartitions
  numPartitions_pos := max_one_pos numPartitions
  store := ⟨fun _ => some ∅, fun limit _ rows => rows.take limit⟩

section Runs
variable {env : Platform K}

theorem InMemoryStoreAdapter.Refines.call {adapter : InMemoryStoreAdapter} {store : Store}
    (h : Refines env adapter store) (call : StoreCall) :
    Refines env (call.onInMemory env adapter) (call.onStore store) := by
  cases call with
  | put nameSpace key value ts => exact h.put nameSpace key value ts
  | delete nameSpace key ts => exact h.delete nameSpace key ts
  | batchWrite entries => exact h.batchWrite entries

theorem EloqStoreAdapter.Refines.call {adapter : EloqStoreAdapter} {store : Store}
    (h : Refines env adapter store) {call : StoreCall} (hcall : call.Names ColonFree) :
    Refines env (call.onEloqStore env adapter) (call.onStore store) := by
  cases call with
  | put nameSpace key value ts =>
    have hone := h.batchWrite [upsertEntry nameSpace key value ts]
      fun w hw => List.mem_singleton.mp hw ▸ hcall
    rw [upsertEntry, ← writeOne_eq _ _ _ _ _ (by simp)] at hone
    exact hone
  | delete nameSpace key ts =>
    have hone := h.batchWrite [deleteEntry nameSpace key ts]
      fun w hw => List.mem_singleton.mp hw ▸ hcall
    rw [deleteEntry, ← writeOne_eq _ _ _ _ _ (by simp)] at hone
    exact hone
  | batchWrite entries => exact h.batchWrite entries hcall

theorem EloqStoreAdapter.refines_fresh (env : Platform K) (numPartitions : Nat) :
    Refines env (fresh numPartitions) Store.empty where
  started := rfl
  paginate _ _ _ := rfl
  written _ := rfl
  rows pid nameSpace key _ := by simp [fresh, EloqStore.read, Store.empty]

/-- The two adapters over what the same calls leave, and the store they both refine. -/
theorem refines_run (env : Platform K) (numPartitions : Nat) {calls : List StoreCall}
    (h : ∀ call ∈ calls, call.Names ColonFree) :
    let store := Runs.exec StoreCall.onStore Store.empty calls
    InMemoryStoreAdapter.Refines env
        (Runs.exec (StoreCall.onInMemory env) InMemoryStoreAdapter.empty calls) store ∧
      EloqStoreAdapter.Refines env
        (Runs.exec (StoreCall.onEloqStore env) (EloqStoreAdapter.fresh numPartitions) calls)
          store := by
  induction calls using List.reverseRecOn with
  | nil => exact ⟨InMemoryStoreAdapter.refines_empty env, EloqStoreAdapter.refines_fresh env _⟩
  | append_singleton calls call ih =>
    obtain ⟨hmem, heloq⟩ := ih fun c hc => h c (List.mem_append_left _ hc)
    simp only [Runs.exec_append]
    exact ⟨hmem.call call, heloq.call (h call (List.mem_append_right _
      (List.mem_singleton_self call)))⟩

end Runs

end PoorguyMem
