import PoorguyMem.Layout

/-!
# What a re-partitioning keeps

A re-partitioning copies before it deletes, so whatever request it stops at,
every entry is somewhere on the disk with its value. One that ends has taken
every entry to the partition that owns it. What an interrupted one left is put
right by the next that runs; whether one runs is decided by metadata that still
describes the layout before it.
-/

namespace PoorguyMem

open ByteString

variable {K : Type}

/-- The values stored under the keys of the namespaces. -/
abbrev Content := Bytes → Bytes → Option StoredValue

/-- Every entry is somewhere on the disk, and the disk holds nothing else. -/
structure Intact (disk : Disk) (content : Content) : Prop where
  rows : ∀ pid fullKey v, disk.store.read pid fullKey = some v →
    ∃ ns ∈ rehashNamespaces, ∃ key, fullKey = composeKey ns key ∧ content ns key = some v
  kept : ∀ ns key v, content ns key = some v →
    ns ∈ rehashNamespaces ∧ ∃ pid, disk.store.read pid (composeKey ns key) = some v

/-- Every row lies in the partition that owns it, but for the pending ones. -/
def Placed (env : Platform K) (count : Nat) (disk : Disk) (pending : List (Nat × Bytes)) : Prop :=
  ∀ pid, ∀ ns ∈ rehashNamespaces, ∀ key v, disk.store.read pid (composeKey ns key) = some v →
    pid = partitionFor env count ns key ∨ (pid, ns) ∈ pending

/-- No row is lost or changed. -/
def Grows (disk disk' : Disk) : Prop :=
  ∀ pid key v, disk.store.read pid key = some v → disk'.store.read pid key = some v

section Rows
variable {disk disk' : Disk} {content : Content} {ns ns' key : Bytes} {pid : Nat} {v : StoredValue}

theorem Intact.value (h : Intact disk content) (hns : ns ∈ rehashNamespaces)
    (hread : disk.store.read pid (composeKey ns key) = some v) : content ns key = some v := by
  obtain ⟨ns', hns', key', hkey, hv⟩ := h.rows _ _ _ hread
  obtain ⟨rfl, rfl⟩ := (composeKey_inj (colonFree_rehashNamespaces _ hns)
    (colonFree_rehashNamespaces _ hns')).mp hkey
  exact hv

theorem Disk.read_batchWrite (disk : Disk) (pid : Nat) {batch : StringMap WriteDataEntry}
    (hkeyed : Keyed batch) (p : Nat) (fullKey : Bytes) :
    (disk.batchWrite pid batch).store.read p fullKey =
      if p = pid then
        match batch[fullKey]? with
        | some e => e.outcome
        | none => disk.store.read p fullKey
      else disk.store.read p fullKey := by
  change ((Function.update disk.store.partition pid _) p).bind _ = _
  split
  · rename_i hp
    subst hp
    rw [Function.update_self, Option.bind_some, lookup_applyBatch hkeyed]
    rfl
  · rename_i hp
    rw [Function.update_of_ne hp]
    rfl

theorem Disk.read_removeDirectory {disk : Disk} {pid : Nat}
    (h : ∀ fullKey, disk.store.read pid fullKey = none) (p : Nat) (fullKey : Bytes) :
    (disk.removeDirectory pid).store.read p fullKey = disk.store.read p fullKey := by
  change ((Function.update disk.store.partition pid none) p).bind _ = _
  by_cases hp : p = pid
  · subst hp
    rw [Function.update_self, h]
    rfl
  · rw [Function.update_of_ne hp]
    rfl

/-- What a disk keeps depends on its rows. -/
theorem Intact.of_read (h : Intact disk content)
    (hread : ∀ p fullKey, disk'.store.read p fullKey = disk.store.read p fullKey) :
    Intact disk' content where
  rows p fullKey v hv := h.rows p fullKey v (hread p fullKey ▸ hv)
  kept ns key v hv := by
    obtain ⟨hns, p, hp⟩ := h.kept ns key v hv
    exact ⟨hns, p, (hread p _).trans hp⟩

end Rows

/-! ### The batches of one namespace -/

/-- A batch of entries with their values for a partition that owns them. -/
structure OwnedBatch (env : Platform K) (count : Nat) (content : Content) (ns : Bytes) (pid : Nat)
    (batch : StringMap WriteDataEntry) : Prop where
  keyed : Keyed batch
  entries : ∀ (fullKey : Bytes) e, batch[fullKey]? = some e → ∃ key v,
    fullKey = composeKey ns key ∧ pid = partitionFor env count ns key ∧
      content ns key = some v ∧ e.outcome = some v

/-- The moves collected from the rows of a source. -/
structure Moves.Collected (env : Platform K) (count source : Nat) (ns : Bytes)
    (rows : List (Bytes × StoredValue)) (moves : Moves) : Prop where
  upserts : ∀ (pid : Nat) batch, moves.upserts[pid]? = some batch → pid ≠ source ∧ Keyed batch ∧
    ∀ (fullKey : Bytes) e, batch[fullKey]? = some e → ∃ key v,
      fullKey = composeKey ns key ∧ pid = partitionFor env count ns key ∧
        (fullKey, v) ∈ rows ∧ e.outcome = some v
  keyed : Keyed moves.deletes
  deletes : ∀ (fullKey : Bytes) e, moves.deletes[fullKey]? = some e → e.outcome = none ∧
    ∃ key, fullKey = composeKey ns key ∧ partitionFor env count ns key ≠ source ∧
      ∃ batch, moves.upserts[partitionFor env count ns key]? = some batch ∧
        (batch[fullKey]?).isSome
  complete : ∀ key v, (composeKey ns key, v) ∈ rows →
    partitionFor env count ns key = source ∨ (moves.deletes[composeKey ns key]?).isSome

theorem collected_collect (env : Platform K) (count source : Nat) (ns : Bytes)
    (rows : List (Bytes × StoredValue)) : Moves.Collected env count source ns rows
      (rows.foldl (Moves.collect env count source ns) ⟨∅, ∅⟩) := by
  induction rows using List.reverseRecOn with
  | nil =>
    refine ⟨fun pid batch h => absurd h (by simp), fun key e h => absurd h (by simp),
      fun key e h => absurd h (by simp), fun key v h => (by cases h)⟩
  | append_singleton rows row ih =>
    rw [List.foldl_append, List.foldl_cons, List.foldl_nil]
    generalize rows.foldl (Moves.collect env count source ns) ⟨∅, ∅⟩ = moves at ih
    rw [Moves.collect]
    rcases hentry : EloqStoreAdapter.rowEntry ns row with _ | e
    · refine { ih with upserts := fun pid batch h => ?_, complete := fun key v h => ?_ }
      · obtain ⟨hne, hkeyed, hbatch⟩ := ih.upserts pid batch h
        refine ⟨hne, hkeyed, fun fullKey e he => ?_⟩
        obtain ⟨key, v, hkey, hpid, hmem, hv⟩ := hbatch fullKey e he
        exact ⟨key, v, hkey, hpid, List.mem_append_left _ hmem, hv⟩
      · rcases List.mem_append.mp h with h | h
        · exact ih.complete key v h
        · -- the row would be an entry of the namespace
          have hsome : EloqStoreAdapter.rowEntry ns row = some ⟨ns, key, v.value, v.ts⟩ :=
            EloqStoreAdapter.rowEntry_eq_some.mpr ⟨rfl, (List.mem_singleton.mp h).symm⟩
          cases hentry.symm.trans hsome
    · obtain ⟨hns, rfl⟩ := EloqStoreAdapter.rowEntry_eq_some.mp hentry
      dsimp only
      have hmono : ∀ (pid : Nat) (batch : StringMap WriteDataEntry),
          (∀ (fullKey : Bytes) e', batch[fullKey]? = some e' → ∃ key v,
            fullKey = composeKey ns key ∧ pid = partitionFor env count ns key ∧
              (fullKey, v) ∈ rows ∧ e'.outcome = some v) →
          ∀ (fullKey : Bytes) e', batch[fullKey]? = some e' → ∃ key v,
            fullKey = composeKey ns key ∧ pid = partitionFor env count ns key ∧
              (fullKey, v) ∈ rows ++ [(composeKey ns e.key, ⟨e.value, e.ts⟩)] ∧
                e'.outcome = some v := by
        intro pid batch hbatch fullKey e' he'
        obtain ⟨key, v, hkey, hpid, hmem, hv⟩ := hbatch fullKey e' he'
        exact ⟨key, v, hkey, hpid, List.mem_append_left _ hmem, hv⟩
      by_cases htarget : partitionFor env count ns e.key = source
      · rw [if_pos htarget]
        refine { ih with upserts := fun pid batch h => ?_, complete := fun key v h => ?_ }
        · obtain ⟨hne, hkeyed, hbatch⟩ := ih.upserts pid batch h
          exact ⟨hne, hkeyed, hmono pid batch hbatch⟩
        · rcases List.mem_append.mp h with h | h
          · exact ih.complete key v h
          · have hkey := (Prod.mk.inj (List.mem_singleton.mp h)).1
            rw [List.append_cancel_left hkey]
            exact Or.inl htarget
      · rw [if_neg htarget]
        let target := partitionFor env count ns e.key
        let added : WriteDataEntry := ⟨composeKey ns e.key, e.value, e.ts, .upsert⟩
        have hold : ∀ (fullKey : Bytes) e', (moves.upserts.getD target ∅)[fullKey]? = some e' →
            ∃ batch, moves.upserts[target]? = some batch ∧ batch[fullKey]? = some e' := by
          intro fullKey e' he'
          rw [Std.ExtTreeMap.getD_eq_getD_getElem?] at he'
          rcases hb : moves.upserts[target]? with _ | batch
          · rw [hb] at he'
            simp at he'
          · rw [hb] at he'
            exact ⟨batch, rfl, he'⟩
        constructor
        case upserts =>
          intro pid batch h
          dsimp only at h
          rw [Std.ExtTreeMap.getElem?_insert] at h
          simp only [Std.compare_eq_iff_eq] at h
          split at h
          · rename_i hpid
            subst hpid
            obtain rfl := Option.some.inj h
            refine ⟨htarget, fun fullKey e' he' => ?_, fun fullKey e' he' => ?_⟩ <;>
              rw [lookup_insert] at he' <;> split at he'
            · rename_i hkey
              obtain rfl := Option.some.inj he'
              exact hkey
            · obtain ⟨batch, hb, he'⟩ := hold fullKey e' he'
              exact (ih.upserts _ batch hb).2.1 fullKey e' he'
            · rename_i hkey
              obtain rfl := Option.some.inj he'
              exact ⟨e.key, ⟨e.value, e.ts⟩, hkey.symm, rfl,
                List.mem_append_right _ (by rw [← hkey]; exact List.mem_singleton_self _), rfl⟩
            · obtain ⟨batch, hb, he'⟩ := hold fullKey e' he'
              exact hmono _ batch (ih.upserts _ batch hb).2.2 fullKey e' he'
          · obtain ⟨hne, hkeyed, hbatch⟩ := ih.upserts pid batch h
            exact ⟨hne, hkeyed, hmono pid batch hbatch⟩
        case keyed =>
          intro fullKey e' he'
          dsimp only at he'
          rw [lookup_insert] at he'
          split at he'
          · rename_i hkey
            obtain rfl := Option.some.inj he'
            exact hkey
          · exact ih.keyed fullKey e' he'
        case deletes =>
          intro fullKey e' he'
          dsimp only at he' ⊢
          rw [lookup_insert] at he'
          split at he'
          · rename_i hkey
            obtain rfl := Option.some.inj he'
            refine ⟨rfl, e.key, hkey.symm, htarget,
              (moves.upserts.getD target ∅).insert (composeKey ns e.key) added, ?_, ?_⟩
            · simp [target, added]
            · rw [← hkey, lookup_insert, if_pos rfl]
              rfl
          · obtain ⟨hnone, key, hkey, hne, batch, hb, hsome⟩ := ih.deletes fullKey e' he'
            refine ⟨hnone, key, hkey, hne, ?_⟩
            by_cases hpid : target = partitionFor env count ns key
            · refine ⟨(moves.upserts.getD target ∅).insert (composeKey ns e.key) added, ?_, ?_⟩
              · rw [← hpid]
                simp [target, added]
              · rw [lookup_insert]
                split
                · rfl
                · rw [Std.ExtTreeMap.getD_eq_getD_getElem?, hpid, hb]
                  exact hsome
            · refine ⟨batch, ?_, hsome⟩
              rw [Std.ExtTreeMap.getElem?_insert]
              simp only [Std.compare_eq_iff_eq]
              rw [if_neg hpid]
              exact hb
        case complete =>
          intro key v h
          dsimp only
          rw [lookup_insert]
          rcases List.mem_append.mp h with h | h
          · rcases ih.complete key v h with hsource | hdeleted
            · exact Or.inl hsource
            · right
              split
              · rfl
              · exact hdeleted
          · have hkey := (Prod.mk.inj (List.mem_singleton.mp h)).1
            rw [hkey, if_pos rfl]
            exact Or.inr rfl

section Writes
variable {env : Platform K} {count : Nat} {content : Content} {ns : Bytes} {disk : Disk}
  {pending : List (Nat × Bytes)}

theorem Moves.Collected.owned {source : Nat} {rows : List (Bytes × StoredValue)} {moves : Moves}
    (h : Moves.Collected env count source ns rows moves)
    (hrows : ∀ key v, (composeKey ns key, v) ∈ rows → content ns key = some v) {pid : Nat}
    {batch : StringMap WriteDataEntry} (hbatch : moves.upserts[pid]? = some batch) :
    OwnedBatch env count content ns pid batch where
  keyed := (h.upserts pid batch hbatch).2.1
  entries fullKey e he := by
    obtain ⟨key, v, hkey, hpid, hmem, hv⟩ := (h.upserts pid batch hbatch).2.2 fullKey e he
    exact ⟨key, v, hkey, hpid, hrows key v (hkey ▸ hmem), hv⟩

/-- Writing entries where they belong loses nothing and leaves nothing else. -/
theorem OwnedBatch.write {pid : Nat} {batch : StringMap WriteDataEntry} (hns : ns ∈ rehashNamespaces)
    (hbatch : OwnedBatch env count content ns pid batch) (h : Intact disk content)
    (hplaced : Placed env count disk pending) :
    Intact (disk.batchWrite pid batch) content ∧
      Placed env count (disk.batchWrite pid batch) pending ∧
      Grows disk (disk.batchWrite pid batch) := by
  have hgrows : Grows disk (disk.batchWrite pid batch) := by
    intro p fullKey v hv
    rw [Disk.read_batchWrite disk pid hbatch.keyed]
    split
    · rcases hb : batch[fullKey]? with _ | e
      · exact hv
      · obtain ⟨key, v', rfl, -, hcontent, hout⟩ := hbatch.entries fullKey e hb
        have hsame := h.value hns hv
        rw [hcontent] at hsame
        exact hout.trans hsame
    · exact hv
  -- a row was there before, or the batch has it
  have hcases : ∀ p fullKey v, (disk.batchWrite pid batch).store.read p fullKey = some v →
      disk.store.read p fullKey = some v ∨ p = pid ∧ ∃ e, batch[fullKey]? = some e ∧
        e.outcome = some v := by
    intro p fullKey v hv
    rw [Disk.read_batchWrite disk pid hbatch.keyed] at hv
    split at hv
    · rename_i hp
      rcases hb : batch[fullKey]? with _ | e
      · rw [hb] at hv
        exact Or.inl hv
      · rw [hb] at hv
        exact Or.inr ⟨hp, e, rfl, hv⟩
    · exact Or.inl hv
  refine ⟨⟨fun p fullKey v hv => ?_, fun ns' key v hv => ?_⟩, fun p ns' hns' key v hv => ?_, hgrows⟩
  · rcases hcases p fullKey v hv with hold | ⟨rfl, e, hb, hout⟩
    · exact h.rows p fullKey v hold
    · obtain ⟨key, v', hkey, -, hcontent, hout'⟩ := hbatch.entries fullKey e hb
      rw [hout'] at hout
      exact ⟨ns, hns, key, hkey, hcontent.trans hout⟩
  · obtain ⟨hns', p, hp⟩ := h.kept ns' key v hv
    exact ⟨hns', p, hgrows p _ v hp⟩
  · rcases hcases p _ v hv with hold | ⟨rfl, e, hb, -⟩
    · exact hplaced p ns' hns' key v hold
    · obtain ⟨key', v', hkey, hpid, -, -⟩ := hbatch.entries _ e hb
      obtain ⟨rfl, rfl⟩ := (composeKey_inj (colonFree_rehashNamespaces _ hns')
        (colonFree_rehashNamespaces _ hns)).mp hkey
      exact Or.inl hpid

/-- The writes to the targets: each entry of their batches is then in its place. -/
theorem writeTargets_spec (fails : Nat → Option Bytes) (hns : ns ∈ rehashNamespaces)
    {items : List (Nat × StringMap WriteDataEntry)}
    (hitems : ∀ item ∈ items, OwnedBatch env count content ns item.1 item.2) (st : Rehash)
    (h : Intact st.disk content) (hplaced : Placed env count st.disk pending) :
    let res := writeTargets fails ns items st
    Intact res.1.disk content ∧ Placed env count res.1.disk pending ∧
      Grows st.disk res.1.disk ∧
      (∀ p, (∀ item ∈ items, item.1 ≠ p) → ∀ fullKey,
        res.1.disk.store.read p fullKey = st.disk.store.read p fullKey) ∧
      (res.2 = none → ∀ item ∈ items, ∀ (fullKey : Bytes), (item.2[fullKey]?).isSome →
        (res.1.disk.store.read item.1 fullKey).isSome) := by
  induction items generalizing st with
  | nil =>
    exact ⟨h, hplaced, fun _ _ _ hv => hv, fun _ _ _ => rfl, fun _ item hitem => (by cases hitem)⟩
  | cons item rest ih =>
    obtain ⟨target, batch⟩ := item
    have hbatch : OwnedBatch env count content ns target batch := hitems _ List.mem_cons_self
    rw [writeTargets]
    split
    · refine ⟨h, hplaced, fun _ _ _ hv => hv, fun _ _ _ => rfl, fun hnone => ?_⟩
      cases hnone
    · obtain ⟨hintact, hplaced', hgrows⟩ := hbatch.write hns h hplaced
      obtain ⟨hi, hp, hg, hother, hdone⟩ := ih (fun i hi => hitems i (List.mem_cons_of_mem _ hi))
        ⟨st.disk.batchWrite target batch, st.requests + 1⟩ hintact hplaced'
      refine ⟨hi, hp, fun p k v hv => hg p k v (hgrows p k v hv), fun p hne fullKey => ?_,
        fun hnone item hitem fullKey hsome => ?_⟩
      · rw [hother p (fun i hi => hne i (List.mem_cons_of_mem _ hi)) fullKey]
        refine (Disk.read_batchWrite st.disk target hbatch.keyed p fullKey).trans (if_neg ?_)
        exact Ne.symm (hne _ List.mem_cons_self)
      · rcases List.mem_cons.mp hitem with rfl | hitem
        · obtain ⟨e, he⟩ := Option.isSome_iff_exists.mp hsome
          obtain ⟨key, v, -, -, -, hout⟩ := hbatch.entries fullKey e he
          have hwritten : (st.disk.batchWrite target batch).store.read target fullKey = some v := by
            rw [Disk.read_batchWrite st.disk target hbatch.keyed, if_pos rfl, he]
            exact hout
          rw [hg target fullKey v hwritten]
          rfl
        · exact hdone hnone item hitem fullKey hsome

/-- The deletions at a source whose entries are all in their places. -/
theorem deleteMoved_spec (fails : Nat → Option Bytes) {source : Nat} {deletes : StringMap WriteDataEntry}
    (hns : ns ∈ rehashNamespaces) (hkeyed : Keyed deletes)
    (hdeletes : ∀ (fullKey : Bytes) e, deletes[fullKey]? = some e → e.outcome = none ∧
      ∃ key, fullKey = composeKey ns key ∧ partitionFor env count ns key ≠ source ∧
        (disk.store.read (partitionFor env count ns key) fullKey).isSome)
    (hcomplete : ∀ key v, disk.store.read source (composeKey ns key) = some v →
      partitionFor env count ns key = source ∨ (deletes[composeKey ns key]?).isSome)
    (h : Intact disk content) (hplaced : Placed env count disk ((source, ns) :: pending))
    (requests : Nat) :
    let res := deleteMoved fails source ns deletes ⟨disk, requests⟩
    Intact res.1.disk content ∧ (res.2 = none → Placed env count res.1.disk pending) := by
  rw [deleteMoved]
  split
  · rename_i hempty
    refine ⟨h, fun _ p ns' hns' key v hv => ?_⟩
    rcases hplaced p ns' hns' key v hv with hp | hp
    · exact Or.inl hp
    · rcases List.mem_cons.mp hp with heq | hp
      · obtain ⟨rfl, rfl⟩ := Prod.mk.inj heq
        rcases hcomplete key v hv with hsource | hdeleted
        · exact Or.inl hsource.symm
        · rw [Std.ExtTreeMap.isEmpty_iff.mp hempty] at hdeleted
          simp at hdeleted
      · exact Or.inr hp
  · split
    · refine ⟨h, fun hnone => ?_⟩
      cases hnone
    · have hread := fun p fullKey => disk.read_batchWrite source hkeyed p fullKey
      -- what is still there is not one of the deleted rows of the source
      have hold : ∀ p fullKey v, (disk.batchWrite source deletes).store.read p fullKey = some v →
          disk.store.read p fullKey = some v ∧ (p = source → deletes[fullKey]? = none) := by
        intro p fullKey v hv
        rw [hread] at hv
        split at hv
        · rcases hd : deletes[fullKey]? with _ | e
          · rw [hd] at hv
            exact ⟨hv, fun _ => rfl⟩
          · rw [hd] at hv
            dsimp only at hv
            rw [(hdeletes fullKey e hd).1] at hv
            cases hv
        · rename_i hp
          exact ⟨hv, fun heq => absurd heq hp⟩
      refine ⟨⟨fun p fullKey v hv => h.rows p fullKey v (hold p fullKey v hv).1,
        fun ns' key v hv => ?_⟩, fun _ p ns' hns' key v hv => ?_⟩
      · obtain ⟨hns', p, hp⟩ := h.kept ns' key v hv
        refine ⟨hns', ?_⟩
        by_cases hgone : p = source ∧ (deletes[composeKey ns' key]?).isSome
        · -- the copy in the partition that owns it stays
          obtain ⟨rfl, hsome⟩ := hgone
          obtain ⟨e, he⟩ := Option.isSome_iff_exists.mp hsome
          obtain ⟨-, key', hkey, hne, hcopy⟩ := hdeletes _ e he
          obtain ⟨rfl, rfl⟩ := (composeKey_inj (colonFree_rehashNamespaces _ hns')
            (colonFree_rehashNamespaces _ hns)).mp hkey
          obtain ⟨v', hv'⟩ := Option.isSome_iff_exists.mp hcopy
          refine ⟨partitionFor env count ns' key, ?_⟩
          rw [hread, if_neg hne, hv', ← h.value hns' hv', hv]
        · refine ⟨p, ?_⟩
          rw [hread]
          split
          · rename_i hp'
            have hnone : deletes[composeKey ns' key]? = none :=
              Option.not_isSome_iff_eq_none.mp fun hsome => hgone ⟨hp', hsome⟩
            rw [hnone]
            exact hp
          · exact hp
      · obtain ⟨hbefore, hnot⟩ := hold p _ v hv
        rcases hplaced p ns' hns' key v hbefore with hp | hp
        · exact Or.inl hp
        · rcases List.mem_cons.mp hp with heq | hp
          · obtain ⟨rfl, rfl⟩ := Prod.mk.inj heq
            rcases hcomplete key v hbefore with hsource | hdeleted
            · exact Or.inl hsource.symm
            · rw [hnot rfl] at hdeleted
              cases hdeleted
          · exact Or.inr hp

end Writes

/-! ### The loops -/

section Loops
variable {env : Platform K} {count : Nat} {content : Content}

theorem mem_scanned {store : EloqStore} {source : Nat} {ns : Bytes} {rows : List (Bytes × StoredValue)}
    (hscan : store.scan source (composeKey ns []) (ns ++ ascii ";") 0 = .ok rows) {key : Bytes}
    {v : StoredValue} : (composeKey ns key, v) ∈ rows ↔
      store.read source (composeKey ns key) = some v := by
  rw [EloqStore.scan] at hscan
  split at hscan
  · cases hscan
  · rename_i table hp
    have hrows := Except.ok.inj hscan
    rw [if_neg (Nat.lt_irrefl 0)] at hrows
    have hrange := EloqStoreAdapter.inRange_composeKey ns key
    rw [← hrows, List.mem_filter, Std.ExtTreeMap.mem_toList_iff_getElem?_eq_some, EloqStore.read,
      hp, Option.bind_some]
    simp [hrange.1, hrange.2]

/-- One namespace of one source: nothing is lost, and where no request fails the
rows that are left are owned by the source. -/
theorem rehashNamespace_spec (fails : Nat → Option Bytes) {source : Nat} {ns : Bytes} (hns : ns ∈ rehashNamespaces)
    {pending : List (Nat × Bytes)} (st : Rehash) (h : Intact st.disk content)
    (hplaced : Placed env count st.disk ((source, ns) :: pending)) :
    let res := rehashNamespace env count fails source ns st
    Intact res.1.disk content ∧ (res.2 = none → Placed env count res.1.disk pending) := by
  have failed : ∀ (requests : Nat) (error : Bytes),
      let res : Rehash × Option Bytes := (⟨st.disk, requests⟩, some error)
      Intact res.1.disk content ∧ (res.2 = none → Placed env count res.1.disk pending) :=
    fun requests error => ⟨h, fun hnone => by cases hnone⟩
  rw [rehashNamespace]
  split
  · exact failed _ _
  · dsimp only
    split
    · -- a partition that was never written has no rows
      rename_i hscan
      refine ⟨h, fun _ p ns' hns' key v hv => ?_⟩
      rcases hplaced p ns' hns' key v hv with hp | hp
      · exact Or.inl hp
      · rcases List.mem_cons.mp hp with heq | hp
        · obtain ⟨rfl, rfl⟩ := Prod.mk.inj heq
          rw [EloqStore.scan] at hscan
          rw [EloqStore.read] at hv
          split at hscan
          · rename_i hnone
            rw [hnone] at hv
            cases hv
          · cases hscan
        · exact Or.inr hp
    · exact failed _ _
    · rename_i rows hscan
      have hcollected := collected_collect env count source ns rows
      generalize rows.foldl (Moves.collect env count source ns) ⟨∅, ∅⟩ = moves at hcollected
      have hrows : ∀ key v, (composeKey ns key, v) ∈ rows → content ns key = some v :=
        fun key v hmem => h.value hns ((mem_scanned hscan).mp hmem)
      have hitems : ∀ item ∈ moves.upserts.toList,
          OwnedBatch env count content ns item.1 item.2 := fun item hitem =>
        hcollected.owned hrows (Std.ExtTreeMap.mem_toList_iff_getElem?_eq_some.mp hitem)
      have hwrites := writeTargets_spec fails hns hitems
        ⟨st.disk, st.requests + 1⟩ h hplaced
      generalize writeTargets fails ns moves.upserts.toList ⟨st.disk, st.requests + 1⟩ = written
        at hwrites
      obtain ⟨⟨disk, requests⟩, error⟩ := written
      obtain ⟨hintact, hplaced', -, hother, hdone⟩ := hwrites
      cases error with
      | some error => exact ⟨hintact, fun hnone => by cases hnone⟩
      | none =>
        have hsource : ∀ fullKey, disk.store.read source fullKey =
            st.disk.store.read source fullKey := hother source fun item hitem =>
          (hcollected.upserts _ _ (Std.ExtTreeMap.mem_toList_iff_getElem?_eq_some.mp hitem)).1
        refine deleteMoved_spec fails hns hcollected.keyed (fun fullKey e he => ?_) (fun key v hv => ?_)
          hintact hplaced' requests
        · obtain ⟨hnone, key, hkey, hne, batch, hbatch, hsome⟩ := hcollected.deletes fullKey e he
          refine ⟨hnone, key, hkey, hne, ?_⟩
          exact hdone rfl (_, batch) (Std.ExtTreeMap.mem_toList_iff_getElem?_eq_some.mpr hbatch)
            fullKey hsome
        · rw [hsource] at hv
          exact hcollected.complete key v ((mem_scanned hscan).mpr hv)

theorem rehashLoop_spec (fails : Nat → Option Bytes) {pairs : List (Nat × Bytes)}
    (hpairs : ∀ pair ∈ pairs, pair.2 ∈ rehashNamespaces) (st : Rehash) (h : Intact st.disk content)
    (hplaced : Placed env count st.disk pairs) :
    let res := rehashLoop env count fails pairs st
    Intact res.1.disk content ∧ (res.2 = none → Placed env count res.1.disk []) := by
  induction pairs generalizing st with
  | nil => exact ⟨h, fun _ => hplaced⟩
  | cons pair rest ih =>
    obtain ⟨source, ns⟩ := pair
    have hstep := rehashNamespace_spec fails (hpairs _ List.mem_cons_self) st h hplaced
    rw [rehashLoop]
    generalize rehashNamespace env count fails source ns st = res at hstep
    obtain ⟨st', error⟩ := res
    cases error with
    | some error => exact ⟨hstep.1, fun hnone => by cases hnone⟩
    | none =>
      exact ih (fun pair hpair => hpairs pair (List.mem_cons_of_mem _ hpair)) st' hstep.1
        (hstep.2 rfl)

end Loops

/-! ### The directories -/

/-- Directories are gone, none of which held a row. -/
structure Pruned (disk disk' : Disk) : Prop where
  rows : ∀ p fullKey, disk'.store.read p fullKey = disk.store.read p fullKey
  removed : ∀ pid ∈ disk.directories, pid ∉ disk'.directories →
    ∀ fullKey, disk.store.read pid fullKey = none

theorem Pruned.refl (disk : Disk) : Pruned disk disk :=
  ⟨fun _ _ => rfl, fun _ hmem hnot => absurd hmem hnot⟩

theorem Pruned.trans {a b c : Disk} (h : Pruned a b) (h' : Pruned b c) : Pruned a c where
  rows p fullKey := (h'.rows p fullKey).trans (h.rows p fullKey)
  removed pid hmem hnot := by
    by_cases hb : pid ∈ b.directories
    · intro fullKey
      rw [← h.rows]
      exact h'.removed pid hb hnot fullKey
    · exact h.removed pid hmem hb

theorem pruned_removeDirectory {disk : Disk} {pid : Nat}
    (h : ∀ fullKey, disk.store.read pid fullKey = none) : Pruned disk (disk.removeDirectory pid) where
  rows := Disk.read_removeDirectory h
  removed p hmem hnot := by
    have hp : p = pid := by
      by_contra hne
      exact hnot (List.mem_filter.mpr ⟨hmem, by simpa using hne⟩)
    rw [hp]
    exact h

theorem pruned_foldl {step : Disk → Nat → Disk} {I : Disk → Prop}
    (hstep : ∀ disk pid, I disk → Pruned disk (step disk pid) ∧ I (step disk pid))
    (pids : List Nat) {disk : Disk} (h : I disk) : Pruned disk (pids.foldl step disk) := by
  induction pids generalizing disk with
  | nil => exact .refl disk
  | cons pid rest ih =>
    obtain ⟨hpruned, hI⟩ := hstep disk pid h
    exact hpruned.trans (ih hI)

section Startup
variable {env : Platform K} {count : Nat} {content : Content} {disk : Disk}

/-- A partition beyond the count holds no row once every row is in its place. -/
theorem Intact.read_outdated (hcount : 0 < count) (h : Intact disk content)
    (hplaced : Placed env count disk []) {pid : Nat} (hpid : count ≤ pid) (fullKey : Bytes) :
    disk.store.read pid fullKey = none := by
  rcases hread : disk.store.read pid fullKey with _ | v
  · rfl
  · obtain ⟨ns, hns, key, rfl, -⟩ := h.rows pid fullKey v hread
    rcases hplaced pid ns hns key v hread with hp | hp
    · have hlt : partitionFor env count ns key < count := Nat.mod_lt _ hcount
      omega
    · cases hp

theorem pruned_cleanup (hcount : 0 < count) (h : Intact disk content)
    (hplaced : Placed env count disk []) (existing : List Nat) :
    Pruned disk (cleanupEmptyPartitionDirs existing
      (cleanupOutdatedPartitionDirs count existing disk)) := by
  refine Pruned.trans (b := cleanupOutdatedPartitionDirs count existing disk) ?_ ?_
  · refine pruned_foldl (I := fun d => ∀ pid, count ≤ pid → ∀ k, d.store.read pid k = none) ?_
      existing fun pid hpid k => h.read_outdated hcount hplaced hpid k
    intro d pid hd
    split
    · exact ⟨.refl d, hd⟩
    · rename_i hout
      have hpid : count ≤ pid := Nat.le_of_not_lt fun hlt => hout (Or.inl hlt)
      have hpruned := pruned_removeDirectory (hd pid hpid)
      exact ⟨hpruned, fun p hp k => (hpruned.rows p k).trans (hd p hp k)⟩
  · refine pruned_foldl (I := fun _ => True) (fun d pid _ => ⟨?_, trivial⟩) existing trivial
    split
    · rename_i hempty
      refine pruned_removeDirectory fun k => ?_
      rw [EloqStore.read, hempty.2]
      rfl
    · exact .refl d

theorem mem_detectExistingPartitions {pid : Nat} :
    pid ∈ disk.detectExistingPartitions ↔ pid ∈ disk.directories := by
  rw [Disk.detectExistingPartitions,
    ← List.mem_insertionSort (· ≤ ·) (l := disk.directories)]
  generalize disk.directories.insertionSort (· ≤ ·) = sorted
  refine ⟨fun h => (List.destutter_sublist _ _).subset h, fun h => ?_⟩
  have loop : ∀ (xs : List Nat) (x : Nat), pid ∈ x :: xs →
      pid ∈ List.destutter' (· ≠ ·) x xs := by
    intro xs
    induction xs with
    | nil => exact fun x h => h
    | cons y ys ih =>
      intro x h
      by_cases hxy : x = y
      · subst hxy
        rw [List.destutter'_cons_neg _ (by simp)]
        refine ih x ?_
        rcases List.mem_cons.mp h with rfl | h
        · exact List.mem_cons_self
        · exact h
      · rw [List.destutter'_cons_pos _ (by simpa using hxy)]
        rcases List.mem_cons.mp h with rfl | h
        · exact List.mem_cons_self
        · exact List.mem_cons_of_mem _ (ih y h)
  cases sorted with
  | nil => cases h
  | cons x xs => exact loop xs x h

/-- Before a re-partitioning, whatever is not in its place is in a pending pair. -/
theorem placed_rehashPairs (env : Platform K) (count : Nat) (disk : Disk) :
    Placed env count disk (rehashPairs disk.detectExistingPartitions) := by
  intro pid ns hns key v hv
  refine Or.inr (List.mem_flatMap.mpr ⟨pid, ?_, List.mem_map.mpr ⟨ns, hns, rfl⟩⟩)
  refine mem_detectExistingPartitions.mpr (disk.hosted pid ?_)
  rw [EloqStore.read] at hv
  rcases hp : disk.store.partition pid with _ | rows
  · rw [hp] at hv
    cases hv
  · rfl

theorem mem_rehashPairs {existing : List Nat} :
    ∀ pair ∈ rehashPairs existing, pair.2 ∈ rehashNamespaces := by
  intro pair hpair
  obtain ⟨source, -, hpair⟩ := List.mem_flatMap.mp hpair
  obtain ⟨ns, hns, rfl⟩ := List.mem_map.mp hpair
  exact hns

/-- A re-partitioning loses nothing, and one that ends has put every row in its place. -/
theorem rehashStoredEntries_spec (env : Platform K) (hcount : 0 < count) (fails : Nat → Option Bytes)
    (h : Intact disk content) :
    let existing := disk.detectExistingPartitions
    let res := rehashStoredEntries env count fails existing disk
    Intact res.1 content ∧ (res.2 = none → Placed env count res.1 [] ∧
      Pruned (rehashLoop env count fails (rehashPairs existing) ⟨disk, 0⟩).1.disk res.1) := by
  have hplaced := placed_rehashPairs env count disk
  have hloop := rehashLoop_spec fails mem_rehashPairs ⟨disk, 0⟩ h hplaced
  dsimp only
  rw [rehashStoredEntries]
  split
  · rename_i hnone
    rw [hnone] at hplaced hloop ⊢
    exact ⟨h, fun _ => ⟨hplaced, .refl disk⟩⟩
  · generalize rehashLoop env count fails (rehashPairs disk.detectExistingPartitions) ⟨disk, 0⟩ =
      res at hloop ⊢
    obtain ⟨st, error⟩ := res
    cases error with
    | some error => exact ⟨hloop.1, fun hnone => by cases hnone⟩
    | none =>
      have hpruned := pruned_cleanup hcount hloop.1 (hloop.2 rfl) disk.detectExistingPartitions
      refine ⟨hloop.1.of_read hpruned.rows, fun _ => ⟨fun pid ns hns key v hv => ?_, hpruned⟩⟩
      rw [hpruned.rows] at hv
      exact hloop.2 rfl pid ns hns key v hv

/-- What a startup leaves: nothing is lost, and where a re-partitioning ran to its end
every row is in its place. -/
theorem refreshLayoutOnStartup_spec (env : Platform K) (hcount : 0 < count) (faults : StartupFaults)
    (h : Intact disk content) :
    let res := refreshLayoutOnStartup env count faults disk
    Intact res.1 content ∧
      (needsRehash disk count = true → res.2 = none → Placed env count res.1 [] ∧
        Pruned (rehashLoop env count faults.requests (rehashPairs disk.detectExistingPartitions)
          ⟨disk, 0⟩).1.disk res.1) ∧
      (needsRehash disk count = false →
        res.1.store = disk.store ∧ res.1.directories = disk.directories) := by
  dsimp only
  rw [refreshLayoutOnStartup]
  cases hneeds : needsRehash disk count with
  | false =>
    simp only [Bool.false_eq_true, if_false, false_implies, true_and]
    split
    · exact ⟨h.of_read fun _ _ => rfl, fun _ => ⟨rfl, rfl⟩⟩
    · exact ⟨h, fun _ => ⟨rfl, rfl⟩⟩
  | true =>
    have hrehash := rehashStoredEntries_spec env hcount faults.requests h
    dsimp only at hrehash
    simp only [if_true, true_implies, Bool.true_eq_false, false_implies, and_true]
    generalize rehashStoredEntries env count faults.requests disk.detectExistingPartitions disk =
      res at hrehash ⊢
    obtain ⟨disk', error⟩ := res
    cases error with
    | some error => exact ⟨hrehash.1, fun hnone => by cases hnone⟩
    | none =>
      obtain ⟨hplaced, hpruned⟩ := hrehash.2 rfl
      dsimp only
      split
      · exact ⟨hrehash.1.of_read fun _ _ => rfl, fun _ => ⟨hplaced, hpruned.rows, hpruned.removed⟩⟩
      · exact ⟨hrehash.1, fun hnone => by cases hnone⟩

end Startup

end PoorguyMem
