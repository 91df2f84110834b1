import PoorguyMem.Eviction
import PoorguyMem.WideQueries
import PoorguyMem.Reclamation

/-!
# Reading a write back

A `Write` ends with the eviction loop, which protects nothing. Its records stay
resident and indexed as long as there is room for them besides the older records that
do not rank below them; they can be the first to go.
-/

namespace PoorguyMem

open ByteString Throwing HybridRetriever

variable {K : Type}

section Writes
variable [Field K] [LinearOrder K] {env : Platform K} {fate : Fate} {w : World K}
  {input : WriteInput K}

/-- The records that the batch of a `Write` puts, in order. -/
def storedRecords (env : Platform K) (w : World K) (input : WriteInput K) :
    List (MemoryRecord K) :=
  (prepareWrite env w input).1.elim [] fun request => request.plan.upserts

/-- What is resident once they are put, before anything is evicted. -/
def withStored (env : Platform K) (w : World K) (input : WriteInput K) : Resident K :=
  (storedRecords env w input).foldl (Resident.upsertRecordInMemory env) w.engine.toResident

/-- The keys of the records that a `Write` stores. -/
def freshKeys (env : Platform K) (w : World K) (input : WriteInput K) : Set Bytes :=
  {k | ∃ r ∈ storedRecords env w input, recordMapKey r.workspaceId r.id = k}

/-- The stored records fit the limit by themselves, or there is none. -/
def StoredFit (env : Platform K) (w : World K) (input : WriteInput K) : Prop :=
  w.engine.residentLimitBytes = 0 ∨
    ((storedRecords env w input).map estimateResidentCharge).sum ≤ w.engine.residentLimitBytes

/-- A record is resident, and in the documents and vectors of its workspace. -/
structure Shown (env : Platform K) (s : Resident K) (r : MemoryRecord K) : Prop where
  resident : s.records[recordMapKey r.workspaceId r.id]? = some r
  document : s.retriever.docAt r.workspaceId r.id = some (indexedDoc env r)
  vector : (s.retriever.vectorAt r.workspaceId r.id).isSome = true

/-- A stored record is shown, and in the answer to every wide query whose filters it passes,
before it expires. -/
structure ReadBack (env : Platform K) (w' : World K) (workspaceId id : Bytes)
    (r : MemoryRecord K) : Prop where
  named : r.workspaceId = workspaceId ∧ r.id = id
  shown : Shown env w'.engine.toResident r
  found : ∀ (t : Nat) (query : QueryInput K), query.workspaceId = workspaceId →
    Wide w'.engine.retriever query → passesFilter r query.filters = true →
    isExpired r (env.clock (t + 1)) = false →
    ∃ hit ∈ (PoorguyMem.query env { w' with tick := t } query).2.hits, hit.memoryId = id

/-- Every record that a `Write` reports as stored can be read back right after it, if the
stored records fit. -/
def ReadsItsWrites (env : Platform K) (fate : Fate) (w : World K) (input : WriteInput K) : Prop :=
  ∀ output, (write env fate w input).2 = some output → output.ok = true → StoredFit env w input →
    ∀ id ∈ output.storedIds, ∃ r ∈ storedRecords env w input,
      ReadBack env (write env fate w input).1 input.workspaceId id r

/-- For each stored record that can be evicted, what is resident besides the older records
that rank below it at every reading fits the limit. -/
def KeepsRoom (env : Platform K) (fate : Fate) (w : World K) (input : WriteInput K) : Prop :=
  fate.main.ok = true → StoredFit env w input → w.engine.residentLimitBytes ≠ 0 →
    ∀ k ∈ freshKeys env w input, ∀ n, (withStored env w input).records[k]? = some n →
      n.pinned = false →
      weightBesides (withStored env w input).records
        (Outranked env w.tick (freshKeys env w input) n) ≤ w.engine.residentLimitBytes

/-- The same besides the older records that do not rank above it at some reading. -/
def MayKeepRoom (env : Platform K) (fate : Fate) (w : World K) (input : WriteInput K) : Prop :=
  fate.main.ok = true → StoredFit env w input → w.engine.residentLimitBytes ≠ 0 →
    ∀ k ∈ freshKeys env w input, ∀ n, (withStored env w input).records[k]? = some n →
      n.pinned = false →
      weightBesides (withStored env w input).records
        (MayPrecede env w.tick (freshKeys env w input) n) ≤ w.engine.residentLimitBytes

/-- No older record ties with a stored one, and none changes sides with the clock. -/
def Decided (env : Platform K) (w : World K) (input : WriteInput K) : Prop :=
  ∀ k ∈ freshKeys env w input, ∀ n, (withStored env w input).records[k]? = some n →
    ∀ (k' : Bytes) r, (withStored env w input).records[k']? = some r →
      MayPrecede env w.tick (freshKeys env w input) n r →
      Outranked env w.tick (freshKeys env w input) n r

/-! ### What is shown -/

theorem shown_upsert (s : Resident K) {r : MemoryRecord K} (hlive : r.tombstone = false) :
    Shown env (s.upsertRecordInMemory env r) r := by
  constructor
  · rw [Resident.records_upsert, lookup_insert, if_pos rfl]
  · rw [Resident.retriever_upsert, docAt_index, if_pos ⟨rfl, rfl⟩, hlive]
    rfl
  · rw [Resident.retriever_upsert, isSome_vectorAt_index, if_pos ⟨rfl, rfl⟩, hlive]
    rfl

theorem Shown.upsert {s : Resident K} {r r' : MemoryRecord K} (h : Shown env s r)
    (hkey : recordMapKey r'.workspaceId r'.id ≠ recordMapKey r.workspaceId r.id) :
    Shown env (s.upsertRecordInMemory env r') r := by
  have hname : ¬ (r'.workspaceId = r.workspaceId ∧ r'.id = r.id) := by
    rintro ⟨hws, hid⟩
    exact hkey (by rw [hws, hid])
  constructor
  · rw [Resident.records_upsert, lookup_insert, if_neg hkey]
    exact h.resident
  · rw [Resident.retriever_upsert, docAt_index, if_neg hname]
    exact h.document
  · rw [Resident.retriever_upsert, isSome_vectorAt_index, if_neg hname]
    exact h.vector

/-- What is put is shown, in the last version of each key. -/
theorem shown_foldl (env : Platform K) {rs : List (MemoryRecord K)}
    (hlive : ∀ r ∈ rs, r.tombstone = false) (s : Resident K) : ∀ r ∈ rs, ∃ r' ∈ rs,
      recordMapKey r'.workspaceId r'.id = recordMapKey r.workspaceId r.id ∧
        Shown env (rs.foldl (Resident.upsertRecordInMemory env) s) r' := by
  induction rs using List.reverseRecOn generalizing s with
  | nil => exact fun r hr => by cases hr
  | append_singleton rs last ih =>
    intro r hr
    rw [List.foldl_append, List.foldl_cons, List.foldl_nil]
    by_cases hkey : recordMapKey last.workspaceId last.id = recordMapKey r.workspaceId r.id
    · exact ⟨last, by simp, hkey, shown_upsert _ (hlive last (by simp))⟩
    · have hr' : r ∈ rs := by
        rcases List.mem_append.mp hr with hr | hr
        · exact hr
        · rw [List.mem_singleton] at hr
          exact absurd (by rw [hr]) hkey
      obtain ⟨r', hmem, hsame, hshown⟩ := ih (fun x hx => hlive x (by simp [hx])) s r hr'
      refine ⟨r', by simp [hmem], hsame, hshown.upsert ?_⟩
      rwa [hsame]

omit [Field K] [LinearOrder K] in
theorem Shown.evicts [Field K] [LinearOrder K] {s s' : Resident K} {r : MemoryRecord K}
    (hshown : Shown env s r) (h : Evicts s s')
    (hr : s'.records[recordMapKey r.workspaceId r.id]? = some r) : Shown env s' r := by
  induction h with
  | refl => exact hshown
  | @evict s' key victim _ held unpinned ih =>
    change (s'.records.erase (recordMapKey victim.workspaceId victim.id))[_]? = some r at hr
    rw [lookup_erase] at hr
    split at hr
    · cases hr
    · rename_i hkey
      have hname : ¬ (victim.workspaceId = r.workspaceId ∧ victim.id = r.id) := by
        rintro ⟨hws, hid⟩
        exact hkey (by rw [hws, hid])
      have hbefore := ih hr
      refine ⟨?_, ?_, ?_⟩
      · change (s'.records.erase (recordMapKey victim.workspaceId victim.id))[_]? = some r
        rw [lookup_erase, if_neg hkey]
        exact hr
      · change (s'.retriever.remove victim.workspaceId victim.id).docAt _ _ = _
        rw [docAt_remove, if_neg hname]
        exact hbefore.document
      · change ((s'.retriever.remove victim.workspaceId victim.id).vectorAt _ _).isSome = _
        rw [vectorAt_remove, if_neg hname]
        exact hbefore.vector

theorem ReadBack.of_shown {w' : World K} {r : MemoryRecord K}
    (h : Shown env w'.engine.toResident r) : ReadBack env w' r.workspaceId r.id r where
  named := ⟨rfl, rfl⟩
  shown := h
  found t query hws hwide hpass hfresh := by
    have hdocument := h.document
    have hvector := h.vector
    have hresident := h.resident
    rw [← hws] at hdocument hvector hresident
    apply Wide.mem_hits (w := { w' with tick := t }) hwide hdocument hvector rfl hpass
    intro r' hr'
    obtain rfl := Option.some.inj (hresident.symm.trans hr')
    exact hfresh

/-! ### The call -/

/-- The records of a draft, whose ids are reported. -/
structure Fresh (input : WriteInput K) (draft : WriteDraft K) : Prop where
  removals : draft.plan.removals = []
  stored : draft.storedIds = draft.plan.upserts.map (·.id)
  named : ∀ r ∈ draft.plan.upserts, r.workspaceId = input.workspaceId ∧ r.tombstone = false

theorem holds_writeDraft_fresh (env : Platform K) (w : World K) (input : WriteInput K) :
    Holds (writeDraft env w.engine input) w.cursor (fun draft _ => Fresh input draft)
      (fun _ => True) := by
  refine holds_bind (holds_advance (holds_foldlM ?_ ⟨rfl, rfl, fun r hr => by cases hr⟩))
  intro recIn _ draft c h
  rw [writeRecord]
  split
  · exact holds_pure ⟨h.removals, h.stored, h.named⟩
  · split
    · exact holds_pure ⟨h.removals, h.stored, h.named⟩
    · refine holds_bind ((holds_any _ _).mono (fun id c₁ _ => ?_) fun _ _ => trivial)
      obtain ⟨hplan, -, -⟩ := governPin_plan w.engine.options draft recIn.pin id
      have hstored := governPin_storedIds w.engine.options draft recIn.pin id
      generalize governPin w.engine.options draft recIn.pin id = governed at hplan hstored
      obtain ⟨pinned, governed⟩ := governed
      dsimp only at hplan hstored ⊢
      have hsame : Fresh input governed := by
        constructor
        · rw [hplan]
          exact h.removals
        · rw [hplan, hstored]
          exact h.stored
        · rw [hplan]
          exact h.named
      split
      · exact holds_pure ⟨hsame.removals, hsame.stored, hsame.named⟩
      · refine holds_bind ((holds_any _ _).mono (fun rows c₂ _ => ?_) fun _ _ => trivial)
        refine holds_bind ((holds_any _ _).mono (fun event c₃ _ => ?_) fun _ _ => trivial)
        refine holds_pure ⟨hsame.removals, ?_, ?_⟩
        · dsimp only
          rw [List.map_append, hsame.stored]
          rfl
        · intro r hr
          rcases List.mem_append.mp hr with hr | hr
          · exact hsame.named r hr
          · rw [List.mem_singleton] at hr
            subst hr
            exact ⟨rfl, rfl⟩

/-- What a `Write` that stores something leaves in memory. -/
structure Enforcing (env : Platform K) (fate : Fate) (w : World K) (input : WriteInput K)
    (draft : WriteDraft K) (output : WriteOutput) (t : Nat) : Prop where
  returned : (write env fate w input).2 = some output
  stored : output.storedIds = draft.storedIds
  records : storedRecords env w input = draft.plan.upserts
  later : w.tick ≤ t
  resident : (write env fate w input).1.engine.toResident =
    ((withStored env w input).enforceResidentHardLimit env w.engine.residentLimitBytes t).1

/-- A `Write` whose batch is committed reports its records and enforces the limit. -/
theorem enforcing_of_prepared {draft : WriteDraft K} {c : Cursor}
    (hprep : prepareWrite env w input = (some (.write input draft), c))
    (hlater : w.cursor.Before c) (hfresh : Fresh input draft) (hok : fate.main.ok = true) :
    ∃ output, output.ok = true ∧ Enforcing env fate w input draft output c.tick := by
  have hrecords : storedRecords env w input = draft.plan.upserts := by
    rw [storedRecords, hprep]
    rfl
  have happly : withStored env w input = draft.plan.applyInMemory env w.engine.toResident := by
    rw [withStored, hrecords, Plan.applyInMemory, hfresh.removals]
    rfl
  rw [prepareWrite] at hprep
  split at hprep
  · cases hprep
  · rename_i hvalid
    rw [not_or] at hvalid
    rcases hrun : writeDraft env w.engine input w.cursor with ⟨_ | draft', c'⟩ <;>
      rw [hrun] at hprep <;> dsimp only at hprep
    · cases hprep
    · by_cases hempty : draft'.plan.writes = []
      · rw [if_pos hempty] at hprep
        cases hprep
      · rw [if_neg hempty] at hprep
        obtain ⟨hrequest, rfl⟩ := Prod.mk.inj hprep
        obtain rfl := (Request.write.inj (Option.some.inj hrequest)).2
        have hwrite : write env fate w input =
            (settleWrite env fate.route input draft' ((w.atCursor c').commit fate.main draft'.plan),
              some (draft'.output true (settleWrite env fate.route input draft'
                ((w.atCursor c').commit fate.main draft'.plan)).engine.indexGeneration [])) := by
          rw [write, if_neg hvalid.1, if_neg hvalid.2, hrun]
          dsimp only
          rw [if_neg hempty, if_pos hok]
        refine ⟨_, rfl, by rw [hwrite], rfl, hrecords, hlater.tick, ?_⟩
        rw [hwrite, happly]
        rfl

/-- A `Write` has prepared a batch, or it neither stores nor reports a record. -/
theorem prepareWrite_cases (env : Platform K) (w : World K) (input : WriteInput K) :
    (∃ draft c, prepareWrite env w input = (some (.write input draft), c) ∧ w.cursor.Before c ∧
      Fresh input draft) ∨
    (prepareWrite env w input).1 = none ∧ ∀ fate output,
      (write env fate w input).2 = some output → output.ok = true → output.storedIds = [] := by
  rw [prepareWrite]
  split
  · rename_i hvoid
    refine Or.inr ⟨rfl, fun fate output h hok => ?_⟩
    rw [write] at h
    by_cases hws : input.workspaceId = []
    · rw [if_pos hws] at h
      obtain rfl := Option.some.inj h
      cases hok
    · rw [if_neg hws, if_pos (hvoid.resolve_left hws)] at h
      obtain rfl := Option.some.inj h
      rfl
  · rename_i hvalid
    rw [not_or] at hvalid
    have hstored := holds_writeDraft_stored env w input
    have hfresh := holds_writeDraft_fresh env w input
    have hdraft := holds_writeDraft env w hvalid.1
    rcases hrun : writeDraft env w.engine input w.cursor with ⟨_ | draft, c⟩
    · refine Or.inr ⟨rfl, fun fate output h hok => ?_⟩
      rw [write, if_neg hvalid.1, if_neg hvalid.2, hrun] at h
      cases h
    · dsimp only
      obtain ⟨items, hdrafted⟩ := hdraft.returned draft c hrun
      by_cases hempty : draft.plan.writes = []
      · rw [if_pos hempty]
        refine Or.inr ⟨rfl, fun fate output h hok => ?_⟩
        rw [write, if_neg hvalid.1, if_neg hvalid.2, hrun] at h
        dsimp only at h
        rw [if_pos hempty] at h
        obtain rfl := Option.some.inj h
        exact hstored.returned draft c hrun hempty
      · rw [if_neg hempty]
        exact Or.inl ⟨draft, c, rfl, hdrafted.drafted.before, hfresh.returned draft c hrun⟩

theorem ok_of_prepared {draft : WriteDraft K} {c : Cursor}
    (hprep : prepareWrite env w input = (some (.write input draft), c)) {output : WriteOutput}
    (h : (write env fate w input).2 = some output) (hok : output.ok = true) :
    fate.main.ok = true := by
  rw [prepareWrite] at hprep
  split at hprep
  · cases hprep
  · rename_i hvalid
    rw [not_or] at hvalid
    rw [write, if_neg hvalid.1, if_neg hvalid.2] at h
    rcases hrun : writeDraft env w.engine input w.cursor with ⟨_ | draft', c'⟩ <;>
      rw [hrun] at hprep h <;> dsimp only at hprep h
    · cases h
    · by_cases hempty : draft'.plan.writes = []
      · rw [if_pos hempty] at hprep
        cases hprep
      · rw [if_neg hempty] at h
        by_contra hmain
        rw [if_neg hmain] at h
        obtain rfl := Option.some.inj h
        cases hok

/-! ### Room -/

/-- What holds of the resident state before the call. -/
structure Ready (w : World K) : Prop where
  keys : AtKeys w.engine.toResident
  weighed : Weighed w.engine.toResident

theorem Ready.upserts (h : Ready w) (env : Platform K) (rs : List (MemoryRecord K)) :
    AtKeys (rs.foldl (Resident.upsertRecordInMemory env) w.engine.toResident) ∧
      Weighed (rs.foldl (Resident.upsertRecordInMemory env) w.engine.toResident) := by
  have loop : ∀ s : Resident K, AtKeys s → Weighed s →
      AtKeys (rs.foldl (Resident.upsertRecordInMemory env) s) ∧
        Weighed (rs.foldl (Resident.upsertRecordInMemory env) s) := by
    induction rs with
    | nil => exact fun s hkeys hweighed => ⟨hkeys, hweighed⟩
    | cons r rest ih =>
      intro s hkeys hweighed
      apply ih
      · intro k r' hr'
        rw [Resident.records_upsert, lookup_insert] at hr'
        split at hr'
        · rename_i hkey
          obtain rfl := Option.some.inj hr'
          exact hkey.symm
        · exact hkeys k r' hr'
      · exact ⟨hweighed.balanced.upsert env r, hweighed.charged.upsert env r⟩
  exact loop w.engine.toResident h.keys h.weighed

theorem Ready.stored (h : Ready w) (env : Platform K) (input : WriteInput K) :
    AtKeys (withStored env w input) ∧ Weighed (withStored env w input) :=
  h.upserts env (storedRecords env w input)

/-- After every run the resident records are at their keys and weighed. -/
theorem ready_run (hlaw : env.Lawful) (nodeId : Bytes) (options : MemoryEngineOptions K)
    (steps : List (Step K)) : Ready (Runs.exec (next env) (World.initial nodeId options) steps) := by
  have hadmits : ∀ step ∈ steps, step.Admits fun w id => w ≠ [] ∧ id ≠ [] :=
    fun step _ => step.admits_nonempty
  have hheld := (preserved_held env).run hlaw names_nonempty
    (fun k r hr => absurd hr (by simp [Resident.empty])) hadmits
    (sourced_initial nodeId options)
    fun k r hr => absurd hr (by simp [World.initial, MemoryEngine.new, Resident.empty])
  constructor
  · exact fun k r hr => (hheld.2 k r hr).1
  · exact ((preserved_weighed env).run hlaw names_nonempty ⟨balanced_empty, charged_empty⟩ hadmits
      (sourced_initial nodeId options) ⟨balanced_empty, charged_empty⟩).2

/-- Every reported id is that of a record that is shown until it is evicted. -/
theorem Enforcing.shown {draft : WriteDraft K} {output : WriteOutput} {t : Nat}
    (h : Enforcing env fate w input draft output t) (hfresh : Fresh input draft) {id : Bytes}
    (hid : id ∈ output.storedIds) : ∃ r ∈ storedRecords env w input,
      r.workspaceId = input.workspaceId ∧ r.id = id ∧ Shown env (withStored env w input) r := by
  rw [h.stored, hfresh.stored] at hid
  obtain ⟨r₀, hr₀, rfl⟩ := List.mem_map.mp hid
  obtain ⟨r, hr, hkey, hshown⟩ := shown_foldl env (fun r hr => (hfresh.named r hr).2)
    w.engine.toResident r₀ hr₀
  have hws := (hfresh.named r hr).1
  rw [hws, (hfresh.named r₀ hr₀).1] at hkey
  refine ⟨r, by rw [h.records]; exact hr, hws, recordMapKey_id_inj hkey, ?_⟩
  rw [withStored, h.records]
  exact hshown

/-- Room for the records of a `Write` is enough for reading them back. -/
theorem Ready.reads (hready : Ready w) (h : KeepsRoom env fate w input) :
    ReadsItsWrites env fate w input := by
  intro output hout hok hfit id hid
  rcases prepareWrite_cases env w input with ⟨draft, c, hprep, hlater, hfresh⟩ | ⟨-, hnone⟩
  · have hmain := ok_of_prepared hprep hout hok
    obtain ⟨output', -, henforcing⟩ := enforcing_of_prepared hprep hlater hfresh hmain
    obtain rfl := Option.some.inj (henforcing.returned.symm.trans hout)
    obtain ⟨r, hr, hws, rfl, hshown⟩ := henforcing.shown hfresh hid
    obtain ⟨hkeys, hweighed⟩ := hready.stored env input
    refine ⟨r, hr, ?_⟩
    rw [← hws]
    apply ReadBack.of_shown
    have hevicts := evictsRanked_enforceResidentHardLimit env w.engine.residentLimitBytes
      (withStored env w input) c.tick
    have hkept : (write env fate w input).1.engine.toResident.records[
        recordMapKey r.workspaceId r.id]? = some r := by
      rw [henforcing.resident]
      by_cases hlimit : w.engine.residentLimitBytes = 0
      · rw [Resident.enforceResidentHardLimit, if_pos hlimit]
        exact hshown.resident
      · rw [(hevicts.mono henforcing.later).keeps hweighed hkeys (h hmain hfit hlimit) _ ⟨r, hr, rfl⟩]
        exact hshown.resident
    apply hshown.evicts _ hkept
    rw [henforcing.resident]
    exact hevicts.evicts
  · rw [hnone fate output hout hok] at hid
    cases hid

/-- A `Write` whose records can all be read back had room for them. -/
theorem Ready.mayKeepRoom (hready : Ready w) (h : ReadsItsWrites env fate w input) :
    MayKeepRoom env fate w input := by
  intro hmain hfit hlimit k hk n hn hpin
  rcases prepareWrite_cases env w input with ⟨draft, c, hprep, hlater, hfresh⟩ | ⟨hnone, -⟩
  · obtain ⟨output, hok, henforcing⟩ := enforcing_of_prepared hprep hlater hfresh hmain
    obtain ⟨hkeys, hweighed⟩ := hready.stored env input
    have hevicts := evictsRanked_enforceResidentHardLimit env w.engine.residentLimitBytes
      (withStored env w input) c.tick
    have hreads := h output henforcing.returned hok hfit
    have henforced : Enforced env w.engine.residentLimitBytes (withStored env w input) _ :=
      enforced_enforceResidentHardLimit hkeys hlimit c.tick
    have hresident := henforcing.resident
    generalize ((withStored env w input).enforceResidentHardLimit env
      w.engine.residentLimitBytes c.tick).1 = s' at hevicts henforced hresident
    have hkept : ∀ k ∈ freshKeys env w input,
        s'.records[k]? = (withStored env w input).records[k]? := by
      rintro k ⟨r₀, hr₀, rfl⟩
      rw [henforcing.records] at hr₀
      have hid : r₀.id ∈ output.storedIds := by
        rw [henforcing.stored, hfresh.stored]
        exact List.mem_map_of_mem hr₀
      obtain ⟨r, -, hback⟩ := hreads r₀.id hid
      have hheld := hback.shown.resident
      rw [hresident, hback.named.1, hback.named.2, ← (hfresh.named r₀ hr₀).1] at hheld
      rw [hheld, hevicts.evicts.subset hheld]
    apply (hevicts.mono henforcing.later).fits hweighed hkeys hkept hk hn hpin
    rcases henforced.limited with hend | hpinned
    · exact hend
    · cases hpin.symm.trans (hpinned k n ((hkept k hk).trans hn))
  · obtain ⟨r, hr, -⟩ := hk
    rw [storedRecords, hnone] at hr
    cases hr

end Writes

/-- A call keeps the options and the name of the engine. -/
theorem call_options [Field K] [LinearOrder K] (env : Platform K) (fate : Fate) (w : World K)
    (call : Call K) : (perform env fate w call).1.engine.options = w.engine.options ∧
      (perform env fate w call).1.engine.nodeId = w.engine.nodeId := by
  have hout := perform_outcome env fate w call
  generalize (perform env fate w call).1 = w' at hout
  cases hout with
  | idle _ agrees => exact ⟨agrees.options, agrees.nodeId⟩
  | queried isQuery => exact ⟨(query_spec env w _).options, (query_spec env w _).nodeId⟩
  | failed _ _ agrees => exact ⟨agrees.options, agrees.nodeId⟩
  | committed _ _ settled => exact ⟨settled.options, settled.nodeId⟩

section Plain
variable [Field K] [LinearOrder K] {env : Platform K} {w : World K} {input : WriteInput K}
  {recIn : WriteRecordInput K}

/-- A write of one plain record stores it. -/
theorem storedRecords_plain (hws : input.workspaceId ≠ []) (hrecs : input.records = [recIn])
    (hid : recIn.recordId ≠ []) (hcontent : recIn.content ≠ []) (hkey : recIn.dedupKey = [])
    (hpin : recIn.pin = false) (hmeta : recIn.metadata = ∅)
    (hsize : inputSize w.engine input recIn ≤ w.engine.options.maxRecordBytes) :
    storedRecords env w input =
      [newRecord w.engine input recIn (env.clock w.tick) recIn.recordId false] := by
  have hplain := holds_writeDraft_plain env w hrecs hid hcontent hkey hpin hmeta hsize
  rw [storedRecords, prepareWrite, if_neg (by simp [hws, hrecs])]
  rcases hrun : writeDraft env w.engine input w.cursor with ⟨_ | draft, c⟩
  · exact (hplain.thrown c hrun).elim
  · obtain ⟨hwrites, -, hupserts⟩ := hplain.returned draft c hrun
    dsimp only
    rw [if_neg hwrites]
    exact hupserts

/-- There is no room for a record beside a heavy one that ranks above it. -/
theorem not_mayKeepRoom_of_crowded {fate : Fate} {s : Resident K} {old new : MemoryRecord K}
    (hok : fate.main.ok = true) (hstored : storedRecords env w input = [new])
    (hresident : w.engine.toResident = s.upsertRecordInMemory env old)
    (hkeys : recordMapKey new.workspaceId new.id ≠ recordMapKey old.workspaceId old.id)
    (hpin : new.pinned = false) (hlimit : w.engine.residentLimitBytes ≠ 0)
    (hfits : estimateResidentCharge new ≤ w.engine.residentLimitBytes)
    (hheavy : w.engine.residentLimitBytes < estimateResidentCharge old + estimateResidentCharge new)
    (hrank : ∀ i, burialRank env (env.clock i) new < burialRank env (env.clock i) old) :
    ¬ MayKeepRoom env fate w input := by
  intro hroom
  have hrecords : (withStored env w input).records = (s.records.insert
      (recordMapKey old.workspaceId old.id) old).insert (recordMapKey new.workspaceId new.id) new := by
    rw [withStored, hstored, hresident]
    rfl
  have hfresh : ∀ k, k ∈ freshKeys env w input ↔ recordMapKey new.workspaceId new.id = k := by
    intro k
    simp [freshKeys, hstored, eq_comm]
  have hfit : StoredFit env w input := by
    right
    rw [hstored]
    simpa using hfits
  have hweight := hroom hok hfit hlimit _ ((hfresh _).mpr rfl) new
    (by rw [hrecords, lookup_insert, if_pos rfl]) hpin
  have hnewStays : ¬ MayPrecede env w.tick (freshKeys env w input) new new :=
    fun h => h.1 ((hfresh _).mpr rfl)
  have holdStays : ¬ MayPrecede env w.tick (freshKeys env w input) new old := by
    rintro ⟨-, -, i, -, hle⟩
    exact absurd hle (not_le.mpr (hrank i))
  have hrest : ((withStored env w input).records.erase
      (recordMapKey new.workspaceId new.id))[recordMapKey old.workspaceId old.id]? = some old := by
    rw [hrecords, lookup_erase, if_neg hkeys, lookup_insert, if_neg hkeys, lookup_insert, if_pos rfl]
  have hnew : (withStored env w input).records[recordMapKey new.workspaceId new.id]? =
      some new := by
    rw [hrecords, lookup_insert, if_pos rfl]
  rw [weightBesides, MapTotal.weight_of_getElem? _ _ hnew, MapTotal.weight_of_getElem? _ _ hrest,
    if_neg hnewStays, if_neg holdStays] at hweight
  omega

end Plain

section Examples
open Reference

/-- One megabyte for what is resident, and for each record. -/
def oneMegabyte : MemoryEngineOptions ℚ :=
  { options with memBudgetMb := 1, maxRecordBytes := 1048576 }

/-- A platform whose clock stands still. -/
def frozen : Platform ℚ := platform fun _ => 1000

/-- An important record with a long tag. -/
def important (tag : Bytes) : WriteRecordInput ℚ :=
  { recordInput (ascii "a") (ascii "hello") [] with tags := [tag], importance := 10 }

def heavy (tag : Bytes) : WriteInput ℚ := ⟨ascii "w", [], [important tag], ascii "upsert"⟩

def light : WriteInput ℚ :=
  ⟨ascii "w", [], [recordInput (ascii "b") (ascii "hello") []], ascii "upsert"⟩

/-- The world after the important record is written. -/
def crowded (tag : Bytes) : World ℚ :=
  Runs.exec (next frozen) (World.initial (ascii "node") oneMegabyte)
    [.call (.write (heavy tag)) applied]

def heavyRecord (tag : Bytes) : MemoryRecord ℚ :=
  newRecord (MemoryEngine.new (ascii "node") oneMegabyte) (heavy tag) (important tag) 1000
    (ascii "a") false

def lightRecord : MemoryRecord ℚ :=
  newRecord (MemoryEngine.new (ascii "node") oneMegabyte) light
    (recordInput (ascii "b") (ascii "hello") []) 1000 (ascii "b") false

theorem estimateResidentCharge_heavyRecord (tag : Bytes) :
    estimateResidentCharge (heavyRecord tag) = 2 * tag.length + 1199 := by
  have htext : recordTextBytes (heavyRecord tag) = 25 + tag.length := rfl
  have hsize : (heavyRecord tag).sizeBytes = 25 + tag.length + 384 := rfl
  have htokens : tokenize (heavyRecord tag).content = [ascii "hello"] := by
    change tokenize (ascii "hello") = _
    decide
  have hlive : (heavyRecord tag).tombstone = false := rfl
  have hdedup : [ascii "hello"].dedup = [ascii "hello"] := rfl
  have hlength : (ascii "hello").length = 5 := rfl
  rw [estimateResidentCharge, estimateDocBytes, htext, hsize, htokens, hlive]
  dsimp only
  rw [hdedup, if_pos (by omega), if_neg Bool.false_ne_true, List.map_singleton, hlength,
    embeddingDim]
  simp only [List.length_singleton, List.sum_singleton]
  omega

theorem burialRank_lightRecord_lt (tag : Bytes) (i : Nat) :
    burialRank frozen (frozen.clock i) lightRecord <
      burialRank frozen (frozen.clock i) (heavyRecord tag) := by
  have hage : ageMs (max 1000 1000) 1000 = 0 := by decide
  have hlight : evictionRank frozen lightRecord 1000 = 12 := by
    simp [evictionRank, lightRecord, newRecord, light, recordInput, ageHours, hage, frozen,
      platform]
    norm_num
  have hheavy : evictionRank frozen (heavyRecord tag) 1000 = 102 := by
    simp [evictionRank, heavyRecord, newRecord, heavy, important, recordInput, ageHours, hage,
      frozen, platform]
    norm_num
  rw [burialRank, burialRank, Prod.Lex.toLex_lt_toLex]
  left
  change evictionRank frozen lightRecord 1000 < evictionRank frozen (heavyRecord tag) 1000
  rw [hlight, hheavy]
  norm_num

/-- The heavy record is resident after the first write, within the limit. -/
theorem resident_crowded {tag : Bytes} (hlength : tag.length = 523500) :
    (crowded tag).engine.toResident = Resident.empty.upsertRecordInMemory frozen (heavyRecord tag) ∧
      (crowded tag).engine.options = oneMegabyte ∧ (crowded tag).engine.nodeId = ascii "node" := by
  generalize hstart : World.initial (ascii "node") oneMegabyte = start
  have hlimit : start.engine.residentLimitBytes = 1048576 := by
    subst hstart
    rfl
  have hstored : storedRecords frozen start (heavy tag) = [heavyRecord tag] := by
    subst hstart
    apply storedRecords_plain (by simp [heavy, ascii]) rfl (by simp [important, recordInput, ascii])
      (by simp [important, recordInput, ascii]) rfl rfl rfl
    have hsize : inputSize (MemoryEngine.new (ascii "node") oneMegabyte) (heavy tag)
        (important tag) = 25 + tag.length + 384 := rfl
    change inputSize (MemoryEngine.new (ascii "node") oneMegabyte) (heavy tag) (important tag) ≤
      1048576
    omega
  have hwith : withStored frozen start (heavy tag) =
      Resident.empty.upsertRecordInMemory frozen (heavyRecord tag) := by
    rw [withStored, hstored, ← hstart]
    rfl
  have hused : (Resident.empty.upsertRecordInMemory frozen (heavyRecord tag)).residentUsedBytes ≤
      1048576 := by
    have hcharge := estimateResidentCharge_heavyRecord tag
    have hcounted : (Resident.empty.upsertRecordInMemory frozen
        (heavyRecord tag)).residentUsedBytes = estimateResidentCharge (heavyRecord tag) := by
      simp [Resident.upsertRecordInMemory, Resident.empty]
    omega
  have hoptions := call_options frozen applied start (.write (heavy tag))
  rcases prepareWrite_cases frozen start (heavy tag) with
    ⟨draft, c, hprep, hlater, hfresh⟩ | ⟨hnone, -⟩
  · obtain ⟨output, -, henforcing⟩ : ∃ output, output.ok = true ∧
        Enforcing frozen applied start (heavy tag) draft output c.tick :=
      enforcing_of_prepared hprep hlater hfresh rfl
    have hresident := henforcing.resident
    rw [hwith, hlimit, Resident.enforceResidentHardLimit, if_neg (by decide),
      Resident.enforceLoop, if_pos (Or.inl hused)] at hresident
    have hcrowded : crowded tag = (write frozen applied start (heavy tag)).1 := by
      rw [crowded, hstart]
      rfl
    rw [hcrowded]
    refine ⟨hresident, ?_⟩
    subst hstart
    exact hoptions
  · rw [storedRecords, hnone] at hstored
    cases hstored

end Examples

end PoorguyMem
