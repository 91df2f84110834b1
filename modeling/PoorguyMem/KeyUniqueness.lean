import PoorguyMem.Suppression
import PoorguyMem.Mirror

/-!
# One record for a dedup key

A `Write` that suppresses looks every key up before it stores any record of its
batch. Two records with one key are then told apart from what was there before the
call, and within a batch only where they have the same id.
-/

namespace PoorguyMem

open ByteString

variable {K : Type}

/-- The inputs of a batch that no later one of the same id replaces. -/
def survivors : List (WriteRecordInput K) → List (WriteRecordInput K)
  | [] => []
  | recIn :: rest =>
    if recIn.recordId ≠ [] ∧ ∃ later ∈ rest, later.recordId = recIn.recordId then survivors rest
    else recIn :: survivors rest

/-- No two records that a batch leaves have the same dedup key. -/
def DistinctKeys (inputs : List (WriteRecordInput K)) : Prop :=
  (survivors inputs).Pairwise fun a b => a.dedupKey ≠ [] → a.dedupKey ≠ b.dedupKey

instance (inputs : List (WriteRecordInput K)) : Decidable (DistinctKeys inputs) :=
  inferInstanceAs (Decidable (List.Pairwise _ _))

/-! ### The last record of a name -/

def lastNamed (w id : Bytes) : List (MemoryRecord K) → Option (MemoryRecord K)
  | [] => none
  | r :: rest =>
    (lastNamed w id rest).or (if r.workspaceId = w ∧ r.id = id then some r else none)

theorem isSome_lastNamed {w id : Bytes} {rs : List (MemoryRecord K)} {r : MemoryRecord K}
    (hmem : r ∈ rs) (hws : r.workspaceId = w) (hid : r.id = id) : (lastNamed w id rs).isSome := by
  induction rs with
  | nil => cases hmem
  | cons head rest ih =>
    rw [lastNamed, Option.isSome_or, Bool.or_eq_true]
    rcases List.mem_cons.mp hmem with rfl | hmem
    · right
      rw [if_pos ⟨hws, hid⟩]
      rfl
    · exact Or.inl (ih hmem)

theorem mem_of_lastNamed {w id : Bytes} {rs : List (MemoryRecord K)} {d : MemoryRecord K}
    (h : lastNamed w id rs = some d) : d ∈ rs ∧ d.workspaceId = w ∧ d.id = id := by
  induction rs with
  | nil => cases h
  | cons head rest ih =>
    rw [lastNamed] at h
    rcases Option.or_eq_some_iff.mp h with hrest | ⟨-, hhead⟩
    · obtain ⟨hmem, hnames⟩ := ih hrest
      exact ⟨List.mem_cons_of_mem _ hmem, hnames⟩
    · split at hhead
      · rename_i hnames
        obtain rfl := Option.some.inj hhead
        exact ⟨List.mem_cons_self, hnames⟩
      · cases hhead

theorem applyAll_puts (documents : Documents K) (rs : List (MemoryRecord K)) (w id : Bytes) :
    documents.applyAll (rs.map .put) w id = (lastNamed w id rs).or (documents w id) := by
  induction rs generalizing documents with
  | nil => rfl
  | cons r rest ih =>
    refine (ih (documents.apply (.put r))).trans ?_
    rw [lastNamed, Option.or_assoc]
    congr 1
    change (if r.workspaceId = w ∧ r.id = id then some r else documents w id) = _
    split <;> rfl

/-! ### Batches -/

section Batches
variable [Field K] [LinearOrder K] {engine : MemoryEngine K} {input : WriteInput K}
  {nowMs : UInt64} {xs : List (WriteRecordInput K)} {rs : List (MemoryRecord K)}

theorem MadeOf.fields {recIn : WriteRecordInput K} {r : MemoryRecord K}
    (h : MadeOf engine input nowMs recIn r) :
    r.workspaceId = input.workspaceId ∧ r.dedupKey = recIn.dedupKey ∧
      (recIn.recordId ≠ [] → r.id = recIn.recordId) := by
  obtain ⟨id, pinned, -, hgiven, rfl⟩ := h
  exact ⟨rfl, rfl, hgiven⟩

/-- The last record of a name comes from an input that is not replaced. -/
theorem survivors_cons_of_last {recIn : WriteRecordInput K} {r : MemoryRecord K}
    (hmade : MadeOf engine input nowMs recIn r)
    (h : List.Forall₂ (MadeOf engine input nowMs) xs rs)
    (hlast : lastNamed r.workspaceId r.id rs = none) :
    survivors (recIn :: xs) = recIn :: survivors xs := by
  rw [survivors, if_neg]
  rintro ⟨hne, later, hmem, hsame⟩
  obtain ⟨r', hr', hmade'⟩ := exists_right_of_forall₂ h hmem
  obtain ⟨hws, -, hid⟩ := hmade.fields
  obtain ⟨hws', -, hid'⟩ := hmade'.fields
  have hid'' : r'.id = r.id := by rw [hid' (hsame ▸ hne), hsame, hid hne]
  have hsome := isSome_lastNamed hr' (hws'.trans hws.symm) hid''
  rw [hlast] at hsome
  cases hsome

theorem exists_survivor (h : List.Forall₂ (MadeOf engine input nowMs) xs rs) {w id : Bytes}
    {d : MemoryRecord K} (hd : lastNamed w id rs = some d) :
    ∃ recIn ∈ survivors xs, recIn.dedupKey = d.dedupKey := by
  induction h with
  | nil => cases hd
  | @cons recIn r xs rs hmade hrest ih =>
    rw [lastNamed] at hd
    rcases Option.or_eq_some_iff.mp hd with hlater | ⟨hnone, hhead⟩
    · obtain ⟨recIn', hmem, hkey⟩ := ih hlater
      refine ⟨recIn', ?_, hkey⟩
      rw [survivors]
      split
      · exact hmem
      · exact List.mem_cons_of_mem _ hmem
    · split at hhead
      · rename_i hnames
        obtain ⟨rfl, rfl⟩ := hnames
        obtain rfl := Option.some.inj hhead
        rw [survivors_cons_of_last hmade hrest hnone]
        exact ⟨recIn, List.mem_cons_self, hmade.fields.2.1.symm⟩
      · cases hhead

/-- Two records that a batch leaves under one key have the same id. -/
theorem lastNamed_unique (h : List.Forall₂ (MadeOf engine input nowMs) xs rs)
    (hdistinct : DistinctKeys xs) {w a b : Bytes} {x y : MemoryRecord K}
    (hx : lastNamed w a rs = some x) (hy : lastNamed w b rs = some y)
    (hkey : x.dedupKey = y.dedupKey) (hne : x.dedupKey ≠ []) : a = b := by
  induction h with
  | nil => cases hx
  | @cons recIn r xs rs hmade hrest ih =>
    have hpairs : DistinctKeys xs := by
      rw [DistinctKeys, survivors] at hdistinct
      split at hdistinct
      · exact hdistinct
      · exact (List.pairwise_cons.mp hdistinct).2
    -- the head is the last record of its name, and another one has its key
    have clash : ∀ {id : Bytes} {d : MemoryRecord K}, lastNamed r.workspaceId r.id rs = none →
        lastNamed r.workspaceId id rs = some d → r.dedupKey = d.dedupKey → r.dedupKey ≠ [] →
        False := by
      intro id d hlast hd hsame hne
      rw [DistinctKeys, survivors_cons_of_last hmade hrest hlast] at hdistinct
      obtain ⟨later, hmem, hlater⟩ := exists_survivor hrest hd
      have hrkey := hmade.fields.2.1
      refine (List.pairwise_cons.mp hdistinct).1 later hmem ?_ ?_
      · rw [← hrkey]
        exact hne
      · rw [← hrkey, hlater, hsame]
    rw [lastNamed] at hx hy
    rcases Option.or_eq_some_iff.mp hx with hx | ⟨hxnone, hxhead⟩ <;>
      rcases Option.or_eq_some_iff.mp hy with hy | ⟨hynone, hyhead⟩
    · exact ih hpairs hx hy
    · split at hyhead
      · rename_i hnames
        obtain ⟨rfl, rfl⟩ := hnames
        obtain rfl := Option.some.inj hyhead
        exact (clash hynone hx hkey.symm (hkey ▸ hne)).elim
      · cases hyhead
    · split at hxhead
      · rename_i hnames
        obtain ⟨rfl, rfl⟩ := hnames
        obtain rfl := Option.some.inj hxhead
        exact (clash hxnone hy hkey hne).elim
      · cases hxhead
    · split at hxhead
      · rename_i hxnames
        split at hyhead
        · rename_i hynames
          exact hxnames.2.symm.trans hynames.2
        · cases hyhead
      · cases hxhead

end Batches

/-! ### Runs -/

section Runs
variable [Field K] [LinearOrder K] {env : Platform K} {t : Traced K}

/-- A `Write` that suppresses, with different keys for the records its batch leaves. -/
def Call.Unambiguous (engine : MemoryEngine K) (fate : Fate) : Call K → Prop
  | .write input => input.writeMode ≠ ascii "append" ∧
      (fate.main.ok = true → DistinctKeys (storedInputs engine input))
  | _ => True

def Step.Unambiguous (t : Traced K) : Step K → Prop
  | .call c fate => c.Unambiguous t.world.engine fate
  | .restart none _ _ => True
  | .restart (some (c, fate)) _ _ => c.Unambiguous t.world.engine fate

/-- The invariant of such runs. -/
structure UniquelyKeyed (env : Platform K) (t : Traced K) : Prop where
  tracked : Tracked env t
  unique : KeysUnique t.documents
  indexed : Indexed t.documents t.world.engine.toResident

theorem Indexed.applyPuts {documents : Documents K} {s : Resident K} (h : Indexed documents s)
    (rs : List (MemoryRecord K)) : Indexed (documents.applyAll (rs.map .put))
      ((rs.map .put).foldl (Resident.applyChange env) s) := by
  induction rs generalizing documents s with
  | nil => exact h
  | cons r rest ih => exact ih (h.put r)

omit [Field K] [LinearOrder K] in
theorem Indexed.of_dedupIndex {documents : Documents K} {s s' : Resident K}
    (h : Indexed documents s) (hsame : s'.dedupIndex = s.dedupIndex) : Indexed documents s' := by
  intro w id d hd hkey
  rw [hsame]
  exact h w id d hd hkey

/-- The documents after a `Write` have one id for a key. -/
theorem UniquelyKeyed.unique_write (h : UniquelyKeyed env t) {input : WriteInput K}
    (hmode : input.writeMode ≠ ascii "append") {rs : List (MemoryRecord K)}
    (hall : List.Forall₂ (MadeOf t.world.engine input (env.clock t.world.tick))
      (storedInputs t.world.engine input) rs)
    (hdistinct : DistinctKeys (storedInputs t.world.engine input)) :
    KeysUnique (t.documents.applyAll (rs.map .put)) := by
  -- a key that a document carries has been looked up and found
  have fresh : ∀ {w a b x y}, t.documents w a = some x → lastNamed w b rs = some y →
      x.dedupKey = y.dedupKey → x.dedupKey ≠ [] → False := by
    intro w a b x y hx hy hkey hne
    obtain ⟨hmem, hws, -⟩ := mem_of_lastNamed hy
    obtain ⟨recIn, hrec, hmade⟩ : ∃ recIn ∈ storedInputs t.world.engine input,
        MadeOf t.world.engine input (env.clock t.world.tick) recIn y :=
      exists_left_of_forall₂ hall hmem
    obtain ⟨hws', hkey', -⟩ := hmade.fields
    have hstored := (List.mem_filter.mp hrec).2
    have hindexed := h.indexed w a x hx hne
    rw [hkey, hkey', ← hws, hws'] at hindexed
    have hlooked : recIn.dedupKey ≠ [] ∧ input.writeMode ≠ ascii "append" :=
      ⟨by rw [← hkey', ← hkey]; exact hne, hmode⟩
    rw [isStored, suppressedBy, if_pos hlooked] at hstored
    simp only [Bool.and_eq_true] at hstored
    rw [Option.isNone_iff_eq_none.mp hstored.1.2] at hindexed
    cases hindexed
  intro w a b x y hx hy hkey hne
  rw [applyAll_puts] at hx hy
  rcases Option.or_eq_some_iff.mp hx with hx | ⟨hxnone, hx⟩ <;>
    rcases Option.or_eq_some_iff.mp hy with hy | ⟨hynone, hy⟩
  · exact lastNamed_unique hall hdistinct hx hy hkey hne
  · exact (fresh hy hx hkey.symm (hkey ▸ hne)).elim
  · exact (fresh hx hy hkey hne).elim
  · exact h.unique w a b x y hx hy hkey hne

/-- What a call commits keeps one id for a key. -/
theorem UniquelyKeyed.committed (hlaw : env.Lawful) (h : UniquelyKeyed env t) {call : Call K} {fate : Fate}
    (hcall : call.Workspaces Clean) (hun : call.Unambiguous t.world.engine fate) :
    KeysUnique (t.documents.applyAll (committed env t.world call fate)) ∧
      Indexed (t.documents.applyAll (committed env t.world call fate))
        ((committed env t.world call fate).foldl (Resident.applyChange env)
          t.world.engine.toResident) := by
  by_cases hwrite : ∃ input, call = .write input
  · obtain ⟨input, rfl⟩ := hwrite
    by_cases hok : fate.main.ok = true
    · rcases hprep : (prepare env fate t.world (.write input)).1 with _ | request
      · rw [committed_of_none hprep]
        exact ⟨h.unique, h.indexed⟩
      · obtain ⟨rs, hchanges, hall⟩ := prepare_write_stores hprep
        rw [PoorguyMem.committed, if_pos hok, hprep, Option.elim_some, hchanges]
        exact ⟨h.unique_write hun.1 hall (hun.2 hok), h.indexed.applyPuts rs⟩
    · rw [PoorguyMem.committed, if_neg hok]
      exact ⟨h.unique, h.indexed⟩
  · have hkept : ∀ change ∈ PoorguyMem.committed env t.world call fate,
        KeyKept t.documents change := by
      intro change hchange
      obtain ⟨i, -, hprod⟩ := h.tracked.produced_committed hlaw change hchange
      exact h.tracked.keyKept hlaw (fun input heq => hwrite ⟨input, heq⟩) hprod
    obtain ⟨hindexed, hfrom⟩ := h.indexed.applyAll env h.tracked.backs h.unique
      (fun w id d hd => ⟨d, hd, rfl⟩)
      (fun w id d hd => (h.tracked.represents.named w id d hd).2.2.1.2.2.1)
      (h.tracked.plain_committed hlaw hcall fate) hkept
    exact ⟨h.unique.of_keysFrom hfrom, hindexed⟩

theorem UniquelyKeyed.step (hlaw : env.Lawful) (t : Traced K) (step : Step K)
    (hstep : step.Regular env t.world ∧ step.Unambiguous t) (h : UniquelyKeyed env t) :
    UniquelyKeyed env (t.next env step) := by
  obtain ⟨hregular, hun⟩ := hstep
  have htracked := h.tracked.step hlaw hregular
  match step with
  | .call c fate =>
    obtain ⟨hunique, hindexed⟩ := h.committed hlaw hregular.1.workspaces hun
    exact ⟨htracked, hunique, hindexed.of_dedupIndex (dedupIndex_call fate c t.world)⟩
  | .restart none nodeId options =>
    refine ⟨htracked, h.unique, ?_⟩
    refine Indexed.of_dedupIndex ?_ (dedupIndex_restart hregular nodeId options)
    exact indexed_loadedRows hlaw h.tracked.represents hregular
  | .restart (some (c, fate)) nodeId options =>
    obtain ⟨hunique, -⟩ := h.committed hlaw hregular.1.1.workspaces hun
    refine ⟨htracked, hunique, ?_⟩
    obtain ⟨hS, hR⟩ := h.tracked.interrupt hlaw hregular.1.1.workspaces hregular.1.2
    refine Indexed.of_dedupIndex ?_ (dedupIndex_restart hregular.2 nodeId options)
    exact indexed_loadedRows hlaw hR hregular.2

/-- Live records of one workspace with the same dedup key have the same id, among the
resident records and among those the document rows decode to. -/
structure OneIdPerKey (env : Platform K) (w : World K) : Prop where
  resident : ∀ ws a b x y, w.engine.toResident.Holds ws a x → w.engine.toResident.Holds ws b y →
    x.tombstone = false → y.tombstone = false → x.dedupKey = y.dedupKey → x.dedupKey ≠ [] → a = b
  rows : ∀ (k l : Bytes) v u x y, (w.store.table docNs)[k]? = some v →
    (w.store.table docNs)[l]? = some u → deserializeRecord env v.value = some x →
    deserializeRecord env u.value = some y → x.workspaceId = y.workspaceId →
    x.tombstone = false → y.tombstone = false → x.dedupKey = y.dedupKey → x.dedupKey ≠ [] →
    x.id = y.id

omit [LinearOrder K] in
theorem UniquelyKeyed.oneIdPerKey (hlaw : env.Lawful) (h : UniquelyKeyed env t) : OneIdPerKey env t.world where
  resident := by
    rintro ws a b x y ⟨hx, hwx, hax⟩ ⟨hy, hwy, hby⟩ - - hkey hne
    obtain ⟨d, hd, hessx⟩ := h.tracked.document_held hx
    obtain ⟨e, he, hessy⟩ := h.tracked.document_held hy
    obtain ⟨-, -, hkeyx, -⟩ := fields_of_essence hessx
    obtain ⟨-, -, hkeyy, -⟩ := fields_of_essence hessy
    rw [hwx, hax] at hd
    rw [hwy, hby] at he
    exact h.unique ws a b d e hd he (by rw [← hkeyx, ← hkeyy, hkey]) (hkeyx ▸ hne)
  rows := by
    intro k l v u x y hv hu hx hy hws _ _ hkey hne
    have row : ∀ {k : Bytes} {v : StoredValue} {x : MemoryRecord K},
        (t.world.store.table docNs)[k]? = some v → deserializeRecord env v.value = some x →
        ∃ d, t.documents x.workspaceId x.id = some d ∧ d.dedupKey = x.dedupKey := by
      intro k v x hv hx
      obtain ⟨r, hk, hvalue, hw, hname⟩ := h.tracked.sourced.docs _ _ hv
      obtain ⟨hwx, hidx⟩ := (deserialize_serialize hlaw hw (hvalue ▸ hx)).1.names
      rw [hk] at hv
      obtain ⟨d, hd, -, hreread⟩ := h.tracked.represents.decoded hlaw hname hv hx
      rw [hwx, hidx]
      exact ⟨d, hd, (fields_of_essence hreread.essence).2.2.1.symm⟩
    obtain ⟨d, hd, hkeyx⟩ := row hv hx
    obtain ⟨e, he, hkeyy⟩ := row hu hy
    rw [hws] at hd
    exact h.unique _ _ _ d e hd he (by rw [hkeyx, hkeyy, hkey]) (hkeyx ▸ hne)

/-- In every run whose writes suppress and whose batches leave different keys, no two
live records of a workspace have the same dedup key. -/
theorem dedup_keys_unique (hlaw : env.Lawful) (nodeId : Bytes) (options : MemoryEngineOptions K)
    (steps : List (Step K))
    (hsteps : Runs.Along (Traced.next env)
      (fun t step => step.Regular env t.world ∧ step.Unambiguous t)
      (Traced.initial nodeId options) steps) :
    OneIdPerKey env (Runs.exec (next env) (World.initial nodeId options) steps) := by
  have hrun : UniquelyKeyed env (Runs.exec (Traced.next env) (Traced.initial nodeId options) steps) := by
    refine Runs.invariant (fun t step hstep h => h.step hlaw t step hstep) hsteps ?_
    constructor
    case tracked => exact tracked_initial nodeId options
    case unique =>
      intro w a b x y hx
      cases hx
    case indexed =>
      intro w id d hd
      cases hd
  have hworld : (Runs.exec (Traced.next env) (Traced.initial nodeId options) steps).world =
      Runs.exec (next env) (World.initial nodeId options) steps := Traced.exec_world env _ steps
  rw [← hworld]
  exact hrun.oneIdPerKey hlaw

end Runs

section Examples
open Reference

theorem keys_unique_after_keyed_writes :
    OneIdPerKey (platform ticking) (Runs.exec (next (platform ticking)) initial
      [keyedWrite (ascii "a") (ascii "hello") (ascii "k"),
        keyedWrite (ascii "b") (ascii "world") (ascii "k")]) := by
  have hclean : Clean (ascii "w") := ⟨by decide, by decide⟩
  have hmode : ascii "upsert" ≠ ascii "append" := by decide
  refine dedup_keys_unique (lawful_platform ticking) (ascii "node") options
    [keyedWrite (ascii "a") (ascii "hello") (ascii "k"),
      keyedWrite (ascii "b") (ascii "world") (ascii "k")]
    ⟨⟨⟨hclean, trivial⟩, ⟨hmode, ?_⟩⟩, ⟨⟨hclean, trivial⟩, ⟨hmode, ?_⟩⟩, trivial⟩
  · decide
  · decide

/-- Two records of one batch with the same key. -/
def twins : World ℚ := Runs.exec (next (platform ticking)) initial
  [.call (Reference.write (ascii "w") [recordInput (ascii "a") (ascii "hello") (ascii "k"),
    recordInput (ascii "b") (ascii "world") (ascii "k")]) applied]

theorem not_oneIdPerKey_twins : ¬ OneIdPerKey (platform ticking) twins := by
  intro h
  have held : ∀ id ∈ [ascii "a", ascii "b"],
      (twins.engine.records[recordMapKey (ascii "w") id]?.map fun r =>
        (r.workspaceId, r.id, r.tombstone, r.dedupKey)) =
      some (ascii "w", id, false, ascii "k") := by decide
  have holds : ∀ id ∈ [ascii "a", ascii "b"], ∃ r, twins.engine.toResident.Holds (ascii "w") id r ∧
      r.tombstone = false ∧ r.dedupKey = ascii "k" := by
    intro id hid
    obtain ⟨r, hr, heq⟩ := Option.map_eq_some_iff.mp (held id hid)
    simp only [Prod.mk.injEq] at heq
    exact ⟨r, ⟨hr, heq.1, heq.2.1⟩, heq.2.2⟩
  obtain ⟨x, hx, hlivex, hkeyx⟩ := holds (ascii "a") List.mem_cons_self
  obtain ⟨y, hy, hlivey, hkeyy⟩ := holds (ascii "b") (List.mem_cons_of_mem _ List.mem_cons_self)
  have heq := h.resident _ _ _ x y hx hy hlivex hlivey (hkeyx.trans hkeyy.symm)
    (by rw [hkeyx]; decide)
  exact absurd heq (by decide)

end Examples

end PoorguyMem
