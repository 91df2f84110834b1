import PoorguyMem.Dedup

/-!
# Suppressed records

A `Write` reports the id that holds the dedup key of a record it leaves out. The
id is that of a live record with the key, as long as no record keeps its key when
it dies, and none is replaced under another key.
-/

namespace PoorguyMem

open ByteString

variable {K : Type} [Field K] [LinearOrder K]

/-- The document row of a name holds the text of a record. -/
def Stores (env : Platform K) (w : World K) (workspaceId id : Bytes) (d : MemoryRecord K) : Prop :=
  d.workspaceId = workspaceId ∧ d.id = id ∧
    ∃ v, (w.store.table docNs)[buildDocKey workspaceId id]? = some v ∧
      serializeRecord env d = some v.value

omit [LinearOrder K] in
/-- What a row decodes to is the record that it stores, reread. -/
theorem Stores.essence_decoded {env : Platform K} {w : World K} {workspaceId id : Bytes}
    {d r : MemoryRecord K} (hlaw : env.Lawful) (h : Stores env w workspaceId id d)
    (hr : ((w.store.table docNs)[buildDocKey workspaceId id]?.bind fun v =>
      deserializeRecord env v.value) = some r) : r.essence = d.essence := by
  obtain ⟨-, -, v, hv, htext⟩ := h
  rw [hv, Option.bind_some] at hr
  obtain ⟨hw, htext⟩ := serializeRecord_eq_some.mp htext
  rw [← htext] at hr
  exact (deserialize_serialize hlaw hw hr).1.essence

/-- Every id a `Write` reports is that of a live record with the key of an input. -/
def SuppressesLive (env : Platform K) (w : World K) (input : WriteInput K) (fate : Fate) : Prop :=
  ∀ output, (write env fate w input).2 = some output → ∀ id ∈ output.dedupedIds,
    ∃ recIn ∈ input.records, ∃ d, Stores env w input.workspaceId id d ∧
      recIn.dedupKey ≠ [] ∧ d.dedupKey = recIn.dedupKey ∧ d.tombstone = false ∧
      isExpired d (env.clock w.tick) = false

/-- The documents that carry a key of the input are live where the key is looked up. -/
def LiveKeys (documents : Documents K) (input : WriteInput K) (nowMs : UInt64) : Prop :=
  ∀ recIn ∈ input.records, recIn.content ≠ [] → recIn.dedupKey ≠ [] →
    input.writeMode ≠ ascii "append" → ∀ id d, documents input.workspaceId id = some d →
    d.dedupKey = recIn.dedupKey → d.tombstone = false ∧ isExpired d nowMs = false

/-- What a `Write` of such a run meets: no key of its input belongs to a record that
is dead, and it replaces no record under another key. -/
def Step.Faithful (env : Platform K) (t : Traced K) : Step K → Prop
  | .call (.write input) fate =>
    LiveKeys t.documents input (env.clock t.world.tick) ∧
      KeepsKeys t.documents (PoorguyMem.committed env t.world (.write input) fate)
  | _ => True

/-- The invariant of such runs. -/
structure Honest (env : Platform K) (t : Traced K) : Prop where
  tracked : Tracked env t
  index : IndexTrue t.documents t.world.engine.toResident

variable {env : Platform K} {t : Traced K}

omit [Field K] [LinearOrder K] in
theorem IndexTrue.of_dedupIndex {documents : Documents K} {s s' : Resident K}
    (h : IndexTrue documents s) (hsame : s'.dedupIndex = s.dedupIndex) : IndexTrue documents s' := by
  intro w key id hw hkey hindex
  exact h w key id hw hkey (hsame ▸ hindex)

theorem Honest.call (hlaw : env.Lawful) (h : Honest env t) {call : Call K} {fate : Fate}
    (hstep : (Step.call call fate).Regular env t.world)
    (hkeeps : KeepsKeys t.documents (committed env t.world call fate)) :
    Honest env (t.next env (.call call fate)) := by
  refine ⟨h.tracked.step hlaw hstep, ?_⟩
  refine IndexTrue.of_dedupIndex ?_ (dedupIndex_call fate call t.world)
  exact h.index.applyAll h.tracked.backs
    (h.tracked.plain_committed hlaw hstep.1.workspaces fate) hkeeps
    (h.tracked.present hlaw call fate)

theorem Honest.step (hlaw : env.Lawful) (t : Traced K) (step : Step K)
    (hstep : step.Regular env t.world ∧ step.Faithful env t) (h : Honest env t) :
    Honest env (t.next env step) := by
  obtain ⟨hregular, hfaithful⟩ := hstep
  match step with
  | .call c fate =>
    refine h.call hlaw hregular ?_
    by_cases hwrite : ∃ input, c = .write input
    · obtain ⟨input, rfl⟩ := hwrite
      exact hfaithful.2
    · refine keepsKeys_of_kept (fun w id d hd => ⟨d, hd, rfl⟩) fun change hchange => ?_
      obtain ⟨i, -, hprod⟩ := h.tracked.produced_committed hlaw change hchange
      exact h.tracked.keyKept hlaw (fun input heq => hwrite ⟨input, heq⟩) hprod
  | .restart none nodeId options =>
    refine ⟨h.tracked.step hlaw hregular, ?_⟩
    refine IndexTrue.of_dedupIndex ?_ (dedupIndex_restart hregular nodeId options)
    exact indexTrue_loadedRows hlaw h.tracked.sourced h.tracked.represents
  | .restart (some (c, fate)) nodeId options =>
    refine ⟨h.tracked.step hlaw hregular, ?_⟩
    obtain ⟨hS, hR⟩ := h.tracked.interrupt hlaw hregular.1.1.workspaces hregular.1.2
    refine IndexTrue.of_dedupIndex ?_ (dedupIndex_restart hregular.2 nodeId options)
    exact indexTrue_loadedRows hlaw hS hR

/-- An honest index reports live records alone. -/
theorem Honest.suppressesLive (h : Honest env t) {input : WriteInput K} (fate : Fate)
    (hclean : Clean input.workspaceId)
    (hlive : LiveKeys t.documents input (env.clock t.world.tick)) :
    SuppressesLive env t.world input fate := by
  intro output hout id hid
  have hids : id ∈ input.records.filterMap (dedupedBy t.world.engine input) := by
    rcases write_deduped hout with hnone | hall
    · rw [hnone] at hid
      cases hid
    · rwa [hall] at hid
  obtain ⟨recIn, hmem, hby⟩ := List.mem_filterMap.mp hids
  rw [dedupedBy] at hby
  split at hby
  · cases hby
  · rename_i hcontent
    rw [suppressedBy] at hby
    split at hby
    · rename_i hlooked
      obtain ⟨d, hd, hkey⟩ := h.index _ _ id hclean.1 hlooked.1 hby
      obtain ⟨hws, hid', hname, hw⟩ := h.tracked.represents.named _ _ d hd
      have hrow := h.tracked.represents.row _ _ hname
      rw [hd, Option.map_some] at hrow
      obtain ⟨v, hv, htext⟩ := Option.map_eq_some_iff.mp hrow
      obtain ⟨halive, hfresh⟩ := hlive recIn hmem hcontent hlooked.1 hlooked.2 id d hd hkey
      refine ⟨recIn, hmem, d, ⟨hws, hid', v, hv, ?_⟩, hlooked.1, hkey, halive, hfresh⟩
      exact serializeRecord_eq_some.mpr ⟨hw, htext.symm⟩
    · cases hby

section Examples
open Reference

/-- A write of one record under a dedup key. -/
def keyedInput (id content key : Bytes) : WriteInput ℚ :=
  ⟨ascii "w", [], [recordInput id content key], ascii "upsert"⟩

def keyedWrite (id content key : Bytes) : Step ℚ := .call (.write (keyedInput id content key)) applied

/-- A record with a key is written and compacted. -/
def buried : World ℚ := Runs.exec (next (platform ticking)) initial
  [keyedWrite (ascii "a") (ascii "hello") (ascii "k"), .call (.compact (ascii "w")) applied]

end Examples

end PoorguyMem
