import PoorguyMem.Suppression
import PoorguyMem.Victims

/-!
# The holder of a dedup key

Records of one workspace may share a dedup key, since a `Write` in append mode does
not look it up, but the index names one of them. What it names is overwritten by
every update of a record with the key, a tombstone too, and erased where any of them
is dropped, so that a live record can be left without an entry that names a live one.
-/

namespace PoorguyMem

open ByteString

variable {K : Type}

/-- A live record with the key is resident under another id. -/
def Elsewhere (s : Resident K) (w key id : Bytes) : Prop :=
  ∃ id' r, Plain w id' ∧ id' ≠ id ∧ s.records[recordMapKey w id']? = some r ∧
    r.tombstone = false ∧ r.dedupKey = key

/-- The change takes from a live record elsewhere the entry of its key: it puts a tombstone
with the key, replaces the record that is named for the key by one without it, or drops a
record with the key. -/
def Strands (documents : Documents K) (s : Resident K) : Change K → Prop
  | .put r => ∃ key, key ≠ [] ∧ Elsewhere s r.workspaceId key r.id ∧
      (r.dedupKey = key ∧ r.tombstone = true ∨
        r.dedupKey ≠ key ∧ s.dedupIndex[dedupMapKey r.workspaceId key]? = some r.id)
  | .drop r => ∃ d, documents r.workspaceId r.id = some d ∧ d.dedupKey ≠ [] ∧
      Elsewhere s r.workspaceId d.dedupKey r.id

/-- For the key of every live resident record the index names a live document with the key. -/
def HoldersNamed (documents : Documents K) (s : Resident K) : Prop :=
  ∀ w id r, Plain w id → s.records[recordMapKey w id]? = some r → r.tombstone = false →
    r.dedupKey ≠ [] → ∃ holder d, s.dedupIndex[dedupMapKey w r.dedupKey]? = some holder ∧
      documents w holder = some d ∧ d.tombstone = false ∧ d.dedupKey = r.dedupKey

/-! ### One change -/

section Changes
variable [Field K] [LinearOrder K] {env : Platform K} {s : Resident K} {documents : Documents K}

/-- A put keeps every holder named exactly where it strands none. -/
theorem HoldersNamed.put_iff (h : HoldersNamed documents s) {r : MemoryRecord K}
    (hname : Plain r.workspaceId r.id) :
    HoldersNamed (documents.apply (.put r)) (s.upsertRecordInMemory env r) ↔
      ¬ Strands documents s (.put r) := by
  have hchange : Plain (Change.put r).record.workspaceId (Change.put r).record.id := hname
  have hlookup : ∀ {w id}, Plain w id → (s.upsertRecordInMemory env r).records[
      recordMapKey w id]? = if r.workspaceId = w ∧ r.id = id then some r
        else s.records[recordMapKey w id]? :=
    fun hplain => lookup_applyChange s hchange hplain
  constructor
  · rintro hafter ⟨key, hne, ⟨id, held, hplain, hother, hheld, hlive, rfl⟩, hcase⟩
    obtain ⟨holder, d, hindex, hd, hdlive, hdkey⟩ := hafter _ id held hplain
      (by rw [hlookup hplain, if_neg fun hsame => hother hsame.2.symm]; exact hheld) hlive hne
    rw [lookup_dedupIndex_upsert] at hindex
    rw [Documents.apply] at hd
    rcases hcase with ⟨hkey, hdead⟩ | ⟨hkey, hnamed⟩
    · rw [if_pos ⟨hkey ▸ hne, by rw [hkey]⟩] at hindex
      obtain rfl := Option.some.inj hindex
      rw [if_pos ⟨rfl, rfl⟩] at hd
      obtain rfl := Option.some.inj hd
      rw [hdead] at hdlive
      cases hdlive
    · rw [if_neg fun hsame => hkey (dedupMapKey_inj hname.2.2.1 hname.2.2.1 hsame.2).2,
        hnamed] at hindex
      obtain rfl := Option.some.inj hindex
      rw [if_pos ⟨rfl, rfl⟩] at hd
      obtain rfl := Option.some.inj hd
      exact hkey hdkey
  · intro hsafe w id held hplain hheld hlive hne
    rw [hlookup hplain] at hheld
    rw [lookup_dedupIndex_upsert]
    by_cases hkey : r.workspaceId = w ∧ r.dedupKey = held.dedupKey
    · obtain ⟨rfl, hkey⟩ := hkey
      refine ⟨r.id, r, if_pos ⟨hkey ▸ hne, by rw [hkey]⟩, if_pos ⟨rfl, rfl⟩, ?_, hkey⟩
      split at hheld
      · obtain rfl := Option.some.inj hheld
        exact hlive
      · rename_i hother
        by_contra hdead
        exact hsafe ⟨_, hne, ⟨id, held, hplain, fun heq => hother ⟨rfl, heq.symm⟩, hheld, hlive,
          rfl⟩, Or.inl ⟨hkey, by simpa using hdead⟩⟩
    · have hsame : ¬ (r.workspaceId = w ∧ r.id = id) := by
        intro hsame
        rw [if_pos hsame] at hheld
        obtain rfl := Option.some.inj hheld
        exact hkey ⟨hsame.1, rfl⟩
      rw [if_neg hsame] at hheld
      obtain ⟨holder, d, hindex, hd, hdlive, hdkey⟩ := h w id held hplain hheld hlive hne
      refine ⟨holder, d, ?_, ?_, hdlive, hdkey⟩
      · rw [if_neg fun heq => hkey (dedupMapKey_inj hname.2.2.1 hplain.2.2.1 heq.2), hindex]
      · rw [Documents.apply, if_neg, hd]
        rintro ⟨hws, hid⟩
        obtain rfl : r.workspaceId = w := hws
        obtain rfl : r.id = holder := hid
        exact hsafe ⟨_, hne, ⟨id, held, hplain, fun heq => hsame ⟨rfl, heq.symm⟩, hheld, hlive,
          rfl⟩, Or.inr ⟨fun heq => hkey ⟨rfl, heq⟩, hindex⟩⟩

omit [LinearOrder K] in
/-- So does the removal of a resident record. -/
theorem HoldersNamed.drop_iff (h : HoldersNamed documents s) (hbacks : Backs documents s)
    {r : MemoryRecord K} (hname : Plain r.workspaceId r.id)
    (hpresent : (documents r.workspaceId r.id).isSome →
      s.records[recordMapKey r.workspaceId r.id]?.isSome) :
    HoldersNamed (documents.apply (.drop r)) (s.removeRecordInMemory r) ↔
      ¬ Strands documents s (.drop r) := by
  have hlookup : ∀ {w id}, Plain w id → (s.removeRecordInMemory r).records[
      recordMapKey w id]? = if r.workspaceId = w ∧ r.id = id then none
        else s.records[recordMapKey w id]? := by
    intro w id hplain
    rw [Resident.records_remove, lookup_erase]
    exact if_congr ⟨recordMapKey_inj hname.2.2.1 hplain.2.2.1, fun h => by rw [h.1, h.2]⟩ rfl rfl
  -- the key that is erased is that of the document
  have hcopy : ∀ {d}, documents r.workspaceId r.id = some d →
      ∃ held, s.records[recordMapKey r.workspaceId r.id]? = some held ∧
        held.dedupKey = d.dedupKey := by
    intro d hd
    obtain ⟨held, hheld⟩ := Option.isSome_iff_exists.mp
      (hpresent (Option.isSome_iff_exists.mpr ⟨d, hd⟩))
    obtain ⟨d', hd', hess⟩ := hbacks.held _ _ held hname hheld
    obtain rfl := Option.some.inj (hd.symm.trans hd')
    exact ⟨held, hheld, (fields_of_essence hess).2.2.1⟩
  constructor
  · rintro hafter ⟨d, hd, hne, id, live, hplain, hother, hheld, hlive, hkey⟩
    obtain ⟨copy, hcopied, hcopykey⟩ := hcopy hd
    obtain ⟨holder, -, hindex, -⟩ := hafter _ id live hplain
      (by rw [hlookup hplain, if_neg fun hsame => hother hsame.2.symm]; exact hheld) hlive
      (hkey ▸ hne)
    rw [lookup_dedupIndex_remove, if_pos ⟨copy, hcopied, hcopykey ▸ hne, by rw [hcopykey, hkey]⟩]
      at hindex
    cases hindex
  · intro hsafe w id live hplain hheld hlive hne
    rw [hlookup hplain] at hheld
    split at hheld
    · cases hheld
    · rename_i hother
      obtain ⟨holder, d, hindex, hd, hdlive, hdkey⟩ := h w id live hplain hheld hlive hne
      have hfree : ∀ d', documents r.workspaceId r.id = some d' →
          ¬ (r.workspaceId = w ∧ d'.dedupKey = live.dedupKey) := by
        rintro d' hd' ⟨rfl, hkey⟩
        exact hsafe ⟨d', hd', hkey ▸ hne, id, live, hplain,
          fun heq => hother ⟨rfl, heq.symm⟩, hheld, hlive, hkey.symm⟩
      refine ⟨holder, d, ?_, ?_, hdlive, hdkey⟩
      · rw [lookup_dedupIndex_remove, if_neg, hindex]
        rintro ⟨held, hresident, -, hsame⟩
        obtain ⟨d', hd', hess⟩ := hbacks.held _ _ held hname hresident
        obtain ⟨hws, hkeys⟩ := dedupMapKey_inj hname.2.2.1 hplain.2.2.1 hsame
        exact hfree d' hd' ⟨hws, (fields_of_essence hess).2.2.1.symm.trans hkeys⟩
      · rw [Documents.apply, if_neg, hd]
        rintro ⟨hws, hid⟩
        obtain rfl : r.workspaceId = w := hws
        obtain rfl : r.id = holder := hid
        exact hfree d hd ⟨rfl, hdkey⟩

/-- None of the changes, in their order, takes a live record's entry. -/
def StrandsNone (env : Platform K) (documents : Documents K) (s : Resident K) :
    List (Change K) → Prop
  | [] => True
  | change :: rest =>
    ¬ Strands documents s change ∧
      StrandsNone env (documents.apply change) (s.applyChange env change) rest

/-- Every holder stays named through all the changes exactly where none strands one. -/
theorem HoldersNamed.along_iff (h : HoldersNamed documents s) (hbacks : Backs documents s)
    {changes : List (Change K)}
    (hnames : ∀ change ∈ changes, Plain change.record.workspaceId change.record.id)
    (hpresent : Present (fun w id => ∃ r, Change.drop r ∈ changes ∧ r.workspaceId = w ∧ r.id = id)
      documents s) :
    (∀ n, HoldersNamed (documents.applyAll (changes.take n))
        ((changes.take n).foldl (Resident.applyChange env) s)) ↔
      StrandsNone env documents s changes := by
  induction changes generalizing documents s with
  | nil =>
    refine ⟨fun _ => trivial, fun _ n => ?_⟩
    rw [List.take_nil]
    exact h
  | cons change rest ih =>
    have hname := hnames change List.mem_cons_self
    have hfirst : HoldersNamed (documents.apply change) (s.applyChange env change) ↔
        ¬ Strands documents s change := by
      cases change with
      | put r => exact h.put_iff hname
      | drop r =>
        exact h.drop_iff hbacks hname (hpresent _ _ ⟨r, List.mem_cons_self, rfl, rfl⟩ hname)
    have hpresent' : Present (fun w id => ∃ r, Change.drop r ∈ rest ∧ r.workspaceId = w ∧ r.id = id)
        (documents.apply change) (s.applyChange env change) := by
      refine Present.applyChange (fun w id hn => ?_) hname
      obtain ⟨r, hr, hws, hid⟩ := hn
      exact hpresent w id ⟨r, List.mem_cons_of_mem _ hr, hws, hid⟩
    have hrest := fun hstep : HoldersNamed (documents.apply change) (s.applyChange env change) =>
      ih hstep (hbacks.applyChange hname) (fun c hc => hnames c (List.mem_cons_of_mem _ hc))
        hpresent'
    constructor
    · intro hall
      have hstep : HoldersNamed (documents.apply change) (s.applyChange env change) := hall 1
      exact ⟨hfirst.mp hstep, (hrest hstep).mp fun n => hall (n + 1)⟩
    · rintro ⟨hsafe, hsafe'⟩ n
      have hstep := hfirst.mpr hsafe
      cases n with
      | zero => exact h
      | succ n => exact (hrest hstep).mpr hsafe' n

end Changes

/-! ### Calls -/

section Calls
variable [Field K] [LinearOrder K] {env : Platform K} {t : Traced K}

/-- What is resident after a call was so after its changes, apart from accesses. -/
theorem lookup_records_call {fate : Fate} {call : Call K} {w : World K} {k : Bytes}
    {r : MemoryRecord K} (hr : (perform env fate w call).1.engine.records[k]? = some r) :
    ∃ r₀, ((committed env w call fate).foldl (Resident.applyChange env)
      w.engine.toResident).records[k]? = some r₀ ∧ r.essence = r₀.essence := by
  have hout := perform_outcome env fate w call
  generalize (perform env fate w call).1 = w' at hout hr
  cases hout with
  | idle none agrees =>
    rw [committed_of_none none]
    rw [agrees.resident] at hr
    exact ⟨r, hr, rfl⟩
  | queried isQuery =>
    obtain rfl := isQuery
    obtain ⟨records, hacc, hres⟩ := (query_spec env w _).resident
    rw [hres] at hr
    obtain ⟨r₀, hr₀, hsame⟩ := hacc.lookup hr
    rw [committed_of_none rfl]
    exact ⟨r₀, hr₀, essence_of_withoutAccess hsame⟩
  | failed _ failed agrees =>
    rw [agrees.resident] at hr
    rw [committed, if_neg (by simp [failed])]
    exact ⟨r, hr, rfl⟩
  | committed some ok settled =>
    rw [PoorguyMem.committed, if_pos ok, some, Option.elim_some, ← Plan.applyInMemory_eq]
    exact ⟨r, settled.resident.subset hr, rfl⟩

/-- The condition on a step: it is a call of regular workspaces whose batch is whole, and
none of its changes strands a holder. -/
def Step.KeepsHolders (env : Platform K) (t : Traced K) : Step K → Prop
  | .call c fate => c.Mentions Clean ∧ fate.main.Whole ∧
      StrandsNone env t.documents t.world.engine.toResident
        (PoorguyMem.committed env t.world c fate)
  | .restart _ _ _ => False

/-- The invariant of such runs. -/
structure Holding (env : Platform K) (t : Traced K) : Prop where
  tracked : Tracked env t
  named : HoldersNamed t.documents t.world.engine.toResident

/-- The changes of a call, one after the other, keep every holder named exactly where none
strands one. -/
theorem Holding.along_iff (hlaw : env.Lawful) (h : Holding env t) {call : Call K}
    (hclean : call.Mentions Clean) (fate : Fate) :
    (∀ n, HoldersNamed (t.documents.applyAll ((committed env t.world call fate).take n))
        (((committed env t.world call fate).take n).foldl (Resident.applyChange env)
          t.world.engine.toResident)) ↔
      StrandsNone env t.documents t.world.engine.toResident (committed env t.world call fate) :=
  h.named.along_iff h.tracked.backs (h.tracked.plain_committed hlaw hclean.workspaces fate)
    (h.tracked.present hlaw call fate)

theorem Holding.step (hlaw : env.Lawful) (t : Traced K) (step : Step K)
    (hstep : step.KeepsHolders env t) (h : Holding env t) : Holding env (t.next env step) := by
  match step with
  | .call c fate =>
    obtain ⟨hclean, hwhole, hsafe⟩ := hstep
    refine ⟨h.tracked.step hlaw ⟨hclean, hwhole⟩, ?_⟩
    have hall := (h.along_iff hlaw hclean fate).mpr hsafe (committed env t.world c fate).length
    rw [List.take_length] at hall
    intro w id r hplain hr hlive hne
    obtain ⟨r₀, hr₀, hess⟩ := lookup_records_call hr
    obtain ⟨-, -, hkey, -, hdead, -⟩ := fields_of_essence hess
    obtain ⟨holder, d, hindex, hd, hdlive, hdkey⟩ := hall w id r₀ hplain hr₀
      (hdead.symm.trans hlive) (hkey ▸ hne)
    refine ⟨holder, d, ?_, hd, hdlive, hdkey.trans hkey.symm⟩
    rw [hkey]
    refine Eq.trans ?_ hindex
    exact congrArg (·[dedupMapKey w r₀.dedupKey]?) (dedupIndex_call fate c t.world)

/-- For the key of every live resident record the index names a live stored record of the
workspace with the key, so that a later `Write` which looks it up is suppressed. -/
def NamesHolders (env : Platform K) (w : World K) : Prop :=
  ∀ (k : Bytes) r, w.engine.records[k]? = some r → r.tombstone = false → r.dedupKey ≠ [] →
    ∃ holder d, w.engine.dedupIndex[dedupMapKey r.workspaceId r.dedupKey]? = some holder ∧
      Stores env w r.workspaceId holder d ∧ d.tombstone = false ∧ d.dedupKey = r.dedupKey ∧
      ∀ (input : WriteInput K) (recIn : WriteRecordInput K), input.workspaceId = r.workspaceId →
        recIn.dedupKey = r.dedupKey → input.writeMode ≠ ascii "append" →
          suppressedBy w.engine input recIn = some holder

omit [LinearOrder K] in
theorem Holding.namesHolders (h : Holding env t) : NamesHolders env t.world := by
  intro k r hr hlive hne
  obtain ⟨rfl, hplain⟩ := h.tracked.sourced.held k r hr
  obtain ⟨holder, d, hindex, hd, hdlive, hdkey⟩ := h.named _ _ r hplain hr hlive hne
  obtain ⟨hws, hid, hname, hw⟩ := h.tracked.represents.named _ _ d hd
  have hrow := h.tracked.represents.row _ _ hname
  rw [hd, Option.map_some] at hrow
  obtain ⟨v, hv, htext⟩ := Option.map_eq_some_iff.mp hrow
  refine ⟨holder, d, hindex, ⟨hws, hid, v, hv, ?_⟩, hdlive, hdkey, ?_⟩
  · exact serializeRecord_eq_some.mpr ⟨hw, htext.symm⟩
  · intro input recIn hin hkey hmode
    rw [suppressedBy, hin, hkey, if_pos ⟨hne, hmode⟩, hindex]

/-- In every run whose changes strand no holder, the index names for the key of every live
resident record a live record that has it. The condition is exact: from every state of such
a run, the changes of one more call keep all holders named only if none of them strands one. -/
theorem dedup_index_names_holders (hlaw : env.Lawful) (nodeId : Bytes)
    (options : MemoryEngineOptions K) (steps : List (Step K))
    (hsteps : Runs.Along (Traced.next env) (fun t step => step.KeepsHolders env t)
      (Traced.initial nodeId options) steps) :
    let t := Runs.exec (Traced.next env) (Traced.initial nodeId options) steps
    NamesHolders env (Runs.exec (next env) (World.initial nodeId options) steps) ∧
      ∀ (call : Call K) (fate : Fate), call.Mentions Clean →
        ((∀ n, HoldersNamed (t.documents.applyAll ((committed env t.world call fate).take n))
            (((committed env t.world call fate).take n).foldl (Resident.applyChange env)
              t.world.engine.toResident)) ↔
          StrandsNone env t.documents t.world.engine.toResident
            (committed env t.world call fate)) := by
  intro t
  have hrun : Holding env t := by
    refine Runs.invariant (fun t step hstep h => h.step hlaw t step hstep) hsteps ?_
    refine ⟨tracked_initial nodeId options, fun w id r _ hr => ?_⟩
    exact absurd hr (by simp [Traced.initial, World.initial, MemoryEngine.new, Resident.empty])
  have hworld : t.world = Runs.exec (next env) (World.initial nodeId options) steps :=
    Traced.exec_world env _ steps
  rw [← hworld]
  exact ⟨hrun.namesHolders, fun call fate hclean => hrun.along_iff hlaw hclean fate⟩

end Calls

section Examples
open Reference

/-- A write in append mode of one record under the key k. -/
def appended (id : Bytes) : Call ℚ :=
  .write ⟨ascii "w", [], [recordInput id (ascii "x") (ascii "k")], ascii "append"⟩

theorem names_holders_appended : NamesHolders (platform ticking)
    (Runs.exec (next (platform ticking)) initial [.call (appended (ascii "a")) applied]) := by
  refine (dedup_index_names_holders (lawful_platform ticking) (ascii "node") options
    [.call (appended (ascii "a")) applied] ⟨⟨⟨by decide, by decide⟩, trivial, ?_⟩, trivial⟩).1
  have hone : (committed (platform ticking) initial (appended (ascii "a")) applied).length = 1 := by
    decide
  obtain ⟨change, hchange⟩ := List.length_eq_one_iff.mp hone
  change StrandsNone _ _ _ (committed (platform ticking) initial (appended (ascii "a")) applied)
  rw [hchange]
  refine ⟨?_, trivial⟩
  -- nothing is resident before
  have hnone : ∀ w key id, ¬ Elsewhere (Resident.empty : Resident ℚ) w key id := by
    rintro w key id ⟨id', r, -, -, hr, -⟩
    simp [Resident.empty] at hr
  cases change with
  | put r =>
    rintro ⟨key, -, helse, -⟩
    exact hnone _ _ _ helse
  | drop r =>
    rintro ⟨d, -, -, helse⟩
    exact hnone _ _ _ helse

/-- One of two records with a key is compacted. -/
def halfBuried : World ℚ :=
  Runs.exec (next (platform ticking)) (World.initial (ascii "node") single)
    [.call (appended (ascii "a")) applied, .call (appended (ascii "b")) applied,
      .call (.compact (ascii "w")) applied]

/-- The index names the tombstone, though the other record lives. -/
theorem not_namesHolders_halfBuried : ¬ NamesHolders (platform ticking) halfBuried := by
  intro h
  have hheld : halfBuried.engine.records[recordMapKey (ascii "w") (ascii "b")]?.map
      (fun r => (r.workspaceId, r.tombstone, r.dedupKey)) =
        some (ascii "w", false, ascii "k") := by decide +kernel
  have hindex : halfBuried.engine.dedupIndex[dedupMapKey (ascii "w") (ascii "k")]? =
      some (ascii "a") := by decide +kernel
  have hrow : ((halfBuried.store.table docNs)[buildDocKey (ascii "w") (ascii "a")]?.bind fun v =>
      deserializeRecord (platform ticking) v.value).map (·.tombstone) = some true := by
    decide +kernel
  obtain ⟨r, hr, hfields⟩ := Option.map_eq_some_iff.mp hheld
  simp only [Prod.mk.injEq] at hfields
  obtain ⟨hws, hlive, hkey⟩ := hfields
  obtain ⟨holder, d, hholder, hstores, hdlive, -⟩ :=
    h _ r hr hlive (by rw [hkey]; decide)
  rw [hws, hkey, hindex] at hholder
  obtain rfl := Option.some.inj hholder
  rw [hws] at hstores
  obtain ⟨d', hd', hdead⟩ := Option.map_eq_some_iff.mp hrow
  have hess := hstores.essence_decoded (lawful_platform ticking) hd'
  obtain ⟨-, -, -, -, htomb, -⟩ := fields_of_essence hess
  rw [hdead, hdlive] at htomb
  cases htomb

end Examples

end PoorguyMem
