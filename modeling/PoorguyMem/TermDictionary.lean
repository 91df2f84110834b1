import PoorguyMem.Postings

/-!
# The dictionary of terms

`mem_term_dict` has a row for a term of a workspace. Each record that is stored puts
into it what that one record has of the term, and nothing deletes it. The rows are
the statistics of the workspace only as long as no two live documents share a term
and no document loses one.
-/

namespace PoorguyMem

open ByteString PropertyTree

variable {K : Type}

/-! ### Statistics -/

/-- How often a term occurs in the live document of a name. -/
def Documents.occurrences (documents : Documents K) (workspaceId term id : Bytes) : Nat :=
  ((documents workspaceId id).filter fun d => !d.tombstone).elim 0
    fun d => (tokenize d.content).count term

/-- The live documents in which a term occurs. -/
def Documents.holders (documents : Documents K) (workspaceId term : Bytes) : Set Bytes :=
  {id | 0 < documents.occurrences workspaceId term id}

def termDictTree (df cf maxTf : Nat) (updatedAt : UInt64) (blockRefs : List Bytes) : Ptree :=
  (flatTree [(ascii "df", decimal df), (ascii "cf", decimal cf), (ascii "max_tf", decimal maxTf),
    (ascii "updated_at", showUint64 updatedAt)]).addChild (ascii "block_refs") (makeArray blockRefs)

/-- The key of a posting of a term that is in the store. -/
def Traced.PostingKey (t : Traced K) (workspaceId term k : Bytes) : Prop :=
  (∃ bucket id, k = buildPostingKey workspaceId term bucket id) ∧
    (t.world.store.table postingBlkNs)[k]?.isSome = true

/-- A row is there for the terms that occur, and tells in how many documents they do,
how often in all and in one of them, and where their postings are. -/
structure TermStatistics (env : Platform K) (t : Traced K) : Prop where
  documents : Represents env (t.world.store.table docNs) t.documents
  present : ∀ workspaceId term,
    (t.world.store.table termDictNs)[buildTermDictKey workspaceId term]?.isSome = true ↔
      (t.documents.holders workspaceId term).Nonempty
  aggregates : ∀ workspaceId term v,
    (t.world.store.table termDictNs)[buildTermDictKey workspaceId term]? = some v →
    ∃ updatedAt blockRefs, v.value = env.json.print (termDictTree
        (t.documents.holders workspaceId term).ncard
        (finsum fun id => t.documents.occurrences workspaceId term id)
        (sSup (Set.range fun id => t.documents.occurrences workspaceId term id))
        updatedAt blockRefs) ∧
      ∀ k, k ∈ blockRefs ↔ t.PostingKey workspaceId term k

/-! ### The condition -/

/-- A live document under its own name. -/
def Documents.Live (documents : Documents K) (d : MemoryRecord K) : Prop :=
  documents d.workspaceId d.id = some d ∧ d.tombstone = false

/-- A change stores no term of another live document, and keeps the terms of the live
document that it replaces. -/
structure TermsApart (documents : Documents K) (change : Change K) : Prop where
  fresh : ∀ r, change.live = some r → ∀ d, documents.Live d → d.workspaceId = r.workspaceId →
    d.id ≠ r.id → ∀ term ∈ tokenize r.content, term ∉ tokenize d.content
  kept : ∀ d, documents change.record.workspaceId change.record.id = some d →
    d.tombstone = false → ∀ term ∈ tokenize d.content,
      ∃ r, change.live = some r ∧ term ∈ tokenize r.content

def KeepTermsApart : Documents K → List (Change K) → Prop
  | _, [] => True
  | documents, change :: rest =>
    TermsApart documents change ∧ KeepTermsApart (documents.apply change) rest

/-! ### Keys -/

/-- The key of a dictionary row is that of no other workspace and term. -/
theorem buildTermDictKey_inj {w v term term' : Bytes} (hv : 47 ∉ v) (hterm' : 47 ∉ term')
    (h : buildTermDictKey w term = buildTermDictKey v term') : w = v ∧ term = term' := by
  have hcount := congrArg (List.count 47) h
  simp only [buildTermDictKey, List.count_append, List.count_eq_zero.mpr hv,
    List.count_eq_zero.mpr hterm'] at hcount
  have hw : 47 ∉ w := List.count_eq_zero.mp (by omega)
  simp only [buildTermDictKey, List.append_assoc] at h
  obtain ⟨hwv, hterms⟩ := separated_inj hw hv (List.append_cancel_left h)
  exact ⟨hwv, append_cancel (ascii "term/") hterms⟩

/-! ### The live documents -/

theorem Change.record_of_live {change : Change K} {r : MemoryRecord K}
    (h : change.live = some r) : change.record = r ∧ r.tombstone = false := by
  obtain ⟨hvalue, hlive⟩ := Option.filter_eq_some_iff.mp h
  cases change with
  | put r' => exact ⟨Option.some.inj hvalue, by simpa using hlive⟩
  | drop r' => cases hvalue

theorem Documents.live_apply_iff {documents : Documents K} {change : Change K}
    {d : MemoryRecord K} : (documents.apply change).Live d ↔ change.live = some d ∨
      documents.Live d ∧
        ¬ (change.record.workspaceId = d.workspaceId ∧ change.record.id = d.id) := by
  unfold Documents.Live Documents.apply
  by_cases hsame : change.record.workspaceId = d.workspaceId ∧ change.record.id = d.id
  · rw [if_pos hsame]
    constructor
    · rintro ⟨hvalue, hlive⟩
      left
      rw [Change.live, hvalue, Option.filter_some, hlive]
      rfl
    · rintro (hlive | ⟨-, hne⟩)
      · exact ⟨(Option.filter_eq_some_iff.mp hlive).1, (Change.record_of_live hlive).2⟩
      · exact absurd hsame hne
  · rw [if_neg hsame]
    constructor
    · exact fun h => Or.inr ⟨h, hsame⟩
    · rintro (hlive | ⟨h, -⟩)
      · obtain ⟨rfl, -⟩ := Change.record_of_live hlive
        exact absurd ⟨rfl, rfl⟩ hsame
      · exact h

section Rows
variable [Field K] [LinearOrder K] {env : Platform K} {records : StringMap (MemoryRecord K)}
  {change : Change K} {writes : List WriteEntry} {documents : Documents K} {table : Table}

/-! ### The rows of a change -/

/-- The row a record writes for one of its terms. -/
def dictRow (env : Platform K) (r : MemoryRecord K) (term : Bytes) : WriteEntry :=
  termDictEntry env r term ((tokenize r.content).count term)

omit [Field K] [LinearOrder K] in
theorem Erasing.ne_termDictNs {r : MemoryRecord K} {e : WriteEntry} (h : Erasing env r e) :
    e.entry.nameSpace ≠ termDictNs := by
  cases h with
  | posting => exact (derivedNamespaces_ne postingBlkNs (by decide)).2.1
  | vecCode => exact (derivedNamespaces_ne vecCodeNs (by decide)).2.1
  | vecFp => exact (derivedNamespaces_ne vecFpNs (by decide)).2.1

/-- A live record writes a row for each of its terms; nothing else is done to the dictionary. -/
theorem ChangeRows.mem_dictRows (h : ChangeRows env records change writes) (e : WriteEntry) :
    e ∈ Store.restrict termDictNs writes ↔
      ∃ r, change.live = some r ∧ ∃ term ∈ tokenize r.content, e = dictRow env r term := by
  have hdoc : docNs ≠ termDictNs := by decide
  rw [mem_restrict]
  cases h with
  | put r t =>
    have hold : ∀ old : Option (MemoryRecord K), e ∈ old.elim []
        (fun old => dropIndexEntries env t old r.updatedAtMs) → e.entry.nameSpace ≠ termDictNs := by
      intro old he
      cases old with
      | none => cases he
      | some old => exact ((erases_dropIndexEntries env t old r.updatedAtMs).only e he).ne_termDictNs
    rw [indexEntries]
    by_cases hdead : r.tombstone = true
    · have hnone : (Change.put r).live = none := by simp [Change.live, Change.value, hdead]
      rw [if_pos hdead, hnone]
      constructor
      · rintro ⟨he, hns⟩
        rcases List.mem_cons.mp he with rfl | he
        · exact absurd hns hdoc
        rcases List.mem_append.mp he with he | he
        · exact absurd hns (hold _ he)
        · exact absurd hns ((erases_dropIndexEntries env t r r.updatedAtMs).only e he).ne_termDictNs
      · rintro ⟨r', h, -⟩
        cases h
    · have hlive : (Change.put r).live = some r := by simp [Change.live, Change.value, hdead]
      rw [if_neg hdead, hlive]
      constructor
      · rintro ⟨he, hns⟩
        refine ⟨r, rfl, ?_⟩
        rcases List.mem_cons.mp he with rfl | he
        · exact absurd hns hdoc
        rcases List.mem_append.mp he with he | he
        · exact absurd hns (hold _ he)
        rcases List.mem_cons.mp he with rfl | he
        · exact absurd hns (derivedNamespaces_ne vecCodeNs (by decide)).2.1
        rcases List.mem_cons.mp he with rfl | he
        · exact absurd hns (derivedNamespaces_ne vecFpNs (by decide)).2.1
        obtain ⟨⟨term, tf⟩, hterm, he⟩ := List.mem_flatMap.mp he
        rw [env.mem_iterate, countTerms_getElem?] at hterm
        split at hterm
        · rename_i hmem
          obtain rfl := Option.some.inj hterm
          rcases List.mem_cons.mp he with rfl | he
          · exact ⟨term, hmem, rfl⟩
          · obtain rfl := List.mem_singleton.mp he
            exact absurd hns (derivedNamespaces_ne postingBlkNs (by decide)).2.1
        · cases hterm
      · rintro ⟨r', hr', term, hmem, rfl⟩
        obtain rfl := Option.some.inj hr'
        have hterm : (term, (tokenize r.content).count term) ∈
            env.iterate t (countTerms (tokenize r.content)) := by
          rw [env.mem_iterate, countTerms_getElem?, if_pos hmem]
        refine ⟨?_, rfl⟩
        apply List.mem_cons_of_mem
        apply List.mem_append_right
        apply List.mem_cons_of_mem
        apply List.mem_cons_of_mem
        exact List.mem_flatMap.mpr ⟨_, hterm, List.mem_cons_self⟩
  | drop r t docTs vecCodeTs vecFpTs deletes =>
    have hnone : (Change.drop r).live = none := rfl
    rw [hnone]
    constructor
    · rintro ⟨he, hns⟩
      rcases List.mem_cons.mp he with rfl | he
      · exact absurd hns hdoc
      · exact absurd hns ((erases_drop env t r vecCodeTs vecFpTs deletes).only e he).ne_termDictNs
    · rintro ⟨r', h, -⟩
      cases h

theorem ChangeRows.dict_written (h : ChangeRows env records change writes) {r : MemoryRecord K}
    (hr : change.live = some r) (hws : 47 ∉ r.workspaceId) {term : Bytes}
    (hterm : term ∈ tokenize r.content) (table : Table) :
    (table.apply (Store.restrict termDictNs writes))[buildTermDictKey r.workspaceId term]? =
      some (dictRow env r term).stored := by
  refine Table.lookup_apply_upserts ?_ ?_ (Or.inr ?_)
  · intro e he
    obtain ⟨r', -, term', -, rfl⟩ := (h.mem_dictRows e).mp he
    rfl
  · intro e he hkey
    obtain ⟨r', hr', term', hterm', rfl⟩ := (h.mem_dictRows e).mp he
    obtain rfl := Option.some.inj (hr.symm.trans hr')
    obtain ⟨-, rfl⟩ := buildTermDictKey_inj hws (tokenize_notMem_slash hterm) hkey
    rfl
  · exact ⟨dictRow env r term, (h.mem_dictRows _).mpr ⟨r, hr, term, hterm, rfl⟩, rfl⟩

theorem ChangeRows.dict_kept (h : ChangeRows env records change writes) {k : Bytes}
    (hk : ∀ r, change.live = some r → ∀ term ∈ tokenize r.content,
      buildTermDictKey r.workspaceId term ≠ k) (table : Table) :
    (table.apply (Store.restrict termDictNs writes))[k]? = table[k]? := by
  apply Table.lookup_apply_of_notMem
  intro e he
  obtain ⟨r, hr, term, hterm, rfl⟩ := (h.mem_dictRows e).mp he
  exact hk r hr term hterm

/-! ### The dictionary of separate documents -/

/-- No term is shared, and the rows are those that the live documents have written. -/
structure DictCurrent (env : Platform K) (documents : Documents K) (table : Table) : Prop where
  named : ∀ d, documents.Live d → 47 ∉ d.workspaceId
  apart : ∀ d d' term, documents.Live d → documents.Live d' → d.workspaceId = d'.workspaceId →
    term ∈ tokenize d.content → term ∈ tokenize d'.content → d = d'
  row : ∀ k v, table[k]? = some v ↔ ∃ d term, documents.Live d ∧ term ∈ tokenize d.content ∧
    k = buildTermDictKey d.workspaceId term ∧ v = (dictRow env d term).stored

omit [Field K] [LinearOrder K] in
theorem dictCurrent_empty (env : Platform K) :
    DictCurrent env (Documents.empty : Documents K) ∅ where
  named d h := by cases h.1
  apart d d' term h := by cases h.1
  row k v := by
    constructor
    · intro h
      simp at h
    · rintro ⟨d, term, h, -⟩
      cases h.1

theorem DictCurrent.apply (h : DictCurrent env documents table)
    (hname : Plain change.record.workspaceId change.record.id)
    (hrows : ChangeRows env records change writes) (hapart : TermsApart documents change) :
    DictCurrent env (documents.apply change)
      (table.apply (Store.restrict termDictNs writes)) := by
  have hnew : ∀ r, change.live = some r → 47 ∉ r.workspaceId := by
    intro r hr
    obtain ⟨rfl, -⟩ := Change.record_of_live hr
    exact hname.2.2.2
  -- a live document that stays shares no term with the one that is stored
  have hfresh : ∀ r d term, change.live = some r → documents.Live d →
      ¬ (change.record.workspaceId = d.workspaceId ∧ change.record.id = d.id) →
      r.workspaceId = d.workspaceId → term ∈ tokenize r.content → term ∉ tokenize d.content := by
    intro r d term hr hd hne hws hterm
    obtain ⟨rfl, -⟩ := Change.record_of_live hr
    refine hapart.fresh _ hr d hd hws.symm ?_ term hterm
    intro hid
    exact hne ⟨hws, hid.symm⟩
  constructor
  case named =>
    intro d hd
    rcases Documents.live_apply_iff.mp hd with hr | ⟨hd, -⟩
    · exact hnew d hr
    · exact h.named d hd
  case apart =>
    intro d d' term hd hd' hws hterm hterm'
    rcases Documents.live_apply_iff.mp hd with hr | ⟨hd, hne⟩
    · rcases Documents.live_apply_iff.mp hd' with hr' | ⟨hd', hne'⟩
      · exact Option.some.inj (hr.symm.trans hr')
      · exact absurd hterm' (hfresh d d' term hr hd' hne' hws hterm)
    · rcases Documents.live_apply_iff.mp hd' with hr' | ⟨hd', -⟩
      · exact absurd hterm (hfresh d' d term hr' hd hne hws.symm hterm')
      · exact h.apart d d' term hd hd' hws hterm hterm'
  case row =>
    intro k v
    by_cases hwritten : ∃ r, change.live = some r ∧ ∃ term ∈ tokenize r.content,
        buildTermDictKey r.workspaceId term = k
    · -- the row of a term of the record that is stored
      obtain ⟨r, hr, term, hterm, rfl⟩ := hwritten
      rw [hrows.dict_written hr (hnew r hr) hterm]
      constructor
      · rintro hv
        obtain rfl := Option.some.inj hv
        exact ⟨r, term, Documents.live_apply_iff.mpr (Or.inl hr), hterm, rfl, rfl⟩
      · rintro ⟨d, term', hd, hterm', hkey, rfl⟩
        obtain ⟨hws, rfl⟩ := buildTermDictKey_inj (hnew r hr) (tokenize_notMem_slash hterm)
          hkey.symm
        rcases Documents.live_apply_iff.mp hd with hr' | ⟨hd, hne⟩
        · obtain rfl := Option.some.inj (hr.symm.trans hr')
          rfl
        · exact absurd hterm' (hfresh r d term' hr hd hne hws.symm hterm)
    · have hk : ∀ r, change.live = some r → ∀ term ∈ tokenize r.content,
          buildTermDictKey r.workspaceId term ≠ k :=
        fun r hr term hterm hkey => hwritten ⟨r, hr, term, hterm, hkey⟩
      rw [hrows.dict_kept hk, h.row]
      constructor
      · rintro ⟨d, term, hd, hterm, rfl, rfl⟩
        refine ⟨d, term, Documents.live_apply_iff.mpr (Or.inr ⟨hd, ?_⟩), hterm, rfl, rfl⟩
        rintro ⟨hws, hid⟩
        -- what is replaced has had no term that is not written again
        have hreplaced : documents change.record.workspaceId change.record.id = some d := by
          rw [hws, hid]
          exact hd.1
        obtain ⟨r, hr, hmem⟩ := hapart.kept d hreplaced hd.2 term hterm
        apply hk r hr term hmem
        rw [← (Change.record_of_live hr).1, hws]
      · rintro ⟨d, term, hd, hterm, rfl, rfl⟩
        rcases Documents.live_apply_iff.mp hd with hr | ⟨hd, -⟩
        · exact absurd rfl (hk d hr term hterm)
        · exact ⟨d, term, hd, hterm, rfl, rfl⟩

theorem DictCurrent.chunks (h : DictCurrent env documents table) {chunks : List (Chunk K)}
    (hnames : ∀ chunk ∈ chunks, Plain chunk.change.record.workspaceId chunk.change.record.id)
    (hrows : ∀ chunk ∈ chunks, ChangeRows env records chunk.change chunk.rows)
    (hlog : ∀ chunk ∈ chunks, ∀ e ∈ chunk.log, e.IsLog)
    (hapart : KeepTermsApart documents (chunks.map (·.change))) :
    DictCurrent env (documents.applyAll (chunks.map (·.change)))
      (table.apply (Store.restrict termDictNs (chunks.flatMap Chunk.writes))) := by
  induction chunks generalizing documents table with
  | nil => exact h
  | cons chunk rest ih =>
    have hfirst := h.apply (hnames chunk List.mem_cons_self) (hrows chunk List.mem_cons_self)
      hapart.1
    have hnone : Store.restrict termDictNs chunk.log = [] := by
      refine restrict_eq_nil fun e he heq => ?_
      rcases hlog chunk List.mem_cons_self e he with hlogged | hlogged
      · exact absurd (heq.symm.trans hlogged) (by decide)
      · exact absurd (heq.symm.trans hlogged) (by decide)
    have happend : Store.restrict termDictNs ((chunk :: rest).flatMap Chunk.writes) =
        Store.restrict termDictNs chunk.rows ++
          Store.restrict termDictNs (rest.flatMap Chunk.writes) := by
      rw [List.flatMap_cons, Store.restrict_append, Chunk.writes, Store.restrict_append, hnone,
        List.append_nil]
    rw [happend, Table.apply, List.foldl_append]
    exact ih hfirst (fun c hc => hnames c (List.mem_cons_of_mem _ hc))
      (fun c hc => hrows c (List.mem_cons_of_mem _ hc))
      (fun c hc => hlog c (List.mem_cons_of_mem _ hc)) hapart.2

end Rows

/-! ### Runs -/

section Runs
variable [Field K] [LinearOrder K] {env : Platform K} {t : Traced K}

/-- What a step of such a run commits. -/
def Step.KeepsTermsApart (env : Platform K) (t : Traced K) (step : Step K) : Prop :=
  KeepTermsApart t.documents (step.committed env t.world)

omit [Field K] [LinearOrder K] in
theorem KeepTermsApart.erasesTerms {documents : Documents K} {changes : List (Change K)}
    (h : KeepTermsApart documents changes) (records : StringMap (MemoryRecord K)) :
    Replacing (TermsErased records) documents changes := by
  induction changes generalizing documents with
  | nil => trivial
  | cons change rest ih =>
    refine ⟨?_, ih h.2⟩
    intro d hd hlive term hterm
    obtain ⟨r, hr, hmem⟩ := h.1.kept d hd hlive term hterm
    obtain ⟨rfl, -⟩ := Change.record_of_live hr
    exact Or.inl hmem

theorem Step.KeepsTermsApart.erasesTerms {step : Step K} (h : step.KeepsTermsApart env t) :
    step.ErasesTerms env t := by
  have call : ∀ (c : Call K) fate,
      KeepTermsApart t.documents (PoorguyMem.committed env t.world c fate) →
      c.ErasesTerms env t fate := by
    intro c fate hc
    cases c with
    | write input => exact hc.erasesTerms _
    | _ => trivial
  match step with
  | .call c fate => exact call c fate h
  | .restart none _ _ => trivial
  | .restart (some (c, fate)) _ _ => exact call c fate h

theorem DictCurrent.step (hlaw : env.Lawful) (hT : Tracked env t)
    (h : DictCurrent env t.documents (t.world.store.table termDictNs)) {step : Step K}
    (hregular : step.Regular env t.world) (hapart : step.KeepsTermsApart env t) :
    DictCurrent env (t.next env step).documents
      ((t.next env step).world.store.table termDictNs) := by
  refine KeepsTable.step (by decide) hlaw hT h hregular ?_
  intro chunks hchanges hnames hrows hlog
  rw [Step.KeepsTermsApart, ← hchanges] at hapart
  rw [← hchanges]
  exact h.chunks hnames hrows hlog hapart

theorem dictCurrent_run (hlaw : env.Lawful) (nodeId : Bytes) (options : MemoryEngineOptions K)
    {steps : List (Step K)}
    (hsteps : Runs.Along (Traced.next env)
      (fun t step => step.Regular env t.world ∧ step.KeepsTermsApart env t)
      (Traced.initial nodeId options) steps) :
    let t := Runs.exec (Traced.next env) (Traced.initial nodeId options) steps
    DictCurrent env t.documents (t.world.store.table termDictNs) := by
  refine (Runs.invariant (I := fun t => Tracked env t ∧
    DictCurrent env t.documents (t.world.store.table termDictNs)) ?_ hsteps
    ⟨tracked_initial nodeId options, dictCurrent_empty env⟩).2
  rintro t step ⟨hregular, hapart⟩ ⟨hT, h⟩
  exact ⟨hT.step hlaw hregular, h.step hlaw hT hregular hapart⟩

/-! ### One document for a term -/

omit [Field K] [LinearOrder K] in
theorem Documents.occurrences_of_live {documents : Documents K} {d : MemoryRecord K}
    (h : documents.Live d) (term : Bytes) :
    documents.occurrences d.workspaceId term d.id = (tokenize d.content).count term := by
  rw [Documents.occurrences, h.1, Option.filter_some, h.2]
  rfl

omit [Field K] [LinearOrder K] in
/-- A term that occurs is one of a live document. -/
theorem Represents.live_of_occurrences {rows : Table} {documents : Documents K}
    (h : Represents env rows documents) {w term id : Bytes}
    (hid : 0 < documents.occurrences w term id) :
    ∃ d, documents.Live d ∧ d.workspaceId = w ∧ d.id = id ∧ term ∈ tokenize d.content := by
  rw [Documents.occurrences] at hid
  cases hd : (documents w id).filter fun d => !d.tombstone with
  | none =>
    rw [hd] at hid
    cases hid
  | some d =>
    rw [hd] at hid
    obtain ⟨hheld, hlive⟩ := Option.filter_eq_some_iff.mp hd
    obtain ⟨rfl, rfl, -⟩ := h.named w id d hheld
    exact ⟨d, ⟨hheld, by simpa using hlive⟩, rfl, rfl, List.count_pos_iff.mp hid⟩

omit [Field K] [LinearOrder K] in
/-- The statistics of a term that one document has. -/
theorem DictCurrent.occurrences_eq {rows table : Table} {documents : Documents K}
    (h : DictCurrent env documents table) (hrows : Represents env rows documents)
    {d : MemoryRecord K} (hd : documents.Live d) {term : Bytes}
    (hterm : term ∈ tokenize d.content) (id : Bytes) :
    documents.occurrences d.workspaceId term id =
      if id = d.id then (tokenize d.content).count term else 0 := by
  by_cases hid : id = d.id
  · rw [if_pos hid, hid, Documents.occurrences_of_live hd]
  · rw [if_neg hid]
    by_contra hne
    obtain ⟨d', hd', hws, rfl, hterm'⟩ := hrows.live_of_occurrences (Nat.pos_of_ne_zero hne)
    obtain rfl := h.apart d d' term hd hd' hws.symm hterm hterm'
    exact hid rfl

omit [Field K] [LinearOrder K] in
theorem DictCurrent.statistics {rows table : Table} {documents : Documents K}
    (h : DictCurrent env documents table) (hrows : Represents env rows documents)
    {d : MemoryRecord K} (hd : documents.Live d) {term : Bytes}
    (hterm : term ∈ tokenize d.content) :
    (documents.holders d.workspaceId term).ncard = 1 ∧
      (finsum fun id => documents.occurrences d.workspaceId term id) =
        (tokenize d.content).count term ∧
      sSup (Set.range fun id => documents.occurrences d.workspaceId term id) =
        (tokenize d.content).count term := by
  have hpos : 0 < (tokenize d.content).count term := List.count_pos_iff.mpr hterm
  have heq := h.occurrences_eq hrows hd hterm
  refine ⟨?_, ?_, ?_⟩
  · have hsingle : documents.holders d.workspaceId term = {d.id} := by
      ext id
      rw [Documents.holders, Set.mem_ofPred_eq, heq, Set.mem_singleton_iff]
      by_cases hid : id = d.id
      · simpa [hid] using hpos
      · simp [hid]
    rw [hsingle, Set.ncard_singleton]
  · rw [finsum_eq_single _ d.id, heq, if_pos rfl]
    intro id hid
    rw [heq, if_neg hid]
  · apply IsGreatest.csSup_eq
    constructor
    · exact ⟨d.id, by simp only [heq, if_pos]⟩
    · rintro n ⟨id, rfl⟩
      simp only [heq]
      split
      · rfl
      · exact Nat.zero_le _

omit [Field K] [LinearOrder K] in
/-- The dictionary and the postings of separate documents tell the statistics. -/
theorem DictCurrent.termStatistics
    (h : DictCurrent env t.documents (t.world.store.table termDictNs))
    (hpostings : PostingsMatch env t) : TermStatistics env t := by
  have hrows := hpostings.documents
  constructor
  case documents => exact hrows
  case present =>
    intro w term
    constructor
    · intro hsome
      obtain ⟨v, hv⟩ := Option.isSome_iff_exists.mp hsome
      obtain ⟨d, term', hd, hterm, hkey, -⟩ := (h.row _ v).mp hv
      obtain ⟨rfl, rfl⟩ := buildTermDictKey_inj (h.named d hd) (tokenize_notMem_slash hterm) hkey
      refine ⟨d.id, ?_⟩
      rw [Documents.holders, Set.mem_ofPred_eq, Documents.occurrences_of_live hd]
      exact List.count_pos_iff.mpr hterm
    · rintro ⟨id, hid⟩
      obtain ⟨d, hd, rfl, -, hterm⟩ := hrows.live_of_occurrences hid
      rw [(h.row _ _).mpr ⟨d, term, hd, hterm, rfl, rfl⟩, Option.isSome_some]
  case aggregates =>
    intro w term v hv
    obtain ⟨d, term', hd, hterm, hkey, rfl⟩ := (h.row _ v).mp hv
    obtain ⟨rfl, rfl⟩ := buildTermDictKey_inj (h.named d hd) (tokenize_notMem_slash hterm) hkey
    obtain ⟨hdf, hcf, hmax⟩ := h.statistics hrows hd hterm
    rw [hdf, hcf, hmax]
    refine ⟨d.updatedAtMs, [buildPostingKey d.workspaceId term
      (bucketForPosting env d.workspaceId term) d.id], rfl, ?_⟩
    intro k
    rw [List.mem_singleton]
    constructor
    · rintro rfl
      refine ⟨⟨_, _, rfl⟩, ?_⟩
      rw [(hpostings.postings _ _).mpr ⟨_, _, d, term, hd.1, hd.2, hterm, rfl, rfl⟩,
        Option.isSome_some]
    · rintro ⟨⟨bucket, id, rfl⟩, hsome⟩
      obtain ⟨v, hv⟩ := Option.isSome_iff_exists.mp hsome
      obtain ⟨w', id', d', term', hd', hlive', hterm', hkey', -⟩ := (hpostings.postings _ v).mp hv
      obtain ⟨rfl, rfl, hplain, -⟩ := hrows.named w' id' d' hd'
      obtain ⟨hws, hterms, rfl⟩ := buildPostingKey_inj (h.named d hd) hplain.2.2.2
        (tokenize_notMem_slash hterm) (tokenize_notMem_slash hterm') hkey'
      subst hterms
      obtain rfl := h.apart d d' term hd ⟨hd', hlive'⟩ hws hterm hterm'
      exact hkey'

/-- In every run in which no two live documents of a workspace come to share a term and
no document loses one, the dictionary tells the statistics of the live documents. -/
theorem term_dict_aggregates (hlaw : env.Lawful) (nodeId : Bytes)
    (options : MemoryEngineOptions K) {steps : List (Step K)}
    (hsteps : Runs.Along (Traced.next env)
      (fun t step => step.Regular env t.world ∧ step.KeepsTermsApart env t)
      (Traced.initial nodeId options) steps) :
    TermStatistics env (Runs.exec (Traced.next env) (Traced.initial nodeId options) steps) := by
  have hns : postingBlkNs ∈ derivedNamespaces := List.mem_cons_self
  obtain ⟨hT, hcurrent⟩ := current_run hns hlaw nodeId options
    (Runs.along_imp (fun t step h =>
      ⟨h.1, fun hT => hT.clears_posting_step hlaw h.1 h.2.erasesTerms⟩) hsteps)
  have hdict := dictCurrent_run hlaw nodeId options hsteps
  exact hdict.termStatistics (hcurrent.postingsMatch hT)

end Runs

section Examples
open Reference

def writesText (id content : Bytes) : Step ℚ := .call (put (ascii "w") id content) applied

/-- The state after a first record. -/
def firstText : Traced ℚ :=
  (Traced.initial (ascii "node") options).next (platform ticking)
    (writesText (ascii "a") (ascii "x"))

/-- Two records without a common term. -/
theorem term_dict_aggregates_separate : TermStatistics (platform ticking)
    (Runs.exec (Traced.next (platform ticking)) (Traced.initial (ascii "node") options)
      [writesText (ascii "a") (ascii "x"), writesText (ascii "b") (ascii "y y")]) := by
  have hclean : Clean (ascii "w") := ⟨by decide, by decide⟩
  obtain ⟨r, hr, hid, hcontent⟩ : ∃ r, (writesText (ascii "a") (ascii "x")).committed
      (platform ticking) (Traced.initial (ascii "node") options).world = [.put r] ∧
      r.id = ascii "a" ∧ r.content = ascii "x" := ⟨_, rfl, rfl, rfl⟩
  obtain ⟨r', hr', hid', hcontent'⟩ : ∃ r', (writesText (ascii "b") (ascii "y y")).committed
      (platform ticking) firstText.world = [.put r'] ∧
      r'.id = ascii "b" ∧ r'.content = ascii "y y" := ⟨_, rfl, rfl, rfl⟩
  have hdocuments : firstText.documents = Documents.empty.apply (.put r) := by
    change Documents.empty.applyAll ((writesText (ascii "a") (ascii "x")).committed _ _) = _
    rw [hr]
    rfl
  refine term_dict_aggregates (lawful_platform ticking) (ascii "node") options
    ⟨⟨⟨hclean, trivial⟩, ?_⟩, ⟨⟨hclean, trivial⟩, ?_⟩, trivial⟩
  · rw [Step.KeepsTermsApart, hr]
    refine ⟨⟨?_, ?_⟩, trivial⟩
    · rintro - - d hd
      cases hd.1
    · rintro d hd
      cases hd
  · change KeepTermsApart firstText.documents (Step.committed _ firstText.world _)
    rw [hr', hdocuments]
    refine ⟨⟨?_, ?_⟩, trivial⟩
    · intro x hx d hd _ _
      obtain ⟨rfl, -⟩ := Change.record_of_live hx
      rcases Documents.live_apply_iff.mp hd with hlive | ⟨hlive, -⟩
      · obtain ⟨rfl, -⟩ := Change.record_of_live hlive
        change ∀ term ∈ tokenize r'.content, term ∉ tokenize r.content
        rw [hcontent, hcontent']
        decide
      · cases hlive.1
    · intro d hd
      have hother : ¬ (r.workspaceId = r'.workspaceId ∧ r.id = r'.id) := by
        rw [hid, hid']
        exact fun h => absurd h.2 (by decide)
      have hnone : (none : Option (MemoryRecord ℚ)) = some d := by
        rw [← hd]
        exact (if_neg hother).symm
      cases hnone

/-- A record is written and compacted to a tombstone. -/
def forgottenText : Traced ℚ :=
  Runs.exec (Traced.next (platform ticking)) (Traced.initial (ascii "node") options)
    [writesText (ascii "a") (ascii "x"), .call (.compact (ascii "w")) applied]

/-- The row of its term stays. -/
theorem not_termStatistics_forgotten : ¬ TermStatistics (platform ticking) forgottenText := by
  intro h
  have hrow : (forgottenText.world.store.table termDictNs)[buildTermDictKey (ascii "w")
      (ascii "x")]?.isSome = true := by decide
  obtain ⟨id, hid⟩ := (h.present _ _).mp hrow
  obtain ⟨d, hd, hws, rfl, -⟩ := h.documents.live_of_occurrences hid
  -- the documents are one tombstone
  have hkeys : (forgottenText.world.store.table docNs).keys =
      [buildDocKey (ascii "w") (ascii "a")] := by decide
  have hdead : (forgottenText.documents (ascii "w") (ascii "a")).map (·.tombstone) = some true := by
    decide
  obtain ⟨-, -, hplain, -⟩ := h.documents.named _ _ d hd.1
  have hvalue := h.documents.row _ _ hplain
  rw [hd.1, Option.map_some] at hvalue
  obtain ⟨v, hv, -⟩ := Option.map_eq_some_iff.mp hvalue
  have hkey : buildDocKey d.workspaceId d.id ∈ (forgottenText.world.store.table docNs).keys := by
    rw [Std.ExtTreeMap.mem_keys, Std.ExtTreeMap.mem_iff_isSome_getElem?, hv, Option.isSome_some]
  rw [hkeys, List.mem_singleton, hws] at hkey
  have hname : d.id = ascii "a" := List.append_cancel_left hkey
  have hlive := hd.1
  rw [hws, hname] at hlive
  rw [hlive, Option.map_some, hd.2] at hdead
  cases hdead

end Examples

end PoorguyMem
