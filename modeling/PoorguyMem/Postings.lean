import PoorguyMem.IndexRows
import PoorguyMem.Reference

/-!
# Postings

`mem_posting_blk` has a row for every term of every live document, with the count
of the term and the length of the text. A `Write` deletes the postings of the copy
that is resident when its batch is built; those of a version that was evicted, or
that the batch itself stored a moment ago, are left over unless the new content has
the same terms.
-/

namespace PoorguyMem

open ByteString DerivedRows

variable {K : Type} [Field K] [LinearOrder K]

/-- Every term of the document that a change replaces is one of the new content or of
the resident copy. -/
def TermsErased (records : StringMap (MemoryRecord K)) (d : MemoryRecord K) (change : Change K) :
    Prop :=
  d.tombstone = false → ∀ term ∈ tokenize d.content, term ∈ tokenize change.record.content ∨
    ∃ old ∈ records[recordMapKey change.record.workspaceId change.record.id]?,
      term ∈ tokenize old.content

omit [Field K] [LinearOrder K] in
instance (records : StringMap (MemoryRecord K)) (d : MemoryRecord K) (change : Change K) :
    Decidable (TermsErased records d change) :=
  inferInstanceAs (Decidable (_ → ∀ term ∈ _, _ ∨ _))

/-- What a `Write` of such a run meets. -/
def Call.ErasesTerms (env : Platform K) (t : Traced K) (fate : Fate) : Call K → Prop
  | .write input => Replacing (TermsErased t.world.engine.records) t.documents
      (committed env t.world (.write input) fate)
  | _ => True

def Step.ErasesTerms (env : Platform K) (t : Traced K) : Step K → Prop
  | .call c fate => c.ErasesTerms env t fate
  | .restart none _ _ => True
  | .restart (some (c, fate)) _ _ => c.ErasesTerms env t fate

/-- The postings are those of the live documents, which the document rows hold. -/
structure PostingsMatch (env : Platform K) (t : Traced K) : Prop where
  documents : Represents env (t.world.store.table docNs) t.documents
  postings : ∀ k v, (t.world.store.table postingBlkNs)[k]? = some v ↔
    ∃ workspaceId id d term, t.documents workspaceId id = some d ∧ d.tombstone = false ∧
      term ∈ tokenize d.content ∧
      k = buildPostingKey workspaceId term (bucketForPosting env workspaceId term) id ∧
      v = (postingEntry env d (tokenize d.content).length term
        ((tokenize d.content).count term)).stored

variable {env : Platform K} {t : Traced K}

theorem indexRow_postingBlkNs {d : MemoryRecord K} {k : Bytes} {v : StoredValue} :
    IndexRow env d postingBlkNs k v ↔ ∃ term ∈ tokenize d.content,
      k = buildPostingKey d.workspaceId term (bucketForPosting env d.workspaceId term) d.id ∧
      v = (postingEntry env d (tokenize d.content).length term
        ((tokenize d.content).count term)).stored := by
  constructor
  · rintro ⟨e, he, hns, rfl, rfl⟩
    cases he with
    | posting mem => exact ⟨_, mem, rfl, rfl⟩
    | vecCode => exact absurd hns.symm postingBlkNs_ne_vecCodeNs
    | vecFp => exact absurd hns.symm postingBlkNs_ne_vecFpNs
  · rintro ⟨term, mem, rfl, rfl⟩
    exact ⟨_, .posting mem, rfl, rfl, rfl⟩

omit [Field K] [LinearOrder K] in
theorem erased_posting {r : MemoryRecord K} {term : Bytes} (mem : term ∈ tokenize r.content) :
    Erased env r postingBlkNs
      (buildPostingKey r.workspaceId term (bucketForPosting env r.workspaceId term) r.id) :=
  ⟨_, .posting mem 0, rfl, rfl⟩

/-- No posting is left over where every term is one of the new content or of the
resident copy. -/
theorem clears_posting {records : StringMap (MemoryRecord K)} (hheld : HeldNames records)
    {d : MemoryRecord K} {change : Change K}
    (hname : Plain change.record.workspaceId change.record.id)
    (hterms : TermsErased records d change)
    (hdrop : ∀ r, change = .drop r → d.content = r.content) :
    Clears env postingBlkNs records d change := by
  rintro hlive hws hid k a hrow
  obtain ⟨term, hterm, rfl, -⟩ := indexRow_postingBlkNs.mp hrow
  rw [hws, hid]
  cases change with
  | put r =>
    rcases hterms hlive term hterm with hnew | ⟨old, hold, hmem⟩
    · by_cases hdead : r.tombstone = true
      · exact Or.inr (Or.inr ⟨hdead, erased_posting hnew⟩)
      · have hput : (Change.put r).live = some r := by simp [Change.live, Change.value, hdead]
        exact Or.inl ⟨r, _, hput, indexRow_postingBlkNs.mpr ⟨term, hnew, rfl, rfl⟩⟩
    · obtain ⟨hkey, hold'⟩ := hheld _ _ hold
      obtain ⟨hws', hid'⟩ := recordMapKey_inj hname.2.2.1 hold'.2.2.1 hkey
      refine Or.inr (Or.inl ⟨old, hold, ?_⟩)
      have herased : Erased env old postingBlkNs (buildPostingKey old.workspaceId term
          (bucketForPosting env old.workspaceId term) old.id) := erased_posting hmem
      rw [← hws', ← hid'] at herased
      exact herased
  | drop r =>
    rw [hdrop r rfl] at hterm
    exact Or.inr (erased_posting hterm)

/-- A call that is no `Write` leaves no posting over. -/
theorem Tracked.clears_posting (hlaw : env.Lawful) (h : Tracked env t) {call : Call K} {fate : Fate}
    (hclean : call.Workspaces Clean) (herases : call.ErasesTerms env t fate) :
    Replacing (Clears env postingBlkNs t.world.engine.records) t.documents
      (committed env t.world call fate) := by
  have hnames := h.plain_committed hlaw hclean fate
  by_cases hwrite : ∃ input, call = .write input
  · obtain ⟨input, rfl⟩ := hwrite
    refine Replacing.imp₂ herases (h.replacing_drop (.write input) fate) ?_
    intro d c hc hterms hdropped hlive
    refine PoorguyMem.clears_posting h.sourced.held (hnames c hc) hterms ?_ hlive
    intro r hr
    exact absurd (hdropped r hr) (by simp [hlive])
  · have hcall : ∀ input, call ≠ .write input := fun input heq => hwrite ⟨input, heq⟩
    have hcontent := h.replacing_content hlaw hcall fate
    refine hcontent.imp₂ hcontent ?_
    intro d c hc hsame _
    refine PoorguyMem.clears_posting h.sourced.held (hnames c hc) ?_ ?_
    · exact fun _ term hterm => Or.inl (hsame ▸ hterm)
    · rintro r rfl
      exact hsame

theorem Tracked.clears_posting_step (hlaw : env.Lawful) (h : Tracked env t) {step : Step K}
    (hregular : step.Regular env t.world) (herases : step.ErasesTerms env t) :
    Replacing (Clears env postingBlkNs t.world.engine.records) t.documents
      (step.committed env t.world) := by
  match step with
  | .call c fate => exact h.clears_posting hlaw hregular.1.workspaces herases
  | .restart none _ _ => trivial
  | .restart (some (c, fate)) _ _ => exact h.clears_posting hlaw hregular.1.1.workspaces herases

/-- A current table of postings is that of the live documents. -/
theorem Current.postingsMatch (hT : Tracked env t)
    (h : Current env postingBlkNs t.documents (t.world.store.table postingBlkNs)) :
    PostingsMatch env t := by
  refine ⟨hT.represents, fun k v => ⟨fun hv => ?_, ?_⟩⟩
  · obtain ⟨d, hd, -, hlive, hrow⟩ := h.document hv
    obtain ⟨term, hterm, hk, hv⟩ := indexRow_postingBlkNs.mp hrow
    exact ⟨_, _, d, term, hd, hlive, hterm, hk, hv⟩
  · rintro ⟨w, id, d, term, hd, hlive, hterm, hk, hv⟩
    obtain ⟨rfl, rfl, -⟩ := hT.represents.named w id d hd
    exact h.row hT hd hlive (indexRow_postingBlkNs.mpr ⟨term, hterm, hk, hv⟩)

/-- In every run whose writes erase the terms of what they replace, the postings are
those of the live documents. -/
theorem postings_match_documents (hlaw : env.Lawful) (nodeId : Bytes)
    (options : MemoryEngineOptions K) {steps : List (Step K)}
    (hsteps : Runs.Along (Traced.next env)
      (fun t step => step.Regular env t.world ∧ step.ErasesTerms env t)
      (Traced.initial nodeId options) steps) :
    PostingsMatch env (Runs.exec (Traced.next env) (Traced.initial nodeId options) steps) := by
  have hns : postingBlkNs ∈ derivedNamespaces := List.mem_cons_self
  obtain ⟨hT, hcurrent⟩ := current_run hns hlaw nodeId options
    (Runs.along_imp (fun t step h => ⟨h.1, fun hT => hT.clears_posting_step hlaw h.1 h.2⟩) hsteps)
  exact hcurrent.postingsMatch hT

section Examples
open Reference

/-- A resident record is overwritten with another text. -/
def overwrite : List (Step ℚ) :=
  [.call (put (ascii "w") (ascii "a") (ascii "x")) applied,
    .call (put (ascii "w") (ascii "a") (ascii "y")) applied]

theorem postings_match_overwrite : PostingsMatch (platform ticking)
    (Runs.exec (Traced.next (platform ticking)) (Traced.initial (ascii "node") options)
      overwrite) := by
  have hclean : Clean (ascii "w") := ⟨by decide, by decide⟩
  refine postings_match_documents (lawful_platform ticking) (ascii "node") options
    ⟨⟨⟨hclean, trivial⟩, ?_⟩, ⟨⟨hclean, trivial⟩, ?_⟩, trivial⟩
  all_goals
    change Replacing (TermsErased _) _ _
    decide

/-- A batch stores two texts under one id. -/
def storedTwice : Traced ℚ :=
  Runs.exec (Traced.next (platform ticking)) (Traced.initial (ascii "node") options)
    [.call (Reference.write (ascii "w") [recordInput (ascii "a") (ascii "x") [],
      recordInput (ascii "a") (ascii "y") []]) applied]

/-- The posting of the first text stays. -/
theorem not_postingsMatch_storedTwice : ¬ PostingsMatch (platform ticking) storedTwice := by
  intro h
  have hrow : (storedTwice.world.store.table postingBlkNs)[buildPostingKey (ascii "w") (ascii "x")
      (bucketForPosting (platform ticking) (ascii "w") (ascii "x")) (ascii "a")]?.isSome = true := by
    decide
  obtain ⟨v, hv⟩ := Option.isSome_iff_exists.mp hrow
  obtain ⟨w, id, d, term, hd, -, hterm, hkey, -⟩ := (h.postings _ v).mp hv
  obtain ⟨-, -, hname, -⟩ := h.documents.named w id d hd
  obtain ⟨rfl, rfl, rfl⟩ := buildPostingKey_inj (by decide) hname.2.2.2 (by decide)
    (tokenize_notMem_slash hterm) hkey
  have hcontent : (storedTwice.documents (ascii "w") (ascii "a")).map (·.content) =
      some (ascii "y") := by decide
  rw [hd, Option.map_some] at hcontent
  rw [Option.some.inj hcontent] at hterm
  exact absurd hterm (by decide)

end Examples

end PoorguyMem
