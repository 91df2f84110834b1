import PoorguyMem.Batches
import PoorguyMem.Lib.DerivedRows

/-!
# Index rows of a run

The postings and the vectors of the store are rows derived from the live documents.
A change writes the rows of its record and deletes those of the copy that is
resident when the batch is built. A table stays derived where every row of the
document that is replaced is among those deleted or written again.
-/

namespace PoorguyMem

open ByteString DerivedRows

variable {K : Type}

/-! ### Names and live documents -/

/-- The names of a run. -/
abbrev Name := {name : Bytes × Bytes // Plain name.1 name.2}

/-- The live documents. -/
def Documents.live (documents : Documents K) (n : Name) : Option (MemoryRecord K) :=
  (documents n.1.1 n.1.2).filter fun r => !r.tombstone

/-- The live record a change leaves. -/
def Change.live (change : Change K) : Option (MemoryRecord K) :=
  change.value.filter fun r => !r.tombstone

theorem Documents.live_apply (documents : Documents K) {change : Change K}
    (hname : Plain change.record.workspaceId change.record.id) :
    (documents.apply change).live =
      Function.update documents.live ⟨(change.record.workspaceId, change.record.id), hname⟩
        change.live := by
  funext n
  obtain ⟨⟨w, id⟩, hn⟩ := n
  by_cases hsame : change.record.workspaceId = w ∧ change.record.id = id
  · obtain ⟨rfl, rfl⟩ := hsame
    rw [Function.update_self, Documents.live, Documents.apply, if_pos ⟨rfl, rfl⟩, Change.live]
  · rw [Function.update_of_ne, Documents.live, Documents.apply, if_neg hsame, Documents.live]
    intro heq
    obtain ⟨rfl, rfl⟩ := Prod.mk.inj (Subtype.mk.inj heq)
    exact hsame ⟨rfl, rfl⟩

/-- Every change stands to the document it replaces as `A` says. -/
def Replacing (A : MemoryRecord K → Change K → Prop) : Documents K → List (Change K) → Prop
  | _, [] => True
  | documents, change :: rest =>
    (∀ d ∈ documents change.record.workspaceId change.record.id, A d change) ∧
      Replacing A (documents.apply change) rest

instance decidableReplacing (A : MemoryRecord K → Change K → Prop) [∀ d c, Decidable (A d c)] :
    ∀ (documents : Documents K) (changes : List (Change K)),
      Decidable (Replacing A documents changes)
  | _, [] => inferInstanceAs (Decidable True)
  | documents, change :: rest =>
    have := decidableReplacing A (documents.apply change) rest
    inferInstanceAs (Decidable (_ ∧ _))

section Replacing
variable {A B C : MemoryRecord K → Change K → Prop} {documents : Documents K}
  {changes : List (Change K)}

theorem Replacing.imp₂ (hA : Replacing A documents changes) (hB : Replacing B documents changes)
    (imp : ∀ d, ∀ c ∈ changes, A d c → B d c → C d c) : Replacing C documents changes := by
  induction changes generalizing documents with
  | nil => trivial
  | cons change rest ih =>
    refine ⟨fun d hd => imp d change List.mem_cons_self (hA.1 d hd) (hB.1 d hd), ?_⟩
    exact ih hA.2 hB.2 fun d c hc => imp d c (List.mem_cons_of_mem _ hc)

theorem replacing_of_forall (h : ∀ d, ∀ c ∈ changes, A d c) : Replacing A documents changes := by
  induction changes generalizing documents with
  | nil => trivial
  | cons change rest ih =>
    exact ⟨fun d _ => h d change List.mem_cons_self,
      ih fun d c hc => h d c (List.mem_cons_of_mem _ hc)⟩

/-- Changes of which a name has only one need only suit what was there before. -/
theorem replacing_of_agree
    (hagree : ∀ c ∈ changes, ∀ c' ∈ changes, c.record.workspaceId = c'.record.workspaceId →
      c.record.id = c'.record.id → c = c')
    (hself : ∀ r, .put r ∈ changes → A r (.put r))
    (h : ∀ c ∈ changes, ∀ d, documents c.record.workspaceId c.record.id = some d → A d c) :
    Replacing A documents changes := by
  induction changes generalizing documents with
  | nil => trivial
  | cons change rest ih =>
    refine ⟨h change List.mem_cons_self, ih ?_ ?_ ?_⟩
    · exact fun c hc c' hc' =>
        hagree c (List.mem_cons_of_mem _ hc) c' (List.mem_cons_of_mem _ hc')
    · exact fun r hr => hself r (List.mem_cons_of_mem _ hr)
    · intro c hc d hd
      rw [Documents.apply] at hd
      split at hd
      · rename_i hsame
        obtain rfl := hagree change List.mem_cons_self c (List.mem_cons_of_mem _ hc) hsame.1 hsame.2
        cases change with
        | put r =>
          obtain rfl := Option.some.inj hd
          exact hself r List.mem_cons_self
        | drop r => cases hd
      · exact h c (List.mem_cons_of_mem _ hc) d hd

end Replacing

/-! ### The index rows of a record -/

/-- The namespaces whose rows are derived from the live documents. -/
def derivedNamespaces : List Bytes := [postingBlkNs, vecCodeNs, vecFpNs]

theorem derivedNamespaces_ne : ∀ ns ∈ derivedNamespaces, ns ≠ docNs ∧ ns ≠ termDictNs ∧
    ns ≠ eventsNs ∧ ns ≠ projectionCkptNs ∧ ns ≠ routeMetaNs := by decide

theorem postingBlkNs_ne_vecCodeNs : postingBlkNs ≠ vecCodeNs := by decide

theorem postingBlkNs_ne_vecFpNs : postingBlkNs ≠ vecFpNs := by decide

theorem vecCodeNs_ne_vecFpNs : vecCodeNs ≠ vecFpNs := by decide

def WriteEntry.stored (e : WriteEntry) : StoredValue := ⟨e.entry.value, e.entry.ts⟩

/-- The deletions that go with a record. -/
inductive Erasing (env : Platform K) (r : MemoryRecord K) : WriteEntry → Prop
  | posting {term : Bytes} (mem : term ∈ tokenize r.content) (ts : UInt64) :
      Erasing env r (deletePostingEntry env r ts term)
  | vecCode (ts : UInt64) : Erasing env r (deleteEntry vecCodeNs (buildVecCodeKey r.workspaceId
      (bucketForPosting env r.workspaceId r.id) r.id) ts)
  | vecFp (ts : UInt64) : Erasing env r (deleteEntry vecFpNs (buildVecFpKey r.workspaceId r.id) ts)

def Erased (env : Platform K) (r : MemoryRecord K) (ns k : Bytes) : Prop :=
  ∃ e, Erasing env r e ∧ e.entry.nameSpace = ns ∧ e.entry.key = k

structure Erases (env : Platform K) (r : MemoryRecord K) (es : List WriteEntry) : Prop where
  only : ∀ e ∈ es, Erasing env r e
  all : ∀ ns k, Erased env r ns k → ∃ e ∈ es, e.entry.nameSpace = ns ∧ e.entry.key = k

theorem Erasing.op {env : Platform K} {r : MemoryRecord K} {e : WriteEntry}
    (h : Erasing env r e) : e.op = .delete := by
  cases h <;> rfl

/-- Deletions are told apart by term and namespace, whatever their times are. -/
theorem erases_of_terms {env : Platform K} {r : MemoryRecord K} {es : List WriteEntry}
    (only : ∀ e ∈ es, Erasing env r e)
    (posting : ∀ term ∈ tokenize r.content, ∃ ts, deletePostingEntry env r ts term ∈ es)
    (vecCode : ∃ ts, deleteEntry vecCodeNs (buildVecCodeKey r.workspaceId
      (bucketForPosting env r.workspaceId r.id) r.id) ts ∈ es)
    (vecFp : ∃ ts, deleteEntry vecFpNs (buildVecFpKey r.workspaceId r.id) ts ∈ es) :
    Erases env r es where
  only := only
  all := by
    rintro ns k ⟨e, he, rfl, rfl⟩
    cases he with
    | posting mem ts =>
      obtain ⟨ts', h⟩ := posting _ mem
      exact ⟨_, h, rfl, rfl⟩
    | vecCode ts =>
      obtain ⟨ts', h⟩ := vecCode
      exact ⟨_, h, rfl, rfl⟩
    | vecFp ts =>
      obtain ⟨ts', h⟩ := vecFp
      exact ⟨_, h, rfl, rfl⟩

theorem erases_dropIndexEntries (env : Platform K) (t : Nat) (r : MemoryRecord K) (ts : UInt64) :
    Erases env r (dropIndexEntries env t r ts) := by
  refine erases_of_terms ?_ ?_ ⟨ts, by simp [dropIndexEntries, deleteVectorEntries]⟩
    ⟨ts, by simp [dropIndexEntries, deleteVectorEntries]⟩
  · intro e he
    rcases List.mem_append.mp he with he | he
    · obtain ⟨term, hterm, rfl⟩ := List.mem_map.mp he
      exact .posting ((env.mem_iterateSet t _ term).mp hterm) ts
    · rcases List.mem_cons.mp he with rfl | he
      · exact .vecCode ts
      · rw [List.mem_singleton.mp he]
        exact .vecFp ts
  · intro term hterm
    have hmem := (env.mem_iterateSet t _ term).mpr hterm
    exact ⟨ts, List.mem_append_left _ (List.mem_map_of_mem hmem)⟩

theorem erases_drop (env : Platform K) (t : Nat) (r : MemoryRecord K) (vecCodeTs vecFpTs : UInt64)
    {postings : List WriteEntry} (h : List.Forall₂
      (fun term e => ∃ ts, e = deletePostingEntry env r ts term)
      (env.iterateSet t (tokenize r.content)) postings) :
    Erases env r (deleteEntry vecCodeNs (buildVecCodeKey r.workspaceId
      (bucketForPosting env r.workspaceId r.id) r.id) vecCodeTs ::
        deleteEntry vecFpNs (buildVecFpKey r.workspaceId r.id) vecFpTs :: postings) := by
  refine erases_of_terms ?_ ?_ ⟨vecCodeTs, by simp⟩ ⟨vecFpTs, by simp⟩
  · intro e he
    rcases List.mem_cons.mp he with rfl | he
    · exact .vecCode vecCodeTs
    · rcases List.mem_cons.mp he with rfl | he
      · exact .vecFp vecFpTs
      · obtain ⟨term, hterm, ts, rfl⟩ := exists_left_of_forall₂ h he
        exact .posting ((env.mem_iterateSet t _ term).mp hterm) ts
  · intro term hterm
    obtain ⟨e, he, ts, rfl⟩ := exists_right_of_forall₂ h
      ((env.mem_iterateSet t _ term).mpr hterm)
    exact ⟨ts, List.mem_cons_of_mem _ (List.mem_cons_of_mem _ he)⟩

/-- The entries that write the index rows of a record. -/
inductive Indexing [Field K] [LinearOrder K] (env : Platform K) (r : MemoryRecord K) :
    WriteEntry → Prop
  | posting {term : Bytes} (mem : term ∈ tokenize r.content) :
      Indexing env r (postingEntry env r (tokenize r.content).length term
        ((tokenize r.content).count term))
  | vecCode : Indexing env r (vecCodeEntry env r)
  | vecFp : Indexing env r (vecFpEntry env r)

section Indexing
variable [Field K] [LinearOrder K] {env : Platform K} {r d : MemoryRecord K} {ns k : Bytes}
  {a b : StoredValue}

/-- A row of a record in a namespace. -/
def IndexRow (env : Platform K) (r : MemoryRecord K) (ns k : Bytes) (v : StoredValue) : Prop :=
  ∃ e, Indexing env r e ∧ e.entry.nameSpace = ns ∧ e.entry.key = k ∧ e.stored = v

theorem Indexing.op {e : WriteEntry} (h : Indexing env r e) : e.op = .upsert := by
  cases h <;> rfl

/-- The dictionary apart, the entries of a live record are its index rows. -/
structure Indexes (env : Platform K) (r : MemoryRecord K) (es : List WriteEntry) : Prop where
  only : ∀ e ∈ es, e.entry.nameSpace = termDictNs ∨ Indexing env r e
  all : ∀ e, Indexing env r e → e ∈ es

theorem indexes_live (env : Platform K) (t : Nat) (r : MemoryRecord K) :
    Indexes env r (vecCodeEntry env r :: vecFpEntry env r ::
      (env.iterate t (countTerms (tokenize r.content))).flatMap fun kv =>
        [termDictEntry env r kv.1 kv.2,
          postingEntry env r (tokenize r.content).length kv.1 kv.2]) := by
  constructor
  case only =>
    intro e he
    rcases List.mem_cons.mp he with rfl | he
    · exact Or.inr .vecCode
    rcases List.mem_cons.mp he with rfl | he
    · exact Or.inr .vecFp
    obtain ⟨⟨term, tf⟩, hterm, he⟩ := List.mem_flatMap.mp he
    rw [env.mem_iterate, countTerms_getElem?] at hterm
    split at hterm
    · rename_i hmem
      obtain rfl := Option.some.inj hterm
      rcases List.mem_cons.mp he with rfl | he
      · exact Or.inl rfl
      · rw [List.mem_singleton.mp he]
        exact Or.inr (.posting hmem)
    · cases hterm
  case all =>
    intro e he
    cases he with
    | @posting term mem =>
      have hterm : (term, (tokenize r.content).count term) ∈
          env.iterate t (countTerms (tokenize r.content)) := by
        rw [env.mem_iterate, countTerms_getElem?, if_pos mem]
      refine List.mem_cons_of_mem _ (List.mem_cons_of_mem _ ?_)
      exact List.mem_flatMap.mpr ⟨_, hterm, by simp⟩
    | vecCode => exact List.mem_cons_self
    | vecFp => exact List.mem_cons_of_mem _ List.mem_cons_self

end Indexing

/-! ### The keys of rows -/

/-- The keys a name has in the derived namespaces. -/
inductive KeyOf (workspaceId id : Bytes) : Bytes → Bytes → Prop
  | posting {ns k term : Bytes} (b : UInt64) (hns : ns = postingBlkNs) (hterm : 47 ∉ term)
      (hk : k = buildPostingKey workspaceId term b id) : KeyOf workspaceId id ns k
  | vecCode {ns k : Bytes} (b : UInt64) (hns : ns = vecCodeNs)
      (hk : k = buildVecCodeKey workspaceId b id) : KeyOf workspaceId id ns k
  | vecFp {ns k : Bytes} (hns : ns = vecFpNs) (hk : k = buildVecFpKey workspaceId id) :
      KeyOf workspaceId id ns k

theorem KeyOf.same_name {w v x y ns k : Bytes} (h : KeyOf w x ns k) (h' : KeyOf v y ns k)
    (hw : 47 ∉ w) (hv : 47 ∉ v) : w = v ∧ x = y := by
  cases h with
  | posting b hns hterm hk =>
    cases h' with
    | posting b' _ hterm' hk' =>
      obtain ⟨hwv, -, hxy⟩ := buildPostingKey_inj hw hv hterm hterm' (hk.symm.trans hk')
      exact ⟨hwv, hxy⟩
    | vecCode _ hns' => exact absurd (hns.symm.trans hns') postingBlkNs_ne_vecCodeNs
    | vecFp hns' => exact absurd (hns.symm.trans hns') postingBlkNs_ne_vecFpNs
  | vecCode b hns hk =>
    cases h' with
    | posting _ hns' => exact absurd (hns'.symm.trans hns) postingBlkNs_ne_vecCodeNs
    | vecCode b' _ hk' =>
      obtain ⟨hwv, -, hxy⟩ := buildVecCodeKey_inj hw hv (hk.symm.trans hk')
      exact ⟨hwv, hxy⟩
    | vecFp hns' => exact absurd (hns.symm.trans hns') vecCodeNs_ne_vecFpNs
  | vecFp hns hk =>
    cases h' with
    | posting _ hns' => exact absurd (hns'.symm.trans hns) postingBlkNs_ne_vecFpNs
    | vecCode _ hns' => exact absurd (hns'.symm.trans hns) vecCodeNs_ne_vecFpNs
    | vecFp _ hk' => exact buildVecFpKey_inj hw hv (hk.symm.trans hk')

theorem Erased.keyOf {env : Platform K} {r : MemoryRecord K} {ns k : Bytes}
    (h : Erased env r ns k) : KeyOf r.workspaceId r.id ns k := by
  obtain ⟨e, he, rfl, rfl⟩ := h
  cases he with
  | posting mem => exact .posting _ rfl (tokenize_notMem_slash mem) rfl
  | vecCode => exact .vecCode _ rfl rfl
  | vecFp => exact .vecFp rfl rfl

section Indexing
variable [Field K] [LinearOrder K] {env : Platform K} {r d : MemoryRecord K} {ns k : Bytes}
  {a b : StoredValue}

theorem IndexRow.keyOf (h : IndexRow env r ns k a) : KeyOf r.workspaceId r.id ns k := by
  obtain ⟨e, he, rfl, rfl, -⟩ := h
  cases he with
  | posting mem => exact .posting _ rfl (tokenize_notMem_slash mem) rfl
  | vecCode => exact .vecCode _ rfl rfl
  | vecFp => exact .vecFp rfl rfl

/-- A record has one row at a key. -/
theorem IndexRow.functional (h : IndexRow env r ns k a) (h' : IndexRow env r ns k b)
    (hr : 47 ∉ r.workspaceId) : a = b := by
  obtain ⟨e, he, rfl, rfl, rfl⟩ := h
  obtain ⟨e', he', hns, hkey, rfl⟩ := h'
  cases he with
  | posting mem =>
    cases he' with
    | posting mem' =>
      obtain ⟨-, rfl, -⟩ := buildPostingKey_inj hr hr (tokenize_notMem_slash mem')
        (tokenize_notMem_slash mem) hkey
      rfl
    | vecCode => exact absurd hns.symm postingBlkNs_ne_vecCodeNs
    | vecFp => exact absurd hns.symm postingBlkNs_ne_vecFpNs
  | vecCode =>
    cases he' with
    | posting mem' => exact absurd hns postingBlkNs_ne_vecCodeNs
    | vecCode => rfl
    | vecFp => exact absurd hns.symm vecCodeNs_ne_vecFpNs
  | vecFp =>
    cases he' with
    | posting mem' => exact absurd hns postingBlkNs_ne_vecFpNs
    | vecCode => exact absurd hns vecCodeNs_ne_vecFpNs
    | vecFp => rfl

end Indexing

/-! ### Replacing rows in a table -/

theorem Table.lookup_apply_deletes {table : Table} {writes : List WriteEntry} {k : Bytes}
    (hop : ∀ w ∈ writes, w.op = .delete)
    (h : table[k]? = none ∨ ∃ w ∈ writes, w.entry.key = k) : (table.apply writes)[k]? = none := by
  rcases hk : (table.apply writes)[k]? with _ | v
  · rfl
  · exfalso
    induction writes generalizing table with
    | nil =>
      rcases h with hnone | ⟨w, hw, -⟩
      · exact absurd (hk.symm.trans hnone) (by simp)
      · cases hw
    | cons w rest ih =>
      have hdel : table.applyEntry w = table.erase w.entry.key := by
        rw [Table.applyEntry, hop w List.mem_cons_self]
      rw [Table.apply, List.foldl_cons, hdel] at hk
      refine ih (fun x hx => hop x (List.mem_cons_of_mem _ hx)) ?_ hk
      rw [lookup_erase]
      by_cases hkey : w.entry.key = k
      · exact Or.inl (if_pos hkey)
      · rw [if_neg hkey]
        refine h.imp_right ?_
        rintro ⟨x, hx, hxk⟩
        rcases List.mem_cons.mp hx with rfl | hx
        · exact absurd hxk hkey
        · exact ⟨x, hx, hxk⟩

theorem Table.lookup_apply_upserts {table : Table} {writes : List WriteEntry} {k : Bytes}
    {v : StoredValue} (hop : ∀ w ∈ writes, w.op = .upsert)
    (hvalue : ∀ w ∈ writes, w.entry.key = k → (⟨w.entry.value, w.entry.ts⟩ : StoredValue) = v)
    (h : table[k]? = some v ∨ ∃ w ∈ writes, w.entry.key = k) :
    (table.apply writes)[k]? = some v := by
  induction writes generalizing table with
  | nil =>
    refine h.resolve_right ?_
    rintro ⟨w, hw, -⟩
    cases hw
  | cons w rest ih =>
    have hput : table.applyEntry w = table.insert w.entry.key ⟨w.entry.value, w.entry.ts⟩ := by
      rw [Table.applyEntry, hop w List.mem_cons_self]
    rw [Table.apply, List.foldl_cons, hput]
    refine ih (fun x hx => hop x (List.mem_cons_of_mem _ hx))
      (fun x hx => hvalue x (List.mem_cons_of_mem _ hx)) ?_
    rw [lookup_insert]
    by_cases hkey : w.entry.key = k
    · rw [if_pos hkey, hvalue w List.mem_cons_self hkey]
      exact Or.inl rfl
    · rw [if_neg hkey]
      refine h.imp_right ?_
      rintro ⟨x, hx, hxk⟩
      rcases List.mem_cons.mp hx with rfl | hx
      · exact absurd hxk hkey
      · exact ⟨x, hx, hxk⟩

/-- Deletions followed by the rows of a document replace it. -/
theorem replaced_apply {rows : Name → MemoryRecord K → Bytes → StoredValue → Prop} {n : Name}
    {new : Option (MemoryRecord K)} {erased : Bytes → Prop} {dels ups : List WriteEntry}
    (hfun : ∀ d k a b, rows n d k a → rows n d k b → a = b)
    (hdel : ∀ w ∈ dels, w.op = .delete ∧ erased w.entry.key)
    (hcover : ∀ k, erased k → ∃ w ∈ dels, w.entry.key = k)
    (hup : ∀ w ∈ ups, w.op = .upsert ∧
      ∃ d, new = some d ∧ rows n d w.entry.key ⟨w.entry.value, w.entry.ts⟩)
    (hall : ∀ d, new = some d → ∀ k a, rows n d k a → ∃ w ∈ ups, w.entry.key = k)
    (table : Table) : Replaced rows n new erased (fun k => table[k]?)
      fun k => (table.apply (dels ++ ups))[k]? := by
  have happend : table.apply (dels ++ ups) = (table.apply dels).apply ups := List.foldl_append
  have hother : ∀ k, (∀ d a, new = some d → ¬ rows n d k a) → ∀ w ∈ ups, w.entry.key ≠ k := by
    rintro k hnone w hw rfl
    obtain ⟨d, hd, hrow⟩ := (hup w hw).2
    exact hnone d _ hd hrow
  rw [happend]
  constructor
  case written =>
    intro d hd k a hrow
    refine Table.lookup_apply_upserts (fun w hw => (hup w hw).1) ?_ (Or.inr (hall d hd k a hrow))
    rintro w hw rfl
    obtain ⟨e, he, hrow'⟩ := (hup w hw).2
    obtain rfl := Option.some.inj (hd.symm.trans he)
    exact hfun d _ _ _ hrow' hrow
  case removed =>
    intro k herased hnone
    refine (Table.lookup_apply_of_notMem (hother k hnone)).trans ?_
    exact Table.lookup_apply_deletes (fun w hw => (hdel w hw).1) (Or.inr (hcover k herased))
  case kept =>
    intro k hkept hnone
    refine (Table.lookup_apply_of_notMem (hother k hnone)).trans ?_
    refine Table.lookup_apply_of_notMem ?_
    rintro w hw rfl
    exact hkept (hdel w hw).2

/-! ### What a change does to the index rows -/

/-- The resident records lie at the keys of their names. -/
def HeldNames (records : StringMap (MemoryRecord K)) : Prop :=
  ∀ (k : Bytes) r, records[k]? = some r → k = recordMapKey r.workspaceId r.id ∧
    Plain r.workspaceId r.id

/-- The keys a change erases: those of the resident copy, and those of the record
itself when it is dead. -/
def ErasedBy (env : Platform K) (records : StringMap (MemoryRecord K)) (change : Change K)
    (ns k : Bytes) : Prop :=
  match change with
  | .put r => (∃ old, records[recordMapKey r.workspaceId r.id]? = some old ∧
      Erased env old ns k) ∨ r.tombstone = true ∧ Erased env r ns k
  | .drop r => Erased env r ns k

theorem ErasedBy.keyOf {env : Platform K} {records : StringMap (MemoryRecord K)}
    (hheld : HeldNames records) {change : Change K} {ns k : Bytes}
    (hname : Plain change.record.workspaceId change.record.id)
    (h : ErasedBy env records change ns k) :
    KeyOf change.record.workspaceId change.record.id ns k := by
  cases change with
  | put r =>
    rcases h with ⟨old, hold, herased⟩ | ⟨-, herased⟩
    · obtain ⟨hkey, hold'⟩ := hheld _ _ hold
      obtain ⟨hws, hid⟩ := recordMapKey_inj hname.2.2.1 hold'.2.2.1 hkey
      have howned := herased.keyOf
      rw [← hws, ← hid] at howned
      exact howned
    · exact herased.keyOf
  | drop r => exact Erased.keyOf h

section Changes
variable [Field K] [LinearOrder K] {env : Platform K} {records : StringMap (MemoryRecord K)}
  {change : Change K} {writes : List WriteEntry} {ns : Bytes}

/-- The entries of a change in a derived namespace: first the deletions, then the
rows of what it leaves. -/
structure Split (env : Platform K) (records : StringMap (MemoryRecord K)) (change : Change K)
    (ns : Bytes) (dels ups : List WriteEntry) : Prop where
  erases : ∀ e ∈ dels, e.op = .delete ∧ ErasedBy env records change ns e.entry.key
  erased : ∀ k, ErasedBy env records change ns k → ∃ e ∈ dels, e.entry.key = k
  writes : ∀ e ∈ ups, e.op = .upsert ∧
    ∃ d, change.live = some d ∧ IndexRow env d ns e.entry.key e.stored
  written : ∀ d, change.live = some d → ∀ k a, IndexRow env d ns k a →
    ∃ e ∈ ups, e.entry.key = k

theorem mem_restrict {e : WriteEntry} : e ∈ Store.restrict ns writes ↔
    e ∈ writes ∧ e.entry.nameSpace = ns := by
  simp [Store.restrict]

omit [Field K] [LinearOrder K] in
theorem Erases.mem_restrict {r : MemoryRecord K} (h : Erases env r writes) (ns : Bytes) :
    (∀ e ∈ Store.restrict ns writes, e.op = .delete ∧ Erased env r ns e.entry.key) ∧
      ∀ k, Erased env r ns k → ∃ e ∈ Store.restrict ns writes, e.entry.key = k := by
  constructor
  · intro e he
    obtain ⟨hmem, hns⟩ := PoorguyMem.mem_restrict.mp he
    exact ⟨(h.only e hmem).op, e, h.only e hmem, hns, rfl⟩
  · intro k hk
    obtain ⟨e, he, hns, rfl⟩ := h.all ns k hk
    exact ⟨e, PoorguyMem.mem_restrict.mpr ⟨he, hns⟩, rfl⟩

theorem Indexes.mem_restrict (hns : ns ∈ derivedNamespaces) {r : MemoryRecord K}
    (h : Indexes env r writes) :
    (∀ e ∈ Store.restrict ns writes, e.op = .upsert ∧ IndexRow env r ns e.entry.key e.stored) ∧
      ∀ k a, IndexRow env r ns k a → ∃ e ∈ Store.restrict ns writes, e.entry.key = k := by
  constructor
  · intro e he
    obtain ⟨hmem, heq⟩ := PoorguyMem.mem_restrict.mp he
    rcases h.only e hmem with hdict | hindex
    · exact absurd (heq.symm.trans hdict) (derivedNamespaces_ne ns hns).2.1
    · exact ⟨hindex.op, e, hindex, heq, rfl, rfl⟩
  · rintro k a ⟨e, he, hns', rfl, -⟩
    exact ⟨e, PoorguyMem.mem_restrict.mpr ⟨h.all e he, hns'⟩, rfl⟩

theorem restrict_cons_of_ne {e : WriteEntry} (h : e.entry.nameSpace ≠ ns) :
    Store.restrict ns (e :: writes) = Store.restrict ns writes := by
  rw [Store.restrict, List.filter_cons_of_neg (by simpa using h), Store.restrict]

theorem ChangeRows.split (hns : ns ∈ derivedNamespaces)
    (h : ChangeRows env records change writes) :
    ∃ dels ups, Store.restrict ns writes = dels ++ ups ∧ Split env records change ns dels ups := by
  have hdoc := (derivedNamespaces_ne ns hns).1.symm
  cases h with
  | put r t =>
    rw [restrict_cons_of_ne hdoc, indexEntries, Store.restrict_append]
    -- the deletions of the resident copy
    have hold : (∀ e ∈ Store.restrict ns (records[recordMapKey r.workspaceId r.id]?.elim []
          fun old => dropIndexEntries env t old r.updatedAtMs), e.op = .delete ∧
          ∃ old, records[recordMapKey r.workspaceId r.id]? = some old ∧
            Erased env old ns e.entry.key) ∧
        ∀ k old, records[recordMapKey r.workspaceId r.id]? = some old → Erased env old ns k →
          ∃ e ∈ Store.restrict ns (records[recordMapKey r.workspaceId r.id]?.elim []
            fun old => dropIndexEntries env t old r.updatedAtMs), e.entry.key = k := by
      rcases records[recordMapKey r.workspaceId r.id]? with _ | old
      · constructor
        · intro e he
          cases he
        · intro k old heq
          cases heq
      · have hdrop := (erases_dropIndexEntries env t old r.updatedAtMs).mem_restrict ns
        constructor
        · exact fun e he => ⟨(hdrop.1 e he).1, old, rfl, (hdrop.1 e he).2⟩
        · intro k old' heq hk
          obtain rfl := Option.some.inj heq
          exact hdrop.2 k hk
    generalize Store.restrict ns (records[recordMapKey r.workspaceId r.id]?.elim []
      fun old => dropIndexEntries env t old r.updatedAtMs) = dels at hold ⊢
    by_cases hdead : r.tombstone = true
    · rw [if_pos hdead]
      have hown := (erases_dropIndexEntries env t r r.updatedAtMs).mem_restrict ns
      refine ⟨dels ++ Store.restrict ns _, [], (List.append_nil _).symm, ?_, ?_, ?_, ?_⟩
      · intro e he
        rcases List.mem_append.mp he with he | he
        · exact ⟨(hold.1 e he).1, Or.inl (hold.1 e he).2⟩
        · exact ⟨(hown.1 e he).1, Or.inr ⟨hdead, (hown.1 e he).2⟩⟩
      · rintro k (⟨old, hheld, hk⟩ | ⟨-, hk⟩)
        · obtain ⟨e, he, hkey⟩ := hold.2 k old hheld hk
          exact ⟨e, List.mem_append_left _ he, hkey⟩
        · obtain ⟨e, he, hkey⟩ := hown.2 k hk
          exact ⟨e, List.mem_append_right _ he, hkey⟩
      · intro e he
        cases he
      · intro d hd
        obtain ⟨heq, hlive⟩ := Option.filter_eq_some_iff.mp hd
        obtain rfl := Option.some.inj heq
        rw [hdead] at hlive
        cases hlive
    · rw [if_neg hdead]
      have hlive : (Change.put r).live = some r := by simp [Change.live, Change.value, hdead]
      have hindex := (indexes_live env t r).mem_restrict hns
      refine ⟨dels, Store.restrict ns _, rfl, ?_, ?_, ?_, ?_⟩
      · exact fun e he => ⟨(hold.1 e he).1, Or.inl (hold.1 e he).2⟩
      · rintro k (⟨old, hheld, hk⟩ | ⟨hdead', -⟩)
        · exact hold.2 k old hheld hk
        · exact absurd hdead' hdead
      · exact fun e he => ⟨(hindex.1 e he).1, r, hlive, (hindex.1 e he).2⟩
      · intro d hd
        obtain rfl := Option.some.inj (hlive.symm.trans hd)
        exact hindex.2
  | drop r t docTs vecCodeTs vecFpTs deletes =>
    rw [restrict_cons_of_ne hdoc]
    have hown := (erases_drop env t r vecCodeTs vecFpTs deletes).mem_restrict ns
    refine ⟨_, [], (List.append_nil _).symm, hown.1, hown.2, ?_, ?_⟩
    · intro e he
      cases he
    · intro d hd
      cases hd

/-- The rows of the documents of a name. -/
def rowsOfName (env : Platform K) (ns : Bytes) (n : Name) (d : MemoryRecord K) (k : Bytes)
    (v : StoredValue) : Prop :=
  d.workspaceId = n.1.1 ∧ d.id = n.1.2 ∧ IndexRow env d ns k v

theorem separate_rowsOfName (env : Platform K) (ns : Bytes) : Separate (rowsOfName env ns) := by
  rintro ⟨⟨w, x⟩, hn⟩ ⟨⟨v, y⟩, hm⟩ d e k a b ⟨rfl, rfl, hrow⟩ ⟨rfl, rfl, hrow'⟩
  obtain ⟨hws, hid⟩ := hrow.keyOf.same_name hrow'.keyOf hn.2.2.2 hm.2.2.2
  exact Subtype.ext (Prod.ext hws hid)

/-- The rows of a change replace those of the document of its name. -/
theorem ChangeRows.replaced (hns : ns ∈ derivedNamespaces)
    (hname : Plain change.record.workspaceId change.record.id)
    (h : ChangeRows env records change writes) (table : Table) :
    Replaced (rowsOfName env ns) ⟨(change.record.workspaceId, change.record.id), hname⟩
      change.live (ErasedBy env records change ns) (fun k => table[k]?)
      fun k => (table.apply (Store.restrict ns writes))[k]? := by
  obtain ⟨dels, ups, heq, hsplit⟩ := h.split hns
  rw [heq]
  have hlive : ∀ d, change.live = some d → d = change.record := by
    intro d hd
    obtain ⟨hvalue, -⟩ := Option.filter_eq_some_iff.mp hd
    cases change with
    | put r => exact (Option.some.inj hvalue).symm
    | drop r => cases hvalue
  refine replaced_apply ?_ hsplit.erases hsplit.erased ?_ ?_ table
  · rintro d k a b ⟨hws, -, hrow⟩ ⟨-, -, hrow'⟩
    exact hrow.functional hrow' (hws ▸ hname.2.2.2)
  · intro e he
    obtain ⟨hop, d, hd, hrow⟩ := hsplit.writes e he
    obtain rfl := hlive d hd
    exact ⟨hop, _, hd, rfl, rfl, hrow⟩
  · rintro d hd k a ⟨-, -, hrow⟩
    exact hsplit.written d hd k a hrow

end Changes

section Current
variable [Field K] [LinearOrder K] {env : Platform K} {ns : Bytes} {documents : Documents K}

/-- The rows of the table are those of the live documents. -/
def Current (env : Platform K) (ns : Bytes) (documents : Documents K) (table : Table) : Prop :=
  Derived (rowsOfName env ns) documents.live fun k => table[k]?

/-- No row of a live document is left over when a change replaces it. -/
def Clears (env : Platform K) (ns : Bytes) (records : StringMap (MemoryRecord K))
    (d : MemoryRecord K) (change : Change K) : Prop :=
  d.tombstone = false → d.workspaceId = change.record.workspaceId → d.id = change.record.id →
    ∀ k a, IndexRow env d ns k a →
      (∃ r b, change.live = some r ∧ IndexRow env r ns k b) ∨ ErasedBy env records change ns k

theorem current_empty (env : Platform K) (ns : Bytes) : Current env ns Documents.empty ∅ := by
  have hlive : (Documents.empty : Documents K).live = fun _ => none := rfl
  have htable : (fun k : Bytes => (∅ : Table)[k]?) = fun _ => none := by
    funext k
    simp
  rw [Current, hlive, htable]
  exact derived_empty _

namespace Current

/-- The rows of one change keep the table current. -/
theorem change (hns : ns ∈ derivedNamespaces) {table : Table} (h : Current env ns documents table)
    {records : StringMap (MemoryRecord K)} (hheld : HeldNames records) {change : Change K}
    (hname : Plain change.record.workspaceId change.record.id) {writes : List WriteEntry}
    (hrows : ChangeRows env records change writes)
    (hclear : ∀ d ∈ documents change.record.workspaceId change.record.id,
      Clears env ns records d change) :
    Current env ns (documents.apply change) (table.apply (Store.restrict ns writes)) := by
  rw [Current, documents.live_apply hname]
  refine Derived.replace (separate_rowsOfName env ns) h (hrows.replaced hns hname table) ?_ ?_
  · rintro k herased ⟨⟨w, id⟩, hn⟩ d a hne ⟨rfl, rfl, hrow⟩
    obtain ⟨hws, hid⟩ := (herased.keyOf hheld hname).same_name hrow.keyOf hname.2.2.2 hn.2.2.2
    exact hne (Subtype.ext (Prod.ext hws.symm hid.symm))
  · rintro d hd k a ⟨hws, hid, hrow⟩
    obtain ⟨hd, hlive⟩ := Option.filter_eq_some_iff.mp hd
    refine (hclear d hd (by simpa using hlive) hws hid k a hrow).imp_left ?_
    rintro ⟨r, b, hr, hrow'⟩
    refine ⟨r, b, hr, ?_, ?_, hrow'⟩
    all_goals
      obtain ⟨hvalue, -⟩ := Option.filter_eq_some_iff.mp hr
      cases change with
      | put r => rw [← Option.some.inj hvalue]; rfl
      | drop r => cases hvalue

omit [Field K] [LinearOrder K] in
/-- Entries of the log are in no index. -/
theorem restrict_chunk (hns : ns ∈ derivedNamespaces) {chunk : Chunk K}
    (hlog : ∀ e ∈ chunk.log, e.IsLog) :
    Store.restrict ns chunk.writes = Store.restrict ns chunk.rows := by
  rw [Chunk.writes, Store.restrict_append]
  obtain ⟨-, -, hevents, hckpt, -⟩ := derivedNamespaces_ne ns hns
  have hnone : Store.restrict ns chunk.log = [] := by
    refine restrict_eq_nil fun e he heq => ?_
    rcases hlog e he with hlogged | hlogged
    · exact hevents (heq.symm.trans hlogged)
    · exact hckpt (heq.symm.trans hlogged)
  rw [hnone, List.append_nil]

theorem chunks (hns : ns ∈ derivedNamespaces) {table : Table} (h : Current env ns documents table)
    {records : StringMap (MemoryRecord K)} (hheld : HeldNames records) {chunks : List (Chunk K)}
    (hnames : ∀ chunk ∈ chunks, Plain chunk.change.record.workspaceId chunk.change.record.id)
    (hrows : ∀ chunk ∈ chunks, ChangeRows env records chunk.change chunk.rows)
    (hlog : ∀ chunk ∈ chunks, ∀ e ∈ chunk.log, e.IsLog)
    (hclear : Replacing (Clears env ns records) documents (chunks.map (·.change))) :
    Current env ns (documents.applyAll (chunks.map (·.change)))
      (table.apply (Store.restrict ns (chunks.flatMap Chunk.writes))) := by
  induction chunks generalizing documents table with
  | nil => exact h
  | cons chunk rest ih =>
    have hfirst := h.change hns hheld (hnames chunk List.mem_cons_self)
      (hrows chunk List.mem_cons_self) hclear.1
    have happend : Store.restrict ns ((chunk :: rest).flatMap Chunk.writes) =
        Store.restrict ns chunk.rows ++ Store.restrict ns (rest.flatMap Chunk.writes) := by
      rw [List.flatMap_cons, Store.restrict_append,
        restrict_chunk hns (hlog chunk List.mem_cons_self)]
    rw [happend, Table.apply, List.foldl_append]
    exact ih hfirst (fun c hc => hnames c (List.mem_cons_of_mem _ hc))
      (fun c hc => hrows c (List.mem_cons_of_mem _ hc))
      (fun c hc => hlog c (List.mem_cons_of_mem _ hc)) hclear.2

end Current

end Current

/-! ### Runs -/

section Runs
variable [Field K] [LinearOrder K] {env : Platform K} {ns : Bytes} {t : Traced K} {call : Call K}
  {fate : Fate}

/-- What a call drops has been a tombstone. -/
theorem Tracked.replacing_drop (h : Tracked env t) (call : Call K)
    (fate : Fate) : Replacing (fun d c => ∀ r, c = .drop r → d.tombstone = true) t.documents
      (committed env t.world call fate) := by
  have hprod : ∀ change ∈ committed env t.world call fate,
      Produces env t.world (env.clock t.world.tick) call change := committed_produces
  by_cases hwrite : ∃ input, call = .write input
  · obtain ⟨input, rfl⟩ := hwrite
    refine replacing_of_forall fun d c hc r heq => ?_
    cases hprod c hc with
    | new => cases heq
    | tombstoned compacts => cases compacts
    | dropped compacts => cases compacts
  · have hcall : ∀ input, call ≠ .write input := fun input heq => hwrite ⟨input, heq⟩
    refine replacing_of_agree (fun c hc c' hc' => ?_) (fun r _ r' heq => by cases heq) ?_
    · exact h.sourced.produced_agree hcall (hprod c hc) (hprod c' hc')
    · rintro c hc d hd r rfl
      cases hprod _ hc with
      | dropped _ held _ dead =>
        obtain ⟨d', hd', hess⟩ := h.document_held held
        obtain rfl := Option.some.inj (hd.symm.trans hd')
        rw [← (fields_of_essence hess).2.2.2.2.1]
        exact dead

/-- A call that is no `Write` leaves the content of a document as it is. -/
theorem Tracked.replacing_content (hlaw : env.Lawful) (h : Tracked env t) {call : Call K}
    (hcall : ∀ input, call ≠ .write input) (fate : Fate) :
    Replacing (fun d c => d.content = c.record.content) t.documents
      (committed env t.world call fate) := by
  have hprod : ∀ change ∈ committed env t.world call fate,
      Produces env t.world (env.clock t.world.tick) call change := committed_produces
  refine replacing_of_agree (fun c hc c' hc' => ?_) (fun r _ => rfl) ?_
  · exact h.sourced.produced_agree hcall (hprod c hc) (hprod c' hc')
  · intro c hc d hd
    have same : ∀ {r : MemoryRecord K}, (∃ d', t.documents r.workspaceId r.id = some d' ∧
        r.essence = d'.essence) → t.documents r.workspaceId r.id = some d →
        d.content = r.content := by
      rintro r ⟨d', hd', hess⟩ hd
      obtain rfl := Option.some.inj (hd.symm.trans hd')
      exact (fields_of_essence hess).2.2.2.1.symm
    cases hprod c hc with
    | new => exact absurd rfl (hcall _)
    | @pinned _ _ _ loaded load => exact same (r := loaded) (h.document_loaded hlaw load) hd
    | @tombstoned _ _ _ candidate _ held =>
      exact same (r := candidate) (h.document_held held) hd
    | dropped _ held => exact same (h.document_held held) hd

/-- The rows of changes in a namespace keep a table as the documents after them say. -/
def KeepsTable (env : Platform K) (ns : Bytes) (I : Documents K → Table → Prop) (t : Traced K)
    (changes : List (Change K)) : Prop :=
  ∀ chunks : List (Chunk K), chunks.map (·.change) = changes →
    (∀ chunk ∈ chunks, Plain chunk.change.record.workspaceId chunk.change.record.id) →
    (∀ chunk ∈ chunks, ChangeRows env t.world.engine.records chunk.change chunk.rows) →
    (∀ chunk ∈ chunks, ∀ e ∈ chunk.log, e.IsLog) →
    I (t.documents.applyAll changes)
      ((t.world.store.table ns).apply (Store.restrict ns (chunks.flatMap Chunk.writes)))

section Tables
variable {I : Documents K → Table → Prop}

theorem KeepsTable.commit (hlaw : env.Lawful) (hT : Tracked env t)
    (h : I t.documents (t.world.store.table ns)) (hclean : call.Workspaces Clean)
    (hwhole : fate.main.Whole) {request : Request K}
    (hsome : (prepare env fate t.world call).1 = some request)
    (hkeeps : KeepsTable env ns I t (committed env t.world call fate)) :
    I (t.documents.applyAll (committed env t.world call fate))
      ((t.world.store.batchWrite fate.main request.plan.writes).table ns) := by
  by_cases hok : fate.main.ok = true
  · obtain ⟨chunks, hchunks⟩ := prepare_chunked hsome
    have hnames := hT.plain_committed hlaw hclean fate
    rw [committed_of_ok hok hsome, hchunks.changes] at hkeeps hnames ⊢
    rw [Store.batchWrite_of_ok _ hok, Store.table_apply, hchunks.writes]
    refine hkeeps chunks rfl (fun chunk hchunk => ?_) hchunks.rows hchunks.log
    exact hnames _ (List.mem_map_of_mem hchunk)
  · rw [committed, if_neg hok, Store.batchWrite_of_whole_failed _ hwhole (by simpa using hok)]
    exact h

theorem KeepsTable.performed (hroute : ns ≠ routeMetaNs) (hlaw : env.Lawful) (hT : Tracked env t)
    (h : I t.documents (t.world.store.table ns)) (hclean : call.Workspaces Clean)
    (hwhole : fate.main.Whole)
    (hkeeps : KeepsTable env ns I t (committed env t.world call fate)) :
    I (t.documents.applyAll (committed env t.world call fate))
      ((perform env fate t.world call).1.store.table ns) := by
  have hout := perform_outcome env fate t.world call
  generalize (perform env fate t.world call).1 = w' at hout ⊢
  cases hout with
  | idle none agrees =>
    rw [committed_of_none none, agrees.store]
    exact h
  | queried isQuery =>
    obtain rfl := isQuery
    rename_i input
    rw [committed_of_none rfl, (query_spec env t.world input).store]
    exact h
  | failed some _ agrees =>
    rw [agrees.store]
    exact hkeeps.commit hlaw hT h hclean hwhole some
  | committed some _ settled =>
    rw [settled.table _ hroute]
    exact hkeeps.commit hlaw hT h hclean hwhole some

theorem KeepsTable.interrupted (hlaw : env.Lawful) (hT : Tracked env t)
    (h : I t.documents (t.world.store.table ns)) (hclean : call.Workspaces Clean)
    (hwhole : fate.main.Whole)
    (hkeeps : KeepsTable env ns I t (committed env t.world call fate)) :
    I (t.documents.applyAll (committed env t.world call fate))
      ((interrupt env t.world call fate).store.table ns) := by
  rcases interrupt_cases env t.world call fate with ⟨hnone, heq⟩ | ⟨request, hsome, heq⟩ <;> rw [heq]
  · rw [committed_of_none hnone]
    exact h
  · exact hkeeps.commit hlaw hT h hclean hwhole hsome

/-- The step rule for a table that only the rows of changes touch. -/
theorem KeepsTable.step (hroute : ns ≠ routeMetaNs) (hlaw : env.Lawful) (hT : Tracked env t)
    (h : I t.documents (t.world.store.table ns)) {step : Step K}
    (hstep : step.Regular env t.world)
    (hkeeps : KeepsTable env ns I t (step.committed env t.world)) :
    I (t.next env step).documents ((t.next env step).world.store.table ns) := by
  match step with
  | .call c fate => exact hkeeps.performed hroute hlaw hT h hstep.1.workspaces hstep.2
  | .restart none nodeId options =>
    have hstore := (restart_spec env t.world nodeId options).store
    change I t.documents ((restart env t.world nodeId options).store.table ns)
    rw [hstore]
    exact h
  | .restart (some (c, fate)) nodeId options =>
    have hstore := (restart_spec env (interrupt env t.world c fate) nodeId options).store
    change I _ ((restart env (interrupt env t.world c fate) nodeId options).store.table ns)
    rw [hstore]
    exact hkeeps.interrupted hlaw hT h hstep.1.1.workspaces hstep.1.2

end Tables

theorem Current.step (hns : ns ∈ derivedNamespaces) (hlaw : env.Lawful) (hT : Tracked env t)
    (h : Current env ns t.documents (t.world.store.table ns)) {step : Step K}
    (hstep : step.Regular env t.world)
    (hclear : Replacing (Clears env ns t.world.engine.records) t.documents
      (step.committed env t.world)) :
    Current env ns (t.next env step).documents ((t.next env step).world.store.table ns) := by
  refine KeepsTable.step (derivedNamespaces_ne ns hns).2.2.2.2 hlaw hT h hstep ?_
  intro chunks hchanges hnames hrows hlog
  rw [← hchanges] at hclear ⊢
  exact h.chunks hns hT.sourced.held hnames hrows hlog hclear

/-- The run rule: an index is current at the end of every run whose steps leave no
rows of the documents they replace over. -/
theorem current_run (hns : ns ∈ derivedNamespaces) (hlaw : env.Lawful) (nodeId : Bytes)
    (options : MemoryEngineOptions K) {steps : List (Step K)}
    (hsteps : Runs.Along (Traced.next env) (fun t step => step.Regular env t.world ∧
      (Tracked env t → Replacing (Clears env ns t.world.engine.records) t.documents
        (step.committed env t.world))) (Traced.initial nodeId options) steps) :
    let t := Runs.exec (Traced.next env) (Traced.initial nodeId options) steps
    Tracked env t ∧ Current env ns t.documents (t.world.store.table ns) := by
  refine Runs.invariant (I := fun t => Tracked env t ∧
    Current env ns t.documents (t.world.store.table ns)) ?_ hsteps
    ⟨tracked_initial nodeId options, current_empty env ns⟩
  rintro t step ⟨hregular, hclear⟩ ⟨hT, h⟩
  exact ⟨hT.step hlaw hregular, h.step hns hlaw hT hregular (hclear hT)⟩

theorem Current.row (hT : Tracked env t) {table : Table} (h : Current env ns t.documents table)
    {w id : Bytes} {d : MemoryRecord K} (hd : t.documents w id = some d)
    (hlive : d.tombstone = false) {k : Bytes} {v : StoredValue} (hrow : IndexRow env d ns k v) :
    table[k]? = some v := by
  obtain ⟨rfl, rfl, hname, -⟩ := hT.represents.named w id d hd
  refine (h k v).mpr ⟨⟨(d.workspaceId, d.id), hname⟩, d, ?_, rfl, rfl, hrow⟩
  rw [Documents.live, hd, Option.filter_some, hlive]
  rfl

theorem Current.document {table : Table} (h : Current env ns t.documents table) {k : Bytes}
    {v : StoredValue} (hv : table[k]? = some v) :
    ∃ d, t.documents d.workspaceId d.id = some d ∧ Plain d.workspaceId d.id ∧
      d.tombstone = false ∧ IndexRow env d ns k v := by
  obtain ⟨⟨⟨w, id⟩, hname⟩, d, hd, rfl, rfl, hrow⟩ := (h k v).mp hv
  obtain ⟨hd, hlive⟩ := Option.filter_eq_some_iff.mp hd
  exact ⟨d, hd, hname, by simpa using hlive, hrow⟩

/-- A name without a live document has no row. -/
theorem Current.no_row {table : Table} (h : Current env ns t.documents table) {w id : Bytes}
    (hname : Plain w id) (hdead : ∀ d, t.documents w id = some d → d.tombstone = true) {k : Bytes}
    (hkey : KeyOf w id ns k) : table[k]? = none := by
  rcases hv : table[k]? with _ | v
  · rfl
  · obtain ⟨d, hd, hplain, hlive, hrow⟩ := h.document hv
    obtain ⟨rfl, rfl⟩ := hkey.same_name hrow.keyOf hname.2.2.2 hplain.2.2.2
    rw [hdead d hd] at hlive
    cases hlive

end Runs

end PoorguyMem
