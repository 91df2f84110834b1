import PoorguyMem.Reference

/-!
# What the record codec keeps

Every field of a record survives `SerializeRecord` and `DeserializeRecord` except
metadata: its keys are put as paths, so an empty key and a key with a dot do not
come back.
-/

namespace PoorguyMem

open ByteString PropertyTree Ptree

variable {K : Type}

/-! ### Metadata -/

theorem foldl_insert_toList {V : Type} (m : StringMap V) :
    m.toList.foldl (fun acc kv => acc.insert kv.1 kv.2) (∅ : StringMap V) = m := by
  have hmany : ∀ (kvs : List (Bytes × V)) (acc : StringMap V),
      kvs.foldl (fun acc kv => acc.insert kv.1 kv.2) acc = acc.insertMany kvs := by
    intro kvs
    induction kvs with
    | nil => exact fun acc => Std.ExtTreeMap.insertMany_nil.symm
    | cons kv rest ih =>
      intro acc
      rw [List.foldl_cons, ih, Std.ExtTreeMap.insertMany_cons]
  rw [hmany]
  refine Std.ExtTreeMap.ext_getElem? fun k => ?_
  cases hk : m[k]? with
  | some v =>
    exact Std.ExtTreeMap.getElem?_insertMany_list_of_mem Std.compare_self
      Std.ExtTreeMap.distinct_keys_toList (Std.ExtTreeMap.mem_toList_iff_getElem?_eq_some.mpr hk)
  | none =>
    rw [Std.ExtTreeMap.getElem?_insertMany_list_of_contains_eq_false]
    · simp
    · rw [← Bool.not_eq_true, List.contains_iff_mem, List.mem_map]
      rintro ⟨kv, hkv, rfl⟩
      cases hk.symm.trans (Std.ExtTreeMap.mem_toList_iff_getElem?_eq_some.mp hkv)

theorem lookup_foldl_insert {V : Type} {kvs : List (Bytes × V)} {m : StringMap V} {k : Bytes} {v : V}
    (h : (kvs.foldl (fun acc kv => acc.insert kv.1 kv.2) m)[k]? = some v) :
    m[k]? = some v ∨ k ∈ kvs.map Prod.fst := by
  induction kvs generalizing m with
  | nil => exact Or.inl h
  | cons kv rest ih =>
    rw [List.map_cons, List.mem_cons]
    rcases ih h with hold | hmem
    · rw [lookup_insert] at hold
      split at hold
      · rename_i hkey
        exact Or.inr (Or.inl hkey.symm)
      · exact Or.inl hold
    · exact Or.inr (Or.inr hmem)

theorem fieldNames_metadata {m : StringMap Bytes} (h : ∀ k ∈ m.keys, IsName k) :
    FieldNames (m.toList.map Prod.fst) where
  isName k hk := by
    rw [Std.ExtTreeMap.map_fst_toList_eq_keys] at hk
    exact h k hk
  nodup := by
    rw [Std.ExtTreeMap.map_fst_toList_eq_keys]
    refine Std.ExtTreeMap.distinct_keys.imp ?_
    rintro a b hab rfl
    exact hab Std.compare_self

theorem readMetadata_recordTree (env : Platform K) (r : MemoryRecord K) :
    readMetadata (recordTree env r) =
      (metadataTree r.metadata).children.foldl (fun m kv => m.insert kv.1 kv.2.data) ∅ := by
  have hchild : (ascii "metadata", metadataTree r.metadata) ∈ recordChildren env r := by
    simp [recordChildren]
  rw [readMetadata, getChild_recordTree env r hchild]

/-- Metadata whose keys are names is read back. -/
theorem readMetadata_of_isName (env : Platform K) {r : MemoryRecord K}
    (h : ∀ k ∈ r.metadata.keys, IsName k) : readMetadata (recordTree env r) = r.metadata := by
  rw [readMetadata_recordTree, metadataTree, flatTree_eq (fieldNames_metadata h), children_node,
    List.foldl_map]
  exact foldl_insert_toList r.metadata

/-- A key of the metadata that is read back is the first fragment of a key. -/
theorem mem_keys_readMetadata {env : Platform K} {r : MemoryRecord K} {k : Bytes}
    (h : k ∈ (readMetadata (recordTree env r)).keys) :
    ∃ k' ∈ r.metadata.keys, (fragments k').head? = some k := by
  rw [Std.ExtTreeMap.mem_keys, Std.ExtTreeMap.mem_iff_isSome_getElem?] at h
  obtain ⟨v, hv⟩ := Option.isSome_iff_exists.mp h
  rw [readMetadata_recordTree] at hv
  have hfold : ∀ (cs : List (Bytes × Ptree)) (m : StringMap Bytes),
      cs.foldl (fun m kv => m.insert kv.1 kv.2.data) m =
        (cs.map fun kv => (kv.1, kv.2.data)).foldl (fun m kv => m.insert kv.1 kv.2) m := by
    intro cs m
    rw [List.foldl_map]
  rw [hfold] at hv
  rcases lookup_foldl_insert hv with hnone | hmem
  · exact absurd hnone (by simp)
  · rw [List.map_map] at hmem
    obtain ⟨kv, hkv, hhead⟩ := mem_names_flatTree hmem
    refine ⟨kv.1, ?_, hhead⟩
    rw [← Std.ExtTreeMap.map_fst_toList_eq_keys]
    exact List.mem_map_of_mem hkv

/-- Metadata that is read back has names for keys. -/
theorem isName_of_readMetadata {env : Platform K} {r : MemoryRecord K}
    (h : readMetadata (recordTree env r) = r.metadata) : ∀ k ∈ r.metadata.keys, IsName k := by
  have hkeys : ∀ k ∈ r.metadata.keys, ∃ k' ∈ r.metadata.keys, (fragments k').head? = some k := by
    intro k hk
    rw [← h] at hk
    exact mem_keys_readMetadata hk
  have hdots : ∀ k ∈ r.metadata.keys, 46 ∉ k := by
    intro k hk
    obtain ⟨k', -, hhead⟩ := hkeys k hk
    exact notMem_of_head_fragments hhead
  intro k hk
  refine isName_iff.mpr ⟨?_, hdots k hk⟩
  rintro rfl
  obtain ⟨k', hk', hhead⟩ := hkeys [] hk
  rw [fragments] at hhead
  split at hhead
  · cases hhead
  · rename_i hne
    rw [fragmentsFrom_of_notMem (hdots k' hk'), List.nil_append] at hhead
    exact hne (Option.some.inj hhead)

/-! ### Records -/

/-- The strings of a record. -/
def MemoryRecord.strings (r : MemoryRecord K) : List Bytes :=
  [r.id, r.workspaceId, r.sessionId, r.source, r.content, r.tier, r.nodeId, r.dedupKey, r.shardId,
    r.replicaRole, r.shardHint] ++ r.tags ++ r.metadata.toList.flatMap fun kv => [kv.1, kv.2]

/-- A record whose strings the JSON text carries, whose importance is read back
from its numeral, and whose size is a 64-bit number that was set. -/
structure Encodable (env : Platform K) (r : MemoryRecord K) : Prop where
  carried : ∀ x ∈ r.strings, env.json.carries x
  importance : env.translators.readDouble (env.translators.showDouble r.importanceScore) =
    some r.importanceScore
  numeral : ∀ c ∈ env.translators.showDouble r.importanceScore, c < 128
  size_ne : r.sizeBytes ≠ 0
  size_lt : r.sizeBytes < 2 ^ 64

/-- `SerializeRecord` does not throw, and `DeserializeRecord` gives the record back. -/
def Survives [One K] (env : Platform K) (r : MemoryRecord K) : Prop :=
  ∃ text, serializeRecord env r = some text ∧ deserializeRecord env text = some r

section Records
variable {env : Platform K} {r : MemoryRecord K}

theorem makeArray_eq (values : List Bytes) :
    makeArray values = .node [] (values.map fun v => ([], .leaf v)) := rfl

theorem verifyAll_leaves (kvs : List (Bytes × Bytes)) :
    verifyAll (kvs.map fun kv => (kv.1, leaf kv.2)) = true := by
  induction kvs with
  | nil => rfl
  | cons kv rest ih => rw [List.map_cons, verifyAll, verify_leaf, ih, Bool.and_self]

theorem verifyAll_append (cs ds : List (Bytes × Ptree)) :
    verifyAll (cs ++ ds) = (verifyAll cs && verifyAll ds) := by
  induction cs with
  | nil => rw [List.nil_append, verifyAll, Bool.true_and]
  | cons c rest ih =>
    obtain ⟨k, t⟩ := c
    rw [List.cons_append, verifyAll, verifyAll, ih, Bool.and_assoc]

theorem writable_recordTree (h : ∀ k ∈ r.metadata.keys, IsName k) :
    (recordTree env r).writable = true := by
  have htags : (makeArray r.tags).verify = true := by
    have hleaves := verifyAll_leaves (r.tags.map fun v => ([], v))
    rw [List.map_map] at hleaves
    rw [makeArray_eq, verify]
    exact Bool.and_eq_true_iff.mpr ⟨by simp, hleaves⟩
  have hmeta : (metadataTree r.metadata).verify = true := by
    have hw := writable_flatTree (fieldNames_metadata h)
    rw [writable, Bool.and_eq_true] at hw
    exact hw.2
  rw [recordTree_eq, writable, verify, recordChildren, verifyAll_append, verifyAll_leaves]
  simp [verifyAll, htags, hmeta]

theorem mem_stringsAll_iff {x : Bytes} {cs : List (Bytes × Ptree)} :
    x ∈ stringsAll cs ↔ ∃ c ∈ cs, x = c.1 ∨ x ∈ c.2.strings := by
  induction cs with
  | nil => simp [stringsAll]
  | cons c rest ih =>
    obtain ⟨k, t⟩ := c
    simp only [stringsAll, List.cons_append, List.mem_cons, List.mem_append, ih,
      exists_eq_or_imp, or_assoc]

theorem Encodable.carries_recordTree (hlaw : env.Lawful) (h : Encodable env r)
    (hnames : ∀ k ∈ r.metadata.keys, IsName k) :
    ∀ x ∈ (recordTree env r).strings, env.json.carries x := by
  have hnil : env.json.carries [] := hlaw.json.carries_ascii [] (by simp)
  have hkeys : ∀ key ∈ recordKeys, ∀ c ∈ key, c < 128 := by
    have hall : (recordKeys.all fun key => key.all fun c => c < 128) = true := by decide +kernel
    simpa using hall
  have hfields : ∀ kv ∈ recordFields env r, env.json.carries kv.2 := by
    have hdigits : ∀ n, env.json.carries (decimal n) := fun n =>
      hlaw.json.carries_ascii _ fun b hb => by
        have := (isDigits_decimal n b hb).2
        exact UInt8.lt_iff_toNat_lt.mpr (by simp; omega)
    have hbool : ∀ b, env.json.carries (showBool b) := by
      intro b
      cases b <;> exact hlaw.json.carries_ascii _ (by decide +kernel)
    have hscore := hlaw.json.carries_ascii _ h.numeral
    have hstr : ∀ x ∈ r.strings, env.json.carries x := h.carried
    simp only [MemoryRecord.strings, List.mem_append, List.mem_cons, List.not_mem_nil,
      or_false] at hstr
    simp only [recordFields, List.forall_mem_cons, showUint64]
    refine ⟨?_, ?_, ?_, ?_, ?_, hbool _, hbool _, hdigits _, hdigits _, hdigits _, hdigits _,
      hdigits _, hdigits _, hscore, ?_, ?_, hdigits _, ?_, ?_, ?_, hdigits _, ?_, by simp⟩ <;>
      exact hstr _ (by simp)
  have htags : ∀ x ∈ (makeArray r.tags).strings, env.json.carries x := by
    intro x hx
    rw [makeArray_eq, Ptree.strings, List.mem_cons, mem_stringsAll_iff] at hx
    rcases hx with rfl | ⟨c, hc, hx⟩
    · exact hnil
    · obtain ⟨v, hv, rfl⟩ := List.mem_map.mp hc
      rcases hx with rfl | hx
      · exact hnil
      · rw [List.mem_singleton.mp hx]
        exact h.carried v (by simp [MemoryRecord.strings, hv])
  have hmeta : ∀ x ∈ (metadataTree r.metadata).strings, env.json.carries x := by
    refine strings_flatTree (fieldNames_metadata hnames) hnil fun kv hkv => ?_
    exact ⟨h.carried _ (List.mem_append_right _ (List.mem_flatMap.mpr ⟨kv, hkv, by simp⟩)),
      h.carried _ (List.mem_append_right _ (List.mem_flatMap.mpr ⟨kv, hkv, by simp⟩))⟩
  intro x hx
  rw [recordTree_eq, Ptree.strings, List.mem_cons, mem_stringsAll_iff] at hx
  rcases hx with rfl | ⟨c, hc, hx⟩
  · exact hnil
  · have hkey : c.1 ∈ recordKeys := by
      rw [← map_fst_recordChildren env r]
      exact List.mem_map_of_mem hc
    rcases hx with rfl | hx
    · exact hlaw.json.carries_ascii _ (hkeys _ hkey)
    · rw [recordChildren, List.mem_append] at hc
      rcases hc with hc | hc
      · obtain ⟨kv, hkv, rfl⟩ := List.mem_map.mp hc
        rcases List.mem_cons.mp hx with rfl | hx
        · exact hfields kv hkv
        · cases hx
      · simp only [List.mem_cons, List.not_mem_nil, or_false] at hc
        rcases hc with rfl | rfl
        · exact htags x hx
        · exact hmeta x hx

variable [One K]

/-- Reading the tree of an encodable record gives it back up to its metadata. -/
theorem Encodable.readRecord (hlaw : env.Lawful) (h : Encodable env r) :
    PoorguyMem.readRecord env.translators (recordTree env r) =
      { r with metadata := readMetadata (recordTree env r) } := by
  have hread := readRecord_recordTree hlaw r
  have hsize : (PoorguyMem.readRecord env.translators (recordTree env r)).sizeBytes =
      r.sizeBytes := by
    have hnum : decimal r.sizeBytes = decimal (UInt64.ofNat r.sizeBytes).toNat := by
      rw [UInt64.toNat_ofNat_of_lt' h.size_lt]
    have hfield : (ascii "size_bytes", decimal r.sizeBytes) ∈ recordFields env r := by
      simp [recordFields]
    have hgot : getOr env.translators.readUint64 (recordTree env r) (ascii "size_bytes") 0 =
        UInt64.ofNat r.sizeBytes :=
      getOr_recordTree env r hfield (hnum ▸ hlaw.translators.read_uint64 _)
    rw [PoorguyMem.readRecord, hgot, UInt64.toNat_ofNat_of_lt' h.size_lt]
  have hscore : (PoorguyMem.readRecord env.translators (recordTree env r)).importanceScore =
      r.importanceScore := by
    have hfield : (ascii "importance_score", env.translators.showDouble r.importanceScore) ∈
        recordFields env r := by simp [recordFields]
    rw [PoorguyMem.readRecord, getOr_recordTree env r hfield h.importance]
  have hmeta : (PoorguyMem.readRecord env.translators (recordTree env r)).metadata =
      readMetadata (recordTree env r) := by rw [PoorguyMem.readRecord]
  rw [Reread, hsize, hscore, hmeta] at hread
  exact hread

/-- A record comes back from its text exactly where its metadata keys are names:
not empty, and without a dot. -/
theorem survives_iff (hlaw : env.Lawful) (h : Encodable env r) :
    Survives env r ↔ ∀ k ∈ r.metadata.keys, k ≠ [] ∧ 46 ∉ k := by
  have hfill : ∀ m, fillSizeBytes { r with metadata := m } = { r with metadata := m } := by
    intro m
    rw [fillSizeBytes, if_neg h.size_ne]
  constructor
  · rintro ⟨text, hser, hde⟩ k hk
    obtain ⟨hw, rfl⟩ := serializeRecord_eq_some.mp hser
    obtain ⟨t, hparse, hread⟩ := Option.map_eq_some_iff.mp hde
    obtain ⟨rfl, -⟩ := hlaw.json.parse_only _ _ hw hparse
    rw [h.readRecord hlaw, hfill] at hread
    have hmeta := congrArg MemoryRecord.metadata hread
    dsimp only at hmeta
    exact isName_iff.mp (isName_of_readMetadata hmeta k hk)
  · intro hkeys
    have hnames : ∀ k ∈ r.metadata.keys, IsName k := fun k hk => isName_iff.mpr (hkeys k hk)
    have hw : (recordTree env r).writable = true := writable_recordTree hnames
    refine ⟨recordText env r, serializeRecord_eq_some.mpr ⟨hw, rfl⟩, ?_⟩
    have hparse := hlaw.json.parse_print _ hw (h.carries_recordTree hlaw hnames)
    rw [deserializeRecord, recordText, hparse, Option.map_some, h.readRecord hlaw, hfill,
      readMetadata_of_isName env hnames]

end Records

section Examples
open Reference

/-- A record with one entry of metadata. -/
def taggedRecord (key value : Bytes) : MemoryRecord ℚ :=
  newRecord (MemoryEngine.new (ascii "node") options)
    ⟨ascii "w", [], [], ascii "upsert"⟩
    { recordInput (ascii "a") (ascii "hello") [] with
      tags := [ascii "t", []], metadata := (∅ : StringMap Bytes).insert key value }
    1000 (ascii "a") false

theorem survives_taggedRecord : Survives (platform ticking) (taggedRecord (ascii "k") []) :=
  (survives_iff (lawful_platform _)
    ⟨fun _ _ => trivial, by decide +kernel, by decide +kernel, by decide +kernel,
      by decide +kernel⟩).mpr (by decide +kernel)

/-- The key `a.b` comes back as `a`. -/
theorem not_survives_dotted : ¬ Survives (platform ticking) (taggedRecord (ascii "a.b") (ascii "v")) := by
  rintro ⟨text, hser, hde⟩
  have hround : (serializeRecord (platform ticking) (taggedRecord (ascii "a.b") (ascii "v"))).bind
      (deserializeRecord (platform ticking)) = some (taggedRecord (ascii "a.b") (ascii "v")) := by
    rw [hser, Option.bind_some]
    exact hde
  exact absurd hround (by decide +kernel)

end Examples

end PoorguyMem
