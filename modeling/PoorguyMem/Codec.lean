import PoorguyMem.Keys

/-!
# The record codec

`SerializeRecord` and `DeserializeRecord`. A record is put into a property tree
field by field and printed as JSON; metadata keys are paths, so a dot in one
nests it. Decoding falls back on a default for every field that is missing and
fails only where the text does not parse.
-/

namespace PoorguyMem

open ByteString PropertyTree

variable {K : Type}

/-- The laws of the JSON library and its translators. -/
structure Platform.Lawful (env : Platform K) : Prop where
  json : env.json.Lawful
  translators : env.translators.Lawful

def computeRecordSizeBytes (r : MemoryRecord K) : Nat := recordTextBytes r + 384

theorem computeRecordSizeBytes_pos (r : MemoryRecord K) : 0 < computeRecordSizeBytes r := by
  simp [computeRecordSizeBytes]

/-! ### Serialization -/

def showUint64 (n : UInt64) : Bytes := decimal n.toNat

/-- `metadata.put(kv.first, kv.second)` for every entry: the key is a path. -/
def metadataTree (metadata : StringMap Bytes) : Ptree :=
  flatTree metadata.toList

/-- The scalar fields, in the order in which they are put. -/
def recordFields (env : Platform K) (r : MemoryRecord K) : List (Bytes × Bytes) :=
  [(ascii "id", r.id), (ascii "workspace_id", r.workspaceId), (ascii "session_id", r.sessionId),
    (ascii "source", r.source), (ascii "content", r.content),
    (ascii "pinned", showBool r.pinned), (ascii "tombstone", showBool r.tombstone),
    (ascii "created_at_ms", showUint64 r.createdAtMs),
    (ascii "updated_at_ms", showUint64 r.updatedAtMs), (ascii "version", showUint64 r.version),
    (ascii "size_bytes", decimal r.sizeBytes),
    (ascii "last_access_ms", showUint64 r.lastAccessMs),
    (ascii "hit_count", showUint64 r.hitCount),
    (ascii "importance_score", env.translators.showDouble r.importanceScore),
    (ascii "tier", r.tier), (ascii "node_id", r.nodeId), (ascii "ttl_s", showUint64 r.ttlS),
    (ascii "dedup_key", r.dedupKey), (ascii "shard_id", r.shardId),
    (ascii "replica_role", r.replicaRole), (ascii "routing_epoch", showUint64 r.routingEpoch),
    (ascii "shard_hint", r.shardHint)]

def recordTree (env : Platform K) (r : MemoryRecord K) : Ptree :=
  ((flatTree (recordFields env r)).addChild (ascii "tags") (makeArray r.tags)).addChild
    (ascii "metadata") (metadataTree r.metadata)

/-- The text of a record, or `none` where `write_json` throws. -/
def serializeRecord (env : Platform K) (r : MemoryRecord K) : Option Bytes :=
  toJsonString env.json (recordTree env r)

/-- The text `SerializeRecord` gives where it does not throw. -/
def recordText (env : Platform K) (r : MemoryRecord K) : Bytes := env.json.print (recordTree env r)

theorem serializeRecord_eq_some {env : Platform K} {r : MemoryRecord K} {text : Bytes} :
    serializeRecord env r = some text ↔
      (recordTree env r).writable = true ∧ recordText env r = text :=
  toJsonString_eq_some

/-! ### Deserialization -/

def readMetadata (t : Ptree) : StringMap Bytes :=
  match t.getChild (ascii "metadata") with
  | some c => c.children.foldl (fun m kv => m.insert kv.1 kv.2.data) ∅
  | none => ∅

/-- The fields `DeserializeRecord` reads from a parsed tree. -/
def readRecord [One K] (tr : Translators K) (t : Ptree) : MemoryRecord K where
  id := t.getString (ascii "id") []
  workspaceId := t.getString (ascii "workspace_id") []
  sessionId := t.getString (ascii "session_id") []
  source := t.getString (ascii "source") []
  content := t.getString (ascii "content") []
  tags := readStringArray t (ascii "tags")
  metadata := readMetadata t
  dedupKey := t.getString (ascii "dedup_key") []
  pinned := getOr tr.readBool t (ascii "pinned") false
  tombstone := getOr tr.readBool t (ascii "tombstone") false
  createdAtMs := getOr tr.readUint64 t (ascii "created_at_ms") 0
  updatedAtMs := getOr tr.readUint64 t (ascii "updated_at_ms") 0
  version := getOr tr.readUint64 t (ascii "version") 0
  sizeBytes := (getOr tr.readUint64 t (ascii "size_bytes") 0).toNat
  lastAccessMs := getOr tr.readUint64 t (ascii "last_access_ms") 0
  hitCount := getOr tr.readUint64 t (ascii "hit_count") 0
  importanceScore := getOr tr.readDouble t (ascii "importance_score") 1
  tier := t.getString (ascii "tier") (ascii "hot")
  nodeId := t.getString (ascii "node_id") []
  ttlS := getOr tr.readUint64 t (ascii "ttl_s") 0
  shardId := t.getString (ascii "shard_id") []
  replicaRole := t.getString (ascii "replica_role") []
  routingEpoch := getOr tr.readUint64 t (ascii "routing_epoch") 0
  shardHint := t.getString (ascii "shard_hint") []

/-- `record.size_bytes = ComputeRecordSizeBytes(record)` where it was zero. -/
def fillSizeBytes (r : MemoryRecord K) : MemoryRecord K :=
  if r.sizeBytes = 0 then { r with sizeBytes := computeRecordSizeBytes r } else r

def deserializeRecord [One K] (env : Platform K) (text : Bytes) : Option (MemoryRecord K) :=
  (env.json.parse text).map fun t => fillSizeBytes (readRecord env.translators t)

/-! ### What survives the codec -/

/-- The subtrees of a record's tree. -/
def recordChildren (env : Platform K) (r : MemoryRecord K) : List (Bytes × Ptree) :=
  (recordFields env r).map (fun kv => (kv.1, .leaf kv.2)) ++
    [(ascii "tags", makeArray r.tags), (ascii "metadata", metadataTree r.metadata)]

def recordKeys : List Bytes :=
  ["id", "workspace_id", "session_id", "source", "content", "pinned", "tombstone",
    "created_at_ms", "updated_at_ms", "version", "size_bytes", "last_access_ms", "hit_count",
    "importance_score", "tier", "node_id", "ttl_s", "dedup_key", "shard_id", "replica_role",
    "routing_epoch", "shard_hint", "tags", "metadata"].map ascii

theorem recordKeys_nodup : recordKeys.Nodup := by decide

theorem recordKeys_isName : ∀ k ∈ recordKeys, Ptree.IsName k := by decide

theorem map_fst_recordChildren (env : Platform K) (r : MemoryRecord K) :
    (recordChildren env r).map Prod.fst = recordKeys := rfl

theorem recordTree_eq (env : Platform K) (r : MemoryRecord K) :
    recordTree env r = .node [] (recordChildren env r) := by
  have hkeys : (recordFields env r).map Prod.fst <+: recordKeys :=
    ⟨[ascii "tags", ascii "metadata"], rfl⟩
  have hput := Ptree.foldl_put (d := []) (recordFields env r) []
    (fun kv hkv => recordKeys_isName _ (hkeys.mem (List.mem_map_of_mem hkv)))
    (by simpa using hkeys.sublist.nodup recordKeys_nodup)
  rw [recordTree, flatTree, Ptree.empty, hput]
  simp [Ptree.addChild, recordChildren]

theorem getChild_recordTree (env : Platform K) (r : MemoryRecord K) {key : Bytes} {t : Ptree}
    (h : (key, t) ∈ recordChildren env r) : (recordTree env r).getChild key = some t := by
  have hkey : key ∈ recordKeys := by
    rw [← map_fst_recordChildren env r]
    exact List.mem_map_of_mem h
  rw [recordTree_eq]
  refine Ptree.getChild_of_mem (recordKeys_isName key hkey) ?_ h
  rw [map_fst_recordChildren]
  exact recordKeys_nodup

theorem getString_recordTree (env : Platform K) (r : MemoryRecord K) {key v fallback : Bytes}
    (h : (key, v) ∈ recordFields env r) : (recordTree env r).getString key fallback = v := by
  have hchild : (key, Ptree.leaf v) ∈ recordChildren env r :=
    List.mem_append_left _ (List.mem_map.mpr ⟨_, h, rfl⟩)
  rw [Ptree.getString, getChild_recordTree env r hchild]
  rfl

theorem getOr_recordTree (env : Platform K) (r : MemoryRecord K) {α : Type}
    {read : Bytes → Option α} {key v : Bytes} {a fallback : α}
    (h : (key, v) ∈ recordFields env r) (hread : read v = some a) :
    getOr read (recordTree env r) key fallback = a := by
  have hchild : (key, Ptree.leaf v) ∈ recordChildren env r :=
    List.mem_append_left _ (List.mem_map.mpr ⟨_, h, rfl⟩)
  simp [getOr, getChild_recordTree env r hchild, hread]

theorem readStringArray_tags (env : Platform K) (r : MemoryRecord K) :
    readStringArray (recordTree env r) (ascii "tags") = r.tags := by
  have hchild : (ascii "tags", makeArray r.tags) ∈ recordChildren env r := by
    simp [recordChildren]
  exact readStringArray_eq (getChild_recordTree env r hchild)

/-- What decoding the text of a record can change: metadata whose keys are not
names, and the two numbers whose numerals are not covered by the laws. -/
def Reread (r r' : MemoryRecord K) : Prop :=
  r' = { r with
    metadata := r'.metadata
    sizeBytes := r'.sizeBytes
    importanceScore := r'.importanceScore }

theorem readRecord_recordTree [One K] {env : Platform K} (hlaw : env.Lawful)
    (r : MemoryRecord K) : Reread r (readRecord env.translators (recordTree env r)) := by
  have str : ∀ {key v fallback : Bytes}, (key, v) ∈ recordFields env r →
      (recordTree env r).getString key fallback = v := getString_recordTree env r
  have num : ∀ {key : Bytes} {n fallback : UInt64}, (key, showUint64 n) ∈ recordFields env r →
      getOr env.translators.readUint64 (recordTree env r) key fallback = n :=
    fun h => getOr_recordTree env r h (hlaw.translators.read_uint64 _)
  have flag : ∀ {key : Bytes} {b fallback : Bool}, (key, showBool b) ∈ recordFields env r →
      getOr env.translators.readBool (recordTree env r) key fallback = b :=
    fun h => getOr_recordTree env r h (hlaw.translators.read_bool _)
  simp only [Reread, readRecord, MemoryRecord.mk.injEq, true_and]
  exact ⟨str (by simp [recordFields]), str (by simp [recordFields]),
    str (by simp [recordFields]), str (by simp [recordFields]), str (by simp [recordFields]),
    readStringArray_tags env r, str (by simp [recordFields]), flag (by simp [recordFields]),
    flag (by simp [recordFields]), num (by simp [recordFields]), num (by simp [recordFields]),
    num (by simp [recordFields]), num (by simp [recordFields]), num (by simp [recordFields]),
    str (by simp [recordFields]), str (by simp [recordFields]), num (by simp [recordFields]),
    str (by simp [recordFields]), str (by simp [recordFields]), num (by simp [recordFields]),
    str (by simp [recordFields])⟩

theorem Reread.names {r r' : MemoryRecord K} (h : Reread r r') :
    r'.workspaceId = r.workspaceId ∧ r'.id = r.id := by
  rw [h]
  exact ⟨rfl, rfl⟩

theorem Reread.fillSizeBytes {r r' : MemoryRecord K} (h : Reread r r') :
    Reread r (fillSizeBytes r') := by
  rw [PoorguyMem.fillSizeBytes]
  split
  · rw [Reread] at h ⊢
    rw [h]
  · exact h

/-- Whatever decodes the text of a record is that record reread, and its strings
survive the JSON text. -/
theorem deserialize_serialize [One K] {env : Platform K} (hlaw : env.Lawful)
    {r r' : MemoryRecord K} (hw : (recordTree env r).writable = true)
    (hd : deserializeRecord env (recordText env r) = some r') :
    Reread r r' ∧ ∀ x ∈ (recordTree env r).strings, env.json.carries x := by
  obtain ⟨t, hparse, rfl⟩ := Option.map_eq_some_iff.mp hd
  obtain ⟨rfl, hcarries⟩ := hlaw.json.parse_only _ _ hw hparse
  exact ⟨(readRecord_recordTree hlaw r).fillSizeBytes, hcarries⟩

theorem carries_field {env : Platform K} {r : MemoryRecord K}
    (h : ∀ x ∈ (recordTree env r).strings, env.json.carries x) {key v : Bytes}
    (hmem : (key, v) ∈ recordFields env r) : env.json.carries v := by
  have hchild : (key, Ptree.leaf v) ∈ recordChildren env r :=
    List.mem_append_left _ (List.mem_map.mpr ⟨_, hmem, rfl⟩)
  apply h
  rw [recordTree_eq, Ptree.strings]
  have hleaf : v ∈ (Ptree.leaf v).strings := by simp [Ptree.leaf, Ptree.strings]
  exact List.mem_cons_of_mem _ (Ptree.mem_stringsAll hchild (Or.inr hleaf))

end PoorguyMem
