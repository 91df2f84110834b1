import PoorguyMem.Gateway
import PoorguyMem.Reference

/-!
# Results and their schemas

When the result of a call is of the types its published schema declares. The
handlers, the schemas and the normaliser name the same members; what can still
fail is a number the normaliser does not read back and metadata that is not
written as an object.
-/

namespace PoorguyMem

open ByteString PropertyTree JsonValue

variable {K : Type}

/-! ### Literals -/

theorem cString_of_notMem {s : Bytes} (h : 0 ∉ s) : cString s = s := by
  rw [cString, List.takeWhile_eq_self_iff]
  intro c hc
  have hne : c ≠ 0 := fun heq => h (heq ▸ hc)
  simpa using hne

theorem ne_of_isDigits {s : Bytes} (h : IsDigits s) {c : UInt8} (hc : c ∈ s) {b : UInt8}
    (hb : b.toNat < 48) : c ≠ b := by
  rintro rfl
  have := (h c hc).1
  omega

theorem parseInt64Literal_decimal (n : Nat) :
    parseInt64Literal (decimal n) = if n < 2 ^ 63 then some (n : Int) else none := by
  have hdigits := isDigits_decimal n
  obtain ⟨c, rest, hcons⟩ := List.exists_cons_of_ne_nil (Reference.decimal_ne_nil n)
  have hc : c ∈ decimal n := by simp [hcons]
  -- a numeral starts with neither a blank nor a sign
  have hspace : isSpace c = false := by
    have := hdigits c hc
    simp only [isSpace, Bool.or_eq_false_iff, decide_eq_false_iff_not, Bool.and_eq_false_iff]
    refine ⟨ne_of_isDigits hdigits hc (by decide), Or.inr ?_⟩
    simp only [UInt8.le_iff_toNat_le]
    simp
    omega
  have hsign : readSign (decimal n) = (false, decimal n) := by
    have hminus := ne_of_isDigits hdigits hc (b := 45) (by decide)
    have hplus := ne_of_isDigits hdigits hc (b := 43) (by decide)
    rw [hcons]
    unfold readSign
    split
    · rename_i heq
      exact absurd (List.cons.inj heq).1 hminus
    · rename_i heq
      exact absurd (List.cons.inj heq).1 hplus
    · rfl
  have hdrop : (decimal n).dropWhile isSpace = decimal n := by
    rw [hcons, List.dropWhile_cons_of_neg (by simp [hspace])]
  have hall : (decimal n).all isDigit = true := by
    rw [List.all_eq_true]
    intro d hd
    have := hdigits d hd
    simp [isDigit, this]
  have hread : parseInt64Literal (decimal n) =
      if decimal n = [] ∨ !(decimal n).all isDigit then none
      else if -2 ^ 63 ≤ (digitsValue (decimal n) : Int) ∧ (digitsValue (decimal n) : Int) < 2 ^ 63
      then some (digitsValue (decimal n) : Int) else none := by
    rw [parseInt64Literal, hdrop, hsign]
    rfl
  rw [hread, digitsValue_decimal, if_neg (by simp [Reference.decimal_ne_nil, hall])]
  by_cases h : n < 2 ^ 63
  · rw [if_pos h, if_pos (by omega)]
  · rw [if_neg h, if_neg (by omega)]

theorem parseBoolLiteral_showBool (b : Bool) : parseBoolLiteral (showBool b) = some b := by
  cases b <;> rfl

/-! ### Scalars -/

section Scalars
variable (srv : Server K)

def Scalar.type : Scalar K → ScalarType
  | .flag _ => .boolean
  | .count _ => .integer
  | .real _ => .number
  | .text _ => .string

/-- A scalar whose text the normaliser reads as a value of its type: counts as
`int64_t` and floating point numbers as `strtod` does. -/
def Scalar.Expressible : Scalar K → Prop
  | .count n => n < 2 ^ 63
  | .real x => (srv.strtod (cString (srv.env.translators.showDouble x))).isSome
  | _ => True

/-- The conversion for members of a type. -/
def convertTo : ScalarType → Value K → Value K
  | .boolean => convertValueToBoolIfString
  | .integer => convertValueToIntIfString
  | .number => convertValueToDoubleIfString srv
  | .string => id

theorem admits_converted (s : Scalar K) :
    s.type.admits (convertTo srv s.type (.string (s.show srv.env.translators))) = true ↔
      s.Expressible srv := by
  cases s with
  | flag b =>
    have hchars : cString (showBool b) = showBool b := by cases b <;> rfl
    rw [Scalar.type, convertTo, Scalar.show, convertValueToBoolIfString, hchars,
      parseBoolLiteral_showBool]
    exact iff_of_true rfl trivial
  | count n =>
    have hchars : cString (decimal n) = decimal n :=
      cString_of_notMem fun h => ne_of_isDigits (isDigits_decimal n) h (b := 0) (by decide) rfl
    rw [Scalar.type, convertTo, Scalar.show, convertValueToIntIfString, hchars,
      parseInt64Literal_decimal, Scalar.Expressible]
    split
    · rename_i h
      exact iff_of_true rfl h
    · rename_i h
      exact iff_of_false (by simp [ScalarType.admits]) h
  | real x =>
    rw [Scalar.type, convertTo, Scalar.show, convertValueToDoubleIfString, Scalar.Expressible]
    cases srv.strtod (cString (srv.env.translators.showDouble x)) with
    | none => simp [ScalarType.admits]
    | some y => simp [ScalarType.admits]
  | text s => exact iff_of_true rfl trivial

/-- Scalars whose members have the schema and the conversion of their type. -/
theorem forall_scalarFields {properties : List (Bytes × Schema)}
    {fs : List (Bytes × (Value K → Value K))} {scalars : List (Bytes × Scalar K)}
    (h : ∀ ks ∈ scalars, ∀ v, admitsMember properties ks.1 (editsAt fs ks.1 v) =
      ks.2.type.admits (convertTo srv ks.2.type v)) :
    (∀ kf ∈ scalarFields srv.env.translators scalars,
      admitsMember properties kf.1 (editsAt fs kf.1 (ofTree kf.2.child)) = true) ↔
      ∀ ks ∈ scalars, ks.2.Expressible srv := by
  rw [scalarFields, List.forall_mem_map]
  refine forall₂_congr fun ks hks => ?_
  rw [h ks hks]
  exact admits_converted srv ks.2

end Scalars

theorem admits_edit_build {description : Bytes} {properties : List (Bytes × Schema)}
    {required : List Bytes} {fields : List (Bytes × Field)}
    (hnames : FieldNames (fields.map Prod.fst))
    (hrequired : ∀ key ∈ required, key ∈ fields.map Prod.fst)
    (fs : List (Bytes × (Value K → Value K))) :
    (Schema.record description properties required).admits ((ofRoot (build fields)).edit fs) =
        true ↔
      ∀ kf ∈ fields, admitsMember properties kf.1 (editsAt fs kf.1 (ofTree kf.2.child)) = true := by
  have hkeys : ∀ g : Bytes × Field → Value K,
      (fields.map fun kf => (kf.1, g kf)).map Prod.fst = fields.map Prod.fst := by
    intro g
    rw [List.map_map]
    rfl
  have hedit : (ofRoot (build fields)).edit fs =
      .object (fields.map fun kf => (kf.1, editsAt fs kf.1 (ofTree kf.2.child))) := by
    rw [ofRoot_build hnames, edit_object (by rw [hkeys]; exact hnames.nodup), List.map_map]
    rfl
  rw [hedit, admits_record (by rw [hkeys]; exact hrequired), List.forall_mem_map]

/-! ### Arrays and objects -/

theorem ensureArray_makeArray (values : List Bytes) :
    ensureArray (ofTree (makeArray values) : Value K) = .array (values.map .string) := by
  rw [ofTree_makeArray]
  split
  · rename_i h
    rw [h]
    rfl
  · rfl

theorem admits_stringArray (description : String) (values : List Bytes) :
    (stringArraySchema description).admits
      (ensureArray (ofTree (makeArray values) : Value K)) = true := by
  rw [ensureArray_makeArray, stringArraySchema, arraySchema, admits_arrayOf, List.forall_mem_map]
  exact fun _ _ => rfl

/-- Metadata that is written as an object: a key has a first fragment, or there is
nothing in it but an empty text under the empty key. -/
def ObjectLike (metadata : StringMap Bytes) : Prop :=
  (∃ key ∈ metadata.keys, key ≠ [] ∧ key.head? ≠ some 46) ∨
    ∀ kv ∈ metadata.toList, kv.1 = [] ∧ kv.2 = []

theorem takeWhile_eq_nil_iff {key : Bytes} (h : key ≠ []) :
    key.takeWhile (· ≠ 46) = [] ↔ key.head? = some 46 := by
  obtain ⟨c, rest, rfl⟩ := List.exists_cons_of_ne_nil h
  by_cases hc : c = 46
  · simp [hc]
  · simp [hc]

theorem admits_metadata_iff (metadata : StringMap Bytes) :
    (Schema.anyObject []).admits (ensureObject (ofTree (metadataTree metadata) : Value K)) =
      true ↔ ObjectLike metadata := by
  rcases htree : metadataTree metadata with ⟨d, cs⟩
  have hnames : ∀ name, name ∈ cs.map Prod.fst ↔
      ∃ key ∈ metadata.keys, (Ptree.fragments key).head? = some name := by
    intro name
    have hiff := @mem_names_flatTree_iff metadata.toList name
    rw [← metadataTree, htree, Ptree.children_node] at hiff
    rw [hiff, ← Std.ExtTreeMap.map_fst_toList_eq_keys]
    constructor
    · rintro ⟨kv, hkv, hhead⟩
      exact ⟨kv.1, List.mem_map_of_mem hkv, hhead⟩
    · rintro ⟨key, hkey, hhead⟩
      obtain ⟨kv, hkv, rfl⟩ := List.mem_map.mp hkey
      exact ⟨kv, hkv, hhead⟩
  rw [ofTree, ObjectLike]
  by_cases hfirst : ∃ key ∈ metadata.keys, key ≠ [] ∧ key.head? ≠ some 46
  · -- a subtree has a name
    obtain ⟨key, hkey, hne, hhead⟩ := hfirst
    have hname : key.takeWhile (· ≠ 46) ∈ cs.map Prod.fst :=
      (hnames _).mpr ⟨key, hkey, head_fragments hne⟩
    obtain ⟨c, hc, hcname⟩ := List.mem_map.mp hname
    have hfrag : c.1 ≠ [] := fun h => hhead ((takeWhile_eq_nil_iff hne).mp (hcname ▸ h))
    rw [if_neg, if_neg]
    · exact iff_of_true rfl (Or.inl ⟨key, hkey, hne, hhead⟩)
    · intro hall
      exact hfrag (List.isEmpty_iff.mp (List.all_eq_true.mp hall c hc))
    · intro hempty
      rw [List.isEmpty_iff.mp hempty] at hc
      cases hc
  · rw [or_iff_right hfirst]
    have hdot : ∀ key ∈ metadata.keys, key ≠ [] → key.head? = some 46 :=
      fun key hkey hne => by_contra fun hhead => hfirst ⟨key, hkey, hne, hhead⟩
    by_cases hsome : ∃ key ∈ metadata.keys, key ≠ []
    · -- every subtree is nameless, and there is one
      obtain ⟨key, hkey, hne⟩ := hsome
      have hmem : [] ∈ cs.map Prod.fst := by
        refine (hnames _).mpr ⟨key, hkey, ?_⟩
        rw [head_fragments hne, (takeWhile_eq_nil_iff hne).mpr (hdot key hkey hne)]
      have hcs : cs.isEmpty = false := by
        cases cs with
        | nil => cases hmem
        | cons c rest => rfl
      have hall : (cs.all fun c => c.1.isEmpty) = true := by
        rw [List.all_eq_true]
        intro c hc
        obtain ⟨k, hk, hhead⟩ := (hnames c.1).mp (List.mem_map_of_mem hc)
        have hkne : k ≠ [] := by
          rintro rfl
          cases hhead
        rw [head_fragments hkne, (takeWhile_eq_nil_iff hkne).mpr (hdot k hk hkne)] at hhead
        rw [← Option.some.inj hhead]
        rfl
      rw [hcs, hall]
      refine iff_of_false (by simp [ensureObject, Schema.admits]) fun h => hne ?_
      rw [← Std.ExtTreeMap.map_fst_toList_eq_keys] at hkey
      obtain ⟨kv, hkv, rfl⟩ := List.mem_map.mp hkey
      exact (h kv hkv).1
    · -- the empty key is the only one
      have hkeys : ∀ kv ∈ metadata.toList, kv.1 = [] := by
        intro kv hkv
        refine by_contra fun hne => hsome ⟨kv.1, ?_, hne⟩
        rw [← Std.ExtTreeMap.map_fst_toList_eq_keys]
        exact List.mem_map_of_mem hkv
      have hdistinct : (metadata.toList.map Prod.fst).Nodup := by
        rw [Std.ExtTreeMap.map_fst_toList_eq_keys]
        exact MapTotal.nodup_keys metadata
      rw [metadataTree] at htree
      rcases hlist : metadata.toList with _ | ⟨kv, _ | ⟨kv', rest⟩⟩
      · rw [hlist] at htree
        cases htree
        simp [ensureObject, Schema.admits]
      · obtain ⟨k, v⟩ := kv
        obtain rfl : k = [] := hkeys (k, v) (by simp [hlist])
        rw [hlist] at htree
        cases htree
        cases v <;> simp [ensureObject, Schema.admits]
      · rw [hlist] at hdistinct hkeys
        have hsame : kv.1 = kv'.1 := by rw [hkeys kv (by simp), hkeys kv' (by simp)]
        simp [hsame] at hdistinct

/-! ### The results of the methods -/

section Results
variable (srv : Server K)

theorem admits_write (out : WriteOutput) :
    writeOutputSchema.admits (normalizeWriteResult
      (ofRoot (build (writeFields srv.env.translators out)) : Value K)) = true ↔
      out.indexGeneration < 2 ^ 63 := by
  rw [writeOutputSchema, objectSchema, normalizeWriteResult,
    admits_edit_build (fieldNames_write _ out) (by simp [writeFields, scalarFields, arrayField]),
    writeFields]
  simp only [List.forall_mem_append]
  rw [forall_scalarFields srv (List.forall_mem_singleton.mpr fun _ => rfl),
    forall_scalarFields srv (List.forall_mem_singleton.mpr fun _ => rfl)]
  have hids : ∀ description values, (stringArraySchema description).admits
    (ensureArray (ofTree (makeArray values) : Value K)) = true := admits_stringArray
  constructor
  · intro h
    exact h.1.2 _ (List.mem_singleton_self _)
  · intro h
    refine ⟨⟨⟨?_, ?_⟩, ?_⟩, ?_⟩
    · exact List.forall_mem_singleton.mpr trivial
    · exact List.forall_mem_cons.mpr ⟨hids _ _, List.forall_mem_singleton.mpr (hids _ _)⟩
    · exact List.forall_mem_singleton.mpr h
    · exact List.forall_mem_singleton.mpr (hids _ _)

theorem admits_pin (out : Except Bytes Unit) :
    pinOutputSchema.admits ((ofRoot (build (scalarFields srv.env.translators (pinScalars out))) :
      Value K).edit [(ascii "ok", convertValueToBoolIfString)]) = true := by
  have hok : ascii "ok" ∈ (scalarFields srv.env.translators (pinScalars out)).map Prod.fst := by
    cases out <;> simp [pinScalars, scalarFields]
  rw [pinOutputSchema, objectSchema, admits_edit_build (fieldNames_pin _ out) (by simpa using hok)]
  rw [forall_scalarFields srv]
  · cases out <;> simp [pinScalars, Scalar.Expressible]
  · cases out with
    | ok =>
      simp only [pinScalars, List.forall_mem_singleton]
      exact fun _ => rfl
    | error =>
      simp only [pinScalars, List.forall_mem_cons, List.not_mem_nil, IsEmpty.forall_iff,
        implies_true, and_true]
      exact ⟨fun _ => rfl, fun _ => rfl⟩

theorem admits_compact (out : CompactOutput) :
    compactOutputSchema.admits (normalizeCompactResult
      (ofRoot (build (scalarFields srv.env.translators (compactScalars out))) : Value K)) = true ↔
      ∀ ks ∈ (compactScalars out : List (Bytes × Scalar K)), ks.2.Expressible srv := by
  rw [compactOutputSchema, objectSchema, normalizeCompactResult,
    admits_edit_build (fieldNames_compact _ out) (by simp [compactScalars, scalarFields])]
  apply forall_scalarFields srv
  simp only [compactScalars, List.forall_mem_cons, List.not_mem_nil,
    IsEmpty.forall_iff, implies_true, and_true]
  and_intros <;> intro v <;> rfl

theorem admits_index (out : IndexStats K) :
    indexSchema.admits (normalizeIndexStats srv
      (ofRoot (build (scalarFields srv.env.translators (indexScalars out))))) = true ↔
      ∀ ks ∈ indexScalars out, ks.2.Expressible srv := by
  rw [indexSchema, objectSchema, normalizeIndexStats,
    admits_edit_build (fieldNames_index _ out) (by simp [indexScalars, scalarFields])]
  apply forall_scalarFields srv
  simp only [indexScalars, List.forall_mem_cons, List.not_mem_nil,
    IsEmpty.forall_iff, implies_true, and_true]
  and_intros <;> intro v <;> rfl

theorem admits_stats (out : StatsSnapshot K) :
    statsOutputSchema.admits (normalizeStatsResult srv
      (ofRoot (build (statsFields srv.env.translators out)))) = true ↔
      ∀ ks ∈ statsScalars out ++ indexScalars out.indexStats, ks.2.Expressible srv := by
  have hindex := admits_index srv out.indexStats
  rw [statsOutputSchema, objectSchema, normalizeStatsResult,
    admits_edit_build (fieldNames_stats _ out) (by simp [statsFields, statsScalars, scalarFields]),
    statsFields, List.forall_mem_append, List.forall_mem_append, List.forall_mem_singleton]
  refine and_congr ?_ ?_
  · apply forall_scalarFields srv
    simp only [statsScalars, List.forall_mem_cons, List.not_mem_nil,
    IsEmpty.forall_iff, implies_true, and_true]
    and_intros <;> intro v <;> rfl
  · rw [← hindex, Field.child, ofTree_build (fieldNames_index _ _) (by simp [indexScalars, scalarFields])]
    rfl

theorem admits_scores (scores : ScoreBreakdown K) :
    scoreSchema.admits (normalizeScores srv
      (ofRoot (build (scalarFields srv.env.translators (scoreScalars scores))))) = true ↔
      ∀ ks ∈ scoreScalars scores, ks.2.Expressible srv := by
  rw [scoreSchema, objectSchema, normalizeScores,
    admits_edit_build (fieldNames_scores _ scores) (by simp [scoreScalars, scalarFields])]
  apply forall_scalarFields srv
  simp only [scoreScalars, List.forall_mem_cons, List.not_mem_nil, IsEmpty.forall_iff,
    implies_true, and_true]
  and_intros <;> intro v <;> rfl

theorem admits_latency (latencies : Latencies K) :
    debugLatencySchema.admits (normalizeLatency srv
      (ofRoot (build (scalarFields srv.env.translators (latencyScalars latencies))))) = true ↔
      ∀ ks ∈ latencyScalars latencies, ks.2.Expressible srv := by
  rw [debugLatencySchema, objectSchema, normalizeLatency,
    admits_edit_build (fieldNames_latency _ latencies) (by simp [latencyScalars, scalarFields])]
  apply forall_scalarFields srv
  simp only [latencyScalars, List.forall_mem_cons, List.not_mem_nil, IsEmpty.forall_iff,
    implies_true, and_true]
  and_intros <;> intro v <;> rfl

theorem admits_debug (latencies : Latencies K) (debugStats : QueryDebugStats) :
    debugSchema.admits (normalizeDebug srv
      (ofRoot (build (debugFields srv.env.translators latencies debugStats)))) = true ↔
      ∀ ks ∈ debugScalars debugStats ++ latencyScalars latencies, ks.2.Expressible srv := by
  have hlatency := admits_latency srv latencies
  rw [debugSchema, objectSchema, normalizeDebug,
    admits_edit_build (fieldNames_debug _ latencies debugStats)
      (by simp [debugFields, debugScalars, scalarFields]),
    debugFields, List.forall_mem_append, List.forall_mem_append, List.forall_mem_singleton]
  apply and_congr
  · apply forall_scalarFields srv
    simp only [debugScalars, List.forall_mem_cons, List.not_mem_nil, IsEmpty.forall_iff,
      implies_true, and_true]
    and_intros <;> intro v <;> rfl
  · rw [← hlatency, Field.child,
      ofTree_build (fieldNames_latency _ _) (by simp [latencyScalars, scalarFields])]
    rfl

/-- The scalars of a hit outside its scores. -/
def hitScalars (hit : QueryHit K) : List (Bytes × Scalar K) :=
  [(ascii "memory_id", .text hit.memoryId), (ascii "source", .text hit.source),
    (ascii "content", .text hit.content), (ascii "updated_at_ms", .count hit.updatedAtMs.toNat),
    (ascii "pinned", .flag hit.pinned)]

theorem admits_hit (hit : QueryHit K) :
    hitSchema.admits (normalizeHit srv (ofRoot (build (hitFields srv.env.translators hit)))) =
      true ↔ ObjectLike hit.metadata ∧
        ∀ ks ∈ hitScalars hit ++ scoreScalars hit.scores, ks.2.Expressible srv := by
  have hscores := admits_scores srv hit.scores
  have hmetadata := admits_metadata_iff (K := K) hit.metadata
  have htags := admits_stringArray (K := K) "" hit.tags
  rw [hitSchema, objectSchema, normalizeHit,
    admits_edit_build (fieldNames_hit _ hit) (by simp [hitFields, scalarFields, arrayField]),
    hitFields]
  simp only [List.forall_mem_append]
  rw [forall_scalarFields srv, forall_scalarFields srv]
  rotate_left
  · simp only [List.forall_mem_cons, List.not_mem_nil, IsEmpty.forall_iff, implies_true, and_true]
    and_intros <;> intro v <;> rfl
  · simp only [List.forall_mem_cons, List.not_mem_nil, IsEmpty.forall_iff, implies_true, and_true]
    and_intros <;> intro v <;> rfl
  have hnested : (∀ kf ∈ [arrayField (ascii "tags") hit.tags,
        (ascii "metadata", Field.tree (metadataTree hit.metadata)),
        (ascii "scores", Field.tree (build (scalarFields srv.env.translators
          (scoreScalars hit.scores))))],
      admitsMember ([("memory_id", jsonSchema .string ""), ("source", jsonSchema .string ""),
          ("content", jsonSchema .string ""), ("tags", stringArraySchema ""),
          ("metadata", .anyObject []), ("scores", scoreSchema),
          ("updated_at_ms", jsonSchema .integer ""), ("pinned", jsonSchema .boolean "")].map
            fun p => (ascii p.1, p.2)) kf.1
        (editsAt [(ascii "tags", ensureArray), (ascii "metadata", ensureObject),
          (ascii "updated_at_ms", convertValueToIntIfString),
          (ascii "pinned", convertValueToBoolIfString), (ascii "scores", normalizeScores srv)]
          kf.1 (ofTree kf.2.child)) = true) ↔
      ObjectLike hit.metadata ∧ ∀ ks ∈ scoreScalars hit.scores, ks.2.Expressible srv := by
    rw [← hmetadata, ← hscores, ← ofTree_build (fieldNames_scores _ _)
      (by simp [scoreScalars, scalarFields])]
    simp only [List.forall_mem_cons, List.not_mem_nil, IsEmpty.forall_iff, implies_true, and_true]
    exact and_iff_right htags
  rw [hnested]
  have hscalars : (∀ ks ∈ hitScalars hit, ks.2.Expressible srv) ↔
      (∀ ks ∈ [(ascii "memory_id", Scalar.text hit.memoryId),
          (ascii "source", Scalar.text hit.source), (ascii "content", Scalar.text hit.content)],
        ks.2.Expressible srv) ∧
      ∀ ks ∈ [(ascii "updated_at_ms", Scalar.count hit.updatedAtMs.toNat),
          (ascii "pinned", Scalar.flag hit.pinned)], ks.2.Expressible srv := by
    rw [← List.forall_mem_append]
    rfl
  rw [hscalars]
  constructor
  · rintro ⟨⟨htext, hmeta, hscore⟩, hcount⟩
    exact ⟨hmeta, ⟨htext, hcount⟩, hscore⟩
  · rintro ⟨hmeta, ⟨htext, hcount⟩, hscore⟩
    exact ⟨⟨htext, hmeta, hscore⟩, hcount⟩

theorem admits_query (latencies : Latencies K) (out : QueryOutput K) :
    queryOutputSchema.admits (normalizeQueryResult srv
      (ofRoot (build (queryFields srv.env.translators latencies out)))) = true ↔
      (∀ hit ∈ out.hits, ObjectLike hit.metadata ∧
        ∀ ks ∈ hitScalars hit ++ scoreScalars hit.scores, ks.2.Expressible srv) ∧
      ∀ ks ∈ debugScalars out.debugStats ++ latencyScalars latencies, ks.2.Expressible srv := by
  have hdebug := admits_debug srv latencies out.debugStats
  have hhits : (arraySchema "Ranked hits." hitSchema).admits
      (Value.mapItems (normalizeHit srv) (ensureArray (ofTree (listTree
        (out.hits.map fun hit => build (hitFields srv.env.translators hit)))))) = true ↔
      ∀ hit ∈ out.hits, hitSchema.admits
        (normalizeHit srv (ofRoot (build (hitFields srv.env.translators hit)))) = true := by
    have hvalue : ensureArray (ofTree (listTree
        (out.hits.map fun hit => build (hitFields srv.env.translators hit)))) =
        .array (out.hits.map fun hit =>
          (ofRoot (build (hitFields srv.env.translators hit)) : Value K)) := by
      rw [listTree, ofTree]
      by_cases hnil : out.hits = []
      · rw [hnil]
        rfl
      · have hroot : ∀ hit : QueryHit K, (ofTree (build (hitFields srv.env.translators hit)) :
            Value K) = ofRoot (build (hitFields srv.env.translators hit)) :=
          fun hit => ofTree_build (fieldNames_hit _ hit) (by simp [hitFields, scalarFields])
        rw [if_neg (by simpa using hnil), if_pos (by simp), elements_eq, List.map_map, List.map_map]
        exact congrArg Value.array (List.map_congr_left fun hit _ => hroot hit)
    rw [hvalue, Value.mapItems, arraySchema, admits_arrayOf, List.forall_mem_map,
      List.forall_mem_map]
  rw [queryOutputSchema, objectSchema, normalizeQueryResult,
    admits_edit_build (fieldNames_query _ latencies out) (by simp [queryFields]), queryFields,
    List.forall_mem_cons, List.forall_mem_singleton, ← hdebug, ← ofTree_build
      (fieldNames_debug _ _ _) (by simp [debugFields, debugScalars, scalarFields])]
  refine and_congr ?_ Iff.rfl
  exact hhits.trans (forall₂_congr fun hit _ => admits_hit srv hit)

end Results

end PoorguyMem
