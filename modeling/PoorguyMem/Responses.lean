import PoorguyMem.Conformance

/-!
# Responses and their schemas

The results of both paths by which a method is called, compared with the schema
`Describe` publishes for the method.
-/

namespace PoorguyMem

open ByteString PropertyTree JsonValue

variable {K : Type}

/-- The schema that is published for the results of a method. -/
def publishedSchema [Field K] (tr : Translators K) (m : Method) : Option Schema :=
  ((methodSpecs tr).find? fun spec => spec.1 = m.name).map fun spec => spec.2.outputSchema

section Responses
variable [Field K] (srv : Server K) (occ : Occasion K)

/-- What an engine answers can be told in the types of its schema: the counts are
below `2 ^ 63`, `strtod` takes the floating point numbers as they are printed, and
the metadata of every hit is written as an object. -/
def Answer.Expressible : Answer K → Prop
  | .write out => out.indexGeneration < 2 ^ 63
  | .query out =>
    (∀ hit ∈ out.hits, ObjectLike hit.metadata ∧
      ∀ ks ∈ hitScalars hit ++ scoreScalars hit.scores, ks.2.Expressible srv) ∧
    ∀ ks ∈ debugScalars out.debugStats ++ latencyScalars occ.latencies, ks.2.Expressible srv
  | .stats out => ∀ ks ∈ statsScalars out ++ indexScalars out.indexStats, ks.2.Expressible srv
  | .compact out => ∀ ks ∈ (compactScalars out : List (Bytes × Scalar K)), ks.2.Expressible srv
  | _ => True

/-- A result is an object wherever it stands. -/
theorem ofTree_resultTree (out : Answer K) :
    (ofTree (resultTree srv occ out) : Value K) = ofRoot (resultTree srv occ out) := by
  cases out with
  | write out =>
    exact ofTree_build (fieldNames_write _ out) (by simp [writeFields, scalarFields])
  | query out => exact ofTree_build (fieldNames_query _ _ out) (by simp [queryFields])
  | pin out =>
    exact ofTree_build (fieldNames_pin _ out) (by cases out <;> simp [pinScalars, scalarFields])
  | stats out =>
    exact ofTree_build (fieldNames_stats _ out) (by simp [statsFields, statsScalars, scalarFields])
  | compact out =>
    exact ofTree_build (fieldNames_compact _ out) (by simp [compactScalars, scalarFields])
  | storeCompact out =>
    exact ofTree_build (fieldNames_storeCompact _ out)
      (by simp [scalarFields, storeCompactScalars])
  | describe includeExamples nowMs =>
    exact ofTree_build (fieldNames_describe _ includeExamples nowMs) (by simp [describeFields])

variable {srv occ} [LinearOrder K] {w w' : World K}

/-- The result of a direct call is the normalised result of its handler. -/
theorem callDirect_result {request t : Ptree} {doc v : Value K}
    (hparams : request.getChild (ascii "params") = some t)
    (h : callDirect srv occ w request = (w', some doc))
    (hv : doc.member (ascii "result") = some v) :
    ∃ m out, Method.find (request.getString (ascii "method") []) = some m ∧
      answer srv occ w t m = (w', some out) ∧
      v = normalizeResultByMethod srv (request.getString (ascii "method") [])
        (ofRoot (resultTree srv occ out)) := by
  have hedits : ∀ (id body : Ptree) (key method : Bytes), key ≠ ascii "id" →
      Ptree.IsName key → ∀ v : Value K,
      (normalizeMcpResponse srv method (ofRoot (build
        [(ascii "id", .tree id), (key, .tree body)]))).member (ascii "result") = some v →
      key = ascii "result" ∧ v = normalizeResultByMethod srv method (ofTree body) := by
    intro id body key method hne hname v hmember
    have hnames : FieldNames [ascii "id", key] := by
      refine ⟨?_, by simpa using hne.symm⟩
      simp only [List.forall_mem_cons, List.not_mem_nil, IsEmpty.forall_iff, implies_true, and_true]
      exact ⟨by decide, hname⟩
    have hroot : (ofRoot (build [(ascii "id", .tree id), (key, .tree body)]) : Value K) =
        .object [(ascii "id", ofTree id), (key, ofTree body)] := ofRoot_build hnames
    rw [normalizeMcpResponse, hroot, member_edit (by simpa using hne.symm)] at hmember
    obtain ⟨u, hu, rfl⟩ := Option.map_eq_some_iff.mp hmember
    have hid : ascii "id" ≠ ascii "result" := by decide
    simp only [Value.member, lookup, if_neg hid] at hu
    split at hu
    · rename_i hkey
      obtain rfl := Option.some.inj hu
      exact ⟨hkey, rfl⟩
    · cases hu
  rw [callDirect, handle, hparams] at h
  cases hfind : Method.find (request.getString (ascii "method") []) with
  | none =>
    rw [hfind] at h
    obtain ⟨-, hdoc⟩ := Prod.mk.inj h
    obtain ⟨d, hd, rfl⟩ := Option.map_eq_some_iff.mp hdoc
    unfold toJson at hd
    split at hd
    · obtain rfl := Option.some.inj hd
      exact absurd (hedits _ _ _ _ (by decide) (by decide) v hv).1 (by decide)
    · cases hd
  | some m =>
    rw [hfind] at h
    simp only [Option.getD_some] at h
    rcases hanswer : answer srv occ w t m with ⟨w₁, _ | out⟩
    · rw [hanswer] at h
      cases h
    · rw [hanswer] at h
      obtain ⟨rfl, hdoc⟩ := Prod.mk.inj h
      obtain ⟨d, hd, rfl⟩ := Option.map_eq_some_iff.mp hdoc
      unfold toJson at hd
      split at hd
      · obtain rfl := Option.some.inj hd
        refine ⟨m, out, rfl, hanswer, ?_⟩
        dsimp only at hv
        rcases respond_cases out with ⟨_, -, -, hrespond⟩ | hrespond
        · rw [hrespond] at hv
          exact absurd (hedits _ _ _ _ (by decide) (by decide) v hv).1 (by decide)
        · rw [hrespond] at hv
          rw [(hedits _ _ (ascii "result") _ (by decide) (by decide) v hv).2,
            ofTree_resultTree]
      · cases hd

/-- A result conforms to its schema exactly where the engine's answer is expressible. -/
theorem admits_resultTree_iff {m : Method} (hm : m ≠ .describe) {schema : Schema}
    (hschema : publishedSchema srv.env.translators m = some schema) {t : Ptree} {out : Answer K}
    (hanswer : (answer srv occ w t m).2 = some out) :
    schema.admits (normalizeResultByMethod srv m.name (ofRoot (resultTree srv occ out))) = true ↔
      out.Expressible srv occ := by
  have hroot : normalizeResultByMethod srv m.name (ofRoot (resultTree srv occ out)) =
      normalizeByMethod srv m (ofRoot (resultTree srv occ out)) := by
    rw [ofRoot, normalizeResultByMethod, Method.find_name]
  rw [hroot]
  cases m with
  | write =>
    obtain rfl : writeOutputSchema = schema := Option.some.inj hschema
    obtain ⟨out, -, rfl⟩ := Option.map_eq_some_iff.mp hanswer
    exact admits_write srv out
  | query =>
    obtain rfl : queryOutputSchema = schema := Option.some.inj hschema
    obtain rfl := Option.some.inj hanswer
    exact admits_query srv occ.latencies _
  | pin =>
    obtain rfl : pinOutputSchema = schema := Option.some.inj hschema
    obtain ⟨out, -, rfl⟩ := Option.map_eq_some_iff.mp hanswer
    exact iff_of_true (admits_pin srv out) trivial
  | stats =>
    obtain rfl : statsOutputSchema = schema := Option.some.inj hschema
    obtain rfl := Option.some.inj hanswer
    exact admits_stats srv _
  | compact =>
    obtain rfl : compactOutputSchema = schema := Option.some.inj hschema
    obtain ⟨out, -, rfl⟩ := Option.map_eq_some_iff.mp hanswer
    exact admits_compact srv out
  | storeCompact =>
    have hnone : publishedSchema srv.env.translators .storeCompact = none := rfl
    rw [hnone] at hschema
    cases hschema
  | describe => exact absurd rfl hm

end Responses

/-! ### A server to run -/

namespace Reference

mutual
/-- A document printed and parsed again as a property tree. -/
def treeOf : Value ℚ → Ptree
  | .null => .leaf (ascii "null")
  | .bool b => .leaf (showBool b)
  | .int n => .leaf (showInt n)
  | .double x => .leaf (showRat x)
  | .string s => .leaf s
  | .array items => .node [] (itemTrees items)
  | .object ms => .node [] (memberTrees ms)

def itemTrees : List (Value ℚ) → List (Bytes × Ptree)
  | [] => []
  | v :: rest => ([], treeOf v) :: itemTrees rest

def memberTrees : List (Bytes × Value ℚ) → List (Bytes × Ptree)
  | [] => []
  | (k, v) :: rest => (k, treeOf v) :: memberTrees rest
end

def server : Server ℚ where
  env := platform ticking
  readInt := parseInt64Literal
  strtod := readRat
  reparse v := some (treeOf v)
  effectiveBackend := ascii "inmemory"

def occasion : Occasion ℚ where
  fate := applied
  latencies := ⟨1, 1, 1, 3⟩
  metrics := ⟨0, 0, 0, 0⟩
  storeCompact := ⟨false, true, false, false, 1, []⟩

/-- A request to write a record with one entry of metadata. -/
def writeParams (key value : Bytes) : Value ℚ :=
  .object [(ascii "workspace_id", .string (ascii "w")),
    (ascii "records", .array [.object [(ascii "record_id", .string (ascii "a")),
      (ascii "content", .string (ascii "hello")),
      (ascii "metadata", .object [(key, .string value)])]])]

def queryParams : Value ℚ :=
  .object [(ascii "workspace_id", .string (ascii "w")), (ascii "query", .string (ascii "hello"))]

/-- What a query answers after the write. -/
def queriedAfter (key value : Bytes) : Option (RpcReply ℚ) :=
  let w := (callMethod server occasion initial (ascii "memory.write")
    (some (writeParams key value))).1
  (callMethod server occasion w (ascii "memory.query") (some queryParams)).2

end Reference

def RpcReply.value? : RpcReply K → Option (Value K)
  | .result v => some v
  | _ => none

end PoorguyMem
