import PoorguyMem.Types

/-!
# Namespaces and keys

The key formats of `memory_engine.cpp`. A key joins the workspace with ids,
terms and numerals by fixed markers, and nothing escapes a marker inside a
field: the joined key determines its fields only when the workspace is free of
the separator, and two workspaces can share a key only when one, with the
separator, is a prefix of the other.
-/

namespace PoorguyMem

open ByteString

def docNs : Bytes := ascii "mem_docs"
def termDictNs : Bytes := ascii "mem_term_dict"
def postingBlkNs : Bytes := ascii "mem_posting_blk"
def vecCodeNs : Bytes := ascii "mem_vec_code"
def vecFpNs : Bytes := ascii "mem_vec_fp"
def routeMetaNs : Bytes := ascii "mem_route_meta"
def eventsNs : Bytes := ascii "ds_events"
def projectionCkptNs : Bytes := ascii "ds_projection_ckpt"

def zeroPadUint64 (v : UInt64) : Bytes := zeroPad 20 v.toNat

def buildDocKey (workspaceId memoryId : Bytes) : Bytes :=
  ascii "ws/" ++ workspaceId ++ ascii "/doc/" ++ memoryId

def buildTermDictKey (workspaceId term : Bytes) : Bytes :=
  ascii "ws/" ++ workspaceId ++ ascii "/term/" ++ term

def buildPostingKey (workspaceId term : Bytes) (bucket : UInt64) (memoryId : Bytes) : Bytes :=
  ascii "ws/" ++ workspaceId ++ ascii "/term/" ++ term ++ ascii "/b/" ++
    decimal bucket.toNat ++ ascii "/blk/" ++ memoryId

def buildVecCodeKey (workspaceId : Bytes) (bucket : UInt64) (memoryId : Bytes) : Bytes :=
  ascii "ws/" ++ workspaceId ++ ascii "/vec/" ++ decimal bucket.toNat ++ ascii "/" ++ memoryId

def buildVecFpKey (workspaceId memoryId : Bytes) : Bytes :=
  ascii "ws/" ++ workspaceId ++ ascii "/vecfp/" ++ memoryId

def buildRouteMetaKey (workspaceId : Bytes) : Bytes := ascii "ws/" ++ workspaceId

def buildEventKey (workspaceId : Bytes) (ts seq : UInt64) : Bytes :=
  ascii "ws/" ++ workspaceId ++ ascii "/ts/" ++ zeroPadUint64 ts ++ ascii "/seq/" ++
    zeroPadUint64 seq

def buildCkptKey (workspaceId : Bytes) : Bytes := ascii "ws/" ++ workspaceId

def recordMapKey (workspaceId memoryId : Bytes) : Bytes := workspaceId ++ ascii ":" ++ memoryId

/-- The key of `dedup_index_` for a dedup key of a workspace. -/
def dedupMapKey (workspaceId dedupKey : Bytes) : Bytes := workspaceId ++ ascii ":" ++ dedupKey

/-- The part of a key between `ws/` and the first `marker`, or nothing. -/
def workspaceBefore (marker key : Bytes) : Bytes :=
  if !(ascii "ws/").isPrefixOf key then []
  else
    match find marker key with
    | none => []
    | some pos => if pos ≤ 3 then [] else (key.drop 3).take (pos - 3)

def workspaceFromDocKey (docKey : Bytes) : Bytes := workspaceBefore (ascii "/doc/") docKey

def workspaceFromEventKey (eventKey : Bytes) : Bytes := workspaceBefore (ascii "/ts/") eventKey

def memoryIdFromDocKey (docKey : Bytes) : Bytes :=
  match find (ascii "/doc/") docKey with
  | none => []
  | some pos => if docKey.length ≤ pos + 5 then [] else docKey.drop (pos + 5)

def isMissingScanNamespaceError (error : Bytes) : Bool :=
  if error = [] then false else contains (ascii "resource not found") (lower error)

/-! ### Which fields a key determines -/

theorem recordMapKey_inj {w v x y : Bytes} (hw : 58 ∉ w) (hv : 58 ∉ v)
    (h : recordMapKey w x = recordMapKey v y) : w = v ∧ x = y := by
  simp only [recordMapKey, List.append_assoc] at h
  exact separated_inj hw hv h

theorem dedupMapKey_inj {w v x y : Bytes} (hw : 58 ∉ w) (hv : 58 ∉ v)
    (h : dedupMapKey w x = dedupMapKey v y) : w = v ∧ x = y :=
  recordMapKey_inj hw hv h

theorem buildDocKey_inj {w v x y : Bytes} (hw : 47 ∉ w) (hv : 47 ∉ v)
    (h : buildDocKey w x = buildDocKey v y) : w = v ∧ x = y := by
  simp only [buildDocKey, List.append_assoc] at h
  obtain ⟨hwv, hxy⟩ := separated_inj hw hv (List.append_cancel_left h)
  exact ⟨hwv, List.append_cancel_left hxy⟩

theorem append_cancel (marker : Bytes) {x y : Bytes} (h : marker ++ x = marker ++ y) : x = y :=
  List.append_cancel_left h

theorem slash_notMem_decimal (n : Nat) : 47 ∉ decimal n := by
  intro h
  have hdigit := (isDigits_decimal n 47 h).1
  exact absurd hdigit (by decide)

theorem buildPostingKey_inj {w v term term' x y : Bytes} {b b' : UInt64} (hw : 47 ∉ w)
    (hv : 47 ∉ v) (hterm : 47 ∉ term) (hterm' : 47 ∉ term')
    (h : buildPostingKey w term b x = buildPostingKey v term' b' y) :
    w = v ∧ term = term' ∧ x = y := by
  simp only [buildPostingKey, List.append_assoc] at h
  obtain ⟨hwv, h⟩ := separated_inj hw hv (List.append_cancel_left h)
  obtain ⟨hterms, h⟩ := separated_inj hterm hterm' (append_cancel (ascii "term/") h)
  obtain ⟨-, h⟩ := separated_inj (slash_notMem_decimal _) (slash_notMem_decimal _)
    (append_cancel (ascii "b/") h)
  exact ⟨hwv, hterms, append_cancel (ascii "blk/") h⟩

theorem buildVecCodeKey_inj {w v x y : Bytes} {b b' : UInt64} (hw : 47 ∉ w) (hv : 47 ∉ v)
    (h : buildVecCodeKey w b x = buildVecCodeKey v b' y) : w = v ∧ b = b' ∧ x = y := by
  simp only [buildVecCodeKey, List.append_assoc] at h
  obtain ⟨hwv, h⟩ := separated_inj hw hv (List.append_cancel_left h)
  obtain ⟨hbucket, hxy⟩ := separated_inj (slash_notMem_decimal _) (slash_notMem_decimal _)
    (append_cancel (ascii "vec/") h)
  have hvalue := congrArg digitsValue hbucket
  rw [digitsValue_decimal, digitsValue_decimal] at hvalue
  exact ⟨hwv, UInt64.toNat_inj.mp hvalue, hxy⟩

theorem buildVecFpKey_inj {w v x y : Bytes} (hw : 47 ∉ w) (hv : 47 ∉ v)
    (h : buildVecFpKey w x = buildVecFpKey v y) : w = v ∧ x = y := by
  simp only [buildVecFpKey, List.append_assoc] at h
  obtain ⟨hwv, hxy⟩ := separated_inj hw hv (List.append_cancel_left h)
  exact ⟨hwv, List.append_cancel_left hxy⟩

theorem recordMapKey_id_inj {w x y : Bytes} (h : recordMapKey w x = recordMapKey w y) : x = y :=
  List.append_cancel_left h

theorem buildCkptKey_inj {w v : Bytes} (h : buildCkptKey w = buildCkptKey v) : w = v :=
  List.append_cancel_left h

/-- No key of one workspace is a key of the other: neither, followed by the
separator, begins the other followed by the separator. -/
structure Separated (w v : Bytes) : Prop where
  colon : ¬ (w ++ ascii ":" <+: v ++ ascii ":") ∧ ¬ (v ++ ascii ":" <+: w ++ ascii ":")
  doc : ¬ (w ++ ascii "/doc/" <+: v ++ ascii "/doc/") ∧
    ¬ (v ++ ascii "/doc/" <+: w ++ ascii "/doc/")

theorem Separated.symm {w v : Bytes} (h : Separated w v) : Separated v w :=
  ⟨h.colon.symm, h.doc.symm⟩

theorem Separated.recordMapKey_ne {w v : Bytes} (h : Separated w v) (x y : Bytes) :
    recordMapKey w x ≠ recordMapKey v y :=
  fun heq => (prefix_of_join_eq heq).elim h.colon.1 h.colon.2

theorem Separated.dedupMapKey_ne {w v : Bytes} (h : Separated w v) (x y : Bytes) :
    dedupMapKey w x ≠ dedupMapKey v y :=
  h.recordMapKey_ne x y

theorem Separated.buildDocKey_ne {w v : Bytes} (h : Separated w v) (x y : Bytes) :
    buildDocKey w x ≠ buildDocKey v y := by
  intro heq
  simp only [buildDocKey, List.append_assoc] at heq
  have hjoin : w ++ ascii "/doc/" ++ x = v ++ ascii "/doc/" ++ y := by
    simpa only [List.append_assoc] using List.append_cancel_left heq
  exact (prefix_of_join_eq hjoin).elim h.doc.1 h.doc.2

/-- Different workspaces without separators are separated. -/
theorem separated_of_notMem {w v : Bytes} (hw : 58 ∉ w ∧ 47 ∉ w) (hv : 58 ∉ v ∧ 47 ∉ v)
    (hne : w ≠ v) : Separated w v := by
  have colon : ∀ {a b : Bytes}, 58 ∉ a → 58 ∉ b → a ≠ b →
      ¬ (a ++ ascii ":" <+: b ++ ascii ":") := by
    rintro a b ha hb hab ⟨t, ht⟩
    have hb' : a ++ 58 :: t = b ++ 58 :: [] := by simpa [ascii] using ht
    exact hab (separated_inj ha hb hb').1
  have doc : ∀ {a b : Bytes}, 47 ∉ a → 47 ∉ b → a ≠ b →
      ¬ (a ++ ascii "/doc/" <+: b ++ ascii "/doc/") := by
    rintro a b ha hb hab ⟨t, ht⟩
    rw [List.append_assoc] at ht
    exact hab (separated_inj ha hb ht).1
  exact ⟨⟨colon hw.1 hv.1 hne, colon hv.1 hw.1 hne.symm⟩,
    ⟨doc hw.2 hv.2 hne, doc hv.2 hw.2 hne.symm⟩⟩

/-! ### The order of event keys -/

theorem length_zeroPadUint64 (v : UInt64) : (zeroPadUint64 v).length = 20 :=
  length_zeroPad (by omega) (by have := v.toNat_lt; omega)

theorem compare_zeroPadUint64 (a b : UInt64) :
    compare (zeroPadUint64 a) (zeroPadUint64 b) = compare a.toNat b.toNat :=
  compare_zeroPad (by omega) (by have := a.toNat_lt; omega) (by have := b.toNat_lt; omega)

/-- Event keys of one workspace sort like the pairs of time and sequence number. -/
theorem compare_buildEventKey (w : Bytes) (ts seq ts' seq' : UInt64) :
    compare (buildEventKey w ts seq) (buildEventKey w ts' seq') =
      (compare ts.toNat ts'.toNat).then (compare seq.toNat seq'.toNat) := by
  have hlen : (zeroPadUint64 ts).length = (zeroPadUint64 ts').length := by
    rw [length_zeroPadUint64, length_zeroPadUint64]
  simp only [buildEventKey, List.append_assoc, compare_append_left]
  rw [compare_append_of_length_eq hlen, compare_append_left, compare_zeroPadUint64,
    compare_zeroPadUint64]

theorem buildEventKey_le_iff {w : Bytes} {ts seq ts' seq' : UInt64} :
    le (buildEventKey w ts seq) (buildEventKey w ts' seq') = true ↔
      ts < ts' ∨ ts = ts' ∧ seq ≤ seq' := by
  rw [le, compare_buildEventKey, UInt64.lt_iff_toNat_lt, ← UInt64.toNat_inj,
    UInt64.le_iff_toNat_le]
  rcases Nat.lt_trichotomy ts.toNat ts'.toNat with hlt | heq | hgt
  · rw [Nat.compare_eq_lt.mpr hlt]
    exact iff_of_true rfl (Or.inl hlt)
  · rw [Nat.compare_eq_eq.mpr heq, Ordering.eq_then, Nat.isLE_compare]
    omega
  · rw [Nat.compare_eq_gt.mpr hgt]
    refine iff_of_false Bool.false_ne_true ?_
    omega

theorem buildEventKey_le {w : Bytes} {ts seq ts' seq' : UInt64}
    (h : ts < ts' ∨ ts = ts' ∧ seq ≤ seq') :
    le (buildEventKey w ts seq) (buildEventKey w ts' seq') = true := buildEventKey_le_iff.mpr h

theorem buildEventKey_inj {w v : Bytes} (hw : 47 ∉ w) (hv : 47 ∉ v) {ts seq ts' seq' : UInt64}
    (h : buildEventKey w ts seq = buildEventKey v ts' seq') : w = v ∧ ts = ts' ∧ seq = seq' := by
  have hwv : w = v := by
    simp only [buildEventKey, List.append_assoc] at h
    exact (separated_inj hw hv (List.append_cancel_left h)).1
  subst hwv
  have hcmp := compare_buildEventKey w ts seq ts' seq'
  rw [h, Std.compare_self, eq_comm, Ordering.then_eq_eq, Nat.compare_eq_eq, Nat.compare_eq_eq]
    at hcmp
  exact ⟨rfl, UInt64.toNat_inj.mp hcmp.1, UInt64.toNat_inj.mp hcmp.2⟩

end PoorguyMem
