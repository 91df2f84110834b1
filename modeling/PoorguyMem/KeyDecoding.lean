import PoorguyMem.Keys
import PoorguyMem.Lib.Substring

/-!
# Decoding keys

`WorkspaceFromDocKey` and its siblings cut a key at the first occurrence of a marker.
It is the one that `BuildDocKey` has put, unless the marker's word is a segment of the
workspace; and a key has one pair of names, unless it is a segment of either.
-/

namespace PoorguyMem

open ByteString

/-- A word stands between two slashes, or at an end. -/
def HasSegment (word s : Bytes) : Prop :=
  ascii "/" ++ word ++ ascii "/" <:+: ascii "/" ++ s ++ ascii "/"

instance (word s : Bytes) : Decidable (HasSegment word s) :=
  inferInstanceAs (Decidable (_ <:+: _))

/-- A word stands between two slashes, and more follows. -/
def HasInnerSegment (word s : Bytes) : Prop :=
  ascii "/" ++ word ++ ascii "/" <:+: (ascii "/" ++ s).dropLast

instance (word s : Bytes) : Decidable (HasInnerSegment word s) :=
  inferInstanceAs (Decidable (_ <:+: _))

/-- The keys of a workspace and an id decode to them, and no other pair has the document key. -/
structure Decodes (workspaceId memoryId : Bytes) : Prop where
  workspace : workspaceFromDocKey (buildDocKey workspaceId memoryId) = workspaceId
  id : memoryIdFromDocKey (buildDocKey workspaceId memoryId) = memoryId
  event : ∀ ts seq, workspaceFromEventKey (buildEventKey workspaceId ts seq) = workspaceId
  unique : ∀ w id, w ≠ [] → id ≠ [] → buildDocKey w id = buildDocKey workspaceId memoryId →
    w = workspaceId ∧ id = memoryId

/-! ### The first marker -/

section Marker
variable {word w : Bytes}

/-- The marker that a key is joined with is the first one, unless the workspace has its word
as a segment. -/
theorem find_marker_iff (hword : 47 ∉ word) (w rest : Bytes) :
    find (ascii "/" ++ word ++ ascii "/")
        (ascii "ws/" ++ w ++ (ascii "/" ++ word ++ ascii "/") ++ rest) = some (3 + w.length) ↔
      ¬ HasSegment word w := by
  have hlength : (ascii "ws/" ++ w).length = 3 + w.length := by
    rw [List.length_append]
    rfl
  have hne : ascii "/" ++ word ++ ascii "/" ≠ [] := by simp [ascii]
  have hslash : (ascii "/" : Bytes) = [47] := rfl
  have hsplit : ascii "ws/" ++ w ++ ([47] ++ word) = ascii "ws" ++ ([47] ++ w ++ [47] ++ word) := by
    have hws : (ascii "ws/" : Bytes) = ascii "ws" ++ [47] := rfl
    rw [hws]
    simp only [List.append_assoc]
  rw [← hlength, find_append_iff hne, HasSegment, hslash, List.dropLast_concat, hsplit]
  apply not_congr
  -- what lies before the first slash or after the last one is free of them
  calc [47] ++ word ++ [47] <:+: ascii "ws" ++ ([47] ++ w ++ [47] ++ word)
      ↔ [47] ++ word ++ [47] <:+: [47] ++ w ++ [47] ++ word :=
        infix_append_left_iff (by decide)
    _ ↔ [47] ++ word ++ [47] <:+: [47] ++ w ++ [47] := infix_append_iff hword

/-- There is a first marker, and it is not behind the one that was put. -/
theorem find_marker_le (word w rest : Bytes) : ∃ pos,
    find (ascii "/" ++ word ++ ascii "/")
      (ascii "ws/" ++ w ++ (ascii "/" ++ word ++ ascii "/") ++ rest) = some pos ∧
        pos ≤ 3 + w.length := by
  generalize hmarker : ascii "/" ++ word ++ ascii "/" = marker
  have hlength : (ascii "ws/" ++ w).length = 3 + w.length := by
    rw [List.length_append]
    rfl
  have hat : marker <+: (ascii "ws/" ++ w ++ marker ++ rest).drop (3 + w.length) := by
    rw [← hlength, List.append_assoc, List.drop_left]
    exact List.prefix_append _ _
  obtain ⟨pos, ⟨hle, hpos⟩, hfirst⟩ : ∃ pos, (pos ≤ 3 + w.length ∧
      marker <+: (ascii "ws/" ++ w ++ marker ++ rest).drop pos) ∧ ∀ m < pos, ¬ (m ≤ 3 + w.length ∧
        marker <+: (ascii "ws/" ++ w ++ marker ++ rest).drop m) := by
    classical
    have hex : ∃ pos, pos ≤ 3 + w.length ∧
        marker <+: (ascii "ws/" ++ w ++ marker ++ rest).drop pos := ⟨_, Nat.le_refl _, hat⟩
    exact ⟨Nat.find hex, Nat.find_spec hex, fun m hm => Nat.find_min hex hm⟩
  refine ⟨pos, find_eq_some_iff.mpr ⟨?_, hpos, fun m hm h => hfirst m hm ⟨by omega, h⟩⟩, hle⟩
  simp only [List.length_append] at hlength ⊢
  omega

/-- The workspace is read back where its marker is the first one. -/
theorem workspaceBefore_eq_iff (hword : 47 ∉ word) (hw : w ≠ []) (rest : Bytes) :
    workspaceBefore (ascii "/" ++ word ++ ascii "/")
        (ascii "ws/" ++ w ++ (ascii "/" ++ word ++ ascii "/") ++ rest) = w ↔
      ¬ HasSegment word w := by
  rw [← find_marker_iff hword w rest]
  obtain ⟨pos, hpos, hle⟩ := find_marker_le word w rest
  generalize ascii "/" ++ word ++ ascii "/" = marker at *
  have hlength := List.length_pos_of_ne_nil hw
  have hprefix : (ascii "ws/").isPrefixOf (ascii "ws/" ++ w ++ marker ++ rest) = true := by
    rw [List.isPrefixOf_iff_prefix, List.append_assoc, List.append_assoc]
    exact List.prefix_append _ _
  have hdrop : (ascii "ws/" ++ w ++ marker ++ rest).drop 3 = w ++ (marker ++ rest) := by
    rw [List.append_assoc, List.append_assoc]
    rfl
  rw [workspaceBefore, hprefix, hpos, hdrop]
  simp only [Bool.not_true, Bool.false_eq_true, if_false, Option.some.injEq]
  constructor
  · intro h
    split at h
    · exact absurd h.symm hw
    · have hcut := congrArg List.length h
      rw [List.length_take] at hcut
      simp only [List.length_append] at hcut
      omega
  · rintro rfl
    rw [if_neg (by omega), Nat.add_sub_cancel_left, List.take_left]

end Marker

/-! ### Document keys -/

theorem docMarker : ascii "/doc/" = ascii "/" ++ ascii "doc" ++ ascii "/" := rfl

theorem tsMarker : ascii "/ts/" = ascii "/" ++ ascii "ts" ++ ascii "/" := rfl

theorem workspaceFromDocKey_eq_iff {w : Bytes} (hw : w ≠ []) (id : Bytes) :
    workspaceFromDocKey (buildDocKey w id) = w ↔ ¬ HasSegment (ascii "doc") w := by
  rw [workspaceFromDocKey, buildDocKey, docMarker]
  exact workspaceBefore_eq_iff (by decide) hw id

theorem workspaceFromEventKey_eq_iff {w : Bytes} (hw : w ≠ []) (ts seq : UInt64) :
    workspaceFromEventKey (buildEventKey w ts seq) = w ↔ ¬ HasSegment (ascii "ts") w := by
  have hword : 47 ∉ ascii "ts" := by decide
  rw [workspaceFromEventKey, buildEventKey, tsMarker, List.append_assoc _ (zeroPadUint64 ts),
    List.append_assoc _ (zeroPadUint64 ts ++ ascii "/seq/")]
  exact workspaceBefore_eq_iff hword hw _

theorem memoryIdFromDocKey_eq {w id : Bytes} (hid : id ≠ [])
    (hw : ¬ HasSegment (ascii "doc") w) : memoryIdFromDocKey (buildDocKey w id) = id := by
  have hfind : find (ascii "/doc/") (buildDocKey w id) = some (3 + w.length) := by
    rw [buildDocKey, docMarker]
    exact (find_marker_iff (by decide) w id).mpr hw
  have hlength : (ascii "ws/" ++ w ++ ascii "/doc/").length = 3 + w.length + 5 := by
    simp only [List.length_append]
    have hws : (ascii "ws/").length = 3 := rfl
    have hdoc : (ascii "/doc/").length = 5 := rfl
    omega
  have hpos := List.length_pos_of_ne_nil hid
  rw [memoryIdFromDocKey, hfind]
  dsimp only
  rw [← hlength, if_neg, buildDocKey, List.drop_left]
  rw [buildDocKey, List.length_append]
  omega

/-- Another pair with the key cuts it at a later marker, which lies in the id. -/
theorem unique_of_not_hasInnerSegment {w id : Bytes} (hw : ¬ HasSegment (ascii "doc") w)
    (hid : ¬ HasInnerSegment (ascii "doc") id) {w' id' : Bytes} (hid' : id' ≠ [])
    (h : buildDocKey w' id' = buildDocKey w id) : w' = w ∧ id' = id := by
  have hfind : find (ascii "/doc/") (buildDocKey w id) = some (3 + w.length) := by
    rw [buildDocKey, docMarker]
    exact (find_marker_iff (by decide) w id).mpr hw
  obtain ⟨pos, hpos, hle⟩ := find_marker_le (ascii "doc") w' id'
  rw [← docMarker, ← buildDocKey, h, hfind] at hpos
  obtain rfl := Option.some.inj hpos
  rw [buildDocKey, buildDocKey, List.append_assoc, List.append_assoc, List.append_assoc,
    List.append_assoc] at h
  have hjoin := List.append_cancel_left h
  -- the workspace is the beginning of the other one
  have hprefix : w <+: w' ++ (ascii "/doc/" ++ id') := by
    rw [hjoin]
    exact List.prefix_append _ _
  obtain ⟨x, rfl⟩ : w <+: w' :=
    List.prefix_of_prefix_length_le hprefix (List.prefix_append _ _) (by omega)
  rw [List.append_assoc] at hjoin
  have htail := List.append_cancel_left hjoin
  cases x with
  | nil => exact ⟨List.append_nil w, List.append_cancel_left htail⟩
  | cons c x =>
    have hdoc : ascii "/doc/" ++ id = 47 :: (ascii "doc" ++ (ascii "/" ++ id)) := rfl
    rw [hdoc, List.cons_append] at htail
    have hcut := congrArg List.dropLast (List.cons.inj htail).2
    have hslash : ascii "/" ++ id ≠ [] := by simp [ascii]
    rw [List.dropLast_append_of_ne_nil (by simp [ascii]), List.dropLast_append_of_ne_nil hid',
      List.dropLast_append_of_ne_nil hslash] at hcut
    have hinfix : ascii "/" ++ ascii "doc" ++ ascii "/" <:+:
        ascii "doc" ++ (ascii "/" ++ id).dropLast := ⟨x, id'.dropLast, by rw [← hcut]; simp [ascii]⟩
    exact absurd ((infix_append_left_iff (by decide)).mp hinfix) hid

/-- Cutting a key inside the id gives another pair. -/
theorem not_hasInnerSegment_of_unique {w id : Bytes} (hw : w ≠ [])
    (h : ∀ w' id', w' ≠ [] → id' ≠ [] → buildDocKey w' id' = buildDocKey w id → w' = w ∧ id' = id) :
    ¬ HasInnerSegment (ascii "doc") id := by
  rintro ⟨a, b, hab⟩
  have hslash : ascii "/" ++ id ≠ [] := by simp [ascii]
  obtain ⟨last, hlast⟩ : ∃ last, ascii "/" ++ id =
      a ++ (ascii "/" ++ ascii "doc" ++ ascii "/") ++ b ++ [last] :=
    ⟨_, by rw [hab, List.dropLast_append_getLast hslash]⟩
  have hkey : buildDocKey (w ++ ascii "/doc" ++ a) (b ++ [last]) = buildDocKey w id := by
    have hdoc : ascii "/doc/" = ascii "/doc" ++ ascii "/" := rfl
    rw [buildDocKey, buildDocKey, hdoc, List.append_assoc _ _ id, List.append_assoc (ascii "/doc"),
      hlast]
    simp [ascii]
  obtain ⟨hsame, -⟩ := h _ _ (by simp [hw]) (by simp) hkey
  have hlength := congrArg List.length hsame
  have hdoc : (ascii "/doc").length = 4 := rfl
  simp only [List.length_append] at hlength
  omega

/-- The keys of a nonempty workspace and id decode to them, and no other pair has the document
key, if and only if the words of the markers are no segments of the names. -/
theorem decodes_iff {workspaceId memoryId : Bytes} (hws : workspaceId ≠ [])
    (hid : memoryId ≠ []) : Decodes workspaceId memoryId ↔
      ¬ HasSegment (ascii "doc") workspaceId ∧ ¬ HasSegment (ascii "ts") workspaceId ∧
        ¬ HasInnerSegment (ascii "doc") memoryId := by
  constructor
  · intro h
    refine ⟨?_, ?_, ?_⟩
    · exact (workspaceFromDocKey_eq_iff hws memoryId).mp h.workspace
    · exact (workspaceFromEventKey_eq_iff hws 0 0).mp (h.event 0 0)
    · exact not_hasInnerSegment_of_unique hws h.unique
  · rintro ⟨hdoc, hts, hinner⟩
    constructor
    · exact (workspaceFromDocKey_eq_iff hws memoryId).mpr hdoc
    · exact memoryIdFromDocKey_eq hid hdoc
    · exact fun ts seq => (workspaceFromEventKey_eq_iff hws ts seq).mpr hts
    · exact fun w id _ hid' => unique_of_not_hasInnerSegment hdoc hinner hid'

/-- The document key of the workspace `doc` names no workspace. -/
theorem not_decodes_doc : ¬ Decodes (ascii "doc") (ascii "a") := by
  intro h
  exact absurd h.workspace (by decide)

theorem decodes_plain : Decodes (ascii "w") (ascii "a") :=
  (decodes_iff (by decide) (by decide)).mpr (by decide)

end PoorguyMem
