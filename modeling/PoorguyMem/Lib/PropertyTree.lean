import PoorguyMem.Lib.ByteString

/-!
# Property trees and their JSON text

A property tree is a string with an ordered list of named subtrees. Paths are
split at dots, `put` overwrites the node a path leads to or creates it, and
only trees in which no node has both a string and subtrees can be written as
JSON. Printing and parsing are parameters: what is assumed of them is that
parsing inverts printing, string by string.
-/

namespace PropertyTree

open ByteString

inductive Ptree where
  | node (data : Bytes) (children : List (Bytes × Ptree))

namespace Ptree

def empty : Ptree := node [] []

def leaf (value : Bytes) : Ptree := node value []

def data : Ptree → Bytes
  | node d _ => d

def children : Ptree → List (Bytes × Ptree)
  | node _ cs => cs

@[simp] theorem data_node (d : Bytes) (cs : List (Bytes × Ptree)) : (node d cs).data = d := rfl

@[simp] theorem children_node (d : Bytes) (cs : List (Bytes × Ptree)) :
    (node d cs).children = cs := rfl

@[simp] theorem data_leaf (v : Bytes) : (leaf v).data = v := rfl

/-- The rest of a path after the fragment read so far; a final dot ends the path. -/
def fragmentsFrom (cur : Bytes) : Bytes → List Bytes
  | [] => [cur]
  | c :: rest =>
    if c = 46 then cur :: (if rest = [] then [] else fragmentsFrom [] rest)
    else fragmentsFrom (cur ++ [c]) rest

/-- The fragments of a path. The empty path leads to the node itself. -/
def fragments (path : Bytes) : List Bytes :=
  if path = [] then [] else fragmentsFrom [] path

/-- Change the first subtree named `key`, or append one made from the empty tree. -/
def alterChild (key : Bytes) (f : Ptree → Ptree) : List (Bytes × Ptree) → List (Bytes × Ptree)
  | [] => [(key, f empty)]
  | (k, t) :: rest => if k = key then (k, f t) :: rest else (k, t) :: alterChild key f rest

def putAt : List Bytes → Bytes → Ptree → Ptree
  | [], value, node _ cs => node value cs
  | k :: ks, value, node d cs => node d (alterChild k (putAt ks value) cs)

def put (t : Ptree) (path value : Bytes) : Ptree := putAt (fragments path) value t

def childAt : List Bytes → Ptree → Option Ptree
  | [], t => some t
  | k :: ks, node _ cs =>
    match cs.find? fun c => c.1 = k with
    | some c => childAt ks c.2
    | none => none

/-- A path is followed a fragment at a time. -/
theorem childAt_cons (k : Bytes) (ks : List Bytes) (t : Ptree) :
    childAt (k :: ks) t = (childAt [k] t).bind (childAt ks) := by
  obtain ⟨d, cs⟩ := t
  rw [childAt, childAt]
  cases cs.find? fun c => c.1 = k <;> rfl

/-- `get_child_optional` -/
def getChild (t : Ptree) (path : Bytes) : Option Ptree := childAt (fragments path) t

/-- `add_child` with a path of one fragment appends. -/
def addChild (t : Ptree) (key : Bytes) (child : Ptree) : Ptree :=
  node t.data (t.children ++ [(key, child)])

/-- `get<std::string>` with a fallback -/
def getString (t : Ptree) (path fallback : Bytes) : Bytes :=
  match t.getChild path with
  | some c => c.data
  | none => fallback

/-- A path that is one fragment: its own name. -/
def IsName (key : Bytes) : Prop := fragments key = [key]

instance (key : Bytes) : Decidable (IsName key) := inferInstanceAs (Decidable (_ = _))

theorem alterChild_of_notMem {key : Bytes} {f : Ptree → Ptree} {cs : List (Bytes × Ptree)}
    (h : key ∉ cs.map Prod.fst) : alterChild key f cs = cs ++ [(key, f empty)] := by
  induction cs with
  | nil => rfl
  | cons c rest ih =>
    obtain ⟨k, t⟩ := c
    simp only [List.map_cons, List.mem_cons, not_or] at h
    rw [alterChild, if_neg (Ne.symm h.1), ih h.2, List.cons_append]

/-- `put` of a new name appends a leaf. -/
theorem put_of_notMem {key : Bytes} (hkey : IsName key) {d v : Bytes}
    {cs : List (Bytes × Ptree)} (h : key ∉ cs.map Prod.fst) :
    (node d cs).put key v = node d (cs ++ [(key, leaf v)]) := by
  rw [put, hkey, putAt, alterChild_of_notMem h]
  rfl

/-- Putting new names one after the other lists them as leaves. -/
theorem foldl_put {d : Bytes} (fields : List (Bytes × Bytes)) (cs : List (Bytes × Ptree))
    (hname : ∀ kv ∈ fields, IsName kv.1)
    (hnodup : (cs.map Prod.fst ++ fields.map Prod.fst).Nodup) :
    fields.foldl (fun t kv => t.put kv.1 kv.2) (node d cs) =
      node d (cs ++ fields.map fun kv => (kv.1, leaf kv.2)) := by
  induction fields generalizing cs with
  | nil => simp
  | cons kv rest ih =>
    have hfresh : kv.1 ∉ cs.map Prod.fst := by
      intro hmem
      exact (List.nodup_append.mp hnodup).2.2 _ hmem _ List.mem_cons_self rfl
    rw [List.foldl_cons, put_of_notMem (hname kv List.mem_cons_self) hfresh,
      ih _ fun x hx => hname x (List.mem_cons_of_mem _ hx)]
    · simp
    · simpa using hnodup

theorem fragmentsFrom_of_notMem {cur path : Bytes} (h : 46 ∉ path) :
    fragmentsFrom cur path = [cur ++ path] := by
  induction path generalizing cur with
  | nil => rw [fragmentsFrom, List.append_nil]
  | cons c rest ih =>
    rw [List.mem_cons, not_or] at h
    rw [fragmentsFrom, if_neg (Ne.symm h.1), ih h.2, List.append_assoc, List.singleton_append]

/-- A path starts with a fragment without a dot. -/
theorem notMem_of_head_fragmentsFrom {cur path name : Bytes} (hcur : 46 ∉ cur)
    (h : (fragmentsFrom cur path).head? = some name) : 46 ∉ name := by
  induction path generalizing cur with
  | nil =>
    obtain rfl := Option.some.inj h
    exact hcur
  | cons c rest ih =>
    rw [fragmentsFrom] at h
    split at h
    · obtain rfl := Option.some.inj h
      exact hcur
    · rename_i hc
      refine ih ?_ h
      rw [List.mem_append, List.mem_singleton, not_or]
      exact ⟨hcur, fun heq => hc heq.symm⟩

theorem notMem_of_head_fragments {path name : Bytes}
    (h : (fragments path).head? = some name) : 46 ∉ name := by
  rw [fragments] at h
  split at h
  · cases h
  · exact notMem_of_head_fragmentsFrom (by simp) h

/-- The paths that are names: not empty, and without a dot. -/
theorem isName_iff {key : Bytes} : IsName key ↔ key ≠ [] ∧ 46 ∉ key := by
  constructor
  · intro h
    refine ⟨?_, notMem_of_head_fragments (by rw [h]; rfl)⟩
    rintro rfl
    cases h
  · rintro ⟨hne, hdot⟩
    rw [IsName, fragments, if_neg hne, fragmentsFrom_of_notMem hdot, List.nil_append]

theorem mem_names_alterChild {key name : Bytes} {f : Ptree → Ptree} {cs : List (Bytes × Ptree)}
    (h : name ∈ (alterChild key f cs).map Prod.fst) : name ∈ cs.map Prod.fst ∨ name = key := by
  induction cs with
  | nil => exact Or.inr (by simpa [alterChild] using h)
  | cons c rest ih =>
    obtain ⟨k, t⟩ := c
    rw [alterChild] at h
    split at h
    · exact Or.inl h
    · rw [List.map_cons, List.mem_cons] at h ⊢
      rcases h with rfl | h
      · exact Or.inl (Or.inl rfl)
      · exact (ih h).imp Or.inr id

/-- `put` adds no name but the first fragment of its path. -/
theorem mem_names_put {t : Ptree} {path value name : Bytes}
    (h : name ∈ (t.put path value).children.map Prod.fst) :
    name ∈ t.children.map Prod.fst ∨ (fragments path).head? = some name := by
  obtain ⟨d, cs⟩ := t
  rw [put] at h
  cases hpath : fragments path with
  | nil =>
    rw [hpath] at h
    exact Or.inl h
  | cons k ks =>
    rw [hpath] at h
    exact (mem_names_alterChild h).imp id fun heq => congrArg some heq.symm

/-- The subtree of a name that occurs once. -/
theorem getChild_of_mem {key d : Bytes} {t : Ptree} {cs : List (Bytes × Ptree)}
    (hkey : IsName key) (hnodup : (cs.map Prod.fst).Nodup) (hmem : (key, t) ∈ cs) :
    (node d cs).getChild key = some t := by
  have hfind : (cs.find? fun c => c.1 = key) = some (key, t) := by
    induction cs with
    | nil => cases hmem
    | cons c rest ih =>
      rw [List.map_cons, List.nodup_cons] at hnodup
      rcases List.mem_cons.mp hmem with rfl | hrest
      · simp
      · have hne : c.1 ≠ key := by
          rintro rfl
          exact hnodup.1 (List.mem_map.mpr ⟨_, hrest, rfl⟩)
        rw [List.find?_cons_of_neg (by simpa using hne), ih hnodup.2 hrest]
  rw [getChild, hkey, childAt, hfind]
  rfl

mutual
/-- No node has both a string and subtrees. -/
def verify : Ptree → Bool
  | node d cs => (d = [] || cs = []) && verifyAll cs

def verifyAll : List (Bytes × Ptree) → Bool
  | [] => true
  | (_, t) :: rest => verify t && verifyAll rest
end

theorem verify_leaf (v : Bytes) : (leaf v).verify = true := by simp [leaf, verify, verifyAll]

/-- The trees `write_json` accepts. For the others it throws. -/
def writable (t : Ptree) : Bool := t.data = [] && t.verify

mutual
/-- Every name and every string of the tree. -/
def strings : Ptree → List Bytes
  | node d cs => d :: stringsAll cs

def stringsAll : List (Bytes × Ptree) → List Bytes
  | [] => []
  | (k, t) :: rest => k :: strings t ++ stringsAll rest
end

theorem mem_stringsAll {k : Bytes} {t : Ptree} {cs : List (Bytes × Ptree)}
    (h : (k, t) ∈ cs) {x : Bytes} (hx : x = k ∨ x ∈ t.strings) : x ∈ stringsAll cs := by
  induction cs with
  | nil => cases h
  | cons c rest ih =>
    obtain ⟨k', t'⟩ := c
    rw [stringsAll]
    rcases List.mem_cons.mp h with heq | hmem
    · obtain ⟨rfl, rfl⟩ := Prod.mk.inj heq
      rcases hx with rfl | hx
      · simp
      · simp [hx]
    · simp [ih hmem]

end Ptree

open Ptree

/-- An array of strings: subtrees with empty names. -/
def makeArray (values : List Bytes) : Ptree :=
  node [] (values.map fun v => ([], Ptree.empty.put [] v))

def readStringArray (t : Ptree) (path : Bytes) : List Bytes :=
  match t.getChild path with
  | some c => c.children.map fun kv => kv.2.data
  | none => []

/-- An array of strings is read back. -/
theorem readStringArray_eq {t : Ptree} {path : Bytes} {values : List Bytes}
    (h : t.getChild path = some (makeArray values)) : readStringArray t path = values := by
  rw [readStringArray, h]
  simp [makeArray, Function.comp_def, put, fragments, putAt, Ptree.empty]

def showBool (b : Bool) : Bytes := if b then ascii "true" else ascii "false"

/-- A tree of named strings. -/
def flatTree (fields : List (Bytes × Bytes)) : Ptree :=
  fields.foldl (fun t kv => t.put kv.1 kv.2) Ptree.empty

/-- The names at the root of a tree of fields start the paths of the fields. -/
theorem mem_names_flatTree {fields : List (Bytes × Bytes)} {name : Bytes}
    (h : name ∈ (flatTree fields).children.map Prod.fst) :
    ∃ kv ∈ fields, (fragments kv.1).head? = some name := by
  have loop : ∀ (fields : List (Bytes × Bytes)) (t : Ptree),
      name ∈ (fields.foldl (fun t kv => t.put kv.1 kv.2) t).children.map Prod.fst →
      name ∈ t.children.map Prod.fst ∨ ∃ kv ∈ fields, (fragments kv.1).head? = some name := by
    intro fields
    induction fields with
    | nil => exact fun _ h => Or.inl h
    | cons kv rest ih =>
      intro t h
      rcases ih _ h with hput | ⟨kv', hkv', hhead⟩
      · exact (mem_names_put hput).imp id fun hhead => ⟨kv, List.mem_cons_self, hhead⟩
      · exact Or.inr ⟨kv', List.mem_cons_of_mem _ hkv', hhead⟩
  rcases loop fields Ptree.empty h with hempty | hfield
  · cases hempty
  · exact hfield

section FlatTree
variable {fields : List (Bytes × Bytes)}

/-- Names that differ, so that a tree of them lists every field as a leaf. -/
structure FieldNames (keys : List Bytes) : Prop where
  isName : ∀ k ∈ keys, IsName k
  nodup : keys.Nodup

variable (h : FieldNames (fields.map Prod.fst))
include h

theorem flatTree_eq : flatTree fields = node [] (fields.map fun kv => (kv.1, leaf kv.2)) := by
  have hput := foldl_put (d := []) fields [] (fun kv hkv => h.isName _ (List.mem_map_of_mem hkv))
    (by simpa using h.nodup)
  simpa [flatTree, Ptree.empty] using hput

theorem getChild_flatTree {key v : Bytes} (hmem : (key, v) ∈ fields) :
    (flatTree fields).getChild key = some (leaf v) := by
  rw [flatTree_eq h]
  refine getChild_of_mem (h.isName _ (List.mem_map_of_mem hmem)) ?_
    (List.mem_map.mpr ⟨_, hmem, rfl⟩)
  simpa [Function.comp_def] using h.nodup

theorem getString_flatTree {key v fallback : Bytes} (hmem : (key, v) ∈ fields) :
    (flatTree fields).getString key fallback = v := by
  rw [getString, getChild_flatTree h hmem]
  rfl

theorem writable_flatTree : (flatTree fields).writable = true := by
  have hleaves : ∀ kvs : List (Bytes × Bytes),
      verifyAll (kvs.map fun kv => (kv.1, leaf kv.2)) = true := by
    intro kvs
    induction kvs with
    | nil => rfl
    | cons kv rest ih => simp [verifyAll, verify_leaf, ih]
  rw [flatTree_eq h]
  simp [writable, verify, hleaves]

/-- The strings of the tree are the names and the values of the fields. -/
theorem strings_flatTree {P : Bytes → Prop} (hnil : P [])
    (hfields : ∀ kv ∈ fields, P kv.1 ∧ P kv.2) : ∀ x ∈ (flatTree fields).strings, P x := by
  have hleaves : ∀ kvs : List (Bytes × Bytes), (∀ kv ∈ kvs, P kv.1 ∧ P kv.2) →
      ∀ x ∈ stringsAll (kvs.map fun kv => (kv.1, leaf kv.2)), P x := by
    intro kvs
    induction kvs with
    | nil =>
      intro _ x hx
      cases hx
    | cons kv rest ih =>
      intro hkvs x hx
      have hkv := hkvs kv List.mem_cons_self
      simp only [List.map_cons, stringsAll, leaf, strings, List.cons_append, List.nil_append,
        List.mem_cons] at hx
      rcases hx with rfl | rfl | hx
      · exact hkv.1
      · exact hkv.2
      · exact ih (fun y hy => hkvs y (List.mem_cons_of_mem _ hy)) x hx
  rw [flatTree_eq h]
  intro x hx
  rcases List.mem_cons.mp hx with rfl | hx
  · exact hnil
  · exact hleaves fields hfields x hx

end FlatTree

/-- Printing and parsing of JSON text, with the message where parsing fails.
`carries` says which strings survive the way through the text; a parser that
checks UTF-8 carries only that. -/
structure JsonLibrary where
  print : Ptree → Bytes
  parse : Bytes → Option Ptree
  parseError : Bytes → Bytes
  carries : Bytes → Prop

structure JsonLibrary.Lawful (lib : JsonLibrary) : Prop where
  parse_print : ∀ t, t.writable = true → (∀ x ∈ t.strings, lib.carries x) →
    lib.parse (lib.print t) = some t
  parse_only : ∀ t u, t.writable = true → lib.parse (lib.print t) = some u →
    u = t ∧ ∀ x ∈ t.strings, lib.carries x
  carries_ascii : ∀ x : Bytes, (∀ c ∈ x, c < 128) → lib.carries x
  carries_append : ∀ x y, lib.carries x → lib.carries y → lib.carries (x ++ y)

/-- Reading of scalars from the string of a node. -/
structure Translators (K : Type) where
  showDouble : K → Bytes
  readDouble : Bytes → Option K
  readUint64 : Bytes → Option UInt64
  readBool : Bytes → Option Bool

structure Translators.Lawful {K : Type} (tr : Translators K) : Prop where
  read_uint64 : ∀ n : UInt64, tr.readUint64 (decimal n.toNat) = some n
  read_bool : ∀ b, tr.readBool (showBool b) = some b

/-- `write_json` without whitespace, or `none` where it throws. -/
def toJsonString (lib : JsonLibrary) (t : Ptree) : Option Bytes :=
  if t.writable then some (lib.print t) else none

theorem toJsonString_eq_some {lib : JsonLibrary} {t : Ptree} {text : Bytes} :
    toJsonString lib t = some text ↔ t.writable = true ∧ lib.print t = text := by
  simp [toJsonString]

/-- Reading a scalar falls back when the node or its value is missing. -/
def getOr {α : Type} (read : Bytes → Option α) (t : Ptree) (path : Bytes) (fallback : α) : α :=
  match t.getChild path with
  | some c => (read c.data).getD fallback
  | none => fallback

end PropertyTree
