import PoorguyMem.Lib.JsonText

/-!
# JSON values

The documents that JSON text denotes. A property tree carries strings alone; the
value it is written as is `ofRoot`, and its text is the text of that value. A
document is changed member by member, at the first member of a name, and a
schema says which values of which members it admits.
-/

namespace JsonValue

open ByteString PropertyTree

variable {K : Type}

inductive Value (K : Type) where
  | null
  | bool (b : Bool)
  | int (n : Int)
  | double (x : K)
  | string (s : Bytes)
  | array (items : List (Value K))
  | object (members : List (Bytes × Value K))

/-! ### The value of a property tree -/

mutual
def ofTree : Ptree → Value K
  | .node d cs =>
    if cs.isEmpty then .string d
    else if cs.all fun c => c.1.isEmpty then .array (elements cs)
    else .object (members cs)

def elements : List (Bytes × Ptree) → List (Value K)
  | [] => []
  | (_, t) :: rest => ofTree t :: elements rest

def members : List (Bytes × Ptree) → List (Bytes × Value K)
  | [] => []
  | (k, t) :: rest => (k, ofTree t) :: members rest
end

/-- The outermost tree is always an object. -/
def ofRoot (t : Ptree) : Value K := .object (members t.children)

theorem members_eq (cs : List (Bytes × Ptree)) :
    (members cs : List (Bytes × Value K)) = cs.map fun c => (c.1, ofTree c.2) := by
  induction cs with
  | nil => rfl
  | cons c rest ih => rw [members, ih, List.map_cons]

theorem elements_eq (cs : List (Bytes × Ptree)) :
    (elements cs : List (Value K)) = cs.map fun c => ofTree c.2 := by
  induction cs with
  | nil => rfl
  | cons c rest ih => rw [elements, ih, List.map_cons]

@[simp] theorem ofTree_leaf (v : Bytes) : (ofTree (Ptree.leaf v) : Value K) = .string v := rfl

/-- An array of strings; the empty one is written as the empty string. -/
theorem ofTree_makeArray (values : List Bytes) : (ofTree (makeArray values) : Value K) =
    if values = [] then .string [] else .array (values.map .string) := by
  have hempty : ∀ cs : List (Bytes × Ptree), cs.isEmpty = true ↔ cs = [] :=
    fun cs => List.isEmpty_iff
  rw [makeArray, ofTree]
  by_cases h : values = []
  · subst h
    rfl
  · rw [if_neg (by simpa [hempty] using h), if_pos (by simp), if_neg h, elements_eq, List.map_map]
    rfl

/-! ### Trees of fields -/

/-- What a field of a tree is: a string that is put, or a subtree that is added. -/
inductive Field where
  | text (value : Bytes)
  | tree (t : Ptree)

def Field.child : Field → Ptree
  | .text value => .leaf value
  | .tree t => t

def addField (t : Ptree) (key : Bytes) : Field → Ptree
  | .text value => t.put key value
  | .tree child => t.addChild key child

/-- The tree made by adding fields one after the other. -/
def build (fields : List (Bytes × Field)) : Ptree :=
  fields.foldl (fun t kf => addField t kf.1 kf.2) Ptree.empty

theorem build_eq {fields : List (Bytes × Field)} (h : FieldNames (fields.map Prod.fst)) :
    build fields = .node [] (fields.map fun kf => (kf.1, kf.2.child)) := by
  have loop : ∀ (fields : List (Bytes × Field)) (cs : List (Bytes × Ptree)),
      (∀ kf ∈ fields, Ptree.IsName kf.1) → (cs.map Prod.fst ++ fields.map Prod.fst).Nodup →
      fields.foldl (fun t kf => addField t kf.1 kf.2) (.node [] cs) =
        .node [] (cs ++ fields.map fun kf => (kf.1, kf.2.child)) := by
    intro fields
    induction fields with
    | nil =>
      intro cs _ _
      simp
    | cons kf rest ih =>
      intro cs hname hnodup
      have hadd : addField (.node [] cs) kf.1 kf.2 = .node [] (cs ++ [(kf.1, kf.2.child)]) := by
        obtain ⟨k, f⟩ := kf
        cases f with
        | text value =>
          refine Ptree.put_of_notMem (hname _ List.mem_cons_self) fun hmem => ?_
          exact (List.nodup_append.mp hnodup).2.2 _ hmem _ List.mem_cons_self rfl
        | tree t => rfl
      rw [List.foldl_cons, hadd, ih _ fun x hx => hname x (List.mem_cons_of_mem _ hx)]
      · simp
      · simpa using hnodup
  have hbuild := loop fields [] (fun kf hkf => h.isName _ (List.mem_map_of_mem hkf))
    (by simpa using h.nodup)
  simpa [build, Ptree.empty] using hbuild

/-- Each field is found under its key. -/
theorem getChild_build {fields : List (Bytes × Field)} (h : FieldNames (fields.map Prod.fst))
    {key : Bytes} {field : Field} (hmem : (key, field) ∈ fields) :
    (build fields).getChild key = some field.child := by
  rw [build_eq h]
  refine Ptree.getChild_of_mem (h.isName key (List.mem_map_of_mem hmem)) ?_
    (List.mem_map.mpr ⟨_, hmem, rfl⟩)
  rw [List.map_map]
  exact h.nodup

theorem ofRoot_build {fields : List (Bytes × Field)} (h : FieldNames (fields.map Prod.fst)) :
    (ofRoot (build fields) : Value K) =
      .object (fields.map fun kf => (kf.1, ofTree kf.2.child)) := by
  rw [ofRoot, build_eq h, Ptree.children_node, members_eq, List.map_map]
  rfl

/-- A tree of fields inside another is written as an object too. -/
theorem ofTree_build {fields : List (Bytes × Field)} (h : FieldNames (fields.map Prod.fst))
    (hne : fields ≠ []) : (ofTree (build fields) : Value K) = ofRoot (build fields) := by
  obtain ⟨kf, rest, rfl⟩ := List.exists_cons_of_ne_nil hne
  have hname := (Ptree.isName_iff.mp (h.isName kf.1 List.mem_cons_self)).1
  rw [ofRoot_build h, build_eq h, ofTree, if_neg (by simp), if_neg (by simp [hname]), members_eq,
    List.map_map]
  rfl

/-! ### Paths -/

section Paths
open Ptree

theorem head_fragmentsFrom (cur path : Bytes) :
    (fragmentsFrom cur path).head? = some (cur ++ path.takeWhile (· ≠ 46)) := by
  induction path generalizing cur with
  | nil => simp [fragmentsFrom]
  | cons c rest ih =>
    rw [fragmentsFrom]
    by_cases hc : c = 46
    · simp [hc]
    · rw [if_neg hc, ih, List.takeWhile_cons_of_pos (by simpa using hc), List.append_assoc,
        List.singleton_append]

/-- A path starts with what comes before its first dot. -/
theorem head_fragments {path : Bytes} (h : path ≠ []) :
    (fragments path).head? = some (path.takeWhile (· ≠ 46)) := by
  rw [fragments, if_neg h, head_fragmentsFrom, List.nil_append]

theorem names_subset_alterChild (key : Bytes) (f : Ptree → Ptree) (cs : List (Bytes × Ptree)) :
    key ∈ (alterChild key f cs).map Prod.fst ∧
      ∀ name ∈ cs.map Prod.fst, name ∈ (alterChild key f cs).map Prod.fst := by
  induction cs with
  | nil => simp [alterChild]
  | cons c rest ih =>
    obtain ⟨k, t⟩ := c
    rw [alterChild]
    split
    · rename_i hk
      simp [hk]
    · simp only [List.map_cons, List.mem_cons]
      exact ⟨Or.inr ih.1, fun name hname => hname.imp id (ih.2 name)⟩

/-- `put` keeps the names and adds the first fragment of its path. -/
theorem names_subset_put (t : Ptree) (path value : Bytes) :
    (∀ name, (fragments path).head? = some name →
        name ∈ (t.put path value).children.map Prod.fst) ∧
      ∀ name ∈ t.children.map Prod.fst, name ∈ (t.put path value).children.map Prod.fst := by
  obtain ⟨d, cs⟩ := t
  rw [put]
  cases fragments path with
  | nil =>
    constructor
    · intro name h
      cases h
    · exact fun _ h => h
  | cons k ks =>
    obtain ⟨hself, hold⟩ := names_subset_alterChild k (putAt ks value) cs
    refine ⟨fun name hname => ?_, hold⟩
    obtain rfl := Option.some.inj hname
    exact hself

/-- The names at the root are the first fragments of the paths. -/
theorem mem_names_flatTree_iff {fields : List (Bytes × Bytes)} {name : Bytes} :
    name ∈ (flatTree fields).children.map Prod.fst ↔
      ∃ kv ∈ fields, (fragments kv.1).head? = some name := by
  constructor
  · exact mem_names_flatTree
  · have keep : ∀ (fields : List (Bytes × Bytes)) (t : Ptree),
        name ∈ t.children.map Prod.fst →
        name ∈ (fields.foldl (fun t kv => t.put kv.1 kv.2) t).children.map Prod.fst := by
      intro fields
      induction fields with
      | nil => exact fun _ h => h
      | cons kv rest ih => exact fun t h => ih _ ((names_subset_put t kv.1 kv.2).2 name h)
    have loop : ∀ (fields : List (Bytes × Bytes)) (t : Ptree),
        (∃ kv ∈ fields, (fragments kv.1).head? = some name) →
        name ∈ (fields.foldl (fun t kv => t.put kv.1 kv.2) t).children.map Prod.fst := by
      intro fields
      induction fields with
      | nil =>
        rintro t ⟨kv, hkv, -⟩
        cases hkv
      | cons kv rest ih =>
        rintro t ⟨kv', hkv', hhead⟩
        rcases List.mem_cons.mp hkv' with rfl | hrest
        · exact keep rest _ ((names_subset_put t kv'.1 kv'.2).1 name hhead)
        · exact ih _ ⟨kv', hrest, hhead⟩
    exact loop fields Ptree.empty

end Paths

/-! ### Text -/

section Text
variable (showDouble : K → Bytes)

def showInt (n : Int) : Bytes := (if n < 0 then [45] else []) ++ decimal n.natAbs

mutual
def print : Value K → Bytes
  | .null => ascii "null"
  | .bool b => showBool b
  | .int n => showInt n
  | .double x => showDouble x
  | .string s => JsonText.quote s
  | .array items => 91 :: printItems items ++ [93]
  | .object ms => 123 :: printFields ms ++ [125]

def printItems : List (Value K) → Bytes
  | [] => []
  | v :: rest => print v ++ (if rest.isEmpty then [] else 44 :: printItems rest)

def printFields : List (Bytes × Value K) → Bytes
  | [] => []
  | (k, v) :: rest => JsonText.quote k ++ [58] ++ print v ++
      (if rest.isEmpty then [] else 44 :: printFields rest)
end

mutual
theorem print_ofTree (t : Ptree) : print showDouble (ofTree t) = JsonText.printValue t := by
  match t with
  | .node d cs =>
    rw [ofTree, JsonText.printValue]
    split
    · rfl
    · split
      · rw [print, printItems_elements]
      · rw [print, printFields_members]

theorem printItems_elements (cs : List (Bytes × Ptree)) :
    printItems showDouble (elements cs) = JsonText.printMembers false cs := by
  match cs with
  | [] => rfl
  | (k, t) :: rest =>
    have hlast : (elements rest : List (Value K)).isEmpty = rest.isEmpty := by
      rw [elements_eq, List.isEmpty_map]
    rw [elements, printItems, JsonText.printMembers, print_ofTree, printItems_elements, hlast]
    rfl

theorem printFields_members (cs : List (Bytes × Ptree)) :
    printFields showDouble (members cs) = JsonText.printMembers true cs := by
  match cs with
  | [] => rfl
  | (k, t) :: rest =>
    have hlast : (members rest : List (Bytes × Value K)).isEmpty = rest.isEmpty := by
      rw [members_eq, List.isEmpty_map]
    rw [members, printFields, JsonText.printMembers, print_ofTree, printFields_members, hlast]
    rfl
end

/-- What `write_json` prints of a tree is the text of its value. -/
theorem print_ofRoot (t : Ptree) : print showDouble (ofRoot t) = JsonText.print t := by
  rw [ofRoot, print, printFields_members]
  rfl

end Text

/-! ### Members -/

/-- The first member of a name. -/
def lookup (key : Bytes) : List (Bytes × Value K) → Option (Value K)
  | [] => none
  | (k, v) :: rest => if k = key then some v else lookup key rest

def Value.member : Value K → Bytes → Option (Value K)
  | .object ms, key => lookup key ms
  | _, _ => none

def alterFirst (key : Bytes) (f : Value K → Value K) :
    List (Bytes × Value K) → List (Bytes × Value K)
  | [] => []
  | (k, v) :: rest => if k = key then (k, f v) :: rest else (k, v) :: alterFirst key f rest

/-- Change the member of a name, where there is one. -/
def Value.onMember (key : Bytes) (f : Value K → Value K) : Value K → Value K
  | .object ms => .object (alterFirst key f ms)
  | v => v

/-- Change members one after the other. -/
def Value.edit (fs : List (Bytes × (Value K → Value K))) (v : Value K) : Value K :=
  fs.foldl (fun v kf => v.onMember kf.1 kf.2) v

/-- The edits of one name. -/
def editsAt (fs : List (Bytes × (Value K → Value K))) (key : Bytes) (v : Value K) : Value K :=
  fs.foldl (fun v kf => if key = kf.1 then kf.2 v else v) v

theorem alterFirst_eq {key : Bytes} {f : Value K → Value K} {ms : List (Bytes × Value K)}
    (h : (ms.map Prod.fst).Nodup) :
    alterFirst key f ms = ms.map fun m => (m.1, if m.1 = key then f m.2 else m.2) := by
  induction ms with
  | nil => rfl
  | cons m rest ih =>
    obtain ⟨k, v⟩ := m
    rw [List.map_cons, List.nodup_cons] at h
    rw [alterFirst, List.map_cons, ih h.2]
    by_cases hk : k = key
    · subst hk
      have hrest : (rest.map fun m => (m.1, if m.1 = k then f m.2 else m.2)) = rest := by
        refine (List.map_congr_left fun m hm => ?_).trans (List.map_id rest)
        have hne : m.1 ≠ k := fun heq => h.1 (List.mem_map.mpr ⟨m, hm, heq⟩)
        rw [if_neg hne, id]
      rw [if_pos rfl, if_pos rfl, hrest]
    · rw [if_neg hk, if_neg hk]

/-- In an object whose names differ every member gets the edits of its name. -/
theorem edit_object {ms : List (Bytes × Value K)} (h : (ms.map Prod.fst).Nodup)
    (fs : List (Bytes × (Value K → Value K))) :
    (Value.object ms).edit fs = .object (ms.map fun m => (m.1, editsAt fs m.1 m.2)) := by
  induction fs generalizing ms with
  | nil => simp [Value.edit, editsAt]
  | cons kf fs ih =>
    have hsplit : (Value.object ms).edit (kf :: fs) =
        (Value.object (alterFirst kf.1 kf.2 ms)).edit fs := rfl
    rw [hsplit, alterFirst_eq h, ih (by simpa [Function.comp_def] using h), List.map_map]
    rfl

theorem lookup_map (f : Bytes → Value K → Value K) (key : Bytes) (ms : List (Bytes × Value K)) :
    lookup key (ms.map fun m => (m.1, f m.1 m.2)) = (lookup key ms).map (f key) := by
  induction ms with
  | nil => rfl
  | cons m rest ih =>
    obtain ⟨k, v⟩ := m
    rw [List.map_cons, lookup, lookup, ih]
    split
    · rename_i hk
      rw [hk, Option.map_some]
    · rfl

theorem member_edit {ms : List (Bytes × Value K)} (h : (ms.map Prod.fst).Nodup)
    (fs : List (Bytes × (Value K → Value K))) (key : Bytes) :
    ((Value.object ms).edit fs).member key =
      ((Value.object ms).member key).map (editsAt fs key) := by
  rw [edit_object h]
  exact lookup_map (fun k => editsAt fs k) key ms

/-! ### Schemas -/

inductive ScalarType where
  | string | integer | number | boolean
  deriving DecidableEq

/-- The part of JSON Schema that describes a call: scalars with the values they
are limited to and their default, arrays, free objects, and records, which have
no members besides those described. -/
inductive Schema where
  | scalar (type : ScalarType) (description : Bytes) (choices : List Bytes)
      (fallback : Option Bytes)
  | anyArray (description : Bytes)
  | arrayOf (description : Bytes) (items : Schema)
  | anyObject (description : Bytes)
  | record (description : Bytes) (properties : List (Bytes × Schema)) (required : List Bytes)

/-- An integer is a number too. -/
def ScalarType.admits : ScalarType → Value K → Bool
  | .string, .string _ => true
  | .integer, .int _ => true
  | .number, .int _ => true
  | .number, .double _ => true
  | .boolean, .bool _ => true
  | _, _ => false

mutual
/-- Whether a value is of the types its schema declares, at every depth. -/
def Schema.admits : Schema → Value K → Bool
  | .scalar type _ _ _, v => type.admits v
  | .anyArray _, .array _ => true
  | .arrayOf _ items, .array xs => xs.all items.admits
  | .anyObject _, .object _ => true
  | .record _ properties required, .object ms =>
    (required.all fun key => (lookup key ms).isSome) &&
      ms.all fun m => admitsMember properties m.1 m.2
  | _, _ => false

/-- A member no property describes is not admitted. -/
def admitsMember : List (Bytes × Schema) → Bytes → Value K → Bool
  | [], _, _ => false
  | (k, schema) :: rest, key, v => if k = key then schema.admits v else admitsMember rest key v
end

theorem admits_record {description : Bytes} {properties : List (Bytes × Schema)}
    {required : List Bytes} {ms : List (Bytes × Value K)}
    (h : ∀ key ∈ required, key ∈ ms.map Prod.fst) :
    (Schema.record description properties required).admits (.object ms) = true ↔
      ∀ m ∈ ms, admitsMember properties m.1 m.2 = true := by
  have hsome : ∀ key ∈ ms.map Prod.fst, (lookup key ms).isSome = true := by
    clear h
    induction ms with
    | nil => simp
    | cons m rest ih =>
      intro key hkey
      rw [lookup]
      split
      · rfl
      · rename_i hne
        rcases List.mem_cons.mp hkey with heq | hrest
        · exact absurd heq.symm hne
        · exact ih key hrest
  rw [Schema.admits, Bool.and_eq_true, List.all_eq_true, List.all_eq_true]
  exact and_iff_right fun key hkey => hsome key (h key hkey)

theorem admits_arrayOf {description : Bytes} {items : Schema} {xs : List (Value K)} :
    (Schema.arrayOf description items).admits (.array xs) = true ↔
      ∀ x ∈ xs, items.admits x = true := by
  rw [Schema.admits, List.all_eq_true]

end JsonValue
