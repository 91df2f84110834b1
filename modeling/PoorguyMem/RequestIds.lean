import PoorguyMem.Responses

/-!
# Request ids

The route `POST /mcp` with both of its paths, and what becomes of the id of a
request. A response to a JSON-RPC request is put together as text around a
literal made from the id, the response to a direct request is a tree of strings
whose id is typed again by the normaliser.
-/

namespace PoorguyMem

open ByteString PropertyTree JsonValue

variable {K : Type}

/-! ### Literals -/

/-- A digit of `0123456789abcdef` -/
def lowerHexDigit (n : Nat) : UInt8 := UInt8.ofNat (if n < 10 then 48 + n else 87 + n)

/-- What `JsonEscape` makes of a byte. -/
def jsonEscape (c : UInt8) : Bytes :=
  if c = 34 then [92, 34]
  else if c = 92 then [92, 92]
  else if c = 8 then [92, 98]
  else if c = 12 then [92, 102]
  else if c = 10 then [92, 110]
  else if c = 13 then [92, 114]
  else if c = 9 then [92, 116]
  else if c < 32 then
    [92, 117, 48, 48, lowerHexDigit (c.toNat / 16), lowerHexDigit (c.toNat % 16)]
  else [c]

def jsonQuote (input : Bytes) : Bytes := 34 :: input.flatMap jsonEscape ++ [34]

/-- The id as JSON again; a number that is no integer is printed to a stream. -/
def jsonRpcIdLiteral (streamed : K → Bytes) : Option (Value K) → Bytes
  | some (.bool b) => showBool b
  | some (.int n) => showInt n
  | some (.double x) => streamed x
  | some (.string id) => jsonQuote (cString id)
  | _ => ascii "null"

def jsonRpcError (idLiteral : Bytes) (code : Int) (message : Bytes) : Bytes :=
  ascii "\x7b\"jsonrpc\":\"2.0\",\"id\":" ++ (idLiteral ++ (ascii ",\"error\":\x7b\"code\":" ++
    showInt code ++ ascii ",\"message\":" ++ jsonQuote message ++ ascii "\x7d\x7d"))

def jsonRpcResult (idLiteral resultJson : Bytes) : Bytes :=
  ascii "\x7b\"jsonrpc\":\"2.0\",\"id\":" ++ (idLiteral ++ (ascii ",\"result\":" ++
    resultJson ++ ascii "\x7d"))

def initializeResultJson : Bytes :=
  ascii ("\x7b\"protocolVersion\":\"2024-11-05\",\"capabilities\":\x7b\"tools\":" ++
    "\x7b\"listChanged\":false\x7d\x7d,\"serverInfo\":\x7b\"name\":\"poorguy-mem\"," ++
    "\"version\":\"2.0.0\"\x7d,\"instructions\":\"Use tools memory.write/query/pin/stats/compact." ++
    " Call memory.describe for full schema.\"\x7d")

def toolCallResultJson (text : Bytes) (isError : Bool) : Bytes :=
  ascii "\x7b\"content\":[\x7b\"type\":\"text\",\"text\":" ++ jsonQuote text ++
    ascii "\x7d],\"isError\":" ++ showBool isError ++ ascii "\x7d"

/-! ### The list of tools -/

/-- `FindMethodSpec` -/
def findMethodSpec (methods : Ptree) (methodName : Bytes) : Option Ptree :=
  (methods.children.find? fun node => node.1 = methodName).map Prod.snd

def toolTree (methodName : Bytes) (methodSpec : Ptree) : Ptree :=
  let tool := (Ptree.empty.put (ascii "name") methodName).put (ascii "description")
    (methodSpec.getString (ascii "summary") [])
  tool.addChild (ascii "inputSchema")
    ((methodSpec.getChild (ascii "input_schema")).getD
      (Ptree.empty.put (ascii "type") (ascii "object")))

/-- `ToolsListResultJson`, before it is printed -/
def toolsListResult (describe : Ptree) : Ptree :=
  let tools : List (Bytes × Ptree) :=
    match describe.getChild (ascii "method_names"), describe.getChild (ascii "methods") with
    | some methodNames, some methods => methodNames.children.filterMap fun node =>
      let methodName := node.2.data
      if (ascii "memory.").isPrefixOf methodName then
        (findMethodSpec methods methodName).map fun methodSpec =>
          ([], toolTree methodName methodSpec)
      else none
    | _, _ => []
  Ptree.empty.addChild (ascii "tools") (.node [] tools)

/-! ### The route -/

/-- A body that is a JSON object, as both libraries read it: its members, and the
tree of its texts. An integer keeps its text, which is its numeral but for a
negative zero. -/
structure McpBody (K : Type) where
  members : List (Bytes × Value K)
  tree : Ptree
  string_child : ∀ key s, Ptree.IsName key → lookup key members = some (.string s) →
    tree.getChild key = some (.leaf s)
  int_child : ∀ key n, Ptree.IsName key → lookup key members = some (.int n) →
    ∃ text, tree.getChild key = some (.leaf text) ∧
      (text = showInt n ∨ n = 0 ∧ text = ascii "-0")

/-- A response as text, or the document that is printed as one. -/
inductive McpReply (K : Type) where
  | text (status : Nat) (body : Bytes)
  | document (doc : Value K)

def McpReply.status : McpReply K → Nat
  | .text status _ => status
  | .document _ => 200

section Route
variable [Field K] [LinearOrder K] (srv : Server K) (occ : Occasion K)
variable (printed : Value K → Bytes) (streamed : K → Bytes)

def rpcReplyText (idLiteral : Bytes) : RpcReply K → Bytes
  | .error code message => jsonRpcError idLiteral code message
  | .result value => jsonRpcResult idLiteral (printed value)
  | .toolResult text isError => jsonRpcResult idLiteral (toolCallResultJson (printed text) isError)

/-- A request whose version and method are in order. -/
def dispatchRpc (w : World K) (idLiteral method : Bytes) (params : Option (Value K)) :
    World K × Option (McpReply K) :=
  let answered := fun (out : World K × Option (RpcReply K)) =>
    (out.1, out.2.map fun reply => McpReply.text 200 (rpcReplyText printed idLiteral reply))
  if method = ascii "notifications/initialized" then (w, some (.text 204 []))
  else if method = ascii "initialize" then
    (w, some (.text 200 (jsonRpcResult idLiteral initializeResultJson)))
  else if method = ascii "ping" then
    (w, some (.text 200 (jsonRpcResult idLiteral (ascii "\x7b\x7d"))))
  else if method = ascii "tools/list" then
    let tools := toolsListResult (describe srv.env.translators false (srv.env.clock w.tick))
    answered ({ w with tick := w.tick + 1 }, (toJson tools).map fun result =>
      .result (normalizeResultByMethod srv (ascii "tools.list") result))
  else if method = ascii "tools/call" then answered (callTool srv occ w params)
  else if (ascii "memory.").isPrefixOf method ∨ method = ascii "store.compact" then
    answered (callMethod srv occ w method params)
  else answered (w, some (.error (-32601) (ascii "method not found")))

/-- `HandleMcpJsonRpc` on a body that is an object; status 0 passes the request on. -/
def handleMcpJsonRpc (w : World K) (body : McpBody K) : World K × Option (McpReply K) :=
  match lookup (ascii "jsonrpc") body.members with
  | none => (w, some (.text 0 []))
  | some version =>
    let idLiteral := jsonRpcIdLiteral streamed (lookup (ascii "id") body.members)
    let invalid := fun (message : String) =>
      (w, some (McpReply.text 200 (jsonRpcError idLiteral (-32600) (ascii message))))
    match version with
    | .string version =>
      if cString version = ascii "2.0" then
        match lookup (ascii "method") body.members with
        | some (.string method) => dispatchRpc srv occ printed w idLiteral (cString method)
            (lookup (ascii "params") body.members)
        | _ => invalid "invalid request: method must be string"
      else invalid "invalid request: jsonrpc must be 2.0"
    | _ => invalid "invalid request: jsonrpc must be 2.0"

/-- The handler of `POST /mcp` -/
def postMcp (ready : Bool) (w : World K) (body : McpBody K) : World K × Option (McpReply K) :=
  if ready then
    match handleMcpJsonRpc srv occ printed streamed w body with
    | (w, some reply) =>
      if reply.status = 0 then
        let (w, doc) := callDirect srv occ w body.tree
        (w, doc.map .document)
      else (w, some reply)
    | (w, none) => (w, none)
  else (w, some (.text 503 (ascii "\x7b\"error\":\"server is warming up\"\x7d")))

end Route

/-! ### Reading the id of a response -/

def hexDigitValue (c : UInt8) : Nat :=
  if c.toNat < 58 then c.toNat - 48 else if c.toNat < 71 then c.toNat - 55 else c.toNat - 87

/-- The byte of an escape sequence after its backslash, and the text that follows. -/
def readEscape : Bytes → Option (UInt8 × Bytes)
  | [] => none
  | c :: rest =>
    if c = 98 then some (8, rest)
    else if c = 102 then some (12, rest)
    else if c = 110 then some (10, rest)
    else if c = 114 then some (13, rest)
    else if c = 116 then some (9, rest)
    else if c = 117 then
      match rest with
      | 48 :: 48 :: h :: l :: rest =>
        some (UInt8.ofNat (16 * hexDigitValue h + hexDigitValue l), rest)
      | _ => none
    else if c = 34 ∨ c = 92 ∨ c = 47 then some (c, rest)
    else none

/-- A string up to its closing quote, and the text after it. -/
def readChars : Nat → Bytes → Option (Bytes × Bytes)
  | fuel + 1, c :: rest =>
    if c = 34 then some ([], rest)
    else if c = 92 then
      match readEscape rest with
      | none => none
      | some (x, rest) => (readChars fuel rest).map fun p => (x :: p.1, p.2)
    else (readChars fuel rest).map fun p => (c :: p.1, p.2)
  | _, _ => none

/-- A string or an integer, and the text after it. -/
def readIdValue : Bytes → Option (Value K × Bytes)
  | 34 :: rest => (readChars rest.length rest).map fun p => (.string p.1, p.2)
  | 45 :: rest => some (.int (-digitsValue (rest.takeWhile isDigit)), rest.dropWhile isDigit)
  | rest => some (.int (digitsValue (rest.takeWhile isDigit)), rest.dropWhile isDigit)

/-- The first member named `id`, behind members that are strings or integers. -/
def readIdMember : Nat → Bytes → Option (Value K)
  | fuel + 1, 34 :: rest =>
    match readChars rest.length rest with
    | some (key, 58 :: rest) =>
      match readIdValue rest with
      | some (v, 44 :: rest) => if key = ascii "id" then some v else readIdMember fuel rest
      | _ => none
    | _ => none
  | _, _ => none

def readId : Bytes → Option (Value K)
  | 123 :: rest => readIdMember rest.length rest
  | _ => none

/-- The id a response carries. -/
def McpReply.id? : McpReply K → Option (Value K)
  | .text _ body => readId body
  | .document doc => doc.member (ascii "id")

/-! ### When the id survives -/

/-- The ids a request can be told apart by: strings and integers of 64 bits, with a
sign or without. -/
inductive IsId : Value K → Prop where
  | string (s : Bytes) : IsId (.string s)
  | int (n : Int) (hlo : -2 ^ 63 ≤ n) (hhi : n < 2 ^ 64) : IsId (.int n)

/-- The texts `strtoll` reads to their end: blanks, a sign and the digits of an
integer of 64 bits with a sign. -/
def IsInt64Text (text : Bytes) : Prop :=
  ∃ blanks sign digits, text = blanks ++ (sign ++ digits) ∧ (∀ c ∈ blanks, isSpace c = true) ∧
    sign ∈ [[], [43], [45]] ∧ digits ≠ [] ∧ IsDigits digits ∧
    digitsValue digits < 2 ^ 63 + (if sign = [45] then 1 else 0)

/-- A JSON-RPC response loses what follows a zero byte of the id; a direct one makes
a number of a string that can be read as one, and a string of an integer that is
too large for a sign. -/
def McpBody.CarriesId (body : McpBody K) : Value K → Prop
  | .string id =>
    if (lookup (ascii "jsonrpc") body.members).isSome then 0 ∉ id else ¬ IsInt64Text (cString id)
  | .int n => (lookup (ascii "jsonrpc") body.members).isSome ∨ n < 2 ^ 63
  | _ => True

/-! ### Reading what was written -/

theorem hexDigitValue_lowerHexDigit : ∀ n < 16, hexDigitValue (lowerHexDigit n) = n := by decide

theorem readEscape_jsonEscape (c : UInt8) (rest : Bytes) :
    (∃ e, jsonEscape c = 92 :: e ∧ readEscape (e ++ rest) = some (c, rest)) ∨
      jsonEscape c = [c] ∧ c ≠ 34 ∧ c ≠ 92 := by
  unfold jsonEscape
  split
  · subst_vars
    exact Or.inl ⟨_, rfl, rfl⟩
  rename_i hquote
  split
  · subst_vars
    exact Or.inl ⟨_, rfl, rfl⟩
  rename_i hslash
  split
  · subst_vars
    exact Or.inl ⟨_, rfl, rfl⟩
  split
  · subst_vars
    exact Or.inl ⟨_, rfl, rfl⟩
  split
  · subst_vars
    exact Or.inl ⟨_, rfl, rfl⟩
  split
  · subst_vars
    exact Or.inl ⟨_, rfl, rfl⟩
  split
  · subst_vars
    exact Or.inl ⟨_, rfl, rfl⟩
  split
  · rename_i hcontrol
    refine Or.inl ⟨_, rfl, ?_⟩
    have hlt : c.toNat < 32 := UInt8.lt_iff_toNat_lt.mp hcontrol
    have hhi := hexDigitValue_lowerHexDigit (c.toNat / 16) (by omega)
    have hlo := hexDigitValue_lowerHexDigit (c.toNat % 16) (by omega)
    have hsum : UInt8.ofNat (16 * (c.toNat / 16) + c.toNat % 16) = c := by
      rw [Nat.div_add_mod, UInt8.ofNat_toNat]
    simp [readEscape, hhi, hlo, hsum]
  · exact Or.inr ⟨rfl, hquote, hslash⟩

theorem readChars_quoted (s rest : Bytes) (fuel : Nat)
    (h : (s.flatMap jsonEscape).length < fuel) :
    readChars fuel (s.flatMap jsonEscape ++ 34 :: rest) = some (s, rest) := by
  induction s generalizing fuel with
  | nil =>
    obtain ⟨fuel, rfl⟩ := Nat.exists_eq_succ_of_ne_zero (Nat.ne_of_gt h)
    rfl
  | cons c s ih =>
    obtain ⟨fuel, rfl⟩ := Nat.exists_eq_succ_of_ne_zero (Nat.ne_of_gt (Nat.zero_lt_of_lt h))
    rw [List.flatMap_cons, List.length_append] at h
    rw [List.flatMap_cons, List.append_assoc]
    rcases readEscape_jsonEscape c (s.flatMap jsonEscape ++ 34 :: rest) with
      ⟨e, he, hread⟩ | ⟨he, hquote, hslash⟩
    · rw [he, List.length_cons] at h
      rw [he, List.cons_append, readChars, if_neg (by decide), if_pos rfl, hread]
      simp only [ih fuel (by omega), Option.map_some]
    · rw [he, List.length_singleton] at h
      rw [he, List.singleton_append, readChars, if_neg hquote, if_neg hslash, ih fuel (by omega)]
      rfl

theorem readIdValue_jsonQuote (s rest : Bytes) :
    readIdValue (jsonQuote s ++ rest) = some ((.string s : Value K), rest) := by
  have hread := readChars_quoted s rest (s.flatMap jsonEscape ++ 34 :: rest).length
    (by rw [List.length_append, List.length_cons]; omega)
  have htext : jsonQuote s ++ rest = 34 :: (s.flatMap jsonEscape ++ 34 :: rest) := by
    simp [jsonQuote]
  rw [htext, readIdValue, hread]
  rfl

/-- The digits of a numeral end where it ends. -/
theorem span_decimal (n : Nat) (rest : Bytes) :
    (decimal n ++ 44 :: rest).takeWhile isDigit = decimal n ∧
      (decimal n ++ 44 :: rest).dropWhile isDigit = 44 :: rest := by
  have hall : ∀ c ∈ decimal n, isDigit c = true := by
    intro c hc
    have := isDigits_decimal n c hc
    simp [isDigit, this]
  constructor
  · rw [List.takeWhile_append_of_pos hall]
    simp [isDigit]
  · rw [List.dropWhile_append_of_pos hall]
    simp [isDigit]

theorem readIdValue_showInt (n : Int) (rest : Bytes) :
    readIdValue (showInt n ++ 44 :: rest) = some ((.int n : Value K), 44 :: rest) := by
  obtain ⟨htake, hdrop⟩ := span_decimal n.natAbs rest
  by_cases hneg : n < 0
  · have htext : showInt n ++ 44 :: rest = 45 :: (decimal n.natAbs ++ 44 :: rest) := by
      simp [showInt, hneg]
    rw [htext, readIdValue, htake, hdrop, digitsValue_decimal]
    have hvalue : -(n.natAbs : Int) = n := by omega
    rw [hvalue]
  · obtain ⟨c, more, hcons⟩ := List.exists_cons_of_ne_nil (Reference.decimal_ne_nil n.natAbs)
    have hc : c ∈ decimal n.natAbs := by simp [hcons]
    have hquote := ne_of_isDigits (b := 34) (isDigits_decimal _) hc (by decide)
    have hminus := ne_of_isDigits (b := 45) (isDigits_decimal _) hc (by decide)
    have htext : showInt n ++ 44 :: rest = decimal n.natAbs ++ 44 :: rest := by
      simp [showInt, hneg]
    have hvalue : (n.natAbs : Int) = n := by omega
    have hread : readIdValue (decimal n.natAbs ++ 44 :: rest) = some
        ((.int (digitsValue ((decimal n.natAbs ++ 44 :: rest).takeWhile isDigit)) : Value K),
          (decimal n.natAbs ++ 44 :: rest).dropWhile isDigit) := by
      rw [hcons, List.cons_append]
      unfold readIdValue
      split
      · rename_i heq
        exact absurd (List.cons.inj heq).1 hquote
      · rename_i heq
        exact absurd (List.cons.inj heq).1 hminus
      · rfl
    rw [htext, hread, htake, hdrop, digitsValue_decimal, hvalue]

/-- The id of a JSON-RPC response is the value of its literal. -/
theorem readId_response {idLiteral rest : Bytes} {v : Value K}
    (h : readIdValue (idLiteral ++ 44 :: rest) = some (v, 44 :: rest)) :
    readId (ascii "\x7b\"jsonrpc\":\"2.0\",\"id\":" ++ (idLiteral ++ 44 :: rest)) = some v := by
  have hstart : ∀ text : Bytes,
      (readId (ascii "\x7b\"jsonrpc\":\"2.0\",\"id\":" ++ text) : Option (Value K)) =
        match readIdValue text with
        | some (v, 44 :: _) => some v
        | _ => none := fun text => rfl
  rw [hstart, h]
  rfl

/-! ### What the normaliser takes for a number -/

/-- `strtoll` on blanks, a sign and digits -/
theorem parseInt64Literal_parts {blanks sign digits : Bytes}
    (hblanks : ∀ c ∈ blanks, isSpace c = true) (hsign : sign ∈ [[], [43], [45]])
    (hne : digits ≠ []) (hdigits : IsDigits digits) :
    parseInt64Literal (blanks ++ (sign ++ digits)) =
      if digitsValue digits < 2 ^ 63 + (if sign = [45] then 1 else 0) then
        some (if sign = [45] then -(digitsValue digits : Int) else digitsValue digits)
      else none := by
  obtain ⟨c, rest, rfl⟩ := List.exists_cons_of_ne_nil hne
  have hc := hdigits c List.mem_cons_self
  have hminus : c ≠ 45 := ne_of_isDigits hdigits List.mem_cons_self (by decide)
  have hplus : c ≠ 43 := ne_of_isDigits hdigits List.mem_cons_self (by decide)
  have hspace : isSpace c = false := by
    have hblank : c ≠ 32 := ne_of_isDigits hdigits List.mem_cons_self (by decide)
    simp only [isSpace, Bool.or_eq_false_iff, decide_eq_false_iff_not, Bool.and_eq_false_iff]
    refine ⟨hblank, Or.inr ?_⟩
    simp only [UInt8.le_iff_toNat_le]
    simp
    omega
  have hall : (c :: rest).all isDigit = true := by
    rw [List.all_eq_true]
    intro d hd
    have := hdigits d hd
    simp [isDigit, this]
  have hread : (readSign ((blanks ++ (sign ++ c :: rest)).dropWhile isSpace)) =
      (decide (sign = [45]), c :: rest) := by
    rw [List.dropWhile_append_of_pos hblanks]
    simp only [List.mem_cons, List.not_mem_nil, or_false] at hsign
    rcases hsign with rfl | rfl | rfl
    · rw [List.nil_append, List.dropWhile_cons_of_neg (by simp [hspace])]
      unfold readSign
      split
      · rename_i heq
        exact absurd (List.cons.inj heq).1 hminus
      · rename_i heq
        exact absurd (List.cons.inj heq).1 hplus
      · rfl
    · rfl
    · rfl
  unfold parseInt64Literal
  rw [hread]
  simp only [hall, Bool.not_true, Bool.false_eq_true, or_false, reduceCtorEq, if_false]
  by_cases hneg : sign = [45]
  · simp only [hneg, decide_true, if_true]
    by_cases hrange : digitsValue (c :: rest) < 2 ^ 63 + 1
    · rw [if_pos hrange, if_pos (by omega)]
    · rw [if_neg hrange, if_neg (by omega)]
  · simp only [hneg, decide_false, Bool.false_eq_true, if_false]
    by_cases hrange : digitsValue (c :: rest) < 2 ^ 63 + 0
    · rw [if_pos hrange, if_pos (by omega)]
    · rw [if_neg hrange, if_neg (by omega)]

theorem parseInt64Literal_eq_none_iff {text : Bytes} :
    parseInt64Literal text = none ↔ ¬ IsInt64Text text := by
  constructor
  · rintro hnone ⟨blanks, sign, digits, rfl, hblanks, hsign, hne, hdigits, hlt⟩
    rw [parseInt64Literal_parts hblanks hsign hne hdigits, if_pos hlt] at hnone
    cases hnone
  · intro hnot
    by_contra hsome
    have hparts : ∃ sign digits, text.dropWhile isSpace = sign ++ digits ∧
        sign ∈ [[], [43], [45]] ∧ readSign (text.dropWhile isSpace) =
          (decide (sign = [45]), digits) := by
      unfold readSign
      split
      · rename_i rest heq
        exact ⟨[45], rest, heq, by simp, rfl⟩
      · rename_i rest heq
        exact ⟨[43], rest, heq, by simp, rfl⟩
      · exact ⟨[], _, rfl, by simp, rfl⟩
    obtain ⟨sign, digits, htext, hsign, hread⟩ := hparts
    have hblanks : ∀ c ∈ text.takeWhile isSpace, isSpace c = true :=
      fun c hc => List.mem_takeWhile_imp hc
    have hsplit : text = text.takeWhile isSpace ++ (sign ++ digits) := by
      rw [← htext, List.takeWhile_append_dropWhile]
    by_cases hdigits : digits = [] ∨ !digits.all isDigit
    · apply hsome
      unfold parseInt64Literal
      rw [hread]
      simp only [if_pos hdigits]
    · obtain ⟨hne, hall⟩ := not_or.mp hdigits
      have hisDigits : IsDigits digits := by
        intro c hc
        simp only [Bool.not_eq_true', Bool.not_eq_false, List.all_eq_true] at hall
        simpa [isDigit] using hall c hc
      rw [hsplit, parseInt64Literal_parts hblanks hsign hne hisDigits] at hsome
      by_cases hrange : digitsValue digits < 2 ^ 63 + (if sign = [45] then 1 else 0)
      · exact hnot ⟨_, sign, digits, hsplit, hblanks, hsign, hne, hisDigits, hrange⟩
      · rw [if_neg hrange] at hsome
        exact hsome rfl

theorem parseInt64Literal_showInt {n : Int} (hlo : -2 ^ 63 ≤ n) :
    parseInt64Literal (showInt n) = if n < 2 ^ 63 then some n else none := by
  have hdigits := isDigits_decimal n.natAbs
  have hne := Reference.decimal_ne_nil n.natAbs
  by_cases hneg : n < 0
  · have hparts := @parseInt64Literal_parts [] [45] _ (by simp) (by simp) hne hdigits
    simp only [List.nil_append, digitsValue_decimal, if_true] at hparts
    rw [showInt, if_pos hneg, hparts, if_pos (by omega), if_pos (by omega)]
    have hvalue : -(n.natAbs : Int) = n := by omega
    rw [hvalue]
  · have hparts := @parseInt64Literal_parts [] [] _ (by simp) (by simp) hne hdigits
    have hsign : ([] : Bytes) ≠ [45] := by decide
    simp only [List.nil_append, digitsValue_decimal, if_neg hsign] at hparts
    rw [showInt, if_neg hneg, List.nil_append, hparts]
    have hvalue : (n.natAbs : Int) = n := by omega
    rw [hvalue]
    by_cases hlt : n < 2 ^ 63
    · rw [if_pos hlt, if_pos (by omega)]
    · rw [if_neg hlt, if_neg (by omega)]

/-! ### The JSON-RPC path -/

theorem cString_eq_iff {s : Bytes} : cString s = s ↔ 0 ∉ s := by
  constructor
  · intro h hzero
    rw [← h] at hzero
    simpa using List.mem_takeWhile_imp hzero
  · exact cString_of_notMem

/-- The id a JSON-RPC response carries for one of these. -/
def literalValue : Value K → Value K
  | .string id => .string (cString id)
  | v => v

theorem readIdValue_literal {streamed : K → Bytes} {id : Value K} (h : IsId id) (rest : Bytes) :
    readIdValue (jsonRpcIdLiteral streamed (some id) ++ 44 :: rest) =
      some (literalValue id, 44 :: rest) := by
  cases h with
  | string s => exact readIdValue_jsonQuote (cString s) (44 :: rest)
  | int n _ _ => exact readIdValue_showInt n rest

section Paths
variable {srv : Server K} {occ : Occasion K} {printed : Value K → Bytes} {streamed : K → Bytes}

theorem readId_error {id : Value K} (h : IsId id) (code : Int) (message : Bytes) :
    readId (jsonRpcError (jsonRpcIdLiteral streamed (some id)) code message) =
      some (literalValue id) := by
  have hcomma : ascii ",\"error\":\x7b\"code\":" = 44 :: ascii "\"error\":\x7b\"code\":" := rfl
  rw [jsonRpcError, hcomma]
  exact readId_response (readIdValue_literal h _)

theorem readId_result {id : Value K} (h : IsId id) (resultJson : Bytes) :
    readId (jsonRpcResult (jsonRpcIdLiteral streamed (some id)) resultJson) =
      some (literalValue id) := by
  have hcomma : ascii ",\"result\":" = 44 :: ascii "\"result\":" := rfl
  rw [jsonRpcResult, hcomma]
  exact readId_response (readIdValue_literal h _)

theorem readId_replyText {id : Value K} (h : IsId id) (reply : RpcReply K) :
    readId (rpcReplyText printed (jsonRpcIdLiteral streamed (some id)) reply) =
      some (literalValue id) := by
  cases reply with
  | error code message => exact readId_error h code message
  | result value => exact readId_result h _
  | toolResult text isError => exact readId_result h _

variable [Field K] [LinearOrder K] {w w' : World K} {reply : McpReply K}

/-- Whatever the method, a response that is no bare status carries the literal. -/
theorem id_dispatchRpc {id : Value K} (h : IsId id) {method : Bytes} {params : Option (Value K)}
    (hreply : dispatchRpc srv occ printed w (jsonRpcIdLiteral streamed (some id)) method params =
      (w', some reply)) :
    reply.status = 204 ∨ reply.status = 200 ∧ reply.id? = some (literalValue id) := by
  have answered : ∀ out : World K × Option (RpcReply K),
      (out.1, out.2.map fun reply => McpReply.text 200
        (rpcReplyText printed (jsonRpcIdLiteral streamed (some id)) reply)) = (w', some reply) →
      reply.status = 204 ∨ reply.status = 200 ∧ reply.id? = some (literalValue id) := by
    rintro ⟨w₁, out⟩ hout
    obtain ⟨rpc, -, rfl⟩ := Option.map_eq_some_iff.mp (Prod.mk.inj hout).2
    exact Or.inr ⟨rfl, readId_replyText h rpc⟩
  unfold dispatchRpc at hreply
  split at hreply
  · cases hreply
    exact Or.inl rfl
  split at hreply
  · cases hreply
    exact Or.inr ⟨rfl, readId_result h _⟩
  split at hreply
  · cases hreply
    exact Or.inr ⟨rfl, readId_result h _⟩
  split at hreply
  · exact answered _ hreply
  split at hreply
  · exact answered _ hreply
  split at hreply
  · exact answered _ hreply
  · exact answered _ hreply

theorem id_handleMcpJsonRpc {body : McpBody K} {id : Value K} (h : IsId id)
    (hid : lookup (ascii "id") body.members = some id)
    (hreply : handleMcpJsonRpc srv occ printed streamed w body = (w', some reply)) :
    if (lookup (ascii "jsonrpc") body.members).isSome then
      reply.status = 204 ∨ reply.status = 200 ∧ reply.id? = some (literalValue id)
    else w' = w ∧ reply.status = 0 := by
  have invalid : ∀ message : String, (w, some (McpReply.text 200 (jsonRpcError
      (jsonRpcIdLiteral streamed (some id)) (-32600) (ascii message)))) = (w', some reply) →
      reply.status = 204 ∨ reply.status = 200 ∧ reply.id? = some (literalValue id) := by
    intro message hout
    cases hout
    exact Or.inr ⟨rfl, readId_error h _ _⟩
  unfold handleMcpJsonRpc at hreply
  rw [hid] at hreply
  split at hreply
  · rename_i hnone
    cases hreply
    rw [hnone]
    exact ⟨rfl, rfl⟩
  · rename_i version hsome
    rw [hsome, if_pos Option.isSome_some]
    dsimp only at hreply
    split at hreply
    · split at hreply
      · split at hreply
        · exact id_dispatchRpc h hreply
        · exact invalid _ hreply
      · exact invalid _ hreply
    · exact invalid _ hreply

/-! ### The direct path -/

/-- A direct response carries the tree of the id, typed again. -/
theorem id_callDirect {request : Ptree} {doc : Value K}
    (h : callDirect srv occ w request = (w', some doc)) :
    doc.member (ascii "id") = some (convertValueToIntIfString
      (ofTree ((request.getChild (ascii "id")).getD Ptree.empty))) := by
  have printedTree : ∀ (id body : Ptree) (key method : Bytes) (d : Value K), key ≠ ascii "id" →
      Ptree.IsName key → toJson (build [(ascii "id", .tree id), (key, .tree body)]) = some d →
      (normalizeMcpResponse srv method d).member (ascii "id") =
        some (convertValueToIntIfString (ofTree id)) := by
    intro id body key method d hne hname hd
    have hnames : FieldNames [ascii "id", key] := by
      refine ⟨?_, by simpa using hne.symm⟩
      simp only [List.forall_mem_cons, List.not_mem_nil, IsEmpty.forall_iff, implies_true, and_true]
      exact ⟨by decide, hname⟩
    have hroot : (ofRoot (build [(ascii "id", .tree id), (key, .tree body)]) : Value K) =
        .object [(ascii "id", ofTree id), (key, ofTree body)] := ofRoot_build hnames
    unfold toJson at hd
    split at hd
    · obtain rfl := Option.some.inj hd
      rw [normalizeMcpResponse, hroot, member_edit (by simpa using hne.symm)]
      rfl
    · cases hd
  unfold callDirect handle at h
  cases hfind : Method.find (request.getString (ascii "method") []) with
  | none =>
    rw [hfind] at h
    obtain ⟨d, hd, rfl⟩ := Option.map_eq_some_iff.mp (Prod.mk.inj h).2
    exact printedTree _ _ _ _ d (by decide) (by decide) hd
  | some m =>
    rw [hfind] at h
    dsimp only at h
    rcases hanswer : answer srv occ w ((request.getChild (ascii "params")).getD Ptree.empty) m
      with ⟨w₁, _ | out⟩
    · rw [hanswer] at h
      cases h
    · rw [hanswer] at h
      obtain ⟨d, hd, rfl⟩ := Option.map_eq_some_iff.mp (Prod.mk.inj h).2
      dsimp only at hd
      rcases respond_cases out with ⟨_, -, -, hrespond⟩ | hrespond
      · rw [hrespond] at hd
        exact printedTree _ _ _ _ d (by decide) (by decide) hd
      · rw [hrespond] at hd
        exact printedTree _ _ (ascii "result") _ d (by decide) (by decide) hd

end Paths

/-! ### The ids of responses -/

theorem literalValue_eq_iff {id : Value K} : literalValue id = id ↔ ∀ s, id = .string s → 0 ∉ s := by
  constructor
  · rintro h s rfl
    exact cString_eq_iff.mp (Value.string.inj h)
  · intro h
    cases id with
    | string s =>
      have hs : cString s = s := cString_eq_iff.mpr (h s rfl)
      rw [literalValue, hs]
    | _ => rfl

/-- The id read as a tree and typed again. -/
theorem retyped_iff {body : McpBody K} {id : Value K} (h : IsId id)
    (hid : lookup (ascii "id") body.members = some id) :
    convertValueToIntIfString (ofTree ((body.tree.getChild (ascii "id")).getD Ptree.empty)) = id ↔
      (∀ s, id = .string s → ¬ IsInt64Text (cString s)) ∧ ∀ n, id = .int n → n < 2 ^ 63 := by
  have hname : Ptree.IsName (ascii "id") := by decide
  cases h with
  | string s =>
    rw [body.string_child _ s hname hid, Option.getD_some, ofTree_leaf, convertValueToIntIfString]
    constructor
    · intro heq
      refine ⟨?_, fun n hn => (by cases hn)⟩
      rintro t ht
      obtain rfl := Value.string.inj ht
      rw [← parseInt64Literal_eq_none_iff]
      cases hparse : parseInt64Literal (cString s) with
      | none => rfl
      | some n =>
        rw [hparse] at heq
        cases heq
    · rintro ⟨hnot, -⟩
      rw [parseInt64Literal_eq_none_iff.mpr (hnot s rfl)]
      rfl
  | int n hlo hhi =>
    obtain ⟨text, hchild, htext⟩ := body.int_child _ n hname hid
    have hread : parseInt64Literal (cString text) = if n < 2 ^ 63 then some n else none := by
      rcases htext with rfl | ⟨rfl, rfl⟩
      · have hchars : 0 ∉ showInt n := by
          unfold showInt
          intro hzero
          rcases List.mem_append.mp hzero with hsign | hdigit
          · split at hsign <;> simp at hsign
          · exact ne_of_isDigits (b := 0) (isDigits_decimal _) hdigit (by decide) rfl
        rw [cString_of_notMem hchars, parseInt64Literal_showInt hlo]
      · rfl
    rw [hchild, Option.getD_some, ofTree_leaf, convertValueToIntIfString, hread]
    constructor
    · intro heq
      refine ⟨fun s hs => (by cases hs), ?_⟩
      rintro m hm
      obtain rfl := Value.int.inj hm
      by_contra hge
      rw [if_neg hge] at heq
      cases heq
    · rintro ⟨-, hlt⟩
      rw [if_pos (hlt n rfl)]
      rfl

theorem carriesId_iff {body : McpBody K} {id : Value K} (h : IsId id) : body.CarriesId id ↔
    if (lookup (ascii "jsonrpc") body.members).isSome then ∀ s, id = .string s → 0 ∉ s
    else (∀ s, id = .string s → ¬ IsInt64Text (cString s)) ∧ ∀ n, id = .int n → n < 2 ^ 63 := by
  cases h with
  | string s =>
    rw [McpBody.CarriesId]
    split <;> simp
  | int n _ _ =>
    rw [McpBody.CarriesId]
    split
    · rename_i hrpc
      simp [hrpc]
    · rename_i hrpc
      simp [hrpc]

/-- On both paths a request that is answered gets its id back, with its type, exactly
where the id is one the path carries. -/
theorem response_id_iff [Field K] [LinearOrder K] (srv : Server K) (occ : Occasion K)
    (printed : Value K → Bytes) (streamed : K → Bytes) (ready : Bool) (w w' : World K)
    (body : McpBody K) {id : Value K} (h : IsId id)
    (hid : lookup (ascii "id") body.members = some id) {reply : McpReply K}
    (hreply : postMcp srv occ printed streamed ready w body = (w', some reply))
    (hok : reply.status = 200) :
    reply.id? = some id ↔ body.CarriesId id := by
  rw [carriesId_iff h]
  unfold postMcp at hreply
  split at hreply
  · split at hreply
    · rename_i w₁ inner hinner
      have hhandled := id_handleMcpJsonRpc h hid hinner
      split at hreply
      · -- passed on to the direct path
        rename_i hzero
        by_cases hrpc : (lookup (ascii "jsonrpc") body.members).isSome
        · rw [if_pos hrpc] at hhandled
          rcases hhandled with hstatus | ⟨hstatus, -⟩ <;> omega
        · rw [if_neg hrpc]
          obtain ⟨doc, hdoc, rfl⟩ := Option.map_eq_some_iff.mp (Prod.mk.inj hreply).2
          have hmember := id_callDirect (Prod.ext rfl hdoc :
            callDirect srv occ w₁ body.tree = (_, some doc))
          rw [McpReply.id?, hmember, Option.some.injEq]
          exact retyped_iff h hid
      · rename_i hne
        obtain ⟨-, hout⟩ := Prod.mk.inj hreply
        obtain rfl := Option.some.inj hout
        by_cases hrpc : (lookup (ascii "jsonrpc") body.members).isSome
        · rw [if_pos hrpc] at hhandled ⊢
          rcases hhandled with hstatus | ⟨-, hliteral⟩
          · omega
          · rw [hliteral, Option.some.injEq]
            exact literalValue_eq_iff
        · rw [if_neg hrpc] at hhandled
          exact absurd hhandled.2 hne
    · cases hreply
  · cases hreply
    cases hok

/-! ### Requests to run -/

namespace Reference

/-- A body whose members are all strings. -/
def textBody (fields : List (Bytes × Bytes)) : McpBody ℚ where
  members := fields.map fun kv => (kv.1, .string kv.2)
  tree := .node [] (fields.map fun kv => (kv.1, .leaf kv.2))
  string_child key s hname h := by
    have hfind : ∀ fields : List (Bytes × Bytes),
        lookup key (fields.map fun kv => (kv.1, (.string kv.2 : Value ℚ))) = some (.string s) →
        ((fields.map fun kv => (kv.1, Ptree.leaf kv.2)).find? fun c => c.1 = key).map Prod.snd =
          some (.leaf s) := by
      intro fields
      induction fields with
      | nil => nofun
      | cons kv rest ih =>
        intro hlookup
        rw [List.map_cons, lookup] at hlookup
        rw [List.map_cons, List.find?_cons]
        by_cases hkey : kv.1 = key
        · rw [if_pos hkey] at hlookup
          simp [hkey, Value.string.inj (Option.some.inj hlookup)]
        · rw [if_neg hkey] at hlookup
          simpa [hkey] using ih hlookup
    obtain ⟨c, hc, hleaf⟩ := Option.map_eq_some_iff.mp (hfind fields h)
    rw [Ptree.getChild, hname, Ptree.childAt, hc]
    dsimp only
    rw [hleaf]
    rfl
  int_child key n _ h := by
    have hstring : ∀ fields : List (Bytes × Bytes),
        lookup key (fields.map fun kv => (kv.1, (.string kv.2 : Value ℚ))) ≠ some (.int n) := by
      intro fields
      induction fields with
      | nil => nofun
      | cons kv rest ih =>
        rw [List.map_cons, lookup]
        split
        · nofun
        · exact ih
    exact absurd h (hstring fields)

def post (body : McpBody ℚ) : World ℚ × Option (McpReply ℚ) :=
  postMcp server occasion (JsonValue.print showRat) showRat true initial body

def pingBody : McpBody ℚ := textBody
  [(ascii "jsonrpc", ascii "2.0"), (ascii "id", ascii "a\"b"), (ascii "method", ascii "ping")]

def numeralBody : McpBody ℚ :=
  textBody [(ascii "id", ascii "1"), (ascii "method", ascii "memory.none")]

end Reference

/-- A string with a quote comes back with a JSON-RPC response. -/
theorem response_id_ping : ∃ w reply, Reference.post Reference.pingBody = (w, some reply) ∧
    reply.id? = some (.string (ascii "a\"b")) := by
  refine ⟨Reference.initial, _, rfl, ?_⟩
  refine (response_id_iff Reference.server Reference.occasion (JsonValue.print Reference.showRat)
    Reference.showRat true Reference.initial Reference.initial Reference.pingBody
    (IsId.string (ascii "a\"b")) rfl rfl rfl).mpr ?_
  have hzero : 0 ∉ ascii "a\"b" := by decide
  exact hzero

/-- A direct request with the id "1" is answered under the number 1. -/
theorem not_response_id_numeral : ∃ w reply,
    lookup (ascii "id") Reference.numeralBody.members = some (.string (ascii "1")) ∧
    Reference.post Reference.numeralBody = (w, some reply) ∧ reply.status = 200 ∧
    reply.id? = some (.int 1) ∧ reply.id? ≠ some (.string (ascii "1")) := by
  refine ⟨Reference.initial, _, rfl, rfl, rfl, rfl, ?_⟩
  intro h
  have hnumber : some (Value.int 1) = some (Value.string (ascii "1") : Value ℚ) := h
  cases hnumber

end PoorguyMem
