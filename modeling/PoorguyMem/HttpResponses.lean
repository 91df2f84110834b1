import PoorguyMem.HttpFraming
import PoorguyMem.Conformance

/-!
# The framing of HTTP responses

`BuildHttpResponse` prints a status line, header lines and the body. Where its names and
values are each of one line, the text ends where it says to the reader of `ParseHttpRequest`,
whatever the body is made of and whatever follows it.
-/

namespace PoorguyMem

open ByteString

/-! ### The printer -/

structure HttpResponse where
  statusCode : ℤ
  contentType : Bytes
  headers : StringMap Bytes
  body : Bytes

def statusText : ℤ → Bytes
  | 200 => ascii "OK"
  | 201 => ascii "Created"
  | 204 => ascii "No Content"
  | 400 => ascii "Bad Request"
  | 404 => ascii "Not Found"
  | 409 => ascii "Conflict"
  | 422 => ascii "Unprocessable Entity"
  | 429 => ascii "Too Many Requests"
  | 500 => ascii "Internal Server Error"
  | 503 => ascii "Service Unavailable"
  | _ => ascii "Unknown"

/-- An `int` as a stream prints it. -/
def printInt (n : ℤ) : Bytes := if n < 0 then 45 :: decimal n.natAbs else decimal n.natAbs

def crlf : Bytes := ascii "\r\n"

def headerLine (name value : Bytes) : Bytes := name ++ 58 :: 32 :: value

def statusLine (response : HttpResponse) : Bytes :=
  ascii "HTTP/1.1" ++ 32 :: (printInt response.statusCode ++ 32 :: statusText response.statusCode)

def buildHttpResponse (response : HttpResponse) : Bytes :=
  statusLine response ++ crlf ++
    headerLine (ascii "Content-Type") response.contentType ++ crlf ++
    headerLine (ascii "Content-Length") (decimal response.body.length) ++ crlf ++
    headerLine (ascii "Connection") (ascii "close") ++ crlf ++
    (response.headers.toList.flatMap fun kv => headerLine kv.1 kv.2 ++ crlf) ++
    crlf ++ response.body

/-! ### What is read back -/

/-- A string that does not end the line it stands in. -/
def OneLine (s : Bytes) : Prop := 13 ∉ s ∧ 10 ∉ s

instance (s : Bytes) : Decidable (OneLine s) := inferInstanceAs (Decidable (_ ∧ _))

/-- A response each of whose own fields is one line, and that leaves the length to the printer. -/
structure Sendable (response : HttpResponse) : Prop where
  contentType : OneLine response.contentType
  names : ∀ kv ∈ response.headers.toList, OneLine kv.1 ∧ 58 ∉ kv.1
  values : ∀ kv ∈ response.headers.toList, OneLine kv.2
  length : ∀ kv ∈ response.headers.toList, lower (trim kv.1) ≠ ascii "content-length"

/-- The header fields in the order of their lines. -/
def HttpResponse.fields (response : HttpResponse) : List (Bytes × Bytes) :=
  (ascii "Content-Type", response.contentType) ::
    (ascii "Content-Length", decimal response.body.length) ::
      (ascii "Connection", ascii "close") :: response.headers.toList

def readFields (headers : StringMap Bytes) (fields : List (Bytes × Bytes)) : StringMap Bytes :=
  fields.foldl (fun headers kv => headers.insert (lower (trim kv.1)) (trim kv.2)) headers

/-- A response as the reader of requests takes it. -/
def HttpResponse.asRequest (response : HttpResponse) : HttpRequest where
  method := ascii "HTTP/1.1"
  path := printInt response.statusCode
  version := (statusText response.statusCode).takeWhile (!isSpace ·)
  headers := readFields ∅ response.fields
  body := response.body

/-! ### Lines -/

theorem getLines_of_notMem {line : Bytes} (h : 10 ∉ line) :
    getLines line = if line = [] then [] else [line] := by
  induction line with
  | nil => rfl
  | cons c line ih =>
    rw [List.mem_cons, not_or] at h
    rw [getLines, if_neg (Ne.symm h.1), ih h.2]
    cases line with
    | nil => rfl
    | cons d line => rfl

theorem getLines_append {line : Bytes} (h : 10 ∉ line) (rest : Bytes) :
    getLines (line ++ 10 :: rest) = line :: getLines rest := by
  induction line with
  | nil => exact if_pos rfl
  | cons c line ih =>
    rw [List.mem_cons, not_or] at h
    rw [List.cons_append, getLines, if_neg (Ne.symm h.1), ih h.2]

theorem chopCr_append (line : Bytes) : chopCr (line ++ [13]) = line := by
  simp [chopCr]

theorem chopCr_of_notMem {line : Bytes} (h : 13 ∉ line) : chopCr line = line :=
  if_neg fun hlast => h (List.mem_of_getLast? hlast)

/-- Lines, each but the first after the end of another. -/
def joined (first : Bytes) (lines : List Bytes) : Bytes := first ++ lines.flatMap (crlf ++ ·)

theorem joined_cons (first line : Bytes) (lines : List Bytes) :
    joined first (line :: lines) = (first ++ [13]) ++ 10 :: joined line lines := by
  simp [joined, crlf, ascii]

/-- Lines that are joined are read one by one. -/
theorem map_chopCr_getLines (first : Bytes) (lines : List Bytes)
    (h : ∀ line ∈ first :: lines, OneLine line ∧ line ≠ []) :
    (getLines (joined first lines)).map chopCr = first :: lines := by
  induction lines generalizing first with
  | nil =>
    obtain ⟨⟨hcr, hlf⟩, hne⟩ := h first List.mem_cons_self
    rw [joined, List.flatMap_nil, List.append_nil, getLines_of_notMem hlf, if_neg hne]
    simp [chopCr_of_notMem hcr]
  | cons line lines ih =>
    obtain ⟨⟨-, hlf⟩, -⟩ := h first List.mem_cons_self
    have hfirst : 10 ∉ first ++ [13] := by
      simp [hlf]
    rw [joined_cons, getLines_append hfirst, List.map_cons, chopCr_append,
      ih line fun l hl => h l (List.mem_cons_of_mem _ hl)]

/-- No line ends the header block. -/
theorem not_infix_joined (first : Bytes) (lines : List Bytes)
    (h : ∀ line ∈ first :: lines, OneLine line ∧ line ≠ []) :
    ¬ ascii "\r\n\r\n" <:+: joined first lines ++ ascii "\r\n\r" := by
  have hcr := (h first List.mem_cons_self).1.1
  have hhead : ascii "\r\n\r\n" = 13 :: [10, 13, 10] := rfl
  rw [hhead, joined, List.append_assoc, infix_append_left_iff hcr]
  induction lines with
  | nil => decide
  | cons line lines ih =>
    obtain ⟨⟨hline, -⟩, hne⟩ := h line (List.mem_cons_of_mem _ List.mem_cons_self)
    have hsplit : (line :: lines).flatMap (crlf ++ ·) ++ ascii "\r\n\r" =
        13 :: ((10 :: line) ++ (lines.flatMap (crlf ++ ·) ++ ascii "\r\n\r")) := by
      simp [crlf, ascii]
    have hnone : 13 ∉ 10 :: line := by
      simp [hline]
    rw [hsplit, List.infix_cons_iff, infix_append_left_iff hnone, not_or]
    constructor
    · -- the line is not empty, so that no second end follows the first
      rintro ⟨rest, hrest⟩
      obtain ⟨c, tail, rfl⟩ := List.exists_cons_of_ne_nil hne
      have hc : (13 : UInt8) = c := by
        simp only [List.cons_append, List.cons.injEq] at hrest
        exact hrest.2.2.1
      exact hline (hc ▸ List.mem_cons_self)
    · apply ih
      rintro l (_ | ⟨_, hl⟩)
      · exact h _ List.mem_cons_self
      · exact h l (List.mem_cons_of_mem _ (List.mem_cons_of_mem _ hl))

theorem find_headerEnd (first : Bytes) (lines : List Bytes)
    (h : ∀ line ∈ first :: lines, OneLine line ∧ line ≠ []) (rest : Bytes) :
    find (ascii "\r\n\r\n") (joined first lines ++ ascii "\r\n\r\n" ++ rest) =
      some (joined first lines).length :=
  (find_append_iff (by decide)).mpr (not_infix_joined first lines h)

/-! ### Numerals and words -/

theorem isSpace_of_isDigits {s : Bytes} (h : IsDigits s) {c : UInt8} (hc : c ∈ s) :
    isSpace c = false := by
  have hrange := h c hc
  simp only [isSpace, Bool.or_eq_false_iff, decide_eq_false_iff_not, Bool.and_eq_false_iff]
  refine ⟨ne_of_isDigits h hc (by decide), Or.inr ?_⟩
  simp only [UInt8.le_iff_toNat_le]
  simp
  omega

theorem stoull_decimal {n : Nat} (h : n < 2 ^ 64) : stoull (decimal n) = some n := by
  have hdigits := isDigits_decimal n
  obtain ⟨c, rest, hcons⟩ := List.exists_cons_of_ne_nil (Reference.decimal_ne_nil n)
  have hc : c ∈ decimal n := by simp [hcons]
  have hsign : readSign (decimal n) = (false, decimal n) := by
    have hminus := ne_of_isDigits hdigits hc (b := 45) (by decide)
    have hplus := ne_of_isDigits hdigits hc (b := 43) (by decide)
    rw [hcons]
    unfold readSign
    split
    · rename_i heq
      exact absurd (List.cons.inj heq).1 hminus
    · rename_i heq
      exact absurd (List.cons.inj heq).1 hplus
    · rfl
  have hdrop : (decimal n).dropWhile isSpace = decimal n := by
    have hspace := isSpace_of_isDigits hdigits hc
    rw [hcons, List.dropWhile_cons_of_neg (by simp [hspace])]
  have hall : (decimal n).takeWhile isDigit = decimal n := by
    rw [List.takeWhile_eq_self_iff]
    intro d hd
    have := hdigits d hd
    simp [isDigit, this]
  rw [stoull, hdrop, hsign]
  simp only [hall, digitsValue_decimal]
  rw [if_neg (not_or.mpr ⟨Reference.decimal_ne_nil n, by omega⟩)]
  rfl

/-- Text without blanks. -/
def IsWord (s : Bytes) : Prop := s ≠ [] ∧ ∀ c ∈ s, isSpace c = false

theorem isWord_decimal (n : Nat) : IsWord (decimal n) :=
  ⟨Reference.decimal_ne_nil n, fun _ hc => isSpace_of_isDigits (isDigits_decimal n) hc⟩

theorem isWord_printInt (n : ℤ) : IsWord (printInt n) := by
  rw [printInt]
  split
  · refine ⟨List.cons_ne_nil _ _, fun c hc => ?_⟩
    rcases List.mem_cons.mp hc with rfl | hc
    · rfl
    · exact (isWord_decimal _).2 c hc
  · exact isWord_decimal _

/-- A word is read up to the blank after it. -/
theorem readWord_append {word : Bytes} (h : IsWord word) (rest : Bytes) :
    readWord (word ++ 32 :: rest) = some (word, 32 :: rest) := by
  obtain ⟨c, tail, rfl⟩ := List.exists_cons_of_ne_nil h.1
  have hdrop : (c :: tail ++ 32 :: rest).dropWhile isSpace = c :: tail ++ 32 :: rest := by
    rw [List.cons_append, List.dropWhile_cons_of_neg (by simp [h.2 c List.mem_cons_self])]
  have hall : ∀ d ∈ c :: tail, (!isSpace d) = true := by
    intro d hd
    simp [h.2 d hd]
  rw [readWord, hdrop]
  rw [if_neg (by simp), List.takeWhile_append_of_pos hall, List.dropWhile_append_of_pos hall]
  simp [isSpace]

theorem readWord_blank (s : Bytes) : readWord (32 :: s) = readWord s := by
  simp [readWord, List.dropWhile_cons_of_pos, isSpace]

theorem readWord_statusText (code : ℤ) :
    ∃ rest, readWord (statusText code) =
      some ((statusText code).takeWhile (!isSpace ·), rest) := by
  unfold statusText
  split <;> exact ⟨_, rfl⟩

theorem readRequestLine_statusLine (response : HttpResponse) :
    readRequestLine (statusLine response) = some (response.asRequest.method,
      response.asRequest.path, response.asRequest.version) := by
  have hversion : IsWord (ascii "HTTP/1.1") := by
    refine ⟨List.cons_ne_nil _ _, fun c hc => ?_⟩
    have hall : (ascii "HTTP/1.1").all (!isSpace ·) = true := by rfl
    simpa using List.all_eq_true.mp hall c hc
  obtain ⟨rest, hrest⟩ := readWord_statusText response.statusCode
  rw [readRequestLine, statusLine, readWord_append hversion]
  change ((readWord (32 :: _)).bind fun _ => _) = _
  rw [readWord_blank, readWord_append (isWord_printInt _)]
  change ((readWord (32 :: _)).bind fun _ => _) = _
  rw [readWord_blank, hrest]
  rfl

/-! ### Header fields -/

theorem trim_blank (s : Bytes) : trim (32 :: s) = trim s := by
  rw [trim, List.dropWhile_cons_of_pos (by decide)]
  rfl

theorem headerField_headerLine {line name value : Bytes} (hname : 58 ∉ name)
    (hline : chopCr line = headerLine name value) :
    headerField line = some (lower (trim name), trim value) := by
  have hfind : find (ascii ":") (headerLine name value) = some name.length := by
    have hsplit : headerLine name value = name ++ ascii ":" ++ 32 :: value := by
      simp [headerLine, ascii]
    rw [hsplit, find_append_iff (by decide)]
    rintro ⟨a, b, hab⟩
    apply hname
    rw [show (ascii ":").dropLast = [] from rfl, List.append_nil] at hab
    rw [← hab]
    simp [ascii]
  rw [headerField, hline]
  rw [if_neg (by simp [headerLine]), hfind, Option.map_some, headerLine, List.take_left,
    List.drop_append, List.drop_of_length_le (by omega), List.nil_append,
    Nat.add_sub_cancel_left, List.drop_one, List.tail_cons, trim_blank]

theorem readHeader_headerLine {line name value : Bytes} (hname : 58 ∉ name)
    (hline : chopCr line = headerLine name value)
    (hlength : lower (trim name) ≠ ascii "content-length") (state : StringMap Bytes × Nat) :
    readHeader state line = .ok (readFields state.1 [(name, value)], state.2) := by
  rw [readHeader, headerField_headerLine hname hline]
  dsimp only
  rw [if_neg hlength]
  rfl

/-- Header lines none of which is a length are inserted in turn. -/
theorem foldlM_readHeader {lines : List Bytes} {fields : List (Bytes × Bytes)}
    (h : lines.map chopCr = fields.map fun kv => headerLine kv.1 kv.2)
    (hnames : ∀ kv ∈ fields, 58 ∉ kv.1 ∧ lower (trim kv.1) ≠ ascii "content-length")
    (state : StringMap Bytes × Nat) :
    lines.foldlM readHeader state = .ok (readFields state.1 fields, state.2) := by
  induction fields generalizing lines state with
  | nil =>
    obtain rfl := List.map_eq_nil_iff.mp h
    rfl
  | cons kv fields ih =>
    obtain ⟨line, lines, rfl, hline, hrest⟩ := List.map_eq_cons_iff.mp h
    obtain ⟨hname, hlength⟩ := hnames kv List.mem_cons_self
    rw [List.foldlM_cons, readHeader_headerLine hname hline hlength]
    exact ih hrest (fun kv hkv => hnames kv (List.mem_cons_of_mem _ hkv)) _

/-! ### The round trip -/

section RoundTrip
variable {response : HttpResponse}

/-- The lines after the status line. -/
def HttpResponse.headerLines (response : HttpResponse) : List Bytes :=
  response.fields.map fun kv => headerLine kv.1 kv.2

theorem buildHttpResponse_eq (response : HttpResponse) :
    buildHttpResponse response = joined (statusLine response) response.headerLines ++
      ascii "\r\n\r\n" ++ response.body := by
  -- a line end before each line is one after each but the last
  have hshift : ∀ (line : Bytes) (fields : List (Bytes × Bytes)),
      line ++ crlf ++ (fields.flatMap fun kv => headerLine kv.1 kv.2 ++ crlf) =
        joined line (fields.map fun kv => headerLine kv.1 kv.2) ++ crlf := by
    intro line fields
    induction fields generalizing line with
    | nil => simp [joined]
    | cons kv fields ih =>
      rw [List.flatMap_cons, ← List.append_assoc, List.append_assoc, ih, List.map_cons, joined,
        joined, List.flatMap_cons]
      simp only [List.append_assoc]
  have hfour : ascii "\r\n\r\n" = crlf ++ crlf := rfl
  have := hshift (statusLine response) response.fields
  rw [hfour, ← List.append_assoc, HttpResponse.headerLines, ← this]
  simp only [buildHttpResponse, HttpResponse.fields, List.flatMap_cons, List.append_assoc]

theorem oneLine_of_isDigits {s : Bytes} (h : IsDigits s) : OneLine s :=
  ⟨fun hc => ne_of_isDigits h hc (by decide) rfl, fun hc => ne_of_isDigits h hc (by decide) rfl⟩

theorem OneLine.append {a b : Bytes} (ha : OneLine a) (hb : OneLine b) : OneLine (a ++ b) := by
  constructor
  · exact fun h => (List.mem_append.mp h).elim ha.1 hb.1
  · exact fun h => (List.mem_append.mp h).elim ha.2 hb.2

theorem oneLine_headerLine {name value : Bytes} (hname : OneLine name) (hvalue : OneLine value) :
    OneLine (headerLine name value) := by
  have hsep : OneLine [58, 32] := by decide
  exact hname.append (hsep.append hvalue)

theorem oneLine_statusLine (response : HttpResponse) : OneLine (statusLine response) := by
  have hcode : OneLine (printInt response.statusCode) := by
    rw [printInt]
    split
    · have hsign : OneLine [45] := by decide
      exact hsign.append (oneLine_of_isDigits (isDigits_decimal _))
    · exact oneLine_of_isDigits (isDigits_decimal _)
  have htext : OneLine (statusText response.statusCode) := by
    unfold statusText
    split <;> decide
  have hversion : OneLine (ascii "HTTP/1.1") := by decide
  have hblank : OneLine [32] := by decide
  exact hversion.append (hblank.append (hcode.append (hblank.append htext)))

theorem Sendable.fields (h : Sendable response) :
    ∀ kv ∈ response.fields, OneLine kv.1 ∧ 58 ∉ kv.1 ∧ OneLine kv.2 := by
  simp only [HttpResponse.fields, List.forall_mem_cons]
  refine ⟨⟨by decide, by decide, h.contentType⟩,
    ⟨by decide, by decide, oneLine_of_isDigits (isDigits_decimal _)⟩,
    ⟨by decide, by decide, by decide⟩, fun kv hkv => ?_⟩
  exact ⟨(h.names kv hkv).1, (h.names kv hkv).2, h.values kv hkv⟩

theorem Sendable.lines (h : Sendable response) :
    ∀ line ∈ statusLine response :: response.headerLines, OneLine line ∧ line ≠ [] := by
  rw [List.forall_mem_cons]
  refine ⟨⟨oneLine_statusLine response, by simp [statusLine]⟩, fun line hline => ?_⟩
  obtain ⟨kv, hkv, rfl⟩ := List.mem_map.mp hline
  obtain ⟨hname, -, hvalue⟩ := h.fields kv hkv
  exact ⟨oneLine_headerLine hname hvalue, by simp [headerLine]⟩

theorem trim_decimal (n : Nat) : trim (decimal n) = decimal n := by
  have hspace := (isWord_decimal n).2
  have hkept : ∀ s : Bytes, (∀ c ∈ s, isSpace c = false) → s.dropWhile isSpace = s := by
    intro s hs
    cases s with
    | nil => rfl
    | cons c s => exact List.dropWhile_cons_of_neg (by simp [hs c List.mem_cons_self])
  rw [trim, hkept _ hspace, hkept _ fun c hc => hspace c (List.mem_reverse.mp hc),
    List.reverse_reverse]

/-- The header lines are read back as the fields, with the length of the body. -/
theorem Sendable.readHeaders (h : Sendable response) (hfits : response.body.length < 2 ^ 64)
    {lines : List Bytes} (hlines : lines.map chopCr = response.headerLines) :
    readHeaders lines = .ok (response.asRequest.headers, response.body.length) := by
  obtain ⟨typeLine, lines, rfl, htype, hlines⟩ := List.map_eq_cons_iff.mp hlines
  obtain ⟨lengthLine, lines, rfl, hlength, hlines⟩ := List.map_eq_cons_iff.mp hlines
  have hrest : ∀ kv ∈ (ascii "Connection", ascii "close") :: response.headers.toList,
      58 ∉ kv.1 ∧ lower (trim kv.1) ≠ ascii "content-length" := by
    rw [List.forall_mem_cons]
    exact ⟨⟨by decide, by decide⟩, fun kv hkv => ⟨(h.names kv hkv).2, h.length kv hkv⟩⟩
  have hread : readHeader (readFields ∅ [(ascii "Content-Type", response.contentType)], 0)
      lengthLine = .ok (readFields ∅ [(ascii "Content-Type", response.contentType),
        (ascii "Content-Length", decimal response.body.length)], response.body.length) := by
    have hname : 58 ∉ ascii "Content-Length" := by decide
    rw [readHeader, headerField_headerLine hname hlength]
    dsimp only
    rw [if_pos (by decide), trim_decimal, stoull_decimal hfits]
    simp only [readFields, List.foldl_cons, List.foldl_nil, trim_decimal]
  have hname : 58 ∉ ascii "Content-Type" := by decide
  have hother : lower (trim (ascii "Content-Type")) ≠ ascii "content-length" := by decide
  rw [PoorguyMem.readHeaders, List.foldlM_cons, readHeader_headerLine hname htype hother]
  change (readHeader _ lengthLine >>= fun state => lines.foldlM readHeader state) = _
  rw [hread]
  exact foldlM_readHeader hlines hrest _

theorem getElem?_readFields_of_forall_ne {headers : StringMap Bytes} {key : Bytes}
    {fields : List (Bytes × Bytes)} (h : ∀ kv ∈ fields, lower (trim kv.1) ≠ key) :
    (readFields headers fields)[key]? = headers[key]? := by
  induction fields generalizing headers with
  | nil => rfl
  | cons kv fields ih =>
    obtain ⟨hkv, hfields⟩ := List.forall_mem_cons.mp h
    rw [readFields, List.foldl_cons, ← readFields, ih hfields, Std.ExtTreeMap.getElem?_insert,
      if_neg (by simpa using hkv)]

/-- A response of one-line fields is read back whole, with its own length and body, whatever the
body is and whatever comes after it. -/
theorem http_response_round_trip (response : HttpResponse) (h : Sendable response)
    (hfits : (buildHttpResponse response).length < 2 ^ 64) (more : Bytes) :
    parseHttpRequest (buildHttpResponse response ++ more) =
        .ok (response.asRequest, (buildHttpResponse response).length) ∧
      response.asRequest.headers[ascii "content-length"]? =
        some (decimal response.body.length) := by
  have hlength := congrArg List.length (buildHttpResponse_eq response)
  have hcrlf : (ascii "\r\n\r\n").length = 4 := rfl
  rw [List.length_append, List.length_append, hcrlf] at hlength
  constructor
  · have hsplit := map_chopCr_getLines _ _ h.lines
    obtain ⟨firstLine, lines, hget, hfirst, hlines⟩ := List.map_eq_cons_iff.mp hsplit
    refine parseHttpRequest_eq_ok_iff.mpr
      ⟨(joined (statusLine response) response.headerLines).length, lines, response.body.length,
        ⟨?_, ⟨firstLine, ?_, ?_⟩, h.readHeaders (by omega) hlines, ?_, ?_⟩, ?_⟩
    · rw [buildHttpResponse_eq, List.append_assoc _ response.body]
      exact find_headerEnd _ _ h.lines _
    · rw [buildHttpResponse_eq, List.append_assoc, List.append_assoc, List.take_left, hget]
    · rw [hfirst]
      exact readRequestLine_statusLine response
    · rw [← hlength, Nat.mod_eq_of_lt hfits, List.length_append]
      omega
    · rw [buildHttpResponse_eq, List.append_assoc _ response.body, ← hcrlf, ← List.length_append,
        List.drop_left, List.take_left]
      rfl
    · rw [← hlength, Nat.mod_eq_of_lt hfits]
  · have hother : ∀ kv ∈ (ascii "Connection", ascii "close") :: response.headers.toList,
        lower (trim kv.1) ≠ ascii "content-length" := by
      rw [List.forall_mem_cons]
      exact ⟨by decide, h.length⟩
    have hfields : response.asRequest.headers = readFields (readFields ∅
        [(ascii "Content-Type", response.contentType),
          (ascii "Content-Length", decimal response.body.length)])
        ((ascii "Connection", ascii "close") :: response.headers.toList) := rfl
    rw [hfields, getElem?_readFields_of_forall_ne hother]
    simp only [readFields, List.foldl_cons, List.foldl_nil, trim_decimal]
    exact Std.ExtTreeMap.getElem?_insert_self

/-- A body that holds the end of a header block itself, before another response. -/
theorem http_response_round_trip_nested :
    let response : HttpResponse :=
      ⟨503, ascii "text/plain", (∅ : StringMap Bytes).insert (ascii "Retry-After") (ascii "2"),
        ascii "a\r\n\r\nb"⟩
    parseHttpRequest (buildHttpResponse response ++ ascii "HTTP/1.1 200 OK\r\n\r\n") =
      .ok (response.asRequest, 122) := by
  intro response
  have hfields : response.headers.toList = [(ascii "Retry-After", ascii "2")] := rfl
  have hsendable : Sendable response := by
    refine ⟨by decide, ?_, ?_, ?_⟩
    · rw [hfields]
      decide
    · rw [hfields]
      decide
    · rw [hfields]
      decide
  have hlength : (buildHttpResponse response).length = 122 := by decide
  obtain ⟨hread, -⟩ := http_response_round_trip response hsendable (by omega)
    (ascii "HTTP/1.1 200 OK\r\n\r\n")
  rw [hread, hlength]

end RoundTrip

end PoorguyMem
