import PoorguyMem.Gateway
import PoorguyMem.Lib.Substring

/-!
# The framing of HTTP requests

`ParseHttpRequest` finds where a request ends: after its header block and as many bytes as
its last `Content-Length` says. The number is read by `std::stoull`, which takes a sign and
stops at the first byte that is no digit, and the sum with the offset wraps; so a request can
end in its own headers, or after another number of bytes than it declares.
-/

namespace PoorguyMem

open ByteString

structure HttpRequest where
  method : Bytes
  path : Bytes
  version : Bytes
  headers : StringMap Bytes
  body : Bytes

/-! ### Strings -/

def trim (s : Bytes) : Bytes := ((s.dropWhile isSpace).reverse.dropWhile isSpace).reverse

/-- `std::stoull` to base ten: a sign is taken, what follows the digits is not looked at, and a
negative number wraps. Without digits, or where they do not fit 64 bits, it throws. -/
def stoull (text : Bytes) : Option Nat :=
  let (negative, rest) := readSign (text.dropWhile isSpace)
  let digits := rest.takeWhile isDigit
  if digits = [] ∨ 2 ^ 64 ≤ digitsValue digits then none
  else some (if negative then (2 ^ 64 - digitsValue digits) % 2 ^ 64 else digitsValue digits)

/-- The lines that `std::getline` gives one after the other. -/
def getLines : Bytes → List Bytes
  | [] => []
  | c :: s =>
    if c = 10 then [] :: getLines s
    else
      match getLines s with
      | [] => [[c]]
      | line :: lines => (c :: line) :: lines

/-- A carriage return at the end of a line is dropped. -/
def chopCr (line : Bytes) : Bytes := if line.getLast? = some 13 then line.dropLast else line

/-- `stream >> word` -/
def readWord (s : Bytes) : Option (Bytes × Bytes) :=
  let s := s.dropWhile isSpace
  if s = [] then none else some (s.takeWhile (!isSpace ·), s.dropWhile (!isSpace ·))

/-- The method, the path and the version. -/
def readRequestLine (line : Bytes) : Option (Bytes × Bytes × Bytes) := do
  let (method, rest) ← readWord line
  let (path, rest) ← readWord rest
  let (version, _) ← readWord rest
  return (method, path, version)

/-! ### The parser -/

/-- The name and the value of a header line. -/
def headerField (line : Bytes) : Option (Bytes × Bytes) :=
  let line := chopCr line
  if line = [] then none
  else (find (ascii ":") line).map fun sep => (lower (trim (line.take sep)), trim (line.drop (sep + 1)))

/-- One pass of the loop over the header lines. -/
def readHeader (state : StringMap Bytes × Nat) (line : Bytes) :
    Except Bytes (StringMap Bytes × Nat) :=
  match headerField line with
  | none => .ok state
  | some (key, value) =>
    let headers := state.1.insert key value
    if key = ascii "content-length" then
      match stoull value with
      | none => .error (ascii "invalid content-length")
      | some contentLength => .ok (headers, contentLength)
    else .ok (headers, state.2)

def readHeaders (lines : List Bytes) : Except Bytes (StringMap Bytes × Nat) :=
  lines.foldlM readHeader (∅, 0)

/-- The request and the number of bytes it takes. -/
def parseHttpRequest (raw : Bytes) : Except Bytes (HttpRequest × Nat) :=
  match find (ascii "\r\n\r\n") raw with
  | none => .error (ascii "incomplete header")
  | some headerEnd =>
    match getLines (raw.take headerEnd) with
    | [] => .error (ascii "missing request line")
    | firstLine :: lines =>
      match readRequestLine (chopCr firstLine) with
      | none => .error (ascii "invalid request line")
      | some (method, path, version) => do
        let (headers, contentLength) ← readHeaders lines
        let bodyOffset := headerEnd + 4
        -- the sum of two `size_t`
        let consumed := (bodyOffset + contentLength) % 2 ^ 64
        if raw.length < consumed then .error (ascii "incomplete body")
        else .ok (⟨method, path, version, headers, (raw.drop bodyOffset).take contentLength⟩, consumed)

/-! ### What a request declares -/

/-- The integer that a text denotes. -/
def integerOf (text : Bytes) : Option ℤ :=
  let (negative, digits) := readSign text
  if digits = [] ∨ !digits.all isDigit then none
  else some (if negative then -digitsValue digits else digitsValue digits)

/-- The length that headers declare for the body. -/
def declaredLength : Option Bytes → Option ℤ
  | none => some 0
  | some text => integerOf text

/-- A request that is parsed ends where it says: after the header block and the number of
bytes that it declares, whatever comes afterwards. -/
structure Frames (raw : Bytes) (headerEnd : Nat) (request : HttpRequest) (consumed : Nat) :
    Prop where
  bounded : consumed ≤ raw.length
  start : headerEnd + 4 ≤ consumed
  body : request.body = (raw.take consumed).drop (headerEnd + 4)
  declared : declaredLength request.headers[ascii "content-length"]? = some (request.body.length : ℤ)
  stable : ∀ more, parseHttpRequest (raw ++ more) = .ok (request, consumed)

def FramesExactly (raw : Bytes) : Prop :=
  ∀ request consumed, parseHttpRequest raw = .ok (request, consumed) →
    ∃ headerEnd, find (ascii "\r\n\r\n") raw = some headerEnd ∧
      Frames raw headerEnd request consumed

/-- The value of a header line, if it is a `Content-Length`. -/
def lengthText (line : Bytes) : Option Bytes :=
  (headerField line).bind fun kv => if kv.1 = ascii "content-length" then some kv.2 else none

def lengthTexts (lines : List Bytes) : List Bytes := lines.filterMap lengthText

/-- What the last `Content-Length` is converted to. -/
def convertedLength : Option Bytes → Option Nat
  | none => some 0
  | some text => stoull text

/-- A request with a valid request line whose lengths all convert, and whose last one is no
integer, or not the one it converts to, or too large for the sum with the offset; and the bytes
up to that sum are there. -/
def Misframed (raw : Bytes) : Prop :=
  ∃ headerEnd firstLine lines contentLength,
    find (ascii "\r\n\r\n") raw = some headerEnd ∧
    getLines (raw.take headerEnd) = firstLine :: lines ∧
    (readRequestLine (chopCr firstLine)).isSome = true ∧
    (∀ text ∈ lengthTexts lines, (stoull text).isSome = true) ∧
    convertedLength (lengthTexts lines).getLast? = some contentLength ∧
    (headerEnd + 4 + contentLength) % 2 ^ 64 ≤ raw.length ∧
    (declaredLength (lengthTexts lines).getLast? ≠ some (contentLength : ℤ) ∨
      2 ^ 64 ≤ headerEnd + 4 + contentLength)

/-! ### The header lines -/

section Headers
variable {state : StringMap Bytes × Nat} {line : Bytes}

theorem readHeader_of_none (h : lengthText line = none) :
    ∃ headers, readHeader state line = .ok (headers, state.2) ∧
      headers[ascii "content-length"]? = state.1[ascii "content-length"]? := by
  rw [lengthText] at h
  rw [readHeader]
  cases hfield : headerField line with
  | none => exact ⟨_, rfl, rfl⟩
  | some kv =>
    obtain ⟨key, value⟩ := kv
    rw [hfield, Option.bind_some] at h
    dsimp only at h ⊢
    split at h
    · cases h
    · rename_i hkey
      rw [if_neg hkey]
      refine ⟨_, rfl, ?_⟩
      rw [Std.ExtTreeMap.getElem?_insert, if_neg (by simpa using hkey)]

theorem readHeader_of_some {text : Bytes} (h : lengthText line = some text) :
    (stoull text = none ∧ ∃ error, readHeader state line = .error error) ∨
      ∃ n headers, stoull text = some n ∧ readHeader state line = .ok (headers, n) ∧
        headers[ascii "content-length"]? = some text := by
  rw [lengthText] at h
  rw [readHeader]
  cases hfield : headerField line with
  | none =>
    rw [hfield] at h
    cases h
  | some kv =>
    obtain ⟨key, value⟩ := kv
    rw [hfield, Option.bind_some] at h
    dsimp only at h ⊢
    split at h
    · rename_i hkey
      subst hkey
      obtain rfl := Option.some.inj h
      rw [if_pos rfl]
      cases hn : stoull value with
      | none => exact Or.inl ⟨rfl, _, rfl⟩
      | some n => exact Or.inr ⟨n, _, rfl, rfl, Std.ExtTreeMap.getElem?_insert_self⟩
    · cases h

/-- What comes of the header lines: a length that does not convert, or the last one. -/
inductive HeadersRead (state : StringMap Bytes × Nat) (lines : List Bytes) : Prop
  | refused (text : Bytes) (mem : text ∈ lengthTexts lines) (conversion : stoull text = none)
      (error : ∃ error, lines.foldlM readHeader state = .error error)
  | read (headers : StringMap Bytes) (n : Nat)
      (conversions : ∀ text ∈ lengthTexts lines, (stoull text).isSome = true)
      (result : lines.foldlM readHeader state = .ok (headers, n))
      (last : headers[ascii "content-length"]? =
        (lengthTexts lines).getLast?.or state.1[ascii "content-length"]?)
      (length : convertedLength state.1[ascii "content-length"]? = some state.2 →
        convertedLength headers[ascii "content-length"]? = some n)

theorem headersRead (state : StringMap Bytes × Nat) (lines : List Bytes) :
    HeadersRead state lines := by
  induction lines generalizing state with
  | nil =>
    obtain ⟨headers, n⟩ := state
    exact .read headers n (by simp [lengthTexts]) rfl (by simp [lengthTexts]) fun h => h
  | cons line lines ih =>
    cases htext : lengthText line with
    | none =>
      have htexts : lengthTexts (line :: lines) = lengthTexts lines :=
        List.filterMap_cons_none htext
      obtain ⟨headers, hstep, hkept⟩ := @readHeader_of_none state _ htext
      have hfold : (line :: lines).foldlM readHeader state =
          lines.foldlM readHeader (headers, state.2) := by
        rw [List.foldlM_cons, hstep]
        rfl
      rcases ih (headers, state.2) with ⟨text, mem, conversion, error⟩ |
        ⟨headers', n, conversions, result, last, length⟩
      · exact .refused text (htexts ▸ mem) conversion (hfold ▸ error)
      · refine .read headers' n (htexts ▸ conversions) (hfold.trans result) ?_ ?_
        · rw [htexts, last, hkept]
        · rwa [← hkept]
    | some text =>
      have htexts : lengthTexts (line :: lines) = text :: lengthTexts lines :=
        List.filterMap_cons_some htext
      rcases @readHeader_of_some state _ _ htext with ⟨hnone, error, hstep⟩ |
        ⟨n, headers, hsome, hstep, hheld⟩
      · refine .refused text (by rw [htexts]; exact List.mem_cons_self) hnone ⟨error, ?_⟩
        rw [List.foldlM_cons, hstep]
        rfl
      · have hfold : (line :: lines).foldlM readHeader state =
            lines.foldlM readHeader (headers, n) := by
          rw [List.foldlM_cons, hstep]
          rfl
        rcases ih (headers, n) with ⟨text', mem, conversion, error⟩ |
          ⟨headers', n', conversions, result, last, length⟩
        · exact .refused text' (by rw [htexts]; exact List.mem_cons_of_mem _ mem) conversion
            (hfold ▸ error)
        · refine .read headers' n' ?_ (hfold.trans result) ?_ ?_
          · rw [htexts]
            exact List.forall_mem_cons.mpr ⟨by rw [hsome]; rfl, conversions⟩
          · rw [last, hheld, htexts, List.getLast?_cons]
            cases (lengthTexts lines).getLast? <;> rfl
          · intro _
            apply length
            rw [hheld]
            exact hsome

end Headers

/-! ### The parse -/

/-- A parse that succeeds, step by step. -/
structure Parsed (raw : Bytes) (headerEnd : Nat) (lines : List Bytes) (contentLength : Nat)
    (request : HttpRequest) : Prop where
  header : find (ascii "\r\n\r\n") raw = some headerEnd
  split : ∃ firstLine, getLines (raw.take headerEnd) = firstLine :: lines ∧
    readRequestLine (chopCr firstLine) = some (request.method, request.path, request.version)
  headers : readHeaders lines = .ok (request.headers, contentLength)
  there : (headerEnd + 4 + contentLength) % 2 ^ 64 ≤ raw.length
  body : request.body = (raw.drop (headerEnd + 4)).take contentLength

theorem parseHttpRequest_eq_ok_iff {raw : Bytes} {request : HttpRequest} {consumed : Nat} :
    parseHttpRequest raw = .ok (request, consumed) ↔ ∃ headerEnd lines contentLength,
      Parsed raw headerEnd lines contentLength request ∧
        consumed = (headerEnd + 4 + contentLength) % 2 ^ 64 := by
  constructor
  · intro h
    rw [parseHttpRequest] at h
    cases hheader : find (ascii "\r\n\r\n") raw with
    | none => simp [hheader] at h
    | some headerEnd =>
      rw [hheader] at h
      dsimp only at h
      cases hsplit : getLines (raw.take headerEnd) with
      | nil => simp [hsplit] at h
      | cons firstLine lines =>
        rw [hsplit] at h
        dsimp only at h
        rcases hwords : readRequestLine (chopCr firstLine) with _ | ⟨method, path, version⟩
        · simp [hwords] at h
        rw [hwords] at h
        dsimp only at h
        rcases hread : readHeaders lines with error | ⟨headers, contentLength⟩
        · rw [hread] at h
          cases h
        rw [hread] at h
        change (if _ then _ else _) = _ at h
        split at h
        · cases h
        · rename_i hthere
          cases h
          exact ⟨headerEnd, lines, contentLength, ⟨hheader, ⟨firstLine, hsplit, hwords⟩, hread,
            Nat.le_of_not_lt hthere, rfl⟩, rfl⟩
  · rintro ⟨headerEnd, lines, contentLength, ⟨hheader, ⟨firstLine, hsplit, hwords⟩, hread, hthere,
      hbody⟩, rfl⟩
    obtain ⟨method, path, version, headers, body⟩ := request
    rw [parseHttpRequest, hheader]
    dsimp only
    rw [hsplit]
    dsimp only
    rw [hwords]
    dsimp only
    rw [hread]
    change (if _ then _ else _) = _
    rw [if_neg (Nat.not_lt.mpr hthere), ← hbody]

theorem Parsed.start_le {raw : Bytes} {headerEnd : Nat} {lines : List Bytes} {n : Nat}
    {request : HttpRequest} (h : Parsed raw headerEnd lines n request) :
    headerEnd + 4 ≤ raw.length := by
  obtain ⟨hle, hprefix, -⟩ := find_eq_some_iff.mp h.header
  have hlength := hprefix.length_le
  rw [List.length_drop] at hlength
  change 4 ≤ _ at hlength
  omega

/-- Where the sum does not wrap, more bytes do not change the request. -/
theorem Parsed.append {raw : Bytes} {headerEnd : Nat} {lines : List Bytes} {n : Nat}
    {request : HttpRequest} (h : Parsed raw headerEnd lines n request)
    (hfits : headerEnd + 4 + n < 2 ^ 64) (more : Bytes) :
    Parsed (raw ++ more) headerEnd lines n request := by
  have hstart := h.start_le
  have hthere := h.there
  rw [Nat.mod_eq_of_lt hfits] at hthere
  constructor
  · exact find_append_of_eq_some h.header more
  · rw [List.take_append_of_le_length (by omega)]
    exact h.split
  · exact h.headers
  · rw [Nat.mod_eq_of_lt hfits, List.length_append]
    omega
  · rw [List.drop_append_of_le_length hstart, List.take_append_of_le_length, h.body]
    rw [List.length_drop]
    omega

/-- The lengths that the headers of a parsed request declare and convert to. -/
theorem Parsed.lengths {raw : Bytes} {headerEnd : Nat} {lines : List Bytes} {n : Nat}
    {request : HttpRequest} (h : Parsed raw headerEnd lines n request) :
    (∀ text ∈ lengthTexts lines, (stoull text).isSome = true) ∧
      request.headers[ascii "content-length"]? = (lengthTexts lines).getLast? ∧
      convertedLength (lengthTexts lines).getLast? = some n := by
  have hheaders := h.headers
  rw [readHeaders] at hheaders
  cases headersRead (∅, 0) lines with
  | refused text mem conversion error =>
    obtain ⟨error, herror⟩ := error
    cases hheaders.symm.trans herror
  | read headers n' conversions result last length =>
    cases hheaders.symm.trans result
    have hlast : request.headers[ascii "content-length"]? = (lengthTexts lines).getLast? := by
      rw [last, Std.ExtTreeMap.getElem?_empty, Option.or_none]
    refine ⟨conversions, hlast, ?_⟩
    rw [← hlast]
    apply length
    rw [Std.ExtTreeMap.getElem?_empty]
    rfl

theorem Parsed.length_body {raw : Bytes} {headerEnd : Nat} {lines : List Bytes} {n : Nat}
    {request : HttpRequest} (h : Parsed raw headerEnd lines n request)
    (hfits : headerEnd + 4 + n < 2 ^ 64) : request.body.length = n := by
  have hthere := h.there
  rw [Nat.mod_eq_of_lt hfits] at hthere
  rw [h.body, List.length_take, List.length_drop]
  omega

/-- `stoull` gives 64 bits. -/
theorem stoull_lt {text : Bytes} {n : Nat} (h : stoull text = some n) : n < 2 ^ 64 := by
  rw [stoull] at h
  dsimp only at h
  split at h
  · cases h
  · rename_i hvalid
    have := Option.some.inj h
    split at this
    · omega
    · omega

theorem convertedLength_lt {text : Option Bytes} {n : Nat} (h : convertedLength text = some n) :
    n < 2 ^ 64 := by
  cases text with
  | none =>
    obtain rfl := Option.some.inj h
    omega
  | some text => exact stoull_lt h

/-- Where the request line is valid, the lengths convert and the bytes are there, it is parsed. -/
theorem exists_parsed {raw firstLine : Bytes} {headerEnd n : Nat} {lines : List Bytes}
    (hheader : find (ascii "\r\n\r\n") raw = some headerEnd)
    (hsplit : getLines (raw.take headerEnd) = firstLine :: lines)
    (hwords : (readRequestLine (chopCr firstLine)).isSome = true)
    (hall : ∀ text ∈ lengthTexts lines, (stoull text).isSome = true)
    (hn : convertedLength (lengthTexts lines).getLast? = some n)
    (hthere : (headerEnd + 4 + n) % 2 ^ 64 ≤ raw.length) :
    ∃ request, Parsed raw headerEnd lines n request := by
  obtain ⟨⟨method, path, version⟩, hwords⟩ := Option.isSome_iff_exists.mp hwords
  cases headersRead (∅, 0) lines with
  | refused text mem conversion error =>
    have hsome := hall text mem
    rw [conversion] at hsome
    cases hsome
  | read headers n' conversions result last length =>
    rw [Std.ExtTreeMap.getElem?_empty, Option.or_none] at last
    have hn' := length (by rw [Std.ExtTreeMap.getElem?_empty]; rfl)
    rw [last, hn] at hn'
    obtain rfl := Option.some.inj hn'
    exact ⟨⟨method, path, version, headers, (raw.drop (headerEnd + 4)).take n⟩, hheader,
      ⟨firstLine, hsplit, hwords⟩, result, hthere, rfl⟩

/-- A request is framed exactly if and only if it is not of the kind that is misread. -/
theorem framesExactly_iff (raw : Bytes) : FramesExactly raw ↔ ¬ Misframed raw := by
  constructor
  · rintro h ⟨headerEnd, firstLine, lines, n, hheader, hsplit, hwords, hall, hn, hthere, hwrong⟩
    obtain ⟨request, hparsed⟩ := exists_parsed hheader hsplit hwords hall hn hthere
    obtain ⟨headerEnd', hheader', hframes⟩ := h request _
      (parseHttpRequest_eq_ok_iff.mpr ⟨headerEnd, lines, n, hparsed, rfl⟩)
    obtain rfl := Option.some.inj (hheader.symm.trans hheader')
    have hstart := hframes.start
    have hlt := convertedLength_lt hn
    have hfits : headerEnd + 4 + n < 2 ^ 64 := by
      omega
    have hdeclared := hframes.declared
    rw [hparsed.lengths.2.1, hparsed.length_body hfits] at hdeclared
    rcases hwrong with hwrong | hwrong
    · exact hwrong hdeclared
    · omega
  · intro h request consumed hparse
    obtain ⟨headerEnd, lines, n, hparsed, rfl⟩ := parseHttpRequest_eq_ok_iff.mp hparse
    obtain ⟨hall, hlast, hn⟩ := hparsed.lengths
    obtain ⟨firstLine, hsplit, hwords⟩ := hparsed.split
    have hright : declaredLength (lengthTexts lines).getLast? = some (n : ℤ) ∧
        headerEnd + 4 + n < 2 ^ 64 := by
      by_contra hwrong
      refine h ⟨headerEnd, firstLine, lines, n, hparsed.header, hsplit, by rw [hwords]; rfl, hall,
        hn, hparsed.there, ?_⟩
      rw [not_and_or, Nat.not_lt] at hwrong
      exact hwrong
    obtain ⟨hdeclared, hfits⟩ := hright
    have hthere := hparsed.there
    rw [Nat.mod_eq_of_lt hfits] at hthere
    refine ⟨headerEnd, hparsed.header, ?_⟩
    rw [Nat.mod_eq_of_lt hfits]
    constructor
    · exact hthere
    · omega
    · rw [hparsed.body, List.drop_take]
      congr 1
      omega
    · rw [hlast, hdeclared, hparsed.length_body hfits]
    · intro more
      refine parseHttpRequest_eq_ok_iff.mpr ⟨headerEnd, lines, n, hparsed.append hfits more, ?_⟩
      rw [Nat.mod_eq_of_lt hfits]

/-- A negative length ends the request in its own headers. -/
def negativeLength : Bytes := ascii "GET / HTTP/1.1\r\nContent-Length: -5\r\n\r\nhello"

theorem not_framesExactly_negative : ¬ FramesExactly negativeLength := by
  intro h
  have hheader : find (ascii "\r\n\r\n") negativeLength = some 34 := by decide
  obtain ⟨request, hparsed⟩ := @exists_parsed negativeLength _ _ (2 ^ 64 - 5) _ hheader rfl
    (by decide) (by decide) (by decide) (by decide)
  obtain ⟨headerEnd, hheader', hframes⟩ := h request _
    (parseHttpRequest_eq_ok_iff.mpr ⟨34, _, _, hparsed, rfl⟩)
  obtain rfl := Option.some.inj (hheader.symm.trans hheader')
  exact absurd hframes.start (by decide)

end PoorguyMem
