import GaussMatrix.Http.Router
import GaussMatrix.Library.Fallible

/-!
# Requests on the wire

A request is read off a stream of bytes line by line, and its body by its length.  What the client
writes is read back, and no byte behind it is taken.
-/

namespace GaussMatrix.Http

open Library Util

/-! ## Strings -/

/-- The parts between runs of white space. -/
def splitWhitespace (s : Str) : List Str := (s.splitOnP isWhiteSpace).filter (· ≠ [])

/-- Equality but for the case of ASCII letters. -/
def eqIgnoreAsciiCase (a b : Str) : Bool := a.map Char.toLower = b.map Char.toLower

/-- Without the line end. -/
def trimLineEnd (s : Str) : Str := s.rdropWhile fun c => c = '\r' ∨ c = '\n'

/-! ## Reading -/

inductive IoError
  | invalidData
  | unexpectedEof
  deriving DecidableEq

/-- The cap on a body, in bytes. -/
def maxBody : Nat := 2 ^ 20

structure ParsedRequest where
  method : Method
  target : Str
  authorization : Option Str
  body : Str
  deriving DecidableEq

inductive Incoming
  | request (req : ParsedRequest)
  | malformed
  | closed
  deriving DecidableEq

def parseMethod (token : Str) : Option Method :=
  if token = "GET".toList then some .get
  else if token = "POST".toList then some .post
  else if token = "PUT".toList then some .put
  else if token = "DELETE".toList then some .delete
  else none

def methodStr : Method → Str
  | .get => "GET".toList
  | .post => "POST".toList
  | .put => "PUT".toList
  | .delete => "DELETE".toList

/-- The bytes up to a line feed, which belongs to the line. -/
def lineBytes : List UInt8 → List UInt8 × List UInt8
  | [] => ([], [])
  | b :: bytes =>
      if b = 0x0a then ([b], bytes) else (b :: (lineBytes bytes).1, (lineBytes bytes).2)

/-- `read_line`: a line that is not UTF-8 is an error. -/
def readLine (stream : List UInt8) : Except IoError (Str × List UInt8) :=
  match fromUtf8 (lineBytes stream).1 with
  | some line => .ok (line, (lineBytes stream).2)
  | none => .error .invalidData

/-- What is kept of the headers. -/
structure Headers where
  contentLength : Nat
  authorization : Option Str
  deriving DecidableEq

def Headers.keep (h : Headers) (header : Str) : Headers :=
  match splitOnce ':' header with
  | some (name, value) =>
      if eqIgnoreAsciiCase (trim name) "content-length".toList then
        -- a length that is no number counts as none
        { h with contentLength := (parseU64 (trim value)).getD 0 }
      else if eqIgnoreAsciiCase (trim name) "authorization".toList then
        { h with authorization := some (trim value) }
      else h
  -- a line without a colon is passed over
  | none => h

theorem length_lineBytes_le (stream : List UInt8) :
    (lineBytes stream).2.length ≤ stream.length := by
  induction stream with
  | nil => exact Nat.le_refl _
  | cons b bytes ih =>
      rw [lineBytes]
      split
      · exact Nat.le_succ _
      · exact Nat.le_succ_of_le ih

theorem length_of_readLine {stream rest : List UInt8} {line : Str}
    (h : readLine stream = .ok (line, rest)) (hline : line ≠ []) :
    rest.length < stream.length := by
  rw [readLine] at h
  split at h
  · rename_i line' hutf8
    obtain ⟨rfl, rfl⟩ := Prod.mk.inj (Except.ok.inj h)
    cases stream with
    | nil =>
        rw [fromUtf8_eq_some_iff] at hutf8
        exact absurd (utf8Bytes_injective hutf8.symm) hline
    | cons b bytes =>
        rw [lineBytes]
        split
        · exact Nat.lt_succ_self _
        · exact Nat.lt_succ_of_le (length_lineBytes_le bytes)
  · cases h

/-- Read headers up to an empty line or the end of the stream, where the line read is empty too. -/
def readHeaders (h : Headers) (stream : List UInt8) : Except IoError (Headers × List UInt8) :=
  match _hread : readLine stream with
  | .error e => .error e
  | .ok (line, rest) =>
      if _hend : trimLineEnd line = [] then .ok (h, rest)
      else readHeaders (h.keep (trimLineEnd line)) rest
termination_by stream.length
decreasing_by
  apply length_of_readLine _hread
  rintro rfl
  exact _hend rfl

/-- `read_exact`. -/
def readExact (n : Nat) (stream : List UInt8) : Except IoError (List UInt8 × List UInt8) :=
  if n ≤ stream.length then .ok (stream.take n, stream.drop n) else .error .unexpectedEof

/-- Read one request off a stream; what is left of the stream comes with it. -/
def readRequest (stream : List UInt8) : Except IoError (Incoming × List UInt8) := do
  let (requestLine, stream) ← readLine stream
  -- Nothing was left to read.
  if requestLine = [] then return (.closed, stream)
  let parts := splitWhitespace requestLine
  match parts[0]?.bind parseMethod, parts[1]? with
  | some method, some target =>
      let (headers, stream) ← readHeaders ⟨0, none⟩ stream
      if maxBody < headers.contentLength then return (.malformed, stream)
      let (body, stream) ← readExact headers.contentLength stream
      return (.request ⟨method, target, headers.authorization, fromUtf8Lossy body⟩, stream)
  | _, _ => return (.malformed, stream)

/-! ## Writing -/

def authorizationLine (authorization : Option Str) : Str :=
  authorization.elim [] fun auth => "Authorization: ".toList ++ (auth ++ "\r\n".toList)

/-- A request as the client writes it. -/
def encodeRequest (method : Method) (target : Str) (authorization body : Option Str) :
    List UInt8 :=
  let body := utf8Bytes (body.getD [])
  utf8Bytes (methodStr method ++ ' ' :: (target ++ " HTTP/1.1\r\nHost: gaussian.tech\r\n".toList) ++
    (authorizationLine authorization ++
      ("Content-Length: ".toList ++ (decimal body.length ++ "\r\n\r\n".toList)))) ++ body

/-! ## Lines -/

section Lines

variable {line : Str} {stream : List UInt8}

theorem lineBytes_append {a : List UInt8} (h : 0x0a ∉ a) (b : List UInt8) :
    lineBytes (a ++ 0x0a :: b) = (a ++ [0x0a], b) := by
  induction a with
  | nil => rfl
  | cons c cs ih =>
      obtain ⟨hc, hcs⟩ := List.ne_and_not_mem_of_not_mem_cons h
      rw [List.cons_append, lineBytes, if_neg (Ne.symm hc), ih hcs]
      rfl

/-- A line is read whole, its end included. -/
theorem readLine_line (h : '\n' ∉ line) :
    readLine (utf8Bytes (line ++ "\r\n".toList) ++ stream) =
      .ok (line ++ "\r\n".toList, stream) := by
  have hend : utf8Bytes (line ++ "\r\n".toList) = utf8Bytes (line ++ ['\r']) ++ [0x0a] := by
    rw [utf8Bytes_append, utf8Bytes_append, List.append_assoc]
    rfl
  -- The byte of a line feed stands for nothing else.
  have hbyte : (0x0a : UInt8) ∉ utf8Bytes (line ++ ['\r']) := by
    have hmem : UInt8.ofNat '\n'.toNat ∈ utf8Bytes (line ++ ['\r']) ↔ '\n' ∈ line ++ ['\r'] :=
      ascii_mem_utf8Bytes (by decide)
    intro hin
    rcases List.mem_append.mp (hmem.mp hin) with hin | hin
    · exact h hin
    · exact absurd hin (by decide)
  have hbytes : lineBytes (utf8Bytes (line ++ "\r\n".toList) ++ stream) =
      (utf8Bytes (line ++ "\r\n".toList), stream) := by
    rw [hend, List.append_assoc, List.singleton_append, lineBytes_append hbyte]
  rw [readLine, hbytes, fromUtf8_utf8Bytes]

theorem trimLineEnd_line (hcr : '\r' ∉ line) (hlf : '\n' ∉ line) :
    trimLineEnd (line ++ "\r\n".toList) = line := by
  have hsplit : line ++ "\r\n".toList = line ++ ['\r'] ++ ['\n'] := by
    rw [List.append_assoc]
    rfl
  rw [trimLineEnd, hsplit, List.rdropWhile_concat_pos _ _ _ (by decide),
    List.rdropWhile_concat_pos _ _ _ (by decide), List.rdropWhile_eq_self_iff]
  intro hne hlast
  have hmem := List.getLast_mem hne
  rcases of_decide_eq_true hlast with heq | heq
  · exact hcr (heq ▸ hmem)
  · exact hlf (heq ▸ hmem)

theorem readHeaders_line (h : Headers) (hne : line ≠ []) (hcr : '\r' ∉ line) (hlf : '\n' ∉ line) :
    readHeaders h (utf8Bytes (line ++ "\r\n".toList) ++ stream) =
      readHeaders (h.keep line) stream := by
  rw [readHeaders]
  split
  · rename_i e hread
    rw [readLine_line hlf] at hread
    cases hread
  · rename_i read rest hread
    rw [readLine_line hlf] at hread
    obtain ⟨rfl, rfl⟩ := Prod.mk.inj (Except.ok.inj hread)
    rw [trimLineEnd_line hcr hlf, dif_neg hne]

/-- The empty line ends the headers. -/
theorem readHeaders_end (h : Headers) :
    readHeaders h (utf8Bytes "\r\n".toList ++ stream) = .ok (h, stream) := by
  have hread : readLine (utf8Bytes "\r\n".toList ++ stream) = .ok ("\r\n".toList, stream) :=
    readLine_line (List.not_mem_nil : '\n' ∉ [])
  have htrim : trimLineEnd "\r\n".toList = [] := by decide
  rw [readHeaders]
  split
  · rename_i e herror
    rw [hread] at herror
    cases herror
  · rename_i read rest hok
    rw [hread] at hok
    obtain ⟨rfl, rfl⟩ := Prod.mk.inj (Except.ok.inj hok)
    rw [dif_pos htrim]

theorem readExact_append (bytes : List UInt8) :
    readExact bytes.length (bytes ++ stream) = .ok (bytes, stream) := by
  have hle : bytes.length ≤ (bytes ++ stream).length := by
    rw [List.length_append]
    exact Nat.le_add_right _ _
  rw [readExact, if_pos hle, List.take_left, List.drop_left]

end Lines

/-! ## A request comes back -/

/-- A target that stands in a request line as one word. -/
structure IsTarget (target : Str) : Prop where
  ne_nil : target ≠ []
  no_space : ∀ c ∈ target, isWhiteSpace c = false

/-- A value that stands in a header line as it is. -/
structure IsHeaderValue (value : Str) : Prop where
  no_cr : '\r' ∉ value
  no_lf : '\n' ∉ value
  trimmed : Trimmed value

theorem splitWhitespace_word {word : Str} (hne : word ≠ [])
    (hword : ∀ c ∈ word, isWhiteSpace c = false) {c : Char} (hc : isWhiteSpace c = true)
    (rest : Str) : splitWhitespace (word ++ c :: rest) = word :: splitWhitespace rest := by
  rw [splitWhitespace, List.splitOnP_append_cons_of_forall_mem hword c hc,
    List.filter_cons, if_pos (decide_eq_true hne)]
  rfl

theorem parseMethod_methodStr (method : Method) : parseMethod (methodStr method) = some method := by
  cases method <;> decide

theorem isTarget_methodStr (method : Method) : IsTarget (methodStr method) := by
  cases method
  all_goals
    constructor
    · decide
    · exact List.forall_iff_forall_mem.mp (by decide)

/-- The line that a header is written on. -/
def headerLine (name value : Str) : Str := name ++ ':' :: ' ' :: value

theorem keep_headerLine {name : Str} (hname : ':' ∉ name) (value : Str) (h : Headers) :
    h.keep (headerLine name value) =
      if eqIgnoreAsciiCase (trim name) "content-length".toList then
        { h with contentLength := (parseU64 (trim value)).getD 0 }
      else if eqIgnoreAsciiCase (trim name) "authorization".toList then
        { h with authorization := some (trim value) }
      else h := by
  have htrim : trim (' ' :: value) = trim value := rfl
  rw [Headers.keep, headerLine, splitOnce_append hname]
  simp only [htrim]

theorem not_mem_headerLine {c : Char} {name value : Str} (hc : c ≠ ':' ∧ c ≠ ' ') (hname : c ∉ name)
    (hvalue : c ∉ value) : c ∉ headerLine name value := by
  simp only [headerLine, List.mem_append, List.mem_cons, not_or]
  exact ⟨hname, hc.1, hc.2, hvalue⟩

theorem not_isWhiteSpace_of_isDigit {c : Char} (h : c.isDigit = true) : isWhiteSpace c = false := by
  -- White space lies below the digits or far above them.
  have hbounds := digit_bounds h
  have hzero : '0'.toNat = 48 := by decide
  simp only [isWhiteSpace, Bool.or_eq_false_iff, Bool.and_eq_false_iff, decide_eq_false_iff_not]
  omega

theorem isHeaderValue_decimal (n : Nat) : IsHeaderValue (decimal n) := by
  refine ⟨?_, ?_, ?_, ?_⟩
  · exact fun h => absurd (isDigit_of_mem_decimal h) (by decide)
  · exact fun h => absurd (isDigit_of_mem_decimal h) (by decide)
  · exact fun c hc =>
      not_isWhiteSpace_of_isDigit (isDigit_of_mem_decimal (List.mem_of_mem_head? hc))
  · exact fun c hc => not_isWhiteSpace_of_isDigit (isDigit_of_mem_decimal (List.mem_of_getLast? hc))

section Request

variable {method : Method} {target : Str} {authorization body : Option Str} {stream : List UInt8}

theorem readHeaders_header {name value : Str} (hname : name ≠ []) (hcr : '\r' ∉ name)
    (hlf : '\n' ∉ name) (hvalue : IsHeaderValue value) (h : Headers) :
    readHeaders h (utf8Bytes (headerLine name value ++ "\r\n".toList) ++ stream) =
      readHeaders (h.keep (headerLine name value)) stream := by
  apply readHeaders_line
  · exact List.append_ne_nil_of_left_ne_nil hname _
  · exact not_mem_headerLine (by decide) hcr hvalue.no_cr
  · exact not_mem_headerLine (by decide) hlf hvalue.no_lf

/-- The bytes of the request, line by line. -/
theorem encodeRequest_eq : encodeRequest method target authorization body =
    utf8Bytes (methodStr method ++ ' ' :: (target ++ " HTTP/1.1".toList) ++ "\r\n".toList) ++
      (utf8Bytes (headerLine "Host".toList "gaussian.tech".toList ++ "\r\n".toList) ++
      (utf8Bytes (authorizationLine authorization) ++
      (utf8Bytes (headerLine "Content-Length".toList
        (decimal (utf8Bytes (body.getD [])).length) ++ "\r\n".toList) ++
      (utf8Bytes "\r\n".toList ++ utf8Bytes (body.getD []))))) := by
  have hhost : " HTTP/1.1\r\nHost: gaussian.tech\r\n".toList = " HTTP/1.1".toList ++
      ("\r\n".toList ++ (headerLine "Host".toList "gaussian.tech".toList ++ "\r\n".toList)) := by
    decide
  have hend : "\r\n\r\n".toList = "\r\n".toList ++ "\r\n".toList := by decide
  have hlength : "Content-Length: ".toList = "Content-Length".toList ++ [':', ' '] := by decide
  rw [encodeRequest, hhost, hend, hlength]
  simp only [headerLine, utf8Bytes_append, utf8Bytes_cons, utf8Bytes_nil, List.append_assoc,
    List.append_nil]

/-- The headers are read into the length of the body and the authorization. -/
theorem readHeaders_request {n : Nat} (hn : n < 2 ^ 64)
    (hauth : ∀ auth ∈ authorization, IsHeaderValue auth) :
    readHeaders ⟨0, none⟩
      (utf8Bytes (headerLine "Host".toList "gaussian.tech".toList ++ "\r\n".toList) ++
      (utf8Bytes (authorizationLine authorization) ++
      (utf8Bytes (headerLine "Content-Length".toList (decimal n) ++ "\r\n".toList) ++
      (utf8Bytes "\r\n".toList ++ stream)))) = .ok (⟨n, authorization⟩, stream) := by
  have hhost : IsHeaderValue "gaussian.tech".toList := by
    refine ⟨by decide, by decide, ?_, ?_⟩
    · rintro c ⟨⟩
      decide
    · rintro c ⟨⟩
      decide
  have hlength : ∀ auth : Option Str,
      (Headers.mk 0 auth).keep (headerLine "Content-Length".toList (decimal n)) = ⟨n, auth⟩ := by
    intro auth
    rw [keep_headerLine (by decide), if_pos (by decide), (isHeaderValue_decimal n).trimmed.trim,
      parseU64_decimal hn]
    rfl
  have hlast : ∀ auth : Option Str,
      readHeaders ⟨0, auth⟩
        (utf8Bytes (headerLine "Content-Length".toList (decimal n) ++ "\r\n".toList) ++
        (utf8Bytes "\r\n".toList ++ stream)) = .ok (⟨n, auth⟩, stream) := by
    intro auth
    rw [readHeaders_header (by decide) (by decide) (by decide) (isHeaderValue_decimal n),
      hlength, readHeaders_end]
  rw [readHeaders_header (by decide) (by decide) (by decide) hhost,
    keep_headerLine (by decide), if_neg (by decide), if_neg (by decide)]
  -- The host is passed over; what follows is the length, with or without the authorization before it.
  cases authorization with
  | none => exact hlast none
  | some auth =>
      have hvalue := hauth auth rfl
      have hline : authorizationLine (some auth) =
          headerLine "Authorization".toList auth ++ "\r\n".toList := by
        have hname : "Authorization: ".toList = "Authorization".toList ++ [':', ' '] := by decide
        rw [authorizationLine, headerLine, Option.elim_some, hname, List.append_assoc,
          List.append_assoc]
        rfl
      rw [hline, readHeaders_header (by decide) (by decide) (by decide) hvalue,
        keep_headerLine (by decide), if_neg (by decide), if_pos (by decide), hvalue.trimmed.trim]
      exact hlast (some auth)

/-- What a client writes is read as it was meant, up to its last byte and no further. -/
theorem readRequest_encodeRequest (htarget : IsTarget target)
    (hauth : ∀ auth ∈ authorization, IsHeaderValue auth)
    (hbody : (utf8Bytes (body.getD [])).length ≤ maxBody) :
    readRequest (encodeRequest method target authorization body ++ stream) =
      .ok (.request ⟨method, target, authorization, body.getD []⟩, stream) := by
  have hmethod := isTarget_methodStr method
  have hlf : '\n' ∉ methodStr method ++ ' ' :: (target ++ " HTTP/1.1".toList) := by
    intro hmem
    rcases List.mem_append.mp hmem with hmem | hmem
    · exact absurd (hmethod.no_space _ hmem) (by decide)
    rcases List.mem_cons.mp hmem with hmem | hmem
    · exact absurd hmem (by decide)
    rcases List.mem_append.mp hmem with hmem | hmem
    · exact absurd (htarget.no_space _ hmem) (by decide)
    · exact absurd hmem (by decide)
  have hwords : splitWhitespace (methodStr method ++ ' ' :: (target ++ " HTTP/1.1".toList) ++
      "\r\n".toList) = [methodStr method, target, "HTTP/1.1".toList] := by
    have htail : target ++ " HTTP/1.1".toList ++ "\r\n".toList =
        target ++ ' ' :: ("HTTP/1.1".toList ++ "\r\n".toList) := by
      rw [List.append_assoc]
      rfl
    rw [List.append_assoc, List.cons_append, htail,
      splitWhitespace_word hmethod.ne_nil hmethod.no_space (by decide),
      splitWhitespace_word htarget.ne_nil htarget.no_space (by decide)]
    rfl
  have hlength : (utf8Bytes (body.getD [])).length < 2 ^ 64 :=
    Nat.lt_of_le_of_lt hbody (by decide)
  have hline : methodStr method ++ ' ' :: (target ++ " HTTP/1.1".toList) ++ "\r\n".toList ≠ [] := by
    simp
  -- The request line, the headers and the body are read off one after the other.
  rw [encodeRequest_eq]
  simp only [List.append_assoc]
  rw [← List.append_assoc (methodStr method), readRequest, readLine_line hlf, ok_bind]
  simp only [if_neg hline, hwords, List.getElem?_cons_zero, List.getElem?_cons_succ,
    Option.bind_some, parseMethod_methodStr, readHeaders_request hlength hauth, ok_bind, readExact_append,
    if_neg (Nat.not_lt.mpr hbody), fromUtf8Lossy_utf8Bytes]
  rfl

end Request

/-- A value that looks like another header and a body that looks like a line. -/
theorem readRequest_bearer :
    readRequest (encodeRequest .put "/send/1".toList (some "Content-Length: 0".toList)
      (some "a\r\nb".toList) ++ [0x47]) =
      .ok (.request ⟨.put, "/send/1".toList, some "Content-Length: 0".toList, "a\r\nb".toList⟩,
        [0x47]) := by
  apply readRequest_encodeRequest
  · exact ⟨by decide, List.forall_iff_forall_mem.mp (by decide)⟩
  · rintro auth ⟨⟩
    refine ⟨by decide, by decide, ?_, ?_⟩
    · rintro c ⟨⟩
      decide
    · rintro c ⟨⟩
      decide
  · decide

end GaussMatrix.Http
