import GaussMatrix.Http.Ingress
import GaussMatrix.Http.Transport

/-!
# Responses on the wire

A response is written with the length of its body.  The client that reads it looks for a blank line
instead, and takes what stands between the first and the second: a body that holds one is cut there.
-/

namespace GaussMatrix.Http

open Library Util Api Svc RoomService

/-! ## Splitting at a string -/

/-- The parts between the occurrences of a string that is not empty, from the left; `skip`
characters still belong to the occurrence before. -/
def splitStr (pat : Str) : Nat → Str → List Str
  | _, [] => [[]]
  | skip + 1, _ :: cs => splitStr pat skip cs
  | 0, c :: cs =>
      if pat <+: c :: cs then [] :: splitStr pat (pat.length - 1) cs
      else (splitStr pat 0 cs).modifyHead (c :: ·)

example : splitStr "aa".toList 0 "baaabaa".toList = ["b".toList, "ab".toList, []] := by decide

section Split

variable {pat : Str}

theorem splitStr_drop (skip : Nat) (s : Str) :
    splitStr pat skip s = splitStr pat 0 (s.drop skip) := by
  induction s generalizing skip with
  | nil =>
      rw [List.drop_nil]
      cases skip <;> rfl
  | cons c cs ih =>
      cases skip with
      | zero => rfl
      | succ skip => exact ih skip

/-- An occurrence at the front is an empty first part. -/
theorem splitStr_append (hpat : pat ≠ []) (s : Str) :
    splitStr pat 0 (pat ++ s) = [] :: splitStr pat 0 s := by
  cases pat with
  | nil => exact absurd rfl hpat
  | cons p ps =>
      have hfront : p :: ps <+: p :: (ps ++ s) := List.prefix_append (p :: ps) s
      rw [List.cons_append, splitStr, if_pos hfront, splitStr_drop]
      show [] :: splitStr (p :: ps) 0 ((ps ++ s).drop ps.length) = _
      rw [List.drop_left]

theorem splitStr_ne_nil (skip : Nat) (s : Str) : splitStr pat skip s ≠ [] := by
  induction s generalizing skip with
  | nil => cases skip <;> exact List.cons_ne_nil _ _
  | cons c cs ih =>
      cases skip with
      | succ skip => exact ih skip
      | zero =>
          rw [splitStr]
          split
          · exact List.cons_ne_nil _ _
          · intro h
            exact ih 0 (List.modifyHead_eq_nil_iff.mp h)

theorem splitStr_cons {c : Char} {cs : Str} (h : ¬ pat <+: c :: cs) :
    splitStr pat 0 (c :: cs) = (splitStr pat 0 cs).modifyHead (c :: ·) := by
  rw [splitStr, if_neg h]

/-- The first part is the whole text only where the string does not occur. -/
theorem head?_splitStr_iff (hpat : pat ≠ []) (s : Str) :
    (splitStr pat 0 s).head? = some s ↔ ¬ pat <:+: s := by
  induction s with
  | nil =>
      have hnil : ¬ pat <:+: [] := fun h => hpat (List.infix_nil.mp h)
      exact iff_of_true rfl hnil
  | cons c cs ih =>
      rw [splitStr, List.infix_cons_iff, not_or]
      split
      · rename_i hfront
        exact iff_of_false (fun h => nomatch h) (fun h => h.1 hfront)
      · rename_i hfront
        rw [List.head?_modifyHead, Option.map_eq_some_iff]
        constructor
        · rintro ⟨first, hfirst, heq⟩
          obtain rfl := (List.cons.inj heq).2
          exact ⟨hfront, ih.mp hfirst⟩
        · intro h
          exact ⟨cs, ih.mpr h.2, rfl⟩

end Split

/-! ## Writing and reading -/

/-- The reason phrase of a status. -/
def reason (status : Nat) : Str :=
  if status = 200 then "OK"
  else if status = 400 then "Bad Request"
  else if status = 401 then "Unauthorized"
  else if status = 403 then "Forbidden"
  else if status = 404 then "Not Found"
  else if status = 405 then "Method Not Allowed"
  else if status = 501 then "Not Implemented"
  else "OK"

def statusLine (status : Nat) : Str :=
  "HTTP/1.1 ".toList ++ (decimal status ++ ' ' :: reason status)

/-- The line with the length of the body, unless a header gives one. -/
def lengthLine (r : Response) : List Str :=
  if r.headers.any fun header => eqIgnoreAsciiCase header.1 "content-length".toList then []
  else [headerLine "Content-Length".toList (decimal (utf8Bytes r.body).length)]

/-- The lines before the blank one. -/
def headLines (r : Response) : List Str :=
  statusLine r.status ::
    ((r.headers.map fun header => headerLine header.1 header.2) ++ lengthLine r)

def crlf : Str := "\r\n".toList

/-- The end of the head: the end of a line, and a blank line. -/
def blankLine : Str := "\r\n\r\n".toList

def writeResponse (r : Response) : List UInt8 :=
  utf8Bytes ((headLines r).flatMap (· ++ crlf) ++ crlf) ++ utf8Bytes r.body

/-- The first of the lines, without its end. -/
def firstLine (text : Str) : Option Str :=
  match splitOnce '\n' text with
  | some (line, _) => some (if line.getLast? = some '\r' then line.dropLast else line)
  | none => if text = [] then none else some text

/-- A `u16` as `str::parse` reads it. -/
def parseU16 (s : Str) : Option Nat := (parseU64 s).filter (· < 2 ^ 16)

/-- The status and the body of a response. -/
def parseResponse (raw : List UInt8) : Except IoError (Nat × Str) :=
  let text := fromUtf8Lossy raw
  match (firstLine text).bind fun line => (splitWhitespace line)[1]?.bind parseU16 with
  -- The length that the server sent is not looked at.
  | some status => .ok (status, (splitStr blankLine 0 text)[1]?.getD [])
  | none => .error .invalidData

/-! ## What is read back -/

section Read

variable {line body : Str}

/-- No blank line starts inside a line. -/
theorem splitStr_line (hline : '\r' ∉ line) (rest : Str) :
    splitStr blankLine 0 (line ++ rest) =
      (splitStr blankLine 0 rest).modifyHead (line ++ ·) := by
  induction line with
  | nil =>
      show _ = (splitStr blankLine 0 rest).modifyHead id
      rw [List.modifyHead_id]
      rfl
  | cons c cs ih =>
      obtain ⟨hc, hcs⟩ := List.ne_and_not_mem_of_not_mem_cons hline
      have hfront : ¬ blankLine <+: c :: (cs ++ rest) :=
        fun h => hc (List.cons_prefix_cons.mp h).1
      rw [List.cons_append, splitStr_cons hfront, ih hcs, List.modifyHead_modifyHead]
      rfl

/-- Nor at the end of a line that another one follows. -/
theorem splitStr_crlf {c : Char} (hc : c ≠ '\r') (rest : Str) :
    splitStr blankLine 0 (crlf ++ c :: rest) =
      (splitStr blankLine 0 (c :: rest)).modifyHead (crlf ++ ·) := by
  have hcr : ¬ blankLine <+: '\r' :: '\n' :: c :: rest := by
    intro h
    have htail := (List.cons_prefix_cons.mp (List.cons_prefix_cons.mp h).2).2
    exact hc (List.cons_prefix_cons.mp htail).1.symm
  have hlf : ¬ blankLine <+: '\n' :: c :: rest :=
    fun h => absurd (List.cons_prefix_cons.mp h).1 (by decide)
  show splitStr blankLine 0 ('\r' :: '\n' :: c :: rest) = _
  rw [splitStr_cons hcr, splitStr_cons hlf, List.modifyHead_modifyHead]
  rfl

/-- Behind the head the parts of the body follow. -/
theorem splitStr_head {lines : List Str} (hlines : ∀ line ∈ lines, line ≠ [] ∧ '\r' ∉ line)
    (hne : lines ≠ []) :
    (splitStr blankLine 0 (lines.flatMap (· ++ crlf) ++ crlf ++ body))[1]? =
      (splitStr blankLine 0 body).head? := by
  induction lines with
  | nil => exact absurd rfl hne
  | cons line lines ih =>
      obtain ⟨⟨-, hcr⟩, hrest⟩ := List.forall_mem_cons.mp hlines
      rw [List.flatMap_cons, List.append_assoc, List.append_assoc, List.append_assoc,
        splitStr_line hcr, List.getElem?_modifyHead_succ]
      cases lines with
      | nil =>
          -- the last line: its end and the blank line are the separator
          have hend : crlf ++ ([].flatMap (· ++ crlf) ++ (crlf ++ body)) = blankLine ++ body := rfl
          rw [hend, splitStr_append (by decide), List.getElem?_cons_succ, List.head?_eq_getElem?]
      | cons next lines =>
          obtain ⟨hnext, hnextCr⟩ := hrest next List.mem_cons_self
          cases next with
          | nil => exact absurd rfl hnext
          | cons c cs =>
              have hc : c ≠ '\r' := fun h => hnextCr (h ▸ List.mem_cons_self)
              rw [← ih hrest (List.cons_ne_nil _ _), List.flatMap_cons, List.cons_append,
                List.cons_append, List.cons_append, splitStr_crlf hc,
                List.getElem?_modifyHead_succ]
              simp only [List.append_assoc, List.cons_append]

theorem firstLine_append {line rest : Str} (hlf : '\n' ∉ line) :
    firstLine (line ++ crlf ++ rest) = some line := by
  have htext : line ++ crlf ++ rest = (line ++ ['\r']) ++ '\n' :: rest := by
    rw [List.append_assoc, List.append_assoc]
    rfl
  have hnone : '\n' ∉ line ++ ['\r'] := by
    intro h
    rcases List.mem_append.mp h with h | h
    · exact hlf h
    · exact absurd h (by decide)
  rw [firstLine, htext, splitOnce_append hnone]
  show some (if (line ++ ['\r']).getLast? = some '\r' then (line ++ ['\r']).dropLast else _) = _
  rw [if_pos List.getLast?_concat, List.dropLast_concat]

end Read

/-! ## The status line -/

/-- A text within one line. -/
structure NoBreak (s : Str) : Prop where
  no_cr : '\r' ∉ s
  no_lf : '\n' ∉ s

theorem reason_no_break (status : Nat) : NoBreak (reason status) := by
  constructor
  all_goals
    unfold reason
    split_ifs <;> decide

theorem not_mem_statusLine {c : Char} {status : Nat} (hversion : c ∉ "HTTP/1.1 ".toList)
    (hc : c ≠ ' ') (hdigits : c ∉ decimal status) (hreason : c ∉ reason status) :
    c ∉ statusLine status := by
  have hline : statusLine status =
      "HTTP/1.1 ".toList ++ (decimal status ++ ' ' :: reason status) := rfl
  rw [hline, List.mem_append, List.mem_append, List.mem_cons, not_or, not_or, not_or]
  exact ⟨hversion, hdigits, hc, hreason⟩

theorem statusLine_no_break (status : Nat) : NoBreak (statusLine status) := by
  have hvalue := isHeaderValue_decimal status
  have hreason := reason_no_break status
  exact ⟨not_mem_statusLine (by decide) (by decide) hvalue.no_cr hreason.no_cr,
    not_mem_statusLine (by decide) (by decide) hvalue.no_lf hreason.no_lf⟩

theorem status_statusLine {status : Nat} (h : status < 2 ^ 16) :
    (splitWhitespace (statusLine status))[1]?.bind parseU16 = some status := by
  have hdigits : ∀ c ∈ decimal status, isWhiteSpace c = false :=
    fun c hc => not_isWhiteSpace_of_isDigit (isDigit_of_mem_decimal hc)
  have hline : statusLine status =
      "HTTP/1.1".toList ++ ' ' :: (decimal status ++ ' ' :: reason status) := rfl
  have hversion : IsTarget "HTTP/1.1".toList :=
    ⟨by decide, List.forall_iff_forall_mem.mp (by decide)⟩
  rw [hline, splitWhitespace_word hversion.ne_nil hversion.no_space (by decide),
    splitWhitespace_word (decimal_ne_nil status) hdigits (by decide), List.getElem?_cons_succ,
    List.getElem?_cons_zero, Option.bind_some, parseU16, parseU64_decimal (h.trans (by decide)),
    Option.filter_some, if_pos (decide_eq_true h)]

/-! ## A response comes back -/

section Response

variable {r : Response}

theorem headLines_no_cr (h : ∀ header ∈ r.headers, NoBreak header.1 ∧ NoBreak header.2) :
    ∀ line ∈ headLines r, line ≠ [] ∧ '\r' ∉ line := by
  have hheader : ∀ {name value : Str}, '\r' ∉ name → '\r' ∉ value →
      headerLine name value ≠ [] ∧ '\r' ∉ headerLine name value := by
    intro name value hname hvalue
    exact ⟨List.append_ne_nil_of_right_ne_nil _ (List.cons_ne_nil _ _),
      not_mem_headerLine (by decide) hname hvalue⟩
  intro line hline
  rcases List.mem_cons.mp hline with rfl | hline
  · have hne : statusLine r.status ≠ [] := List.cons_ne_nil _ _
    exact ⟨hne, (statusLine_no_break r.status).no_cr⟩
  rcases List.mem_append.mp hline with hline | hline
  · obtain ⟨header, hmem, rfl⟩ := List.mem_map.mp hline
    exact hheader (h header hmem).1.no_cr (h header hmem).2.no_cr
  · unfold lengthLine at hline
    split at hline
    · exact absurd hline List.not_mem_nil
    · rw [List.mem_singleton.mp hline]
      exact hheader (by decide) (isHeaderValue_decimal _).no_cr

/-- The client reads what the server wrote exactly where the body holds no blank line. -/
theorem parseResponse_writeResponse_iff (hstatus : r.status < 2 ^ 16)
    (hheaders : ∀ header ∈ r.headers, NoBreak header.1 ∧ NoBreak header.2) :
    parseResponse (writeResponse r) = .ok (r.status, r.body) ↔ ¬ blankLine <:+: r.body := by
  have htext : fromUtf8Lossy (writeResponse r) =
      (headLines r).flatMap (· ++ crlf) ++ crlf ++ r.body := by
    rw [writeResponse, ← utf8Bytes_append, fromUtf8Lossy_utf8Bytes]
  have hfirst : firstLine ((headLines r).flatMap (· ++ crlf) ++ crlf ++ r.body) =
      some (statusLine r.status) := by
    rw [headLines, List.flatMap_cons, List.append_assoc, List.append_assoc]
    exact firstLine_append (statusLine_no_break r.status).no_lf
  have hbody :
      (splitStr blankLine 0 ((headLines r).flatMap (· ++ crlf) ++ crlf ++ r.body))[1]? =
        (splitStr blankLine 0 r.body).head? :=
    splitStr_head (headLines_no_cr hheaders) (List.cons_ne_nil _ _)
  rw [parseResponse]
  simp only [htext, hfirst, Option.bind_some, status_statusLine hstatus, hbody]
  -- What the client takes for the body is the first part of it.
  rw [← head?_splitStr_iff (by decide)]
  cases hparts : splitStr blankLine 0 r.body with
  | nil => exact absurd hparts (splitStr_ne_nil 0 r.body)
  | cons first parts => simp

theorem contentType_no_break : NoBreak Response.contentType.1 ∧ NoBreak Response.contentType.2 :=
  ⟨⟨by decide, by decide⟩, ⟨by decide, by decide⟩⟩

/-- An error comes back: its body is written in one line. -/
theorem parseResponse_not_found :
    parseResponse (writeResponse (.error 404 (.notFound "event not found"))) =
      .ok (404, (MatrixError.notFound "event not found").toJson) := by
  have hheaders : ∀ header ∈ [Response.contentType], NoBreak header.1 ∧ NoBreak header.2 := by
    intro header hmem
    rw [List.mem_singleton.mp hmem]
    exact contentType_no_break
  exact (parseResponse_writeResponse_iff (r := .error 404 (.notFound "event not found"))
    (by decide) hheaders).mpr (by decide +kernel)

/-- A room name whose content is spread over lines. -/
def spreadName : Pdu where
  eventId := ⟨"$a".toList, rfl⟩
  roomId := ⟨"!r:h".toList, rfl⟩
  sender := ⟨"@u:h".toList, rfl⟩
  kind := Events.roomName
  stateKey := some []
  originServerTs := 0
  depth := 1
  prevEvents := []
  authEvents := []
  contentJson := "\x7b\r\n\r\n\x7d".toList

/-- The room with the name, and a session that may read it. -/
def spreadRoom : Data :=
  (append Store.empty spreadName).put .accessTokens "t".toList (.text "@u:h".toList)

/-- The read of the name is answered with the content as it was stored, and the client gets its
first character. -/
theorem parseResponse_spreadName :
    let req : Request :=
      ⟨.get, "/_matrix/client/v3/rooms/!r:h/state/m.room.name".toList, some "Bearer t".toList⟩
    let r := Response.jsonOk spreadName.contentJson
    handle id spreadRoom req = some r ∧
      (∀ header ∈ r.headers, NoBreak header.1 ∧ NoBreak header.2) ∧
      parseResponse (writeResponse r) = .ok (r.status, "\x7b".toList) ∧
      parseResponse (writeResponse r) ≠ .ok (r.status, r.body) := by
  have hread : parseResponse (writeResponse (.jsonOk spreadName.contentJson)) =
      .ok (200, "\x7b".toList) := by
    decide +kernel
  refine ⟨by decide +kernel, ?_, hread, ?_⟩
  · intro header hmem
    rw [List.mem_singleton.mp hmem]
    exact contentType_no_break
  · intro h
    have hbody := Except.ok.inj (hread.symm.trans h)
    exact absurd hbody (by decide)

end Response

end GaussMatrix.Http
