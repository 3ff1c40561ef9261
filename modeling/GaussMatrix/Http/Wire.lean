import GaussMatrix.Http.Provenance
import GaussMatrix.Http.TransportResponse

/-!
# The server on the wire

A connection brings the bytes of one request and takes those of the response.  The client takes what
stands before a second blank line for the body, but no handler answers in more than one line: all but
one write JSON, and the one that answers with the text of a state event finds it written as JSON when
the event was taken in.
-/

namespace GaussMatrix.Http.Ingress

open Library Util Api Api.Events StateRes Svc Fed RoomService

/-! ## Connections -/

/-- The answer to bytes that are no request. -/
def badRequest : Response := .error 400 (.new "M_NOT_JSON" "malformed HTTP request")

/-- The request that was read; an empty body counts as none. -/
def ofParsed (req : ParsedRequest) : Request where
  method := req.method
  target := req.target
  authorization := req.authorization
  body := if req.body = [] then none else some req.body

/-- Serve one connection: what is written to it, and the data after. -/
def serveConnection (env : ServerEnv) (s : Data) (raw : List UInt8) (clock : Clock) :
    List UInt8 × Data :=
  match readRequest raw with
  | .ok (.request req, _) =>
      let (response, s') := handle env s (ofParsed req) clock
      (writeResponse response, s')
  | .ok _ => (writeResponse badRequest, s)
  -- the connection is dropped
  | .error _ => ([], s)

/-- The data after a connection. -/
def connectionStep (env : ServerEnv) (s : Data) (x : List UInt8 × Clock) : Data :=
  (serveConnection env s x.1 x.2).2

/-- Send a request and read the response. -/
def sendRequest (env : ServerEnv) (s : Data) (method : Method) (target : Str)
    (authorization body : Option Str) (clock : Clock) : Except IoError (Nat × Str) × Data :=
  let (raw, s') := serveConnection env s (encodeRequest method target authorization body) clock
  (parseResponse raw, s')

/-! ## Texts in one line -/

/-- No character of the text is a control character. -/
def NoControl (s : Str) : Prop := ∀ c ∈ s, 0x20 ≤ c.toNat

instance (s : Str) : Decidable (NoControl s) := List.decidableBAll _ _

theorem NoControl.noBreak {s : Str} (h : NoControl s) : NoBreak s :=
  ⟨fun hmem => absurd (h _ hmem) (by decide), fun hmem => absurd (h _ hmem) (by decide)⟩

theorem NoControl.append {s t : Str} (hs : NoControl s) (ht : NoControl t) : NoControl (s ++ t) :=
  List.forall_mem_append.mpr ⟨hs, ht⟩

theorem NoControl.cons {c : Char} {s : Str} (hc : 0x20 ≤ c.toNat) (hs : NoControl s) :
    NoControl (c :: s) :=
  List.forall_mem_cons.mpr ⟨hc, hs⟩

theorem noControl_flatMap {f : Char → Str} (h : ∀ c, NoControl (f c)) (s : Str) :
    NoControl (s.flatMap f) := by
  intro c hc
  obtain ⟨d, -, hd⟩ := List.mem_flatMap.mp hc
  exact h d c hd

theorem digitChar_noControl : ∀ n < 16, 0x20 ≤ (Nat.digitChar n).toNat := by
  decide

/-- A control character in hexadecimal. -/
theorem hexEscape_noControl {c : Char} (hc : c.toNat < 0x20) :
    NoControl ['\\', 'u', '0', '0', Nat.digitChar (c.toNat / 16), Nat.digitChar (c.toNat % 16)] := by
  have hhigh := digitChar_noControl (c.toNat / 16) (by omega)
  have hlow := digitChar_noControl (c.toNat % 16) (Nat.mod_lt _ (by decide))
  exact NoControl.append (s := ['\\', 'u', '0', '0']) (by decide)
    (.cons hhigh (.cons hlow (by decide)))

theorem escapeChar_noControl (c : Char) : NoControl (Json.escapeChar c) := by
  unfold Json.escapeChar
  split
  · decide
  split
  · decide
  split
  · decide
  split
  · decide
  split
  · decide
  split
  · decide
  split
  · decide
  split
  · rename_i hcontrol
    exact hexEscape_noControl hcontrol
  · rename_i hcontrol
    exact .cons (by omega) (by decide)

theorem writeJsonString_noControl (s : Str) : NoControl (Json.writeJsonString s) :=
  .cons (by decide) ((noControl_flatMap escapeChar_noControl s).append (by decide))

theorem isNumberChar_noControl {c : Char} (h : Parser.isNumberChar c = true) : 0x20 ≤ c.toNat := by
  simp only [Parser.isNumberChar, Bool.or_eq_true, decide_eq_true_eq] at h
  rcases h with ((((hdigit | rfl) | rfl) | rfl) | rfl) | rfl
  · have hbounds := digit_bounds hdigit
    have hzero : '0'.toNat = 48 := by decide
    omega
  all_goals decide

/-- The text of a value stands in one line. -/
theorem write_noControl (v : Json) : NoControl v.write := by
  induction v using Json.treeInduction with
  | null => decide
  | bool b => cases b <;> decide
  | number n => exact fun c hc => isNumberChar_noControl (Json.isNumberChar_of_mem_formatNumber hc)
  | string s => exact writeJsonString_noControl s
  | array items ih =>
      refine .cons (by decide) (NoControl.append ?_ (by decide))
      induction items with
      | nil => exact List.forall_mem_nil _
      | cons item items ihItems =>
          obtain ⟨hitem, hitems⟩ := List.forall_mem_cons.mp ih
          rw [← List.append_nil (Json.writeItems _), Json.writeItems_cons, List.append_nil]
          refine hitem.append ?_
          cases items with
          | nil => exact List.forall_mem_nil _
          | cons item' items => exact .cons (by decide) (ihItems hitems)
  | object fields ih =>
      refine .cons (by decide) (NoControl.append ?_ (by decide))
      induction fields with
      | nil => exact List.forall_mem_nil _
      | cons f fields ihFields =>
          obtain ⟨hf, hfields⟩ := List.forall_mem_cons.mp ih
          obtain ⟨k, v⟩ := f
          rw [← List.append_nil (Json.writeFields _), Json.writeFields_cons, List.append_nil]
          refine (writeJsonString_noControl k).append (.cons (by decide) (NoControl.append hf ?_))
          cases fields with
          | nil => exact List.forall_mem_nil _
          | cons f' fields => exact .cons (by decide) (ihFields hfields)

/-! ## Answers in one line -/

/-- A response whose body stands in one line, as its headers do. -/
structure OneLine (r : Response) : Prop where
  status : r.status < 2 ^ 16
  headers : ∀ header ∈ r.headers, NoBreak header.1 ∧ NoBreak header.2
  body : NoControl r.body

/-- The response is the text of a state event of the data. -/
def IsContent (s : Data) (r : Response) : Prop :=
  ∃ room kind key p, stateEventPdu s room kind key = some p ∧ r = .jsonOk p.contentJson

theorem jsonString_noControl (s : Str) : NoControl (jsonString s) := by
  refine .cons (by decide) ((noControl_flatMap ?_ s).append (by decide))
  intro c
  split
  · decide
  split
  · decide
  split
  · decide
  split
  · decide
  split
  · decide
  split
  · rename_i hcontrol
    exact hexEscape_noControl hcontrol
  · rename_i hcontrol
    exact .cons (by omega) (by decide)

theorem jsonEscape_noControl (s : Str) : NoControl (jsonEscape s) := by
  refine noControl_flatMap ?_ s
  intro c
  split
  · decide
  split
  · decide
  split
  · rename_i hcontrol
    exact hexEscape_noControl hcontrol
  · rename_i hcontrol
    exact .cons (by omega) (by decide)

theorem allowHeader_noControl (allowed : List Method) : NoControl (allowHeader allowed) := by
  have hname : ∀ method, NoControl (methodName method) := by
    intro method
    cases method <;> decide
  induction allowed with
  | nil => decide
  | cons method rest ih =>
      cases rest with
      | nil =>
          rw [allowHeader, List.map_cons, List.map_nil, List.intercalate_singleton]
          exact hname method
      | cons next rest =>
          rw [allowHeader, List.map_cons, List.map_cons, List.intercalate_cons_cons]
          exact ((hname method).append (by decide)).append ih

theorem contentType_single : ∀ header ∈ [Response.contentType], NoBreak header.1 ∧ NoBreak header.2 := by
  intro header hmem
  rw [List.mem_singleton.mp hmem]
  exact contentType_no_break

theorem OneLine.error {status : Nat} (hstatus : status < 2 ^ 16) (e : MatrixError) :
    OneLine (.error status e) where
  status := hstatus
  headers := contentType_single
  body :=
    (((NoControl.append (by decide) (jsonString_noControl e.errcode)).append (by decide)).append
      (jsonString_noControl e.error)).append (by decide)

theorem OneLine.text {body : Str} (h : NoControl body) : OneLine (.jsonOk body) where
  status := (by decide : 200 < 2 ^ 16)
  headers := contentType_single
  body := h

theorem OneLine.write (v : Json) : OneLine (.jsonOk v.write) := .text (write_noControl v)

theorem OneLine.empty : OneLine (.jsonOk "\x7b\x7d") := .text (by decide)

section

variable {env : ServerEnv} {s : Data} {m : RouteMatch} {user : Option UserId} {body : Option Str}

theorem oneLine_withRoom {answer : RoomId → Response} (h : ∀ room, OneLine (answer room)) :
    OneLine (withRoom m answer) := by
  unfold withRoom
  split
  · exact .error (by decide) _
  split
  · exact .error (by decide) _
  · exact h _

theorem oneLine_versions : OneLine (.jsonOk versionsBody) := .text (by decide +kernel)

theorem oneLine_loginFlows : OneLine (.jsonOk loginFlowsBody) := .text (by decide +kernel)

theorem oneLine_whoami : OneLine (serveWhoami user) := by
  cases user with
  | none => exact .error (by decide) _
  | some user =>
      exact .text ((NoControl.append (by decide) (jsonEscape_noControl user.asStr)).append (by decide))

theorem oneLine_login : OneLine (serveLogin env s body).1 := by
  unfold serveLogin
  repeat' split
  all_goals first
    | exact .error (by decide) _
    | exact .write _

theorem oneLine_keysQuery : OneLine (serveKeysQuery s body) := by
  unfold serveKeysQuery
  split
  · exact .write _
  · exact .error (by decide) _

theorem oneLine_getPresence : OneLine (serveGetPresence s m) := by
  unfold serveGetPresence
  repeat' split
  all_goals first
    | exact .error (by decide) _
    | exact .write _

theorem oneLine_event (sha256 : List UInt8 → List UInt8) : OneLine (serveEvent sha256 s m) := by
  unfold serveEvent
  split
  · exact .error (by decide) _
  · apply oneLine_withRoom
    intro room
    split
    · exact .write _
    · exact .error (by decide) _

/-- The read of a state event is the one that answers with a text as it is stored. -/
theorem serveStateEvent_oneLine : OneLine (serveStateEvent s m) ∨ IsContent s (serveStateEvent s m) := by
  unfold serveStateEvent withRoom
  split
  · exact .inl (.error (by decide) _)
  split
  · exact .inl (.error (by decide) _)
  split
  · exact .inl (.error (by decide) _)
  dsimp only
  split
  · rename_i content hcontent
    obtain ⟨p, hp, rfl⟩ := Option.map_eq_some_iff.mp hcontent
    exact .inr ⟨_, _, _, p, hp, rfl⟩
  · exact .inl (.error (by decide) _)

theorem oneLine_sync (sha256 : List UInt8 → List UInt8) {target : Str} {now : RoomId → UInt64} :
    OneLine (serveSync sha256 s user target now) := by
  cases user with
  | none => exact .error (by decide) _
  | some user => exact .write _

theorem oneLine_send {now : UInt64} : OneLine (serveSend env.toEnv s m user body now).1 := by
  unfold serveSend
  repeat' split
  all_goals first
    | exact .error (by decide) _
    | exact .write _

theorem oneLine_typing {now : UInt64} : OneLine (serveTyping s m user body now).1 := by
  unfold serveTyping
  dsimp only
  repeat' split
  all_goals first
    | exact .error (by decide) _
    | exact .empty

theorem oneLine_receipt {now : UInt64} : OneLine (serveReceipt s m user now).1 := by
  unfold serveReceipt
  repeat' split
  all_goals first
    | exact .error (by decide) _
    | exact .empty

theorem oneLine_setPresence : OneLine (serveSetPresence s m user body).1 := by
  unfold serveSetPresence
  repeat' split
  all_goals first
    | exact .error (by decide) _
    | exact .empty

theorem oneLine_membershipSelf {membership : Str} {now : UInt64} :
    OneLine (serveMembershipSelf env s m user membership now).1 := by
  unfold serveMembershipSelf
  repeat' split
  all_goals first
    | exact .error (by decide) _
    | exact .write _

theorem oneLine_membershipTarget {membership : Str} {now : UInt64} :
    OneLine (serveMembershipTarget env s m user body membership now).1 := by
  unfold serveMembershipTarget
  repeat' split
  all_goals first
    | exact .error (by decide) _
    | exact .empty

theorem oneLine_createRoom {now : Nat → UInt64} :
    OneLine (serveCreateRoom env s user body now).1 := by
  unfold serveCreateRoom
  split
  · exact .error (by decide) _
  split
  · rename_i refused hrefused
    unfold roomOptions at hrefused
    repeat' split at hrefused
    all_goals first
      | cases hrefused
        exact .error (by decide) _
      | cases hrefused
  split
  · exact .write _
  · exact .error (by decide) _

theorem oneLine_keysUpload : OneLine (serveKeysUpload env.ed s user body).1 := by
  unfold serveKeysUpload
  repeat' split
  all_goals first
    | exact .error (by decide) _
    | exact .write _

theorem oneLine_keysClaim : OneLine (serveKeysClaim s body).1 := by
  unfold serveKeysClaim
  split
  · exact .write _
  · exact .error (by decide) _

theorem oneLine_deviceSigningUpload : OneLine (serveDeviceSigningUpload env.ed s user body).1 := by
  unfold serveDeviceSigningUpload
  split
  · exact .error (by decide) _
  split
  · rw [storeUploaded_eq]
    dsimp only
    split
    · exact .error (by decide) _
    · exact .empty
  · exact .error (by decide) _

theorem oneLine_transaction : OneLine (serveTransaction env s body).1 := by
  unfold serveTransaction
  split
  · exact .write _
  · exact .error (by decide) _
  · exact .error (by decide) _

theorem oneLine_federationEvent {now : UInt64} : OneLine (serveFederationEvent env s m now) := by
  unfold serveFederationEvent
  repeat' split
  all_goals first
    | exact .error (by decide) _
    | exact .write _

theorem oneLine_userDevices : OneLine (serveUserDevices s m) := by
  unfold serveUserDevices
  repeat' split
  all_goals first
    | exact .error (by decide) _
    | exact .write _

/-- Every handler answers in one line, or with the text of a state event. -/
theorem routes_oneLine (c : Call) : ∀ route ∈ routes,
    OneLine (route.2 env s c).1 ∨ IsContent s (route.2 env s c).1 := by
  have hnone : ∀ route ∈ ([] : List ((Method × Str) × Handler)),
      OneLine (route.2 env s c).1 ∨ IsContent s (route.2 env s c).1 := by simp
  have hroom : ∀ {answer : RoomId → Json},
      OneLine (withRoom c.m fun room => .jsonOk (answer room).write) :=
    oneLine_withRoom fun room => .write _
  simp only [routes, List.forall_mem_append]
  refine ⟨⟨⟨?_, ?_⟩, ?_⟩, ?_⟩
  · simp only [publicRoutes, List.forall_mem_cons]
    exact ⟨.inl oneLine_versions, .inl oneLine_loginFlows, .inl oneLine_login, .inl (.write _), hnone⟩
  · simp only [clientReads, List.forall_mem_cons]
    exact ⟨.inl oneLine_whoami, .inl hroom, .inl hroom, .inl hroom, serveStateEvent_oneLine,
      serveStateEvent_oneLine, .inl hroom, .inl (oneLine_event _), .inl oneLine_getPresence,
      .inl oneLine_keysQuery, .inl (oneLine_sync _), hnone⟩
  · simp only [clientWrites, List.forall_mem_cons]
    exact ⟨.inl oneLine_send, .inl oneLine_typing, .inl oneLine_receipt, .inl oneLine_setPresence,
      .inl oneLine_membershipSelf, .inl oneLine_membershipSelf, .inl oneLine_membershipTarget,
      .inl oneLine_membershipTarget, .inl oneLine_membershipTarget, .inl oneLine_createRoom,
      .inl oneLine_keysUpload, .inl oneLine_keysClaim, .inl oneLine_deviceSigningUpload, hnone⟩
  · simp only [federationRoutes, List.forall_mem_cons]
    exact ⟨.inl oneLine_transaction, .inl hroom, .inl hroom, .inl oneLine_federationEvent, .inl hroom,
      .inl oneLine_userDevices, hnone⟩

/-- Every request is answered in one line, or with the text of a state event. -/
theorem handle_oneLine (env : ServerEnv) (s : Data) (req : Request) (clock : Clock) :
    OneLine (handle env s req clock).1 ∨ IsContent s (handle env s req clock).1 := by
  unfold handle
  split
  · rename_i m hresolve
    split
    · rename_i refused hrefused
      obtain ⟨e, rfl⟩ := authenticate_refused hrefused
      exact .inl (.error (by decide) e)
    · unfold serve
      split
      · rename_i handler hroute
        exact routes_oneLine _ _ (mem_of_route hroute)
      · exact .inl (.error (by decide) _)
  · rename_i allowed hresolve
    left
    have herror := OneLine.error (by decide : 405 < 2 ^ 16)
      (.unrecognized "method not allowed for this endpoint")
    have hallow : NoBreak "Allow".toList := ⟨by decide, by decide⟩
    refine ⟨herror.status, ?_, herror.body⟩
    intro header hmem
    rcases List.mem_append.mp hmem with hmem | hmem
    · exact herror.headers header hmem
    · rw [List.mem_singleton.mp hmem]
      exact ⟨hallow, (allowHeader_noControl allowed).noBreak⟩
  · exact .inl (.error (by decide) _)

/-! ## Both ends of a connection -/

/-- The client reads a response that stands in one line as the server meant it. -/
theorem parseResponse_of_oneLine {r : Response} (h : OneLine r) :
    parseResponse (writeResponse r) = .ok (r.status, r.body) := by
  have htext : fromUtf8Lossy (writeResponse r) =
      (headLines r).flatMap (· ++ crlf) ++ crlf ++ r.body := by
    rw [writeResponse, ← utf8Bytes_append, fromUtf8Lossy_utf8Bytes]
  have hfirst : firstLine ((headLines r).flatMap (· ++ crlf) ++ crlf ++ r.body) =
      some (statusLine r.status) := by
    rw [headLines, List.flatMap_cons, List.append_assoc, List.append_assoc]
    exact firstLine_append (statusLine_no_break r.status).no_lf
  -- a body in one line has no blank line to be cut at
  have hblank : ¬ blankLine <:+: r.body := by
    intro hpart
    exact h.body.noBreak.no_cr (hpart.subset (by decide))
  have hbody : (splitStr blankLine 0 ((headLines r).flatMap (· ++ crlf) ++ crlf ++ r.body))[1]? =
      some r.body :=
    (splitStr_head (headLines_no_cr h.headers) (List.cons_ne_nil _ _)).trans
      ((head?_splitStr_iff (by decide) r.body).mpr hblank)
  rw [parseResponse]
  simp only [htext, hfirst, Option.bind_some, status_statusLine h.status, hbody, Option.getD_some]

/-- The server reads what the client wrote. -/
theorem readRequest_of_client {method : Method} {target : Str} {authorization body : Option Str}
    (htarget : IsTarget target) (hauth : ∀ auth ∈ authorization, IsHeaderValue auth)
    (hbody : (utf8Bytes (body.getD [])).length ≤ maxBody) :
    readRequest (encodeRequest method target authorization body) =
      .ok (.request ⟨method, target, authorization, body.getD []⟩, []) := by
  have hmethod := isTarget_methodStr method
  have hlf : '\n' ∉ methodStr method ++ ' ' :: (target ++ " HTTP/1.1".toList) := by
    simp only [List.mem_append, List.mem_cons, not_or]
    exact ⟨fun hmem => absurd (hmethod.no_space _ hmem) (by decide), by decide,
      fun hmem => absurd (htarget.no_space _ hmem) (by decide), by decide⟩
  have hwords : splitWhitespace (methodStr method ++ ' ' :: (target ++ " HTTP/1.1".toList) ++
      "\r\n".toList) = [methodStr method, target, "HTTP/1.1".toList] := by
    have htail : target ++ " HTTP/1.1".toList ++ "\r\n".toList =
        target ++ ' ' :: ("HTTP/1.1".toList ++ "\r\n".toList) := by
      rw [List.append_assoc]
      rfl
    rw [List.append_assoc, List.cons_append, htail,
      splitWhitespace_word hmethod.ne_nil hmethod.no_space (by decide),
      splitWhitespace_word htarget.ne_nil htarget.no_space (by decide)]
    rfl
  have hlength : (utf8Bytes (body.getD [])).length < 2 ^ 64 := Nat.lt_of_le_of_lt hbody (by decide)
  have hline : methodStr method ++ ' ' :: (target ++ " HTTP/1.1".toList) ++ "\r\n".toList ≠ [] := by
    simp
  have hexact : readExact (utf8Bytes (body.getD [])).length (utf8Bytes (body.getD []) ++ []) = _ :=
    readExact_append _
  rw [List.append_nil] at hexact
  rw [encodeRequest_eq, readRequest, readLine_line hlf, ok_bind]
  simp only [if_neg hline, hwords, List.getElem?_cons_zero, List.getElem?_cons_succ,
    Option.bind_some, parseMethod_methodStr, readHeaders_request hlength hauth, ok_bind, hexact,
    if_neg (Nat.not_lt.mpr hbody), fromUtf8Lossy_utf8Bytes]
  rfl

/-- The request that a client sends, as the server takes it. -/
def sent (method : Method) (target : Str) (authorization body : Option Str) : Request :=
  ofParsed ⟨method, target, authorization, body.getD []⟩

/-- Whatever the request, the client gets the answer in one line and the server is left as the handler
leaves it. -/
theorem sendRequest_eq {method : Method} {target : Str} {authorization body : Option Str}
    {clock : Clock} (htarget : IsTarget target) (hauth : ∀ auth ∈ authorization, IsHeaderValue auth)
    (hbody : (utf8Bytes (body.getD [])).length ≤ maxBody) :
    sendRequest env s method target authorization body clock =
      (parseResponse (writeResponse (handle env s (sent method target authorization body) clock).1),
        (handle env s (sent method target authorization body) clock).2) := by
  rw [sendRequest, serveConnection, readRequest_of_client htarget hauth hbody]
  rfl

/-- Whatever the bytes, a connection does what one request does, or nothing. -/
theorem connectionStep_cases (env : ServerEnv) (s : Data) (x : List UInt8 × Clock) :
    connectionStep env s x = s ∨ ∃ req, connectionStep env s x = requestStep env s (req, x.2) := by
  unfold connectionStep serveConnection
  split
  · rename_i req rest hread
    exact .inr ⟨ofParsed req, rfl⟩
  · exact .inl rfl
  · exact .inl rfl

/-! ## Contents of state events -/

theorem content_of_mem_initialEvents {e : Env} {room : RoomId} {creator : UserId}
    {now : Nat → UInt64} {i : Nat} {prevEvents : List EventId} {contents : List (Str × Str × Str)}
    {p : Pdu} (h : p ∈ initialEvents e room creator now i prevEvents contents) :
    ∃ c ∈ contents, p.contentJson = c.2.2 := by
  induction contents generalizing i prevEvents with
  | nil => cases h
  | cons content contents ih =>
      simp only [initialEvents] at h
      split at h
      · cases h
      · rename_i q hq
        rcases List.mem_cons.mp h with rfl | h
        · obtain ⟨id, rfl⟩ := withReferenceId_eq_some hq
          exact ⟨content, List.mem_cons_self, rfl⟩
        · obtain ⟨c, hc, hcontent⟩ := ih h
          exact ⟨c, List.mem_cons_of_mem _ hc, hcontent⟩

theorem content_of_initialState {creator : UserId} {name topic : Option Str}
    {c : Str × Str × Str} (h : c ∈ initialState creator name topic) : ∃ v : Json, c.2.2 = v.write := by
  rcases List.mem_append.mp h with h | h
  · rcases List.mem_append.mp h with h | h
    · simp only [List.mem_cons, List.not_mem_nil, or_false] at h
      rcases h with rfl | rfl | rfl
      all_goals exact ⟨_, rfl⟩
    · obtain ⟨_, -, rfl⟩ := Option.map_eq_some_iff.mp (Option.mem_toList.mp h)
      exact ⟨_, rfl⟩
  · obtain ⟨_, -, rfl⟩ := Option.map_eq_some_iff.mp (Option.mem_toList.mp h)
    exact ⟨_, rfl⟩

/-- The PDUs of a transaction are decoded one by one. -/
theorem pdu_of_fromJson {txn : Json} {transaction : Transaction} {p : Pdu}
    (h : Transaction.fromJson txn = .ok transaction) (hp : p ∈ transaction.pdus) :
    ∃ item, Pdu.fromJson item = .ok p := by
  obtain ⟨origin, -, h⟩ := bind_eq_ok_iff.mp h
  obtain ⟨originServerTs, -, h⟩ := bind_eq_ok_iff.mp h
  obtain ⟨items, -, h⟩ := bind_eq_ok_iff.mp h
  obtain ⟨pdus, hpdus, h⟩ := bind_eq_ok_iff.mp h
  have hsame : transaction.pdus = pdus := by
    dsimp only at h
    split at h
    · rw [← Except.ok.inj h]
    · obtain ⟨eduItems, -, h⟩ := bind_eq_ok_iff.mp h
      obtain ⟨edus, -, h⟩ := bind_eq_ok_iff.mp h
      rw [← Except.ok.inj h]
  rw [hsame] at hp
  obtain ⟨item, -, hitem⟩ := exists_of_mem_mapM hpdus hp
  refine ⟨item, ?_⟩
  split at hitem
  · rename_i pdu hpdu
    rw [hpdu, Except.ok.inj hitem]
  · cases hitem

theorem content_of_mem_transactionPdus {txn : Json} {p : Pdu} (h : p ∈ transactionPdus txn) :
    ∃ v : Json, p.contentJson = v.write := by
  unfold transactionPdus at h
  split at h
  · rename_i transaction htransaction
    obtain ⟨item, hitem⟩ := pdu_of_fromJson htransaction h
    obtain ⟨-, -, hcontent⟩ := fields_of_fromJson hitem
    rw [hcontent]
    cases item.get "content".toList with
    | none => exact ⟨.object [], rfl⟩
    | some content => exact ⟨content, rfl⟩
  · cases h

/-- The content of a state event was written as JSON when the event was made or taken in. -/
theorem content_of_appended {e : Env} {op : Op} {p : Pdu} (h : p ∈ appended e s op) :
    p.stateKey = none ∨ ∃ v : Json, p.contentJson = v.write := by
  cases op with
  | createRoom creator name topic now =>
      have hcreated : p ∈ createdEvents e s creator name topic now := h
      rw [createdEvents] at hcreated
      split at hcreated
      · cases hcreated
      · obtain ⟨c, hc, hcontent⟩ := content_of_mem_initialEvents hcreated
        obtain ⟨v, hv⟩ := content_of_initialState hc
        exact .inr ⟨v, hcontent.trans hv⟩
  | changeMembership actor room target membership now =>
      obtain ⟨q, hq, hp⟩ := Option.bind_eq_some_iff.mp (Option.mem_toList.mp h)
      obtain ⟨rfl, -⟩ := authorized_eq_some_iff.mp hp
      obtain ⟨_, -, hbuilt⟩ := Option.bind_eq_some_iff.mp hq
      obtain ⟨id, rfl⟩ := withReferenceId_eq_some hbuilt
      exact .inr ⟨_, rfl⟩
  | sendMessage sender room eventType txnId content now =>
      rw [appended] at h
      split at h
      · cases h
      · obtain ⟨q, hq, hp⟩ := Option.bind_eq_some_iff.mp (Option.mem_toList.mp h)
        obtain ⟨rfl, -⟩ := authorized_eq_some_iff.mp hp
        exact .inl (messageEvent_fields hq).2.2.2
  | receiveTransaction txn =>
      obtain ⟨x, hx, rfl⟩ := List.mem_map.mp h
      exact .inr (content_of_mem_transactionPdus (mem_of_mem_trace (List.mem_of_mem_filter hx)))

/-- The contents of the state events stand in one line each. -/
def StateLines (s : Data) : Prop :=
  ∀ room, ∀ p ∈ timeline s room, p.stateKey ≠ none → NoControl p.contentJson

theorem StateLines.request (h : StateLines s) (x : Request × Clock) :
    StateLines (requestStep env s x) := by
  intro room p hp hstate
  rcases appended_of_request hp with hold | ⟨t, op, -, hnew⟩
  · exact h room p hold hstate
  · rcases content_of_appended hnew with hnone | ⟨v, hv⟩
    · exact absurd hnone hstate
    · rw [hv]
      exact write_noControl v

theorem StateLines.connection (h : StateLines s) (x : List UInt8 × Clock) :
    StateLines (connectionStep env s x) := by
  rcases connectionStep_cases env s x with hsame | ⟨req, hstep⟩
  · rw [hsame]
    exact h
  · rw [hstep]
    exact h.request _

end

/-- Over every run of connections, whatever bytes they bring, what a client sends is handled as it was
meant and its answer reads back as the handler gave it; but for the read of a state event whose id
a message of the room has too. -/
theorem wire_transparent (env : ServerEnv) (s : Data) (hs : StateLines s)
    (xs : List (List UInt8 × Clock)) (method : Method) (target : Str) (authorization body : Option Str)
    (clock : Clock) (htarget : IsTarget target)
    (hauth : ∀ auth ∈ authorization, IsHeaderValue auth)
    (hbody : (utf8Bytes (body.getD [])).length ≤ maxBody) :
    let t := run (connectionStep env) s xs
    let answer := handle env t (sent method target authorization body) clock
    (sendRequest env t method target authorization body clock).2 = answer.2 ∧
    ((sendRequest env t method target authorization body clock).1 =
        .ok (answer.1.status, answer.1.body) ∨
      ∃ room kind key p, stateEventPdu t room kind key = some p ∧ p.stateKey = none ∧
        answer.1 = .jsonOk p.contentJson) := by
  intro t answer
  have ht : StateLines t := run_of_step (fun _ x h => h.connection x) hs xs
  rw [sendRequest_eq htarget hauth hbody]
  refine ⟨rfl, ?_⟩
  rcases handle_oneLine env t (sent method target authorization body) clock with
    hline | ⟨room, kind, key, p, hp, hanswer⟩
  · exact .inl (parseResponse_of_oneLine hline)
  · by_cases hstate : p.stateKey = none
    · exact .inr ⟨room, kind, key, p, hp, hstate, hanswer⟩
    · left
      obtain ⟨id, -, hfound⟩ := Option.bind_eq_some_iff.mp hp
      have hline : OneLine answer.1 := by
        rw [show answer.1 = _ from hanswer]
        exact .text (ht room p (List.mem_of_find?_eq_some hfound) hstate)
      exact parseResponse_of_oneLine hline

namespace SampleRequests

theorem stateLines_registered : StateLines registered := by
  intro room p hp
  rw [timeline, Store.scan, registered_of_ne (by decide)] at hp
  cases hp

theorem isTarget_createRoom : IsTarget "/_matrix/client/v3/createRoom".toList :=
  ⟨by decide, List.forall_iff_forall_mem.mp (by decide)⟩

theorem isHeaderValue_bearer : IsHeaderValue "Bearer gmt_0000000000000000".toList := by
  refine ⟨by decide, by decide, ?_, ?_⟩
  · rintro c ⟨⟩
    decide
  · rintro c ⟨⟩
    decide

/-- A login, and bytes that are no request. -/
def connections : List (List UInt8 × Clock) :=
  [(encodeRequest loginRequest.method loginRequest.target none loginRequest.body, clock),
    ([0x47, 0x0a], clock)]

end SampleRequests

open SampleRequests in
theorem wire_transparent_createRoom :
    let t := run (connectionStep SampleRequests.env) registered connections
    let answer := handle SampleRequests.env t
      (sent .post "/_matrix/client/v3/createRoom" (some "Bearer gmt_0000000000000000") none) clock
    (sendRequest SampleRequests.env t .post "/_matrix/client/v3/createRoom"
        (some "Bearer gmt_0000000000000000") none clock).2 = answer.2 ∧
    ((sendRequest SampleRequests.env t .post "/_matrix/client/v3/createRoom"
        (some "Bearer gmt_0000000000000000") none clock).1 = .ok (answer.1.status, answer.1.body) ∨
      ∃ room kind key p, stateEventPdu t room kind key = some p ∧ p.stateKey = none ∧
        answer.1 = .jsonOk p.contentJson) :=
  wire_transparent SampleRequests.env registered stateLines_registered connections .post
    "/_matrix/client/v3/createRoom" (some "Bearer gmt_0000000000000000") none clock
    isTarget_createRoom (fun _ hauth => Option.some.inj hauth ▸ isHeaderValue_bearer) (by decide)

end GaussMatrix.Http.Ingress
