import GaussMatrix.Http.Router
import GaussMatrix.Svc.Sessions
import GaussMatrix.Svc.Sync

/-!
# The room reads of the ingress

A request is routed, authenticated, and answered by the handler of its endpoint.  The handlers of the
six room reads take the room from the path; who asks does not reach them.
-/

namespace GaussMatrix.Http

open Library Util Api Api.Events StateRes Svc RoomService

/-- An inbound request. -/
structure Request where
  method : Method
  target : Str
  authorization : Option Str

structure Response where
  status : Nat
  headers : List (Str × Str)
  body : Str
  deriving DecidableEq

/-! ## Errors -/

/-- A string as a JSON literal, as errors carry it. -/
def jsonString (s : Str) : Str :=
  '"' :: s.flatMap (fun c =>
    if c = '"' then "\\\"".toList
    else if c = '\\' then "\\\\".toList
    else if c = '\n' then "\\n".toList
    else if c = '\r' then "\\r".toList
    else if c = '\t' then "\\t".toList
    else if c.toNat < 0x20 then
      "\\u00".toList ++ [Nat.digitChar (c.toNat / 16), Nat.digitChar (c.toNat % 16)]
    else [c]) ++ ['"']

structure MatrixError where
  errcode : Str
  error : Str

namespace MatrixError

def new (errcode error : String) : MatrixError := ⟨errcode.toList, error.toList⟩

def notFound (error : String) : MatrixError := new "M_NOT_FOUND" error

def unknownToken (error : String) : MatrixError := new "M_UNKNOWN_TOKEN" error

def missingToken (error : String) : MatrixError := new "M_MISSING_TOKEN" error

def unrecognized (error : String) : MatrixError := new "M_UNRECOGNIZED" error

def toJson (e : MatrixError) : Str :=
  "\x7b\"errcode\":".toList ++ jsonString e.errcode ++ ",\"error\":".toList ++ jsonString e.error ++
    ['\x7d']

end MatrixError

namespace Response

def contentType : Str × Str := ("Content-Type".toList, "application/json".toList)

def jsonOk (body : Str) : Response := ⟨200, [contentType], body⟩

def error (status : Nat) (e : MatrixError) : Response := ⟨status, [contentType], e.toJson⟩

end Response

def methodName : Method → Str
  | .get => "GET"
  | .post => "POST"
  | .put => "PUT"
  | .delete => "DELETE"

def allowHeader (allowed : List Method) : Str := ", ".toList.intercalate (allowed.map methodName)

/-! ## The handlers -/

def missingParameter : Response :=
  .error 400 (.new "M_INVALID_PARAM" "missing path parameter")

/-- The answer about the room that the path names. -/
def withRoom (m : RouteMatch) (answer : RoomId → Response) : Response :=
  match m.param "roomId" with
  | none => missingParameter
  | some roomId =>
      match RoomId.parse roomId with
      | none => .error 400 (.new "M_INVALID_PARAM" "invalid room id")
      | some room => answer room

section

variable (sha256 : List UInt8 → List UInt8) (s : Data) (m : RouteMatch)

/-- The timeline as a page, oldest first. -/
def messagesBody (timeline : List Pdu) : Str :=
  (Json.ofFields [("chunk".toList, .array (timeline.map (Pdu.toJson sha256))),
    ("start".toList, .string "start".toList), ("end".toList, .string "end".toList)]).write

def serveMessages : Response :=
  withRoom m fun room => .jsonOk (messagesBody sha256 (timeline s room))

def serveEvent : Response :=
  match m.param "eventId" with
  | none => missingParameter
  | some eventId =>
      withRoom m fun room =>
        match (timeline s room).find? fun p => p.eventId.asStr = eventId with
        | some p => .jsonOk (p.toJson sha256).write
        | none => .error 404 (.notFound "event not found")

def serveRoomState : Response :=
  withRoom m fun room =>
    .jsonOk (Json.array ((currentStatePdus s room).map (Pdu.toJson sha256))).write

def serveMembers : Response :=
  withRoom m fun room =>
    let members := (currentStatePdus s room).filter fun p => p.kind = roomMember
    .jsonOk (Json.ofFields [("chunk".toList, .array (members.map (Pdu.toJson sha256)))]).write

/-- The profile fields that a member event carries. -/
def memberProfile (content : Json) : Json :=
  .ofFields (["displayname", "avatar_url"].filterMap fun field =>
    ((content.get field.toList).bind Json.asStr).map fun value => (field.toList, .string value))

/-- The joined member that an event of the state makes. -/
def joinedMember (p : Pdu) : Option (Str × Json) :=
  if p.kind ≠ roomMember then none
  else
    match p.stateKey, p.content with
    | some userId, some content =>
        if (content.get "membership").bind Json.asStr = some "join".toList then
          some (userId, memberProfile content)
        else none
    | _, _ => none

def serveJoinedMembers : Response :=
  withRoom m fun room =>
    let joined := (currentStatePdus s room).filterMap joinedMember
    .jsonOk (Json.ofFields [("joined".toList, .ofFields joined)]).write

def serveStateEvent : Response :=
  match m.param "eventType" with
  | none => missingParameter
  | some eventType =>
      let key := (m.param "stateKey").getD []
      withRoom m fun room =>
        match stateEventContent s room eventType key with
        | some content => .jsonOk content
        | none => .error 404 (.notFound "state event not found")

end

/-! ## Dispatch -/

def eventPath : Str := "/_matrix/client/v3/rooms/{roomId}/event/{eventId}"

/-- The handlers of the six room reads, by path; the state event has two paths. -/
def roomReads (sha256 : List UInt8 → List UInt8) : List (Str × (Data → RouteMatch → Response)) :=
  [("/_matrix/client/v3/rooms/{roomId}/state".toList, serveRoomState sha256),
    ("/_matrix/client/v3/rooms/{roomId}/members".toList, serveMembers sha256),
    ("/_matrix/client/v3/rooms/{roomId}/joined_members".toList, serveJoinedMembers),
    ("/_matrix/client/v3/rooms/{roomId}/state/{eventType}/{stateKey}".toList, serveStateEvent),
    ("/_matrix/client/v3/rooms/{roomId}/state/{eventType}".toList, serveStateEvent),
    ("/_matrix/client/v3/rooms/{roomId}/messages".toList, serveMessages sha256),
    (eventPath, serveEvent sha256)]

/-- The gate before the handlers: the user of the token, or a refusal.  No room read has a scheme
other than the access token. -/
def authenticate (s : Data) (m : RouteMatch) (req : Request) : Except Response (Option UserId) :=
  match m.endpoint.auth with
  | .accessToken =>
      match accessToken req.authorization req.target with
      | none => .error (.error 401 (.missingToken "missing access token"))
      | some token =>
          match SessionStore.userFor s token with
          | some user => .ok (some user)
          | none => .error (.error 401 (.unknownToken "unrecognized access token"))
  | _ => .ok none

/-- Handle a request; `none` when its endpoint is not a room read, which is answered elsewhere. -/
def handle (sha256 : List UInt8 → List UInt8) (s : Data) (req : Request) : Option Response :=
  match resolve req.method req.target with
  | .found m =>
      if m.endpoint.method ≠ .get then none
      else
        ((roomReads sha256).lookup m.endpoint.path).map fun serve =>
          match authenticate s m req with
          | .error refused => refused
          | .ok _ => serve s m
  | .methodNotAllowed allowed =>
      let refused := Response.error 405 (.unrecognized "method not allowed for this endpoint")
      some { refused with headers := refused.headers ++ [("Allow".toList, allowHeader allowed)] }
  | .notFound => some (.error 404 (.unrecognized "unrecognized request"))

end GaussMatrix.Http
