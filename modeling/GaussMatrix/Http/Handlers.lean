import GaussMatrix.Http.BackfillQuery
import GaussMatrix.Http.CrossSigning
import GaussMatrix.Http.DeviceKeys
import GaussMatrix.Http.Ephemeral
import GaussMatrix.Svc.Accounts
import GaussMatrix.Svc.KeyExchange

/-!
# The handlers of the ingress

The handlers beside the room reads: logging in, creating rooms, changing memberships, typing and
presence, end-to-end keys, sync, and the reads and writes of other servers.  A handler that writes
returns its answer with the data after it.
-/

namespace GaussMatrix.Http

open Library Util Api Api.Events StateRes Svc Fed RoomService

/-- What the server takes from outside: digest, signatures, hashers and its name.  Integers wrap, as
they do in the release build. -/
structure ServerEnv where
  sha256 : List UInt8 → List.Vector UInt8 32
  ed : Ed25519
  roomHash : Str → Nat → UInt64 → UInt64
  sessionHash : SessionHash
  accountHash : AccountHash
  serverName : Str

/-- The environment of the room operations. -/
def ServerEnv.toEnv (env : ServerEnv) : Env where
  sha256 := fun bytes => (env.sha256 bytes).toList
  verifyB64 := env.ed.verifyB64
  roomHash := env.roomHash
  serverName := env.serverName
  overflowChecks := false

/-- The clock as one request reads it. -/
structure Clock where
  /-- The reading of the authentication. -/
  gate : UInt64
  /-- The readings of the handler, one after the other. -/
  now : Nat → UInt64
  /-- The reading of a sync for each room. -/
  room : RoomId → UInt64

namespace Ingress

/-- The answer where no user was authenticated. -/
def noUser : Response := .error 401 (.unknownToken "unrecognized access token")

def invalidRoomId : Response := .error 400 (.new "M_INVALID_PARAM" "invalid room id")

def emptyObject : Response := .jsonOk "\x7b\x7d"

/-! ## Versions, logins and accounts -/

def supportedSpecVersions : List Str := ["v1.11".toList]

def loginFlows : List Str := ["m.login.password".toList, "m.login.sso".toList]

/-- A string in a JSON literal; only quotes, backslashes and control characters are escaped. -/
def jsonEscape (s : Str) : Str :=
  s.flatMap fun c =>
    if c = '"' then "\\\"".toList
    else if c = '\\' then "\\\\".toList
    else if c.toNat < 0x20 then
      "\\u00".toList ++ [Nat.digitChar (c.toNat / 16), Nat.digitChar (c.toNat % 16)]
    else [c]

def versionsBody : Str :=
  "\x7b\"versions\":[".toList ++
    [','].intercalate (supportedSpecVersions.map fun v => '"' :: (jsonEscape v ++ ['"'])) ++
      "]\x7d".toList

def loginFlowsBody : Str :=
  "\x7b\"flows\":[".toList ++
    [','].intercalate (loginFlows.map fun flow =>
      "\x7b\"type\":\"".toList ++ jsonEscape flow ++ "\"\x7d".toList) ++
      "]\x7d".toList

def whoamiBody (user : UserId) : Str :=
  "\x7b\"user_id\":\"".toList ++ jsonEscape user.asStr ++ "\"\x7d".toList

def serveWhoami (user : Option UserId) : Response :=
  match user with
  | some user => .jsonOk (whoamiBody user)
  | none => noUser

def loginResponse (grant : LoginGrant) : Str :=
  (Json.ofFields [("user_id".toList, .string grant.userId.asStr),
    ("access_token".toList, .string grant.accessToken)]).write

/-- The user of a login body, in its `identifier` or, as older clients have it, on top. -/
def loginUser (body : Json) : Option Str :=
  (((body.get "identifier").bind fun i => i.get "user").or (body.get "user")).bind Json.asStr

/-- Log in with a password. -/
def serveLogin (env : ServerEnv) (s : Data) (body : Option Str) : Response × Data :=
  match body with
  | none => (.error 400 (.new "M_NOT_JSON" "missing request body"), s)
  | some body =>
      match Json.parse body with
      | .error _ => (.error 400 (.new "M_NOT_JSON" "request body is not JSON"), s)
      | .ok parsed =>
          if (parsed.get "type").bind Json.asStr ≠ some "m.login.password".toList then
            (.error 400 (.new "M_UNKNOWN" "unsupported login type"), s)
          else
            match loginUser parsed, (parsed.get "password").bind Json.asStr with
            | some user, some password =>
                match passwordLogin env.sessionHash env.accountHash env.serverName s user password with
                | (some grant, s') => (.jsonOk (loginResponse grant), s')
                | (none, s') => (.error 403 (.forbidden "invalid username or password"), s')
            | _, _ => (.error 400 (.new "M_BAD_JSON" "missing user or password"), s)

/-! ## Rooms and memberships -/

def roomIdBody (room : RoomId) : Str := (Json.object [("room_id".toList, .string room.asStr)]).write

/-- The name and the topic that a body asks for, or the refusal of the body. -/
def roomOptions (body : Option Str) : Except Response (Option Str × Option Str) :=
  match body with
  | none | some [] => .ok (none, none)
  | some body =>
      match Json.parse body with
      | .ok (.object fields) =>
          .ok (((Json.object fields).get "name").bind Json.asStr,
            ((Json.object fields).get "topic").bind Json.asStr)
      | .ok _ => .error (.error 400 (.new "M_BAD_JSON" "request body must be an object"))
      | .error _ => .error (.error 400 (.new "M_NOT_JSON" "body is not JSON"))

/-- Create a room for the caller. -/
def serveCreateRoom (env : ServerEnv) (s : Data) (user : Option UserId) (body : Option Str)
    (now : Nat → UInt64) : Response × Data :=
  match user with
  | none => (noUser, s)
  | some creator =>
      match roomOptions body with
      | .error refused => (refused, s)
      | .ok (name, topic) =>
          match createRoom env.toEnv s creator name topic now with
          | (some room, s') => (.jsonOk (roomIdBody room), s')
          | (none, s') => (.error 403 (.forbidden "room creation refused"), s')

def membershipRefused : Response := .error 403 (.forbidden "membership change not permitted")

/-- Change the caller's own membership. -/
def serveMembershipSelf (env : ServerEnv) (s : Data) (m : RouteMatch) (user : Option UserId)
    (membership : Str) (now : UInt64) : Response × Data :=
  match user with
  | none => (noUser, s)
  | some actor =>
      match (m.param "roomId").bind RoomId.parse with
      | none => (invalidRoomId, s)
      | some room =>
          match changeMembership env.toEnv s actor room actor membership now with
          | (some _, s') => (.jsonOk (roomIdBody room), s')
          | (none, s') => (membershipRefused, s')

/-- The user that a body names. -/
def bodyUser (body : Option Str) : Option UserId := do
  let json ← (Json.parse (← body)).toOption
  UserId.parse (← (json.get "user_id").bind Json.asStr)

/-- Change the membership of the user that the body names. -/
def serveMembershipTarget (env : ServerEnv) (s : Data) (m : RouteMatch) (user : Option UserId)
    (body : Option Str) (membership : Str) (now : UInt64) : Response × Data :=
  match user with
  | none => (noUser, s)
  | some actor =>
      match (m.param "roomId").bind RoomId.parse with
      | none => (invalidRoomId, s)
      | some room =>
          match bodyUser body with
          | none => (.error 400 (.new "M_BAD_JSON" "missing or invalid user_id"), s)
          | some target =>
              match changeMembership env.toEnv s actor room target membership now with
              | (some _, s') => (emptyObject, s')
              | (none, s') => (membershipRefused, s')

/-! ## Typing and presence -/

/-- Set the caller's own typing state. -/
def serveTyping (s : Data) (m : RouteMatch) (user : Option UserId) (body : Option Str)
    (now : UInt64) : Response × Data :=
  match user with
  | none => (noUser, s)
  | some caller =>
      match m.param "roomId", m.param "userId" with
      | some roomId, some userId =>
          match RoomId.parse roomId with
          | none => (invalidRoomId, s)
          | some room =>
              if userId ≠ caller.asStr then
                (.error 403 (.forbidden "cannot set another user's typing state"), s)
              else
                match Json.parse (body.getD []) with
                | .ok (.object fields) =>
                    match ((Json.object fields).get "typing").bind Json.asBool with
                    | none => (.error 400 (.new "M_BAD_JSON" "missing boolean `typing`"), s)
                    | some typing =>
                        let timeoutMs :=
                          (((Json.object fields).get "timeout").bind Json.asU64).getD 30000
                        match setTyping s caller room typing timeoutMs now with
                        | (true, s') => (emptyObject, s')
                        | (false, s') =>
                            (.error 403 (.forbidden "not permitted to set typing in this room"), s')
                | _ => (.error 400 (.new "M_BAD_JSON" "body must be an object"), s)
      | _, _ => (missingParameter, s)

/-- A presence as an object; a status only where there is one. -/
def presenceObject (p : PresenceUpdate) : Json :=
  .ofFields (("presence".toList, .string p.presence) ::
    (p.statusMsg.map fun msg => ("status_msg".toList, .string msg)).toList)

def serveGetPresence (s : Data) (m : RouteMatch) : Response :=
  match m.param "userId" with
  | none => missingParameter
  | some userId =>
      match UserId.parse userId with
      | none => .error 400 (.new "M_INVALID_PARAM" "invalid user id")
      | some user =>
          match presenceFor s user with
          | some p => .jsonOk (presenceObject p).write
          | none => .error 404 (.notFound "no presence for this user")

/-! ## End-to-end keys -/

/-- The devices of a user, those whose keys are JSON. -/
def queriedDevices (s : Data) (user : UserId) : Json :=
  .ofFields ((deviceKeysOf s user).filterMap fun d =>
    (Json.parse d.2).toOption.map fun keys => (d.1, keys))

/-- The cross-signing keys of a usage, under the user they are asked for by. -/
def queriedKeys (s : Data) (usage : Str) (user : Str × UserId) : List (Str × Json) :=
  (crossSigningKeysOf s user.2).filterMap fun k =>
    if k.1 = usage then (Json.parse k.2).toOption.map fun key => (user.1, key) else none

/-- The users that a body asks for, those whose ids are valid. -/
def queriedUsers (body : Json) : List (Str × UserId) :=
  (((body.get "device_keys").bind Json.asObject).getD []).filterMap fun f =>
    (UserId.parse f.1).map fun user => (f.1, user)

def keysQueryBody (s : Data) (body : Json) : Str :=
  let users := queriedUsers body
  (Json.ofFields
    [("device_keys".toList, .ofFields (users.map fun u => (u.1, queriedDevices s u.2))),
      ("master_keys".toList, .ofFields (users.flatMap (queriedKeys s "master"))),
      ("self_signing_keys".toList, .ofFields (users.flatMap (queriedKeys s "self_signing"))),
      ("user_signing_keys".toList, .ofFields (users.flatMap (queriedKeys s "user_signing")))]).write

/-- The stored keys of the users that the body names. -/
def serveKeysQuery (s : Data) (body : Option Str) : Response :=
  match Json.parse (body.getD "\x7b\x7d") with
  | .ok (.object fields) => .jsonOk (keysQueryBody s (.object fields))
  | _ => .error 400 (.new "M_BAD_JSON" "body must be an object")

/-- Claim a key for each device; a device with no key left is left out. -/
def claimDevices (user : UserId) : List (Str × Json) → Data → List (Str × Json) × Data
  | [], s => ([], s)
  | (device, algorithm) :: rest, s =>
      match algorithm.asStr with
      | none => claimDevices user rest s
      | some algorithm =>
          match claimOneTimeKey s user device algorithm with
          | (none, s') => claimDevices user rest s'
          | (some (keyId, keyJson), s') =>
              let (claimed, s'') := claimDevices user rest s'
              match Json.parse keyJson with
              | .ok key => ((device, .ofFields [(keyId, key)]) :: claimed, s'')
              -- the key was drawn, and is not handed out
              | .error _ => (claimed, s'')

/-- Claim keys for each user; a user none of whose devices has one left is left out. -/
def claimUsers : List (Str × Json) → Data → List (Str × Json) × Data
  | [], s => ([], s)
  | (userId, devices) :: rest, s =>
      match UserId.parse userId, devices.asObject with
      | some user, some devices =>
          let (byDevice, s') := claimDevices user devices s
          let (claimed, s'') := claimUsers rest s'
          (if byDevice.isEmpty then claimed else (userId, .ofFields byDevice) :: claimed, s'')
      | _, _ => claimUsers rest s

/-- What a claim asks for: for each user the devices, with an algorithm each. -/
def claimRequest (body : Json) : List (Str × Json) :=
  ((body.get "one_time_keys").bind Json.asObject).getD []

/-- Draw down one-time keys. -/
def serveKeysClaim (s : Data) (body : Option Str) : Response × Data :=
  match Json.parse (body.getD "\x7b\x7d") with
  | .ok (.object fields) =>
      let (claimed, s') := claimUsers (claimRequest (.object fields)) s
      (.jsonOk (Json.ofFields [("one_time_keys".toList, .ofFields claimed)]).write, s')
  | _ => (.error 400 (.new "M_BAD_JSON" "body must be an object"), s)

/-! ## Sync -/

/-- The typing unit of a room; none while nobody types. -/
def typingEvent (typing : List UserId) : Option Json :=
  if typing.isEmpty then none
  else
    some (.ofFields [("type".toList, .string "m.typing".toList),
      ("content".toList,
        .ofFields [("user_ids".toList, .array (typing.map fun u => .string u.asStr))])])

/-- The readers of an event, and when they read it. -/
def readers (receipts : List ReadReceipt) : Json :=
  .ofFields [("m.read".toList, .ofFields (receipts.map fun r =>
    (r.user.asStr, .ofFields [("ts".toList, .number (F64.ofNat r.ts))])))]

/-- The receipt unit of a room, by event; none while there are no receipts. -/
def receiptEvent (receipts : List ReadReceipt) : Option Json :=
  if receipts.isEmpty then none
  else
    some (.ofFields [("type".toList, .string "m.receipt".toList),
      ("content".toList, .ofFields ((SortedMap.groupBy ReadReceipt.eventId receipts).entries.map
        fun e => (e.1, readers e.2)))])

def ephemeralObject (room : JoinedRoom) : Json :=
  .ofFields [("events".toList,
    .array ((typingEvent room.typing).toList ++ (receiptEvent room.receipts).toList))]

section

variable (sha256 : List UInt8 → List UInt8)

def eventsArray (events : List Pdu) : Json := .array (events.map (Pdu.toJson sha256))

def timelineObject (events : List Pdu) : Json :=
  .ofFields [("events".toList, eventsArray sha256 events), ("limited".toList, .bool false)]

def joinedObject (room : JoinedRoom) : Json :=
  .ofFields [("state".toList, .ofFields [("events".toList, eventsArray sha256 room.state)]),
    ("timeline".toList, timelineObject sha256 room.timeline),
    ("ephemeral".toList, ephemeralObject room)]

def leftObject (room : LeftRoom) : Json :=
  .ofFields [("timeline".toList, timelineObject sha256 room.timeline)]

def presenceEvent (p : PresenceUpdate) : Json :=
  .ofFields [("type".toList, .string "m.presence".toList), ("sender".toList, .string p.user.asStr),
    ("content".toList, presenceObject p)]

/-- A sync view as the client gets it. -/
def syncObject (view : SyncView) : Json :=
  .ofFields [("next_batch".toList, .string view.nextBatch),
    ("rooms".toList, .ofFields
      [("join".toList,
          .ofFields (view.joined.map fun r => (r.room.asStr, joinedObject sha256 r))),
        ("leave".toList,
          .ofFields (view.left.map fun r => (r.room.asStr, leftObject sha256 r)))]),
    ("presence".toList, .ofFields [("events".toList, .array (view.presence.map presenceEvent))])]

def syncBody (view : SyncView) : Str := (syncObject sha256 view).write

def serveSync (s : Data) (user : Option UserId) (target : Str) (now : RoomId → UInt64) : Response :=
  match user with
  | none => noUser
  | some user => .jsonOk (syncBody sha256 (sync s user (queryParam target "since") now))

/-! ## Other servers -/

def serveFederationState (s : Data) (m : RouteMatch) : Response :=
  withRoom m fun room =>
    .jsonOk (Json.ofFields [("pdus".toList, eventsArray sha256 (currentStatePdus s room)),
      ("auth_chain".toList, .array [])]).write

end

/-- The ids of the room's current state and of the events that authorize it. -/
def stateIds (s : Data) (room : RoomId) : Json :=
  let ids := (currentStatePdus s room).map Pdu.eventId
  let byId : PduMap := SortedMap.empty.insertAll ((timeline s room).map fun p => (p.eventId, p))
  let chain := ((authChain ids byId).map EventId.asStr).mergeSort fun a b => a ≤ b
  .ofFields [("pdu_ids".toList, .array (ids.map fun id => .string id.asStr)),
    ("auth_chain_ids".toList, .array (chain.map Json.string))]

def serveFederationStateIds (s : Data) (m : RouteMatch) : Response :=
  withRoom m fun room => .jsonOk (stateIds s room).write

/-- What the walk of a backfill comes to. -/
def backfillEvents (s : Data) (room : RoomId) (requested : List Str) (limit : Nat) : List Pdu :=
  let timeline := timeline s room
  (sortByKey deepestFirst (collected timeline (startFrontier timeline requested))).take limit

/-- The answer that the loop of a backfill ends with. -/
def backfillResponse (sha256 : List UInt8 → List UInt8) (s : Data) (m : RouteMatch) (target : Str) :
    Response :=
  withRoom m fun room =>
    let pdus := backfillEvents s room (queryParamsAll target "v") (backfillLimit target)
    .jsonOk (Json.ofFields [Json.field "pdus" (eventsArray sha256 pdus)]).write

/-- The event of an id, wherever this server has it, as a transaction. -/
def eventTransaction (env : ServerEnv) (s : Data) (eventId : Str) (now : UInt64) : Option Json :=
  ((eventsSince s 0).find? fun p => p.eventId.asStr = eventId).map fun p =>
    .ofFields [("origin".toList, .string env.serverName),
      ("origin_server_ts".toList, .number (F64.ofNat now.toNat)),
      ("pdus".toList, .array [p.toJson env.toEnv.sha256])]

def serveFederationEvent (env : ServerEnv) (s : Data) (m : RouteMatch) (now : UInt64) : Response :=
  match m.param "eventId" with
  | none => missingParameter
  | some eventId =>
      match eventTransaction env s eventId now with
      | some txn => .jsonOk txn.write
      | none => .error 404 (.notFound "event not found")

/-- Take in the transaction of an authenticated request. -/
def serveTransaction (env : ServerEnv) (s : Data) (body : Option Str) : Response × Data :=
  match Json.parse (body.getD []) with
  | .ok (.object fields) =>
      let (answer, s') := receiveTransaction env.toEnv s (.object fields)
      (.jsonOk answer.write, s')
  | .ok _ => (.error 400 (.new "M_BAD_JSON" "transaction must be an object"), s)
  | .error _ => (.error 400 (.new "M_NOT_JSON" "body is not JSON"), s)

/-- A device as another server gets it; no keys where the stored ones are no JSON. -/
def deviceObject (d : Str × Str) : Json :=
  .ofFields [("device_id".toList, .string d.1),
    ("keys".toList, (Json.parse d.2).toOption.getD (.object []))]

def serveUserDevices (s : Data) (m : RouteMatch) : Response :=
  match m.param "userId" with
  | none => missingParameter
  | some userId =>
      match UserId.parse userId with
      | none => .error 400 (.new "M_INVALID_PARAM" "invalid user id")
      | some user =>
          .jsonOk (Json.ofFields [("user_id".toList, .string user.asStr),
            ("stream_id".toList, .number (F64.ofNat 0)),
            ("devices".toList, .array ((deviceKeysOf s user).map deviceObject))]).write

end Ingress

end GaussMatrix.Http
