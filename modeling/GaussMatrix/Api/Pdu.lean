import GaussMatrix.Api.Redaction
import GaussMatrix.Util.Hashing
import GaussMatrix.Util.Ids

/-!
# The Persistent Data Unit envelope

The event metadata the homeserver authenticates and resolves over, its Matrix JSON form in both
directions, and the content-addressed id derived from it.
-/

namespace GaussMatrix.Api

open Library Util

/-- A persistent room event as the server stores and authenticates it. -/
structure Pdu where
  eventId : EventId
  roomId : RoomId
  sender : UserId
  kind : Str
  /-- Present iff this is a state event. -/
  stateKey : Option Str
  originServerTs : UInt64
  depth : UInt64
  prevEvents : List EventId
  authEvents : List EventId
  /-- The event content, carried opaquely as JSON. -/
  contentJson : Str
  deriving DecidableEq

/-- The events an auth or resolution step can look up, by id. -/
abbrev PduMap := SortedMap EventId Pdu

/-- An error decoding a PDU from JSON: the field is absent, or of the wrong type or invalid. -/
inductive PduError
  | missingField (key : Str)
  | invalidField (key : Str)
  deriving DecidableEq

namespace Pdu

def isState (p : Pdu) : Bool := p.stateKey.isSome

/-- The slot of room state the event fills, if it is a state event. -/
def stateTuple (p : Pdu) : Option (Str × Str) := p.stateKey.map (fun sk => (p.kind, sk))

/-- The content, if it parses. -/
def content (p : Pdu) : Option Json := (Json.parse p.contentJson).toOption

/-- A string field of the content. -/
def contentStr (p : Pdu) (key : Str) : Option Str :=
  p.content.bind (fun c => (c.get key).bind Json.asStr)

/-! ## JSON form -/

def eventIdArray (ids : List EventId) : Json := .array (ids.map (fun e => .string e.asStr))

/-- The fields used for the content hash. -/
def unhashed (p : Pdu) : List (Str × Json) :=
  [Json.field "room_id" (.string p.roomId.asStr),
    Json.field "sender" (.string p.sender.asStr),
    Json.field "type" (.string p.kind)] ++
  (match p.stateKey with
    | some sk => [Json.field "state_key" (.string sk)]
    | none => []) ++
  [Json.field "origin_server_ts" (.number (F64.ofNat p.originServerTs.toNat)),
    Json.field "depth" (.number (F64.ofNat p.depth.toNat)),
    Json.field "prev_events" (eventIdArray p.prevEvents),
    Json.field "auth_events" (eventIdArray p.authEvents),
    Json.field "content" (p.content.getD (.object []))]

/-- Unpadded base64 of the digest of the canonical JSON without `event_id` and `hashes`. -/
def contentHash (sha256 : List UInt8 → List UInt8) (p : Pdu) : Str :=
  base64Encode (sha256 (utf8Bytes (Json.ofFields p.unhashed).write))

/-- The Matrix JSON form, with the content hash attached. -/
def toJson (sha256 : List UInt8 → List UInt8) (p : Pdu) : Json :=
  Json.ofFields (p.unhashed ++
    [Json.field "event_id" (.string p.eventId.asStr),
      Json.field "hashes"
        (Json.ofFields [Json.field "sha256" (.string (p.contentHash sha256))])])

/-- The content-addressed id: the digest of the redacted event without `event_id`, `signatures` and
`unsigned`. -/
def referenceId (sha256 : List UInt8 → List UInt8) (p : Pdu) (roomVersion : Nat) : Str :=
  let obj := ((redact (p.toJson sha256) roomVersion).asObject).getD []
  let obj := SortedList.erase "unsigned".toList (SortedList.erase "signatures".toList
    (SortedList.erase "event_id".toList obj))
  Util.referenceId sha256 (utf8Bytes (Json.object obj).write)

def strField (value : Json) (key : Str) : Except PduError Str :=
  match value.get key with
  | none => .error (.missingField key)
  | some v => v.asStr.elim (.error (.invalidField key)) .ok

def u64Field (value : Json) (key : Str) : Except PduError UInt64 :=
  match value.get key with
  | none => .error (.missingField key)
  | some v => v.asU64.elim (.error (.invalidField key)) .ok

def parseId {τ : Type} (value : Json) (key : Str) (parse : Str → Option τ) : Except PduError τ := do
  let s ← strField value key
  (parse s).elim (.error (.invalidField key)) .ok

def parseIdArray (value : Json) (key : Str) : Except PduError (List EventId) :=
  match value.get key with
  | none => .error (.missingField key)
  | some v =>
      match v.asArray with
      | none => .error (.invalidField key)
      | some items => items.mapM fun item =>
          (item.asStr.bind EventId.parse).elim (.error (.invalidField key)) .ok

/-- Parse a PDU from its Matrix JSON form, re-validating every identifier.  The id is the one the
sender wrote; the content is re-serialized, and an absent one is the empty object. -/
def fromJson (value : Json) : Except PduError Pdu := do
  let eventId ← parseId value "event_id" EventId.parse
  let roomId ← parseId value "room_id" RoomId.parse
  let sender ← parseId value "sender" UserId.parse
  let kind ← strField value "type"
  let stateKey ← match value.get "state_key" with
    | none => .ok none
    | some (.string s) => .ok (some s)
    | some _ => .error (.invalidField "state_key")
  let originServerTs ← u64Field value "origin_server_ts"
  let depth ← u64Field value "depth"
  let prevEvents ← parseIdArray value "prev_events"
  let authEvents ← parseIdArray value "auth_events"
  let contentJson := match value.get "content" with
    | none => "{}".toList
    | some content => content.write
  return {
    eventId, roomId, sender, kind, stateKey, originServerTs, depth, prevEvents, authEvents,
    contentJson }

end Pdu

/-- The highest room version the server implements. -/
def maxSupportedRoomVersion : Nat := 12

end GaussMatrix.Api
