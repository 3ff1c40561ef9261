import GaussMatrix.Api.Events
import GaussMatrix.Api.Json

/-!
# Event redaction

What is left of an event when its content is struck: the protocol-critical keys, and within
`content` the keys the event type keeps at a room version.  It is applied before hashing.
-/

namespace GaussMatrix.Api

open Library Events

/-- A field of an object under a literal key. -/
def Json.field (key : Str) (value : Json) : Str × Json := (key, value)

/-- An object from its fields, inserted in order. -/
def Json.ofFields (fields : List (Str × Json)) : Json :=
  .object (fields.foldl (fun m f => SortedList.insert f.1 f.2 m) [])

/-- Top-level event keys preserved by redaction across all supported versions. -/
def preservedTopKeys : List Str :=
  ["event_id", "type", "room_id", "sender", "state_key", "content", "hashes", "signatures",
    "depth", "prev_events", "prev_state", "auth_events", "origin", "origin_server_ts",
    "membership"]

/-- The content keys an event type preserves at a room version. -/
def allowedContentKeys (kind : Str) (roomVersion : Nat) : List Str :=
  if kind = roomMember then ["membership", "join_authorised_via_users_server"]
  else if kind = roomCreate then ["creator"]
  else if kind = roomJoinRules ∧ 8 ≤ roomVersion then ["join_rule", "allow"]
  else if kind = roomJoinRules then ["join_rule"]
  else if kind = roomPowerLevels then
    ["ban", "events", "events_default", "kick", "redact", "state_default", "users",
      "users_default", "invite", "notifications"]
  else if kind = "m.room.history_visibility".toList then ["history_visibility"]
  else if kind = roomRedaction ∧ 11 ≤ roomVersion then ["redacts"]
  else if kind = "m.room.aliases".toList ∧ roomVersion < 6 then ["aliases"]
  else []

/-- The fields of `obj` named by `keys`, inserted in the order of `keys`. -/
def keepKeys (obj : List (Str × Json)) (keys : List Str) : List (Str × Json) :=
  keys.foldl (fun out key =>
    match obj.lookup key with
    | some value => SortedList.insert key value out
    | none => out) []

/-- The content kept for an event `kind` at `roomVersion`. -/
def redactedContent (kind : Str) (content : Option Json) (roomVersion : Nat) :
    List (Str × Json) :=
  match content.bind Json.asObject with
  | none => []
  | some content =>
      -- from room version 11 the create event preserves its entire content
      if kind = roomCreate ∧ 11 ≤ roomVersion then content
      else keepKeys content (allowedContentKeys kind roomVersion)

/-- Redact `event` for `roomVersion`; a non-object is returned unchanged. -/
def redact (event : Json) (roomVersion : Nat) : Json :=
  match event.asObject with
  | none => event
  | some obj =>
      let kind := ((obj.lookup "type".toList).bind Json.asStr).getD []
      .object (SortedList.insert "content".toList
        (.object (redactedContent kind (obj.lookup "content".toList) roomVersion))
        (keepKeys obj preservedTopKeys))

end GaussMatrix.Api
