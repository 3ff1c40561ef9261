import GaussMatrix.Fed.Transaction
import GaussMatrix.Svc.Rooms

/-!
# The composed homeserver

The operations that write room history: creating a room, changing a membership, sending a message,
and receiving a federation transaction.  Each is one step on the shared data; what the server takes
from outside (digest, signature check, hasher, clock) is a parameter.
-/

namespace GaussMatrix.Svc

open Library Util Api Api.Events StateRes RoomService Fed

/-- What the server's code takes from its environment. -/
structure Env where
  sha256 : List UInt8 → List UInt8
  verifyB64 : VerifyB64
  /-- The hash of a creator, an event count and a clock reading, as a new room's id uses it. -/
  roomHash : Str → Nat → UInt64 → UInt64
  serverName : Str
  /-- Whether the build checks integer overflow; the request then panics instead of wrapping. -/
  overflowChecks : Bool

/-! ## Building events -/

/-- A throwaway id, used while an event is built. -/
def placeholderEventId : EventId := ⟨"$pending", by decide⟩

/-- A one-field object. -/
def singleField (field value : Str) : Str :=
  (Json.object [(field, .string value)]).write

def createContent (creator : UserId) : Str :=
  (Json.object [("creator".toList, .string creator.asStr),
    ("room_version".toList, .string (decimal maxSupportedRoomVersion))]).write

def memberJoinContent : Str := singleField "membership" "join"

def powerLevelsContent (creator : UserId) : Str :=
  (Json.object [("users".toList, .object [(creator.asStr, .number (F64.ofNat 100))]),
    ("users_default".toList, .number (F64.ofNat 0))]).write

/-- The event with its content-addressed id, if the id is one. -/
def withReferenceId (env : Env) (p : Pdu) : Option Pdu :=
  (EventId.parse (p.referenceId env.sha256 maxSupportedRoomVersion)).map fun eventId =>
    { p with eventId }

/-- The depth after `depth`; `none` when the addition overflows and the build checks it. -/
def nextDepth (env : Env) (depth : UInt64) : Option UInt64 :=
  if env.overflowChecks ∧ depth.toNat + 1 = 2 ^ 64 then none else some (depth + 1)

/-- The depth and the links of an event after the tip of the room's timeline. -/
def tipLink (env : Env) (s : Data) (room : RoomId) : Option (UInt64 × List EventId) :=
  match (timeline s room).getLast? with
  | some tip => (nextDepth env tip.depth).map fun depth => (depth, [tip.eventId])
  | none => some (1, [])

/-! ## Changing a membership -/

/-- The membership event that `actor` would send. -/
def membershipEvent (env : Env) (s : Data) (actor : UserId) (room : RoomId) (target : UserId)
    (membership : Str) (now : UInt64) : Option Pdu := do
  let (depth, prevEvents) ← tipLink env s room
  withReferenceId env
    { eventId := placeholderEventId
      roomId := room
      sender := actor
      kind := roomMember
      stateKey := some target.asStr
      originServerTs := now
      depth
      prevEvents
      authEvents := []
      contentJson := singleField "membership" membership }

/-- The event if the auth rules accept it against the room's current state. -/
def authorized (env : Env) (s : Data) (p : Pdu) : Option Pdu :=
  match checkAuth env.verifyB64 p (currentStatePdus s p.roomId) with
  | .ok () => some p
  | .error _ => none

/-- Change a membership: the id of the event appended, if it was. -/
def changeMembership (env : Env) (s : Data) (actor : UserId) (room : RoomId) (target : UserId)
    (membership : Str) (now : UInt64) : Option Str × Data :=
  match (membershipEvent env s actor room target membership now).bind (authorized env s) with
  | none => (none, s)
  | some p => (some p.eventId.asStr, append s p)

/-! ## Sending a message -/

/-- The message event that `sender` would send. -/
def messageEvent (env : Env) (s : Data) (sender : UserId) (room : RoomId) (eventType content : Str)
    (now : UInt64) : Option Pdu := do
  let (depth, prevEvents) ← tipLink env s room
  withReferenceId env
    { eventId := placeholderEventId
      roomId := room
      sender
      kind := eventType
      stateKey := none
      originServerTs := now
      depth
      prevEvents
      authEvents := []
      contentJson := content }

/-- The key a client transaction is recorded under. -/
def txnKey (sender : UserId) (txnId : Str) : Str := sender.asStr ++ sep :: txnId

/-- Send a message: a repeated transaction id returns the original event. -/
def sendMessage (env : Env) (s : Data) (sender : UserId) (room : RoomId)
    (eventType txnId content : Str) (now : UInt64) : Option Str × Data :=
  match s.get .transactions (txnKey sender txnId) with
  | some existing => (existing.asText, s)
  | none =>
      match (messageEvent env s sender room eventType content now).bind (authorized env s) with
      | none => (none, s)
      | some p =>
          (some p.eventId.asStr,
            (append s p).put .transactions (txnKey sender txnId) (.text p.eventId.asStr))

/-! ## Creating a room -/

/-- A number in hexadecimal, padded with zeros to sixteen digits. -/
def hex16 (n : UInt64) : Str :=
  let digits := Nat.toDigits 16 n.toNat
  List.replicate (16 - digits.length) '0' ++ digits

/-- A fresh room id from the creator, the event count and the clock. -/
def mintRoomId (env : Env) (s : Data) (creator : UserId) (now : UInt64) : Option RoomId :=
  RoomId.parse
    ('!' :: hex16 (env.roomHash creator.asStr (s.count .events) now) ++ ':' :: env.serverName)

/-- The initial state of a room, in order: type, state key and content. -/
def initialState (creator : UserId) (name topic : Option Str) : List (Str × Str × Str) :=
  [(roomCreate, [], createContent creator),
    (roomMember, creator.asStr, memberJoinContent),
    (roomPowerLevels, [], powerLevelsContent creator)] ++
  (name.map fun name => (roomName, [], singleField "name" name)).toList ++
  (topic.map fun topic => (roomTopic, [], singleField "topic" topic)).toList

/-- The events of a new room from `depth` on, each linked to the one before and stamped with its
clock reading; the list ends early where an id is invalid. -/
def initialEvents (env : Env) (room : RoomId) (creator : UserId) (now : Nat → UInt64) :
    Nat → List EventId → List (Str × Str × Str) → List Pdu
  | _, _, [] => []
  | i, prevEvents, (kind, stateKey, content) :: rest =>
      let p : Pdu :=
        { eventId := placeholderEventId
          roomId := room
          sender := creator
          kind
          stateKey := some stateKey
          originServerTs := now (i + 1)
          depth := UInt64.ofNat (i + 1)
          prevEvents
          authEvents := []
          contentJson := content }
      match withReferenceId env p with
      | none => []
      | some p => p :: initialEvents env room creator now (i + 1) [p.eventId] rest

/-- Create a room: its id if every event got one, and the data with the events appended. -/
def createRoom (env : Env) (s : Data) (creator : UserId) (name topic : Option Str)
    (now : Nat → UInt64) : Option RoomId × Data :=
  match mintRoomId env s creator (now 0) with
  | none => (none, s)
  | some room =>
      let contents := initialState creator name topic
      let events := initialEvents env room creator now 0 [] contents
      (if events.length = contents.length then some room else none, events.foldl append s)

/-! ## Receiving a transaction -/

/-- The verdict on a federated event: over the events it cites, or, if it cites none, over the room's
current state. -/
def federationVerdict (env : Env) (s : Data) (byId : PduMap) (p : Pdu) : Except AuthError Unit :=
  if p.authEvents = [] then checkAuth env.verifyB64 p (currentStatePdus s p.roomId)
  else checkAuthWithChain env.verifyB64 p byId

/-- The acknowledgement of one event. -/
def ackOf : Except AuthError Unit → Json
  | .ok () => .object []
  | .error _ => .object [("error".toList, .string "event not authorized".toList)]

/-- A transaction under way: the data, the events available to authorize later ones, and the
acknowledgements. -/
structure Receipt where
  data : Data
  byId : PduMap
  results : SortedMap Str Json

/-- Take one event of a transaction. -/
def receivePdu (env : Env) (r : Receipt) (p : Pdu) : Receipt :=
  let verdict := federationVerdict env r.data r.byId p
  match verdict with
  | .ok () =>
      { data := append r.data p
        byId := r.byId.insert p.eventId p
        results := r.results.insert p.eventId.asStr (ackOf verdict) }
  | .error _ => { r with results := r.results.insert p.eventId.asStr (ackOf verdict) }

/-- The events of the rooms a transaction touches, by id. -/
def knownEvents (s : Data) (pdus : List Pdu) : PduMap :=
  SortedMap.empty.insertAll
    ((pdus.flatMap fun p => timeline s p.roomId).map fun p => (p.eventId, p))

/-- The start of a transaction. -/
def Receipt.start (s : Data) (pdus : List Pdu) : Receipt :=
  ⟨s, knownEvents s pdus, SortedMap.empty⟩

def storeDeviceKeys (s : Data) (user : UserId) (deviceId keys : Str) : Data :=
  s.put .deviceKeys (user.asStr ++ sep :: deviceId) (.text keys)

/-- Take one ephemeral unit: a device-list update refreshes the cached device keys. -/
def receiveEdu (s : Data) (edu : Edu) : Data :=
  if edu.eduType ≠ "m.device_list_update".toList then s
  else
    match (Json.parse edu.contentJson).toOption with
    | none => s
    | some content =>
        match (content.get "user_id").bind Json.asStr,
            (content.get "device_id").bind Json.asStr with
        | some userId, some deviceId =>
            match UserId.parse userId with
            | none => s
            | some user =>
                let keys := match content.get "keys" with
                  | some k => k.write
                  | none => "{}".toList
                storeDeviceKeys s user deviceId keys
        | _, _ => s

/-- The PDUs of a transaction, none when it does not parse. -/
def transactionPdus (txn : Json) : List Pdu :=
  match Transaction.fromJson txn with
  | .ok transaction => transaction.pdus
  | .error _ => []

/-- The ephemeral units of a transaction, none when it does not parse. -/
def transactionEdus (txn : Json) : List Edu :=
  match Transaction.fromJson txn with
  | .ok transaction => transaction.edus
  | .error _ => []

/-- Receive a transaction: the acknowledgements and the data.  One that does not parse has no
units and changes nothing. -/
def receiveTransaction (env : Env) (s : Data) (txn : Json) : Json × Data :=
  let pdus := transactionPdus txn
  let receipt := run (receivePdu env) (Receipt.start s pdus) pdus
  (.object [("pdus".toList, .object receipt.results.entries)],
    (transactionEdus txn).foldl receiveEdu receipt.data)

/-! ## Operations -/

/-- A call of the server, with the clock readings it takes. -/
inductive Op
  | createRoom (creator : UserId) (name topic : Option Str) (now : Nat → UInt64)
  | changeMembership (actor : UserId) (room : RoomId) (target : UserId) (membership : Str)
      (now : UInt64)
  | sendMessage (sender : UserId) (room : RoomId) (eventType txnId content : Str) (now : UInt64)
  | receiveTransaction (txn : Json)

/-- The data after an operation. -/
def step (env : Env) (s : Data) : Op → Data
  | .createRoom creator name topic now => (createRoom env s creator name topic now).2
  | .changeMembership actor room target membership now =>
      (changeMembership env s actor room target membership now).2
  | .sendMessage sender room eventType txnId content now =>
      (sendMessage env s sender room eventType txnId content now).2
  | .receiveTransaction txn => (receiveTransaction env s txn).2

/-- The data that some run of operations on an empty store ends in. -/
def Reachable (env : Env) (s : Data) : Prop := ∃ ops, s = run (step env) Store.empty ops

end GaussMatrix.Svc
