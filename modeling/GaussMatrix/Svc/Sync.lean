import GaussMatrix.Svc.StreamOrder

/-!
# Sync

A sync without a token carries every joined room in full; one with a token carries, room by room, the
events at its stream position or later.
-/

namespace GaussMatrix.Svc

open Library Util Api Api.Events StateRes RoomService

/-! ## What a sync reads of rooms -/

namespace RoomService

/-- The content of the state event filling a slot. -/
def stateEventContent (s : Data) (room : RoomId) (kind key : Str) : Option Str :=
  (stateEventPdu s room kind key).map fun p => p.contentJson

/-- Every room with persisted events, in id order. -/
def rooms (s : Data) : List RoomId :=
  ((s.scan .events).filterMap fun e =>
    (splitOnce sep e.1).bind fun parts => RoomId.parse parts.1).eraseDups

end RoomService

/-- Whether the user is joined to the room. -/
def isJoined (s : Data) (room : RoomId) (user : UserId) : Bool :=
  match stateEventContent s room roomMember user.asStr with
  | none => false
  | some content =>
      (((Json.parse content).toOption.bind fun c => c.get "membership").bind Json.asStr) =
        some "join".toList

/-- The users typing in the room, those whose entry has not lapsed, in id order. -/
def typingUsers (s : Data) (room : RoomId) (now : UInt64) : List UserId :=
  sortByKey UserId.asStr ((s.scan .typing).filterMap fun e => do
    let user ← stripPrefix (roomPrefix room) e.1
    let expiry ← e.2.asText.bind parseU64
    if expiry ≤ now.toNat then none else UserId.parse user)

/-- What a user has read up to, and when. -/
structure ReadReceipt where
  user : UserId
  eventId : Str
  ts : Nat
  deriving DecidableEq

/-- The read receipts in the room, in user-id order. -/
def readReceipts (s : Data) (room : RoomId) : List ReadReceipt :=
  sortByKey (fun receipt => receipt.user.asStr) ((s.scan .receipts).filterMap fun e => do
    let user ← (stripPrefix (roomPrefix room) e.1).bind UserId.parse
    let (eventId, ts) ← e.2.asText.bind (splitOnce sep)
    let ts ← parseU64 ts
    return ⟨user, eventId, ts⟩)

/-- A user's presence and status message. -/
structure PresenceUpdate where
  user : UserId
  presence : Str
  statusMsg : Option Str
  deriving DecidableEq

def presenceFor (s : Data) (user : UserId) : Option PresenceUpdate := do
  let raw ← (s.get .presence user.asStr).bind Record.asText
  let (presence, statusMsg) := (splitOnce sep raw).getD (raw, [])
  return ⟨user, presence, if statusMsg = [] then none else some statusMsg⟩

/-- The presence of the members of the user's rooms, in id order, as far as it is recorded. -/
def coResidentPresence (s : Data) (user : UserId) : List PresenceUpdate :=
  let members := ((rooms s).filter fun room => isJoined s room user).flatMap fun room =>
    (currentStatePdus s room).filterMap fun p =>
      if p.kind ≠ roomMember then none else p.stateKey.bind UserId.parse
  (sortByKey UserId.asStr members.eraseDups).filterMap (presenceFor s)

/-! ## Deltas -/

/-- The event is a membership event of the user with this membership. -/
def setsMembership (user : UserId) (membership : Str) (p : Pdu) : Bool :=
  p.kind = roomMember ∧ p.stateKey = some user.asStr ∧ p.contentStr "membership" = some membership

/-- The user's own join is in the delta. -/
def joinedInDelta (delta : List Pdu) (user : UserId) : Bool :=
  delta.any (setsMembership user "join".toList)

/-- The user's own leave or ban is in the delta. -/
def leftInDelta (delta : List Pdu) (user : UserId) : Bool :=
  delta.any fun p => setsMembership user "leave".toList p || setsMembership user "ban".toList p

/-- The events of a delta room by room, in the order of the room ids. -/
def deltaRooms (delta : List Pdu) : List (RoomId × List Pdu) :=
  (SortedMap.groupBy (fun p => p.roomId.asStr) delta).entries.filterMap fun e =>
    (RoomId.parse e.1).map fun room => (room, e.2)

/-! ## Views -/

structure JoinedRoom where
  room : RoomId
  state : List Pdu
  timeline : List Pdu
  typing : List UserId
  receipts : List ReadReceipt
  deriving DecidableEq

structure LeftRoom where
  room : RoomId
  timeline : List Pdu
  deriving DecidableEq

structure SyncView where
  nextBatch : Str
  joined : List JoinedRoom
  left : List LeftRoom
  presence : List PresenceUpdate
  deriving DecidableEq

/-- The token of a stream position. -/
def nextBatch (s : Data) : Str := 's' :: decimal (streamLen s)

/-- The stream position that a token asks for; none asks for an initial sync. -/
def sincePosition (since : Option Str) : Option Nat :=
  (since.bind (stripPrefix ['s'])).bind parseU64

/-- A joined room in full. -/
def fullRoom (s : Data) (now : RoomId → UInt64) (room : RoomId) : JoinedRoom where
  room := room
  state := currentStatePdus s room
  timeline := timeline s room
  typing := typingUsers s room (now room)
  receipts := readReceipts s room

/-- A joined room with its events of a delta, and with its full state where the user joined in the
delta: the user sees the room for the first time. -/
def deltaRoom (s : Data) (user : UserId) (now : RoomId → UInt64) (x : RoomId × List Pdu) :
    JoinedRoom where
  room := x.1
  state :=
    if joinedInDelta x.2 user then currentStatePdus s x.1 else x.2.filter fun p => p.isState
  timeline := x.2
  typing := typingUsers s x.1 (now x.1)
  receipts := readReceipts s x.1

/-- The joined rooms of an initial sync. -/
def initialJoined (s : Data) (user : UserId) (now : RoomId → UInt64) : List JoinedRoom :=
  ((rooms s).filter fun room => isJoined s room user).map (fullRoom s now)

/-- The joined rooms of a delta. -/
def deltaJoined (s : Data) (user : UserId) (now : RoomId → UInt64) (delta : List Pdu) :
    List JoinedRoom :=
  ((deltaRooms delta).filter fun x => isJoined s x.1 user).map (deltaRoom s user now)

/-- The rooms that the user left in a delta. -/
def deltaLeft (s : Data) (user : UserId) (delta : List Pdu) : List LeftRoom :=
  ((deltaRooms delta).filter fun x => !isJoined s x.1 user && leftInDelta x.2 user).map fun x =>
    { room := x.1, timeline := x.2 }

/-- The user's sync view; `now` is the clock as read for each room. -/
def sync (s : Data) (user : UserId) (since : Option Str) (now : RoomId → UInt64) : SyncView where
  nextBatch := nextBatch s
  joined :=
    match sincePosition since with
    | none => initialJoined s user now
    | some pos => deltaJoined s user now (eventsSince s pos)
  left :=
    match sincePosition since with
    | none => []
    | some pos => deltaLeft s user (eventsSince s pos)
  presence := coResidentPresence s user

end GaussMatrix.Svc
