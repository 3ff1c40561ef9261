import GaussMatrix.Library.Runs
import GaussMatrix.StateRes.Rules
import GaussMatrix.Store.Families

/-!
# The room service

Timelines, current state and the global event stream over three column families.  A PDU is stored
as its encoding, which is kept decoded here; the other values are text.
-/

namespace GaussMatrix.Svc

open Library Util Api StateRes

/-- A stored value. -/
inductive Record
  | text (s : Str)
  | pdu (p : Pdu)
  deriving DecidableEq

namespace Record

/-- The value as text. -/
def asText : Record → Option Str
  | text s => some s
  | pdu _ => none

/-- The value as a stored PDU. -/
def decode : Record → Option Pdu
  | text _ => none
  | pdu p => some p

end Record

/-- The shared data set of the server. -/
abbrev Data := Store Record

/-- The separator of composite keys. -/
def sep : Char := '\x1f'

namespace RoomService

/-- The timeline key: room, depth in twenty digits, event id. -/
def timelineKey (p : Pdu) : Str :=
  p.roomId.asStr ++ sep :: (padDecimal 20 p.depth.toNat ++ sep :: p.eventId.asStr)

def stateKey (room : RoomId) (kind key : Str) : Str :=
  room.asStr ++ sep :: (kind ++ sep :: key)

def roomPrefix (room : RoomId) : Str := room.asStr ++ [sep]

/-- The key of a position in the event stream. -/
def streamKey (seq : Nat) : Str := padDecimal 20 seq

/-- What the event stream records of an event. -/
def streamEntry (p : Pdu) : Str := p.roomId.asStr ++ sep :: p.eventId.asStr

/-- Append an event: to its room's timeline, to the current-state slot it fills if it is a state
event, and to the global event stream at the position of its length. -/
def append (s : Data) (p : Pdu) : Data :=
  let s := s.put .events (timelineKey p) (.pdu p)
  let s := match p.stateTuple with
    | some (kind, key) =>
        s.put .roomState (stateKey p.roomId kind key) (.text p.eventId.asStr)
    | none => s
  let seq := s.count .eventStream
  s.put .eventStream (streamKey seq) (.text (streamEntry p))

/-- The number of events in the global stream. -/
def streamLen (s : Data) : Nat := s.count .eventStream

/-- The room's timeline, oldest first. -/
def timeline (s : Data) (room : RoomId) : List Pdu :=
  ((s.scan .events).filter fun e => startsWith (roomPrefix room) e.1).filterMap
    fun e => e.2.decode

/-- The event currently filling a state slot. -/
def stateEvent (s : Data) (room : RoomId) (kind key : Str) : Option EventId :=
  ((s.get .roomState (stateKey room kind key)).bind Record.asText).bind EventId.parse

/-- A persisted event by id within a room: the first of the timeline with this id. -/
def pdu (s : Data) (room : RoomId) (id : EventId) : Option Pdu :=
  (timeline s room).find? fun p => p.eventId = id

/-- The full event currently filling a state slot. -/
def stateEventPdu (s : Data) (room : RoomId) (kind key : Str) : Option Pdu :=
  (stateEvent s room kind key).bind (pdu s room)

/-- Events appended at stream position `since` or later, in insertion order. -/
def eventsSince (s : Data) (since : Nat) : List Pdu :=
  ((s.scan .eventStream).filter fun e => match parseDecimal e.1 with
      | some seq => since ≤ seq
      | none => false).filterMap fun e => do
    let entry ← e.2.asText
    let (room, id) ← splitOnce sep entry
    let room ← RoomId.parse room
    let id ← EventId.parse id
    pdu s room id

/-- The slot that a key of the state family names under a room's prefix, with the event in it. -/
def stateSlotOf (room : RoomId) (e : Str × Record) : Option (StateKey × EventId) := do
  let rest ← stripPrefix (roomPrefix room) e.1
  let (kind, key) ← splitOnce sep rest
  let id ← e.2.asText.bind EventId.parse
  return (slot kind key, id)

/-- The room's full current state map. -/
def currentState (s : Data) (room : RoomId) : StateMap :=
  SortedMap.empty.insertAll ((s.scan .roomState).filterMap (stateSlotOf room))

/-- The full current state of a room as events. -/
def currentStatePdus (s : Data) (room : RoomId) : List Pdu :=
  stateEvents (pdu s room) (currentState s room)

end RoomService

end GaussMatrix.Svc
