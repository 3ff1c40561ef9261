import GaussMatrix.Library.Text

/-!
# Validated Matrix identifiers

User, room and event ids are strings that passed their check: the check is a field, so an id that
failed it cannot be built.
-/

namespace GaussMatrix.Util

open Library

/-- Split `s` into localpart and server if it begins with `sigil` and both sides of its first colon
are non-empty. -/
def splitSigil (s : Str) (sigil : Char) : Option (Str × Str) :=
  match stripPrefix [sigil] s with
  | none => none
  | some rest =>
      match splitOnce ':' rest with
      | none => none
      | some (localpart, server) =>
          if localpart = [] ∨ server = [] then none else some (localpart, server)

/-- A Matrix user identifier, e.g. `@alice:example.org`. -/
structure UserId where
  asStr : Str
  valid : (splitSigil asStr '@').isSome
  deriving DecidableEq

/-- A Matrix room identifier, e.g. `!abcdef:example.org`. -/
structure RoomId where
  asStr : Str
  valid : (splitSigil asStr '!').isSome
  deriving DecidableEq

/-- The sigil and non-empty body an event id needs. -/
def isEventId (s : Str) : Bool :=
  match stripPrefix ['$'] s with
  | some rest => rest ≠ []
  | none => false

/-- A Matrix event identifier, e.g. `$abcdef...`. -/
structure EventId where
  asStr : Str
  valid : isEventId asStr
  deriving DecidableEq

def UserId.parse (s : Str) : Option UserId :=
  if h : (splitSigil s '@').isSome then some ⟨s, h⟩ else none

def RoomId.parse (s : Str) : Option RoomId :=
  if h : (splitSigil s '!').isSome then some ⟨s, h⟩ else none

def EventId.parse (s : Str) : Option EventId :=
  if h : isEventId s then some ⟨s, h⟩ else none

/-- The server component of a user id, e.g. `example.org`. -/
def UserId.serverName (u : UserId) : Str := ((splitOnce ':' u.asStr).map Prod.snd).getD []

@[ext] theorem UserId.ext {a b : UserId} (h : a.asStr = b.asStr) : a = b := by
  cases a
  cases b
  congr

@[ext] theorem RoomId.ext {a b : RoomId} (h : a.asStr = b.asStr) : a = b := by
  cases a
  cases b
  congr

@[ext] theorem EventId.ext {a b : EventId} (h : a.asStr = b.asStr) : a = b := by
  cases a
  cases b
  congr

@[simp] theorem UserId.parse_asStr (u : UserId) : UserId.parse u.asStr = some u :=
  dif_pos u.valid

@[simp] theorem RoomId.parse_asStr (r : RoomId) : RoomId.parse r.asStr = some r :=
  dif_pos r.valid

@[simp] theorem EventId.parse_asStr (e : EventId) : EventId.parse e.asStr = some e :=
  dif_pos e.valid

theorem UserId.asStr_of_parse {s : Str} {u : UserId} (h : UserId.parse s = some u) :
    u.asStr = s := by
  unfold UserId.parse at h
  split at h
  · rw [← Option.some.inj h]
  · exact absurd h (by simp)

theorem RoomId.asStr_of_parse {s : Str} {r : RoomId} (h : RoomId.parse s = some r) :
    r.asStr = s := by
  unfold RoomId.parse at h
  split at h
  · rw [← Option.some.inj h]
  · exact absurd h (by simp)

theorem EventId.asStr_of_parse {s : Str} {e : EventId} (h : EventId.parse s = some e) :
    e.asStr = s := by
  unfold EventId.parse at h
  split at h
  · rw [← Option.some.inj h]
  · exact absurd h (by simp)

/-- Event ids are ordered as their strings are. -/
instance : LinearOrder EventId :=
  LinearOrder.lift' EventId.asStr (fun _ _ h => EventId.ext h)

/-! ## The ids of sample runs -/

theorem valid_alice : (splitSigil "@a:x".toList '@').isSome := by decide

theorem valid_bob : (splitSigil "@b:x".toList '@').isSome := by decide

theorem valid_room : (splitSigil "!r:x".toList '!').isSome := by decide

theorem valid_secondRoom : (splitSigil "!s:x".toList '!').isSome := by decide

/-- A server named `x` mints this room before any other. -/
theorem valid_mintedRoom : (splitSigil "!0000000000000000:x".toList '!').isSome := by decide

theorem valid_event : isEventId "$a".toList := by decide

theorem isEventId_singleton (c : Char) : isEventId ['$', c] := by simp [isEventId, stripPrefix]

end GaussMatrix.Util
