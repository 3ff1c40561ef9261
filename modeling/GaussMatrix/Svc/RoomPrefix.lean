import GaussMatrix.Svc.CurrentState
import GaussMatrix.Svc.History

/-!
# Rooms apart

The rooms share the key space of each family, and a room's keys are told apart by its prefix.  An
append to one room stays out of the reads of another unless one of the two ids goes on from the
other after a separator.
-/

namespace GaussMatrix.Svc

open Library Util Api StateRes RoomService

/-- A room reads the same before and after. -/
structure SameReads (env : Env) (s t : Data) (room : RoomId) : Prop where
  timeline : timeline t room = timeline s room
  currentState : currentState t room = currentState s room
  pdu : ∀ id, pdu t room id = pdu s room id
  tip : tipLink env t room = tipLink env s room

/-- Neither id goes on from the other after a separator. -/
def Apart (room other : RoomId) : Prop :=
  startsWith (roomPrefix other) room.asStr = false ∧ startsWith (roomPrefix room) other.asStr = false

instance (room other : RoomId) : Decidable (Apart room other) := inferInstanceAs (Decidable (_ ∧ _))

section

variable {env : Env} {s : Data} {room other : RoomId} {p : Pdu}

theorem startsWith_key_of_ne (hne : room ≠ other) (hapart : Apart room other) (rest : Str) :
    startsWith (roomPrefix other) (room.asStr ++ sep :: rest) = false := by
  rw [← Bool.not_eq_true, startsWith_iff_isPrefix]
  intro hother
  have hroom : roomPrefix room <+: room.asStr ++ sep :: rest := ⟨rest, by simp [roomPrefix]⟩
  -- of two prefixes of the key one is a prefix of the other
  rcases List.prefix_or_prefix_of_prefix hother hroom with h | h
  · rcases List.prefix_concat_iff.mp h with heq | hpre
    · exact hne (RoomId.ext (List.append_cancel_right heq).symm)
    · rw [← startsWith_iff_isPrefix, hapart.1] at hpre
      exact Bool.false_ne_true hpre
  · rcases List.prefix_concat_iff.mp h with heq | hpre
    · exact hne (RoomId.ext (List.append_cancel_right heq))
    · rw [← startsWith_iff_isPrefix, hapart.2] at hpre
      exact Bool.false_ne_true hpre

/-- The slots of a room come from the keys with its prefix. -/
theorem currentState_eq_filter : currentState s room = SortedMap.empty.insertAll
    (((s .roomState).filter fun key _ => startsWith (roomPrefix room) key).entries.filterMap
      (stateSlotOf room)) := by
  rw [currentState, SortedMap.filter, List.filterMap_filter, Store.scan]
  congr
  funext e
  split
  · rfl
  · rename_i hno
    rw [startsWith, Bool.not_eq_true, Option.isSome_eq_false_iff, Option.isNone_iff_eq_none] at hno
    rw [stateSlotOf, hno]
    rfl

theorem timeline_append_of_apart (hne : room ≠ other) (hapart : Apart room other)
    (hp : p.roomId = room) : timeline (append s p) other = timeline s other := by
  have hkey : startsWith (roomPrefix other) (timelineKey p) = false := by
    rw [timelineKey, hp]
    exact startsWith_key_of_ne hne hapart _
  have hfilter := (s .events).filter_insert_of_rejected (v := .pdu p)
    (p := fun key _ => startsWith (roomPrefix other) key) (fun _ => hkey)
  rw [timeline, timeline, Store.scan, Store.scan, append_events]
  exact congrArg (fun m => m.entries.filterMap fun e => e.2.decode) hfilter

theorem currentState_append_of_apart (hne : room ≠ other) (hapart : Apart room other)
    (hp : p.roomId = room) : currentState (append s p) other = currentState s other := by
  rw [currentState_eq_filter, currentState_eq_filter, append_roomState]
  cases p.stateTuple with
  | none => rfl
  | some tuple =>
      have hkey : startsWith (roomPrefix other) (stateKey p.roomId tuple.1 tuple.2) = false := by
        rw [stateKey, hp]
        exact startsWith_key_of_ne hne hapart _
      rw [SortedMap.filter_insert_of_rejected _ fun _ => hkey]

theorem sameReads_of_apart (env : Env) (hne : room ≠ other) (hapart : Apart room other)
    (hp : p.roomId = room) : SameReads env s (append s p) other := by
  have htimeline := timeline_append_of_apart (s := s) hne hapart hp
  constructor
  · exact htimeline
  · exact currentState_append_of_apart hne hapart hp
  · exact fun id => by rw [RoomService.pdu, htimeline, RoomService.pdu]
  · rw [tipLink, htimeline, tipLink]

end

/-- A state event of the room. -/
def stateProbe (room : RoomId) (kind key : Str) : Pdu where
  eventId := placeholderEventId
  roomId := room
  sender := ⟨"@a:x", valid_alice⟩
  kind := kind
  stateKey := some key
  originServerTs := 0
  depth := 0
  prevEvents := []
  authEvents := []
  contentJson := "{}".toList

/-- Appends to one room leave the reads of another alone in every state exactly when neither id goes
on from the other after a separator. -/
theorem rooms_apart_iff (env : Env) (room other : RoomId) (hne : room ≠ other) :
    (∀ (s : Data) (p : Pdu), p.roomId = room → SameReads env s (append s p) other) ↔
      Apart room other := by
  constructor
  · intro h
    constructor
    · -- the first event of the room is an event of the other
      rw [← Bool.not_eq_true]
      intro hpre
      have hmem : stateProbe room [] [] ∈ timeline (append Store.empty (stateProbe room [] [])) other := by
        rw [mem_timeline_iff (keyed_empty.append _)]
        refine ⟨stored_append_iff.mpr (.inl rfl), ?_⟩
        rw [startsWith_iff_isPrefix] at hpre ⊢
        exact hpre.trans (List.prefix_append _ _)
      rw [(h Store.empty _ rfl).timeline] at hmem
      exact absurd hmem (by simp [timeline, Store.scan, Store.empty, SortedMap.empty])
    · -- a type that is the rest of the other id fills a slot there
      rw [← Bool.not_eq_true]
      intro hpre
      obtain ⟨kind, hkind⟩ := startsWith_iff.mp hpre
      have hkey : stateKey other [] [] = stateKey room kind [sep] := by
        rw [stateKey, stateKey, hkind, roomPrefix]
        simp
      have hget : (currentState (append Store.empty (stateProbe room kind [sep])) other).get
          (slot [] []) = some placeholderEventId := by
        rw [currentState_get_iff]
        refine ⟨List.not_mem_nil, ?_⟩
        rw [stateEvent_append_of_fills]
        · rfl
        · rw [hkey]
          rfl
      rw [(h Store.empty _ rfl).currentState, currentState_get_iff] at hget
      exact absurd hget.2 (by simp [stateEvent, Store.get, Store.empty])
  · exact fun hapart s p hp => sameReads_of_apart env hne hapart hp

open SampleRun in
theorem rooms_apart_iff_sample :
    SameReads env Store.empty (append Store.empty message) ⟨"!s:x", valid_secondRoom⟩ :=
  (rooms_apart_iff env room ⟨"!s:x", valid_secondRoom⟩ (by decide)).mpr (by decide) Store.empty
    message rfl

open SampleRun in
/-- A message of the room `!r:x␟y` stands in the timeline of the room `!r:x`. -/
theorem appended_to_another_room :
    ¬ ∀ (env : Env) (room other : RoomId), room ≠ other → ∀ (s : Data) (p : Pdu),
      p.roomId = room → SameReads env s (append s p) other := by
  intro h
  have hreads := h env ⟨"!r:x\x1fy", by decide⟩ room (by decide) Store.empty
    { message with roomId := ⟨"!r:x\x1fy", by decide⟩ } rfl
  have htimeline := hreads.timeline
  revert htimeline
  decide +kernel

end GaussMatrix.Svc
