import GaussMatrix.Library.Runs
import GaussMatrix.StateRes.Application

/-!
# Who may change the power levels

A power-levels event is a state event like any other: the rules ask for the sender's power, and do not
look at the levels that the content sets.  So who has the power for it may set any level, and who does
not has no way to change one.
-/

namespace GaussMatrix.StateRes

open Library Util Api Api.Events

/-- The power that a state event of the type `m.room.power_levels` needs. -/
def AuthView.powerLevelsLevel (view : AuthView) : Int := view.eventLevel roomPowerLevels true

section

variable {verifyB64 : VerifyB64} {state : RoomEvents} {event : Pdu}

/-- The last event of a kind is the last of those entries. -/
theorem lastOfKind_values (kind : Str) (state : RoomEvents) :
    lastOfKind kind state.values =
      (state.filter fun _ event => decide (event.kind = kind)).values.getLast? := by
  rw [lastOfKind, SortedMap.values, SortedMap.values, SortedMap.filter, List.filter_map]
  rfl

/-- An event of another kind leaves the last event of a kind. -/
theorem lastOfKind_applyEvent (h : InOwnSlots state) {kind : Str} (hkind : event.kind ≠ kind) :
    lastOfKind kind (applyEvent state event).values = lastOfKind kind state.values := by
  unfold applyEvent
  cases hslot : stateSlot event with
  | none => rfl
  | some key =>
      have hfree : (state.filter fun _ event => decide (event.kind = kind)).get key = none := by
        rw [SortedMap.get_filter, Option.filter_eq_none_iff]
        intro event' hevent'
        have hsame : stateSlot event' = stateSlot event := (h key event' hevent').trans hslot.symm
        have hkind' : event'.kind = event.kind := by
          obtain ⟨kind', stateKey'⟩ := key
          have hkey : stateSlot event = some (slot kind' stateKey') := hslot
          rw [(stateSlot_eq_some_iff.mp hkey).1, (stateSlot_eq_some_iff.mp (hsame.trans hkey)).1]
        simpa [hkind'] using hkind
      rw [lastOfKind_values, lastOfKind_values, SortedMap.filter_insert, if_neg (by simpa using hkind),
        SortedMap.erase_of_get_none _ hfree]

theorem powerLevels_new (state : List Pdu) :
    (AuthView.new state).powerLevels = (lastOfKind roomPowerLevels state).bind Pdu.content := by
  rw [AuthView.new_eq]

/-- Once there are power levels, they alone give a user's level. -/
theorem powerLevel_congr {view view' : AuthView} (h : view.powerLevels = view'.powerLevels)
    (hsome : view.powerLevels ≠ none) (user : Str) : view.powerLevel user = view'.powerLevel user := by
  unfold AuthView.powerLevel
  rw [← h]
  cases hpl : view.powerLevels with
  | none => exact absurd hpl hsome
  | some pl => rfl

theorem powerLevelsLevel_congr {view view' : AuthView} (h : view.powerLevels = view'.powerLevels) :
    view.powerLevelsLevel = view'.powerLevelsLevel := by
  unfold AuthView.powerLevelsLevel AuthView.eventLevel AuthView.stateDefault AuthView.eventsDefault
    AuthView.level
  rw [h]

/-- A power-levels state event is accepted on the sender's power, whatever its content says. -/
theorem checkAuth_powerLevels {state : List Pdu} (hkind : event.kind = roomPowerLevels)
    (hstate : event.isState = true) :
    checkAuth verifyB64 event state = .ok () ↔
      (AuthView.new state).create ≠ none ∧
        (AuthView.new state).membership event.sender.asStr = some "join".toList ∧
        (AuthView.new state).powerLevelsLevel ≤
          (AuthView.new state).powerLevel event.sender.asStr := by
  rw [checkAuth, checkAuthView_other (by simp [hkind]) (by simp [hkind]),
    if_neg (by simp [hkind] : event.kind ≠ roomRedaction), hkind, hstate]
  rfl

/-- An accepted event of a sender below the level for it leaves the power levels. -/
theorem powerLevels_applyEvent (h : InOwnSlots state)
    (hok : checkAuth verifyB64 event state.values = .ok ())
    (hlow : (AuthView.new state.values).powerLevel event.sender.asStr <
      (AuthView.new state.values).powerLevelsLevel) :
    (AuthView.new (applyEvent state event).values).powerLevels =
      (AuthView.new state.values).powerLevels := by
  rw [powerLevels_new, powerLevels_new]
  by_cases hkind : event.kind = roomPowerLevels
  · have hmessage : event.isState = false := by
      rw [Bool.eq_false_iff]
      intro hstate
      have hlevel := ((checkAuth_powerLevels hkind hstate).mp hok).2.2
      omega
    have hslot : stateSlot event = none := by
      have hkey : event.stateKey = none := by simpa [Pdu.isState] using hmessage
      rw [stateSlot, Pdu.stateTuple, hkey]
      rfl
    rw [applyEvent, hslot]
  · rw [lastOfKind_applyEvent h hkind]

end

namespace Sample

/-- The content of a power-levels event with these levels of users. -/
def levels (users : List (Str × Nat)) : Str :=
  (Json.object [("users".toList, .object (users.map fun user =>
    (user.1, .number (F64.ofNat user.2))))]).write

/-- A power-levels event. -/
def powerLevels (c : Char) (sender : UserId) (users : List (Str × Nat)) : Pdu :=
  stateEvent c sender roomPowerLevels [] 3 (levels users)

/-- A room state with these events. -/
def stateOf (events : List Pdu) : RoomEvents := run applyEvent SortedMap.empty events

/-- A room with Alice at 100 and Bob at 50. -/
def bobModerator : RoomEvents :=
  stateOf [create, aliceJoin, bobJoin, powerLevels 'p' alice [("@a:x", 100), ("@b:x", 50)]]

end Sample

open Sample

example : (AuthView.new bobModerator.values).powerLevel "@b:x" = 50 := by decide +kernel

end GaussMatrix.StateRes
