import GaussMatrix.StateRes.Auth

/-!
# Room state and its view

A state map fills each slot with one event.  Over a state map whose events sit in their own slots,
what the auth rules read is a function of the slots: a user's membership is that of the event in
their member slot.
-/

namespace GaussMatrix.StateRes

open Library Util Api Api.Events

/-- A room-state slot, ordered by event type and then by state key. -/
abbrev StateKey := Str ×ₗ Str

/-- A resolved room-state map: each slot filled by exactly one event. -/
abbrev StateMap := SortedMap StateKey EventId

/-- The slot of an event type and a state key. -/
def slot (kind stateKey : Str) : StateKey := toLex (kind, stateKey)

/-- The state slot an event fills, if it is a state event. -/
def stateSlot (event : Pdu) : Option StateKey := event.stateTuple.map toLex

/-- The events of a state map that `lookup` has, in the order of their slots. -/
def stateEvents (lookup : EventId → Option Pdu) (state : StateMap) : List Pdu :=
  state.values.filterMap lookup

theorem slot_inj {kind kind' stateKey stateKey' : Str} :
    slot kind stateKey = slot kind' stateKey' ↔ kind = kind' ∧ stateKey = stateKey' := by
  simp [slot]

theorem stateSlot_eq_some_iff {event : Pdu} {kind stateKey : Str} :
    stateSlot event = some (slot kind stateKey) ↔
      event.kind = kind ∧ event.stateKey = some stateKey := by
  rw [stateSlot, Pdu.stateTuple, Option.map_map, Option.map_eq_some_iff]
  constructor
  · rintro ⟨sk, hsk, he⟩
    obtain ⟨rfl, rfl⟩ := slot_inj.mp he
    exact ⟨rfl, hsk⟩
  · rintro ⟨rfl, hsk⟩
    exact ⟨stateKey, hsk, rfl⟩

/-! ## The view as a function of the events -/

/-- What an event says about a user's membership. -/
def memberEntry (pdu : Pdu) : Option (Str × Str) :=
  if pdu.kind = roomMember then
    match pdu.stateKey, pdu.contentStr "membership" with
    | some user, some membership => some (user, membership)
    | _, _ => none
  else none

/-- The token and key of a third-party invite event. -/
def inviteEntry (pdu : Pdu) : Option (Str × Str) :=
  if pdu.kind = roomThirdPartyInvite then
    pdu.stateKey.map fun token => (token, (pdu.contentStr "public_key").getD [])
  else none

theorem memberEntry_of_ne {pdu : Pdu} (h : pdu.kind ≠ roomMember) : memberEntry pdu = none :=
  if_neg h

theorem inviteEntry_of_ne {pdu : Pdu} (h : pdu.kind ≠ roomThirdPartyInvite) :
    inviteEntry pdu = none :=
  if_neg h

theorem memberEntry_eq_some_iff {pdu : Pdu} {user membership : Str} :
    memberEntry pdu = some (user, membership) ↔
      pdu.kind = roomMember ∧ pdu.stateKey = some user ∧
        pdu.contentStr "membership" = some membership := by
  unfold memberEntry
  split
  · rename_i hk
    cases pdu.stateKey with
    | none => simp [hk]
    | some u =>
        cases pdu.contentStr "membership" with
        | none => simp [hk]
        | some m => simp [hk]
  · rename_i hk
    simp [hk]

/-- The last event of a kind. -/
def lastOfKind (kind : Str) (state : List Pdu) : Option Pdu :=
  (state.filter (fun pdu => pdu.kind = kind)).getLast?

theorem lastOfKind_append (kind : Str) (state : List Pdu) (pdu : Pdu) :
    lastOfKind kind (state ++ [pdu]) =
      if pdu.kind = kind then some pdu else lastOfKind kind state := by
  rw [lastOfKind, List.filter_append]
  split
  · rename_i h
    simp [h]
  · rename_i h
    simp [h, lastOfKind]

theorem mem_of_lastOfKind {kind : Str} {state : List Pdu} {pdu : Pdu}
    (h : lastOfKind kind state = some pdu) : pdu ∈ state ∧ pdu.kind = kind := by
  have hmem := List.mem_filter.mp (List.mem_of_getLast? h)
  exact ⟨hmem.1, by simpa using hmem.2⟩

theorem lastOfKind_eq_none_iff {kind : Str} {state : List Pdu} :
    lastOfKind kind state = none ↔ ∀ pdu ∈ state, pdu.kind ≠ kind := by
  rw [lastOfKind, List.getLast?_eq_none_iff, List.filter_eq_nil_iff]
  simp

namespace AuthView

theorem new_append (state : List Pdu) (pdu : Pdu) : new (state ++ [pdu]) = (new state).visit pdu :=
  List.foldl_append

theorem visit_member (v : AuthView) {pdu : Pdu} (h : pdu.kind = roomMember) :
    v.visit pdu = { v with members := v.members ++ (memberEntry pdu).toList } := by
  rw [memberEntry, if_pos h]
  simp only [visit, h, roomMember_ne, if_true, if_false]
  cases pdu.stateKey with
  | none => simp only [Option.toList_none, List.append_nil]
  | some user =>
      cases pdu.contentStr "membership" with
      | none => simp only [Option.toList_none, List.append_nil]
      | some membership => simp only [Option.toList_some]

theorem visit_thirdPartyInvite (v : AuthView) {pdu : Pdu} (h : pdu.kind = roomThirdPartyInvite) :
    v.visit pdu =
      { v with thirdPartyInvites := v.thirdPartyInvites ++ (inviteEntry pdu).toList } := by
  rw [inviteEntry, if_pos h]
  simp only [visit, h, roomThirdPartyInvite_ne, if_true, if_false]
  cases pdu.stateKey with
  | none => simp only [Option.map_none, Option.toList_none, List.append_nil]
  | some token => simp only [Option.map_some, Option.toList_some]

/-- The view reads the last create, power-levels and join-rules event, and every member and
third-party invite event. -/
theorem new_eq (state : List Pdu) :
    new state =
      { create := lastOfKind roomCreate state
        powerLevels := (lastOfKind roomPowerLevels state).bind Pdu.content
        joinRules := (lastOfKind roomJoinRules state).bind Pdu.content
        members := state.filterMap memberEntry
        thirdPartyInvites := state.filterMap inviteEntry } := by
  induction state using List.reverseRecOn with
  | nil => rfl
  | append_singleton state pdu ih =>
      rw [new_append, ih]
      have hone : ∀ f : Pdu → Option (Str × Str), [pdu].filterMap f = (f pdu).toList := by
        intro f
        cases h : f pdu with
        | none => simp [h]
        | some e => simp [h]
      simp only [lastOfKind_append, List.filterMap_append, hone]
      by_cases hm : pdu.kind = roomMember
      · rw [visit_member _ hm, inviteEntry_of_ne (by simp [hm])]
        simp only [hm, roomMember_ne, if_false, Option.toList_none, List.append_nil]
      · rw [memberEntry_of_ne hm]
        by_cases ht : pdu.kind = roomThirdPartyInvite
        · rw [visit_thirdPartyInvite _ ht]
          simp only [ht, roomThirdPartyInvite_ne, if_false, Option.toList_none, List.append_nil]
        · rw [inviteEntry_of_ne ht]
          simp only [visit, hm, ht, if_false, Option.toList_none, List.append_nil]
          by_cases hc : pdu.kind = roomCreate
          · simp only [hc, roomCreate_ne, if_true, if_false]
          · by_cases hp : pdu.kind = roomPowerLevels
            · simp only [hp, roomPowerLevels_ne, if_true, if_false, Option.bind_some]
            · by_cases hj : pdu.kind = roomJoinRules
              · simp only [hj, roomJoinRules_ne, if_true, if_false, Option.bind_some]
              · simp only [hc, hp, hj, if_false]

end AuthView

/-! ## Events in their own slots -/

/-- Each event of the state that `lookup` has is a state event of the slot it sits in. -/
def WellSlotted (lookup : EventId → Option Pdu) (state : StateMap) : Prop :=
  ∀ key id pdu, state.get key = some id → lookup id = some pdu → stateSlot pdu = some key

variable {lookup : EventId → Option Pdu} {state : StateMap}

theorem mem_stateEvents {pdu : Pdu} :
    pdu ∈ stateEvents lookup state ↔ ∃ key id, state.get key = some id ∧ lookup id = some pdu := by
  rw [stateEvents, List.mem_filterMap]
  constructor
  · rintro ⟨id, hid, hpdu⟩
    obtain ⟨key, hkey⟩ := (SortedMap.mem_values_iff _ _).mp hid
    exact ⟨key, id, hkey, hpdu⟩
  · rintro ⟨key, id, hkey, hpdu⟩
    exact ⟨id, (SortedMap.mem_values_iff _ _).mpr ⟨key, hkey⟩, hpdu⟩

instance : Decidable (WellSlotted lookup state) :=
  decidable_of_iff
    (∀ e ∈ state.entries, (lookup e.2).all (fun pdu => stateSlot pdu = some e.1) = true) (by
      unfold WellSlotted
      simp only [← SortedMap.mem_entries_iff, Option.all_eq_true, decide_eq_true_eq, Prod.forall]
      exact forall₂_congr fun key id => ⟨fun h pdu hid => h hid pdu, fun h hid pdu => h pdu hid⟩)

theorem WellSlotted.erase (h : WellSlotted lookup state) (key : StateKey) :
    WellSlotted lookup (state.erase key) := by
  intro key' id pdu hid hpdu
  rw [SortedMap.get_erase] at hid
  split at hid
  · exact absurd hid (by simp)
  · exact h key' id pdu hid hpdu

theorem WellSlotted.insert (h : WellSlotted lookup state) {key : StateKey} {id : EventId} {pdu : Pdu}
    (hpdu : lookup id = some pdu) (hslot : stateSlot pdu = some key) :
    WellSlotted lookup (state.insert key id) := by
  intro key' id' pdu' hid hpdu'
  rw [SortedMap.get_insert] at hid
  split at hid
  · rename_i heq
    obtain rfl := Option.some.inj hid
    obtain rfl := Option.some.inj (hpdu.symm.trans hpdu')
    rw [hslot, heq]
  · exact h key' id' pdu' hid hpdu'

/-- Without the event of a slot, the events of a state are those of the other slots. -/
theorem WellSlotted.stateEvents_erase (h : WellSlotted lookup state) (key : StateKey) :
    stateEvents lookup (state.erase key) =
      (stateEvents lookup state).filter (fun pdu => stateSlot pdu ≠ some key) := by
  have hslots : ∀ e ∈ state.entries, ∀ pdu, lookup e.2 = some pdu → stateSlot pdu = some e.1 :=
    fun e he pdu => h e.1 e.2 pdu ((state.mem_entries_iff _ _).mp he)
  simp only [stateEvents, SortedMap.values, SortedMap.erase, SortedMap.filter]
  generalize state.entries = entries at hslots
  induction entries with
  | nil => rfl
  | cons e entries ih =>
      obtain ⟨he, hrest⟩ := List.forall_mem_cons.mp hslots
      rw [List.map_cons, List.filterMap_cons, List.filter_cons]
      cases hpdu : lookup e.2 with
      | none =>
          simp only
          rw [← ih hrest]
          split
          · simp [hpdu]
          · rfl
      | some pdu =>
          simp only [List.filter_cons, he pdu hpdu, ← ih hrest]
          by_cases hkey : e.1 = key
          · simp [hkey]
          · simp [hkey, hpdu]

/-- Over events in their own slots, a user's membership is that of their member slot. -/
theorem WellSlotted.membership (h : WellSlotted lookup state) (user : Str) :
    (AuthView.new (stateEvents lookup state)).membership user =
      ((state.get (slot roomMember user)).bind lookup).bind (·.contentStr "membership") := by
  rw [AuthView.new_eq]
  have hmem : ∀ m, (user, m) ∈ (stateEvents lookup state).filterMap memberEntry ↔
      ((state.get (slot roomMember user)).bind lookup).bind (·.contentStr "membership") =
        some m := by
    intro m
    simp only [List.mem_filterMap, mem_stateEvents, Option.bind_eq_some_iff]
    constructor
    · rintro ⟨pdu, ⟨key, id, hid, hpdu⟩, he⟩
      obtain ⟨hkind, hstate, hm⟩ := memberEntry_eq_some_iff.mp he
      have hslot := stateSlot_eq_some_iff.mpr ⟨hkind, hstate⟩
      rw [h key id pdu hid hpdu, Option.some.injEq] at hslot
      exact ⟨pdu, ⟨id, hslot ▸ hid, hpdu⟩, hm⟩
    · rintro ⟨pdu, ⟨id, hid, hpdu⟩, hm⟩
      obtain ⟨hkind, hstate⟩ := stateSlot_eq_some_iff.mp (h _ id pdu hid hpdu)
      exact ⟨pdu, ⟨_, id, hid, hpdu⟩, memberEntry_eq_some_iff.mpr ⟨hkind, hstate, hm⟩⟩
  apply Option.ext
  intro m
  rw [← hmem m]
  exact SortedList.lookup_eq_some_iff_mem (fun m₁ m₂ h₁ h₂ =>
    Option.some.inj (((hmem m₁).mp h₁).symm.trans ((hmem m₂).mp h₂)))

/-! ## States as events -/

/-- The full state of a room as events, by slot. -/
abbrev RoomEvents := SortedMap StateKey Pdu

/-- Put an event into the slot it fills, if it is a state event. -/
def applyEvent (state : RoomEvents) (event : Pdu) : RoomEvents :=
  match stateSlot event with
  | some key => state.insert key event
  | none => state

/-- Each event is a state event of the slot it sits in. -/
def InOwnSlots (state : RoomEvents) : Prop :=
  ∀ key event, state.get key = some event → stateSlot event = some key

instance (state : RoomEvents) : Decidable (InOwnSlots state) :=
  decidable_of_iff (∀ e ∈ state.entries, stateSlot e.2 = some e.1) (by
    unfold InOwnSlots
    simp only [← SortedMap.mem_entries_iff, Prod.forall])

theorem InOwnSlots.applyEvent {events : RoomEvents} (h : InOwnSlots events) (event : Pdu) :
    InOwnSlots (applyEvent events event) := by
  unfold StateRes.applyEvent
  cases hslot : stateSlot event with
  | none => exact h
  | some key =>
      intro key' event' hget
      rw [SortedMap.get_insert] at hget
      split at hget
      · rename_i heq
        rw [← Option.some.inj hget, heq, hslot]
      · exact h key' event' hget

/-- The events of a state map that `lookup` has, by slot. -/
def roomEvents (lookup : EventId → Option Pdu) (state : StateMap) : RoomEvents :=
  state.filterMapValues lookup

theorem values_roomEvents : (roomEvents lookup state).values = stateEvents lookup state :=
  SortedMap.values_filterMapValues state lookup

theorem WellSlotted.inOwnSlots (h : WellSlotted lookup state) :
    InOwnSlots (roomEvents lookup state) := by
  intro key event hget
  rw [roomEvents, SortedMap.get_filterMapValues] at hget
  obtain ⟨id, hid, hevent⟩ := Option.bind_eq_some_iff.mp hget
  exact h key id event hid hevent

end GaussMatrix.StateRes
