import GaussMatrix.StateRes.PowerLevels

/-!
# Cited events that are not state

The view takes create, power-levels and join-rules events by their type alone, while member and
third-party-invite events need a state key.  The local path only passes state events; a federated
event passes whatever it cites, so a message of one of the three types can fill their slot.
-/

namespace GaussMatrix.StateRes

open Library Util Api Api.Events

/-- The types whose slot in the view is filled by type alone. -/
def singletonKinds : List Str := [roomCreate, roomPowerLevels, roomJoinRules]

/-- The event is of another type, or a state event with the empty state key. -/
def IsGenuine (event : Pdu) : Prop := event.kind ∈ singletonKinds → event.stateKey = some []

instance (event : Pdu) : Decidable (IsGenuine event) := inferInstanceAs (Decidable (_ → _))

/-- Each of the three slots is filled by a genuine event, if at all. -/
def GenuineSlots (state : List Pdu) : Prop :=
  ∀ kind ∈ singletonKinds, ∀ event ∈ lastOfKind kind state, IsGenuine event

instance (state : List Pdu) : Decidable (GenuineSlots state) :=
  inferInstanceAs (Decidable (∀ kind ∈ singletonKinds, ∀ event ∈ lastOfKind kind state,
    IsGenuine event))

/-- The verdict over an auth chain, with the rules asked over `state`. -/
def checkAuthWithChainOver (verifyB64 : VerifyB64) (event : Pdu) (byId : PduMap)
    (state : List Pdu) : Except AuthError Unit :=
  let chain := authChain event.authEvents byId
  if chain.any (fun id => (byId.get id).isNone) then .error .missingAuthEvent
  else if event.kind ≠ roomCreate ∧
      ¬ ((chain.filterMap byId.get).any (fun p => p.kind = roomCreate)) then .error .noCreateEvent
  else checkAuth verifyB64 event state

section

variable {verifyB64 : VerifyB64} {event : Pdu} {byId : PduMap} {state : List Pdu}

theorem checkAuthWithChain_eq_over : checkAuthWithChain verifyB64 event byId =
    checkAuthWithChainOver verifyB64 event byId (citedEvents event byId) :=
  rfl

/-- The last event of a kind stays the last when events that do not include it are dropped. -/
theorem lastOfKind_filter {kind : Str} {p : Pdu → Bool}
    (h : ∀ event ∈ lastOfKind kind state, p event = true) :
    lastOfKind kind (state.filter p) = lastOfKind kind state := by
  induction state using List.reverseRecOn with
  | nil => rfl
  | append_singleton state last ih =>
      rw [lastOfKind_append] at h
      rw [List.filter_append, lastOfKind_append]
      by_cases hkind : last.kind = kind
      · rw [if_pos hkind] at h
        rw [if_pos hkind, List.filter_cons, if_pos (h last rfl), List.filter_nil, lastOfKind_append,
          if_pos hkind]
      · rw [if_neg hkind] at h
        rw [if_neg hkind, ← ih h, List.filter_cons]
        split
        · rw [List.filter_nil, lastOfKind_append, if_neg hkind]
        · rw [List.filter_nil, List.append_nil]

/-- What is read of the other types is read of genuine events only. -/
theorem filterMap_genuine {f : Pdu → Option (Str × Str)}
    (hf : ∀ event, event.kind ∈ singletonKinds → f event = none) :
    (state.filter fun event => IsGenuine event).filterMap f = state.filterMap f := by
  rw [List.filterMap_filter]
  apply List.filterMap_congr
  intro event _
  by_cases hgenuine : IsGenuine event
  · simp [hgenuine]
  · have hkind : event.kind ∈ singletonKinds := by
      by_contra hno
      exact hgenuine fun hkind => absurd hkind hno
    simp [hgenuine, hf event hkind]

/-- Over genuine slots the view does not see the other events of the three types. -/
theorem AuthView.new_genuine (h : GenuineSlots state) :
    AuthView.new (state.filter fun event => IsGenuine event) = AuthView.new state := by
  have hlast : ∀ kind ∈ singletonKinds,
      lastOfKind kind (state.filter fun event => IsGenuine event) = lastOfKind kind state :=
    fun kind hkind => lastOfKind_filter fun event hevent => decide_eq_true (h kind hkind event hevent)
  have hkinds : ∀ event : Pdu, event.kind ∈ singletonKinds →
      event.kind ≠ roomMember ∧ event.kind ≠ roomThirdPartyInvite := by
    intro event hkind
    simp only [singletonKinds, List.mem_cons, List.not_mem_nil, or_false] at hkind
    rcases hkind with hkind | hkind | hkind
    · simp [hkind]
    · simp [hkind]
    · simp [hkind]
  rw [new_eq, new_eq, hlast roomCreate (by simp [singletonKinds]),
    hlast roomPowerLevels (by simp [singletonKinds]), hlast roomJoinRules (by simp [singletonKinds]),
    filterMap_genuine fun event hkind => memberEntry_of_ne (hkinds event hkind).1,
    filterMap_genuine fun event hkind => inviteEntry_of_ne (hkinds event hkind).2]

/-- The verdict on a create event tells whether a create event is among the state. -/
theorem checkAuthWithChainOver_create (hkind : event.kind = roomCreate) {state' : List Pdu} :
    checkAuthWithChainOver verifyB64 event byId state =
        checkAuthWithChainOver verifyB64 event byId state' ↔
      ((∀ id ∈ authChain event.authEvents byId, (byId.get id).isSome) →
        ((∃ p ∈ state, p.kind = roomCreate) ↔ ∃ p ∈ state', p.kind = roomCreate)) := by
  have hverdict : ∀ state : List Pdu, checkAuth verifyB64 event state =
      if ∃ p ∈ state, p.kind = roomCreate then .error .duplicateCreate else .ok () := by
    intro state
    have hcreate : (AuthView.new state).create.isSome = true ↔
        ∃ p ∈ state, p.kind = roomCreate := by
      rw [Option.isSome_iff_ne_none, ne_eq, AuthView.create_new_eq_none_iff]
      simp only [not_forall, not_not, exists_prop]
    rw [checkAuth, checkAuthView, if_pos hkind]
    simp only [hcreate]
  have hknown : (authChain event.authEvents byId).any (fun id => (byId.get id).isNone) = true ↔
      ¬ ∀ id ∈ authChain event.authEvents byId, (byId.get id).isSome := by
    simp [Option.isSome_iff_ne_none]
  simp only [checkAuthWithChainOver, hknown, hkind, ne_eq, not_true_eq_false, false_and, if_false,
    hverdict]
  by_cases hall : ∀ id ∈ authChain event.authEvents byId, (byId.get id).isSome
  · rw [if_neg (not_not.mpr hall), if_neg (not_not.mpr hall), imp_iff_right hall]
    split_ifs with h h' h'
    · exact iff_of_true rfl (iff_of_true h h')
    · exact iff_of_false (by simp) fun heq => h' (heq.mp h)
    · exact iff_of_false (by simp) fun heq => h (heq.mpr h')
    · exact iff_of_true rfl (iff_of_false h h')
  · rw [if_pos hall, if_pos hall]
    exact iff_of_true rfl fun h => absurd h hall

end

namespace Sample

/-- A message of Bob whose type is that of power levels, and which gives him 100. -/
def forgedLevels : Pdu :=
  { powerLevels 'f' bob [("@b:x", 100)] with stateKey := none }

/-- A topic of Bob that cites the room's create event, his join and the forged levels. -/
def forgingTopic : Pdu :=
  { stateEvent 't' bob roomTopic [] 4 (content "topic" "x") with
    authEvents := [eventId 'c', eventId 'j', eventId 'f'] }

end Sample

open Sample

end GaussMatrix.StateRes
