import GaussMatrix.StateRes.CitedState

/-!
# The order of citations

The view keeps the last create, power-levels and join-rules event it meets, but the first member
event of a user and the first third-party invite of a token.  Over events that compete for a slot the
order of the citations picks the one that counts.
-/

namespace GaussMatrix.StateRes

open Library Util Api Api.Events

/-! ## What the view reads -/

/-- The places of the view that an event can fill. -/
inductive ViewSlot
  | create
  | powerLevels
  | joinRules
  | member (user : Str)
  | invite (token : Str)
  deriving DecidableEq

/-- The place an event fills, or competes for. -/
def viewSlot (event : Pdu) : Option ViewSlot :=
  if event.kind = roomCreate then some .create
  else if event.kind = roomPowerLevels then some .powerLevels
  else if event.kind = roomJoinRules then some .joinRules
  else if event.kind = roomMember then (memberEntry event).map fun entry => .member entry.1
  else (inviteEntry event).map fun entry => .invite entry.1

/-- Whether the last event counts, rather than the first. -/
def ViewSlot.lastCounts : ViewSlot → Bool
  | .create | .powerLevels | .joinRules => true
  | .member _ | .invite _ => false

/-- The events that compete for a place, in order. -/
def rivals (place : ViewSlot) (state : List Pdu) : List Pdu :=
  state.filter fun event => viewSlot event = some place

/-- The event that counts. -/
def filler (state : List Pdu) (place : ViewSlot) : Option Pdu :=
  if place.lastCounts then (rivals place state).getLast? else (rivals place state).head?

section

variable {state state' pick : List Pdu} {event : Pdu} {place : ViewSlot}

theorem mem_rivals : event ∈ rivals place state ↔ event ∈ state ∧ viewSlot event = some place := by
  simp [rivals]

theorem mem_of_filler (h : filler state place = some event) :
    event ∈ state ∧ viewSlot event = some place := by
  rw [← mem_rivals]
  unfold filler at h
  split at h
  · exact List.mem_of_getLast? h
  · exact List.mem_of_mem_head? h

theorem filler_eq_none_iff : filler state place = none ↔ ∀ event ∈ state, viewSlot event ≠ some place := by
  have hnil : filler state place = none ↔ rivals place state = [] := by
    unfold filler
    split
    · exact List.getLast?_eq_none_iff
    · exact List.head?_eq_none_iff
  rw [hnil, rivals, List.filter_eq_nil_iff]
  simp

/-- An event without a rival counts. -/
theorem filler_of_unrivalled (hmem : event ∈ state) (hplace : viewSlot event = some place)
    (hone : ∀ rival ∈ state, viewSlot rival = some place → rival = event) :
    filler state place = some event := by
  cases h : filler state place with
  | none => exact absurd hplace (filler_eq_none_iff.mp h event hmem)
  | some found =>
      obtain ⟨hfound, hslot⟩ := mem_of_filler h
      rw [hone found hfound hslot]

theorem viewSlot_singleton {kind : Str} {place : ViewSlot}
    (h : (kind, place) ∈ [(roomCreate, ViewSlot.create), (roomPowerLevels, .powerLevels),
      (roomJoinRules, .joinRules)]) :
    viewSlot event = some place ↔ event.kind = kind := by
  unfold viewSlot
  simp only [List.mem_cons, Prod.mk.injEq, List.not_mem_nil, or_false] at h
  rcases h with ⟨rfl, rfl⟩ | ⟨rfl, rfl⟩ | ⟨rfl, rfl⟩
  · by_cases hc : event.kind = roomCreate
    · simp [hc]
    · simp only [hc, if_false, iff_false]
      split_ifs <;> simp
  · by_cases hp : event.kind = roomPowerLevels
    · simp [hp]
    · simp only [hp, if_false, iff_false]
      split_ifs <;> simp
  · by_cases hj : event.kind = roomJoinRules
    · simp [hj]
    · simp only [hj, if_false, iff_false]
      split_ifs <;> simp

theorem viewSlot_member {user : Str} :
    viewSlot event = some (.member user) ↔ ∃ membership, memberEntry event = some (user, membership) := by
  unfold viewSlot
  by_cases hm : event.kind = roomMember
  · cases he : memberEntry event with
    | none => simp [hm]
    | some entry => simp [hm, Prod.ext_iff]
  · rw [memberEntry_of_ne hm]
    simp only [hm, if_false]
    split_ifs <;> simp

theorem viewSlot_invite {token : Str} :
    viewSlot event = some (.invite token) ↔ ∃ key, inviteEntry event = some (token, key) := by
  unfold viewSlot
  by_cases hi : event.kind = roomThirdPartyInvite
  · cases he : inviteEntry event with
    | none => simp [hi]
    | some entry => simp [hi, Prod.ext_iff]
  · rw [inviteEntry_of_ne hi]
    split_ifs <;> simp

/-- A type that is read as a whole is read from the event that counts. -/
theorem lastOfKind_eq_filler {kind : Str} {place : ViewSlot}
    (h : (kind, place) ∈ [(roomCreate, ViewSlot.create), (roomPowerLevels, .powerLevels),
      (roomJoinRules, .joinRules)]) :
    lastOfKind kind state = filler state place := by
  have hlast : place.lastCounts = true := by
    simp only [List.mem_cons, Prod.mk.injEq, List.not_mem_nil, or_false] at h
    rcases h with ⟨-, rfl⟩ | ⟨-, rfl⟩ | ⟨-, rfl⟩
    · rfl
    · rfl
    · rfl
  rw [filler, if_pos hlast, lastOfKind, rivals]
  simp only [viewSlot_singleton h]

/-- What is read by a key is read from the first event that has it. -/
theorem lookup_eq_filler {entry : Pdu → Option (Str × Str)} {key : Str} {place : ViewSlot}
    (hfirst : place.lastCounts = false)
    (h : ∀ event, viewSlot event = some place ↔ ∃ value, entry event = some (key, value)) :
    (state.filterMap entry).lookup key = ((filler state place).bind entry).map Prod.snd := by
  rw [filler, if_neg (by simp [hfirst])]
  induction state with
  | nil => rfl
  | cons event state ih =>
      rw [rivals, List.filter_cons, List.filterMap_cons]
      by_cases hslot : viewSlot event = some place
      · obtain ⟨value, hvalue⟩ := (h event).mp hslot
        simp [hslot, hvalue]
      · simp only [hslot, decide_false, Bool.false_eq_true, if_false]
        rw [← rivals, ← ih]
        cases he : entry event with
        | none => rfl
        | some pair =>
            have hne : key ≠ pair.1 := by
              rintro rfl
              exact hslot ((h event).mpr ⟨pair.2, he⟩)
            rw [List.lookup_cons, beq_false_of_ne hne]

/-- Views that answer every question alike lead to the same verdict. -/
theorem checkAuthView_of_answers (verifyB64 : VerifyB64) (event : Pdu) {view view' : AuthView}
    (hcreate : view.create = view'.create) (hlevels : view.powerLevels = view'.powerLevels)
    (hrules : view.joinRules = view'.joinRules) (hmembers : view.membership = view'.membership)
    (hkeys : view.thirdPartyPublicKey = view'.thirdPartyPublicKey) :
    checkAuthView verifyB64 event view = checkAuthView verifyB64 event view' := by
  have hcreator : view.creator = view'.creator := by rw [AuthView.creator, hcreate, AuthView.creator]
  have hlevel : view.level = view'.level := by
    funext key default
    rw [AuthView.level, hlevels, AuthView.level]
  have hevent : view.eventLevel = view'.eventLevel := by
    funext kind isState
    simp only [AuthView.eventLevel, AuthView.stateDefault, AuthView.eventsDefault, hlevels, hlevel]
  have hpower : view.powerLevel = view'.powerLevel := by
    funext user
    simp only [AuthView.powerLevel, hlevels, hcreator]
  have hrule : view.joinRule = view'.joinRule := by rw [AuthView.joinRule, hrules, AuthView.joinRule]
  have hmember : checkMemberAuth verifyB64 event view = checkMemberAuth verifyB64 event view' := by
    unfold checkMemberAuth restrictedJoinAuthorised thirdPartyInviteIsValid AuthView.inviteLevel
      AuthView.kickLevel AuthView.banLevel
    rw [hcreator, hlevel, hpower, hrule, hmembers, hkeys]
  unfold checkAuthView AuthView.redactLevel
  rw [hcreate, hmember, hmembers, hlevel, hpower, hevent]

/-- The verdict reads the events that count and no others. -/
theorem checkAuth_of_filler (verifyB64 : VerifyB64) (event : Pdu)
    (h : ∀ place, filler state place = filler state' place) :
    checkAuth verifyB64 event state = checkAuth verifyB64 event state' := by
  apply checkAuthView_of_answers
  · simp only [AuthView.new_eq,
      @lastOfKind_eq_filler _ roomCreate .create (by simp), h]
  · simp only [AuthView.new_eq,
      @lastOfKind_eq_filler _ roomPowerLevels .powerLevels (by simp), h]
  · simp only [AuthView.new_eq,
      @lastOfKind_eq_filler _ roomJoinRules .joinRules (by simp), h]
  · funext user
    simp only [AuthView.membership, AuthView.new_eq,
      @lookup_eq_filler _ memberEntry user (.member user) rfl fun _ => viewSlot_member, h]
  · funext token
    simp only [AuthView.thirdPartyPublicKey, AuthView.new_eq,
      @lookup_eq_filler _ inviteEntry token (.invite token) rfl fun _ => viewSlot_invite, h]

end

/-! ## One event for each place -/

/-- A choice of one event for each place that the events of `state` compete for. -/
structure IsPick (state pick : List Pdu) : Prop where
  among : pick ⊆ state
  one : ∀ event ∈ pick, ∀ rival ∈ pick, ∀ place, viewSlot event = some place →
    viewSlot rival = some place → rival = event
  every : ∀ event ∈ state, ∀ place, viewSlot event = some place →
    ∃ chosen ∈ pick, viewSlot chosen = some place

section

variable {state state' pick : List Pdu} {place : ViewSlot}

theorem IsPick.of_mem_iff (h : IsPick state pick) (hmem : ∀ event, event ∈ state ↔ event ∈ state') :
    IsPick state' pick where
  among := fun event hevent => (hmem event).mp (h.among hevent)
  one := h.one
  every := fun event hevent => h.every event ((hmem event).mpr hevent)

/-- A pick has an event in a place exactly when the state does, and that event counts. -/
theorem IsPick.filler (h : IsPick state pick) {event : Pdu} (hevent : event ∈ pick)
    (hplace : viewSlot event = some place) : filler pick place = some event :=
  filler_of_unrivalled hevent hplace fun rival hrival hslot =>
    h.one event hevent rival hrival place hplace hslot

theorem IsPick.filler_eq_none_iff (h : IsPick state pick) :
    StateRes.filler pick place = none ↔ StateRes.filler state place = none := by
  rw [StateRes.filler_eq_none_iff, StateRes.filler_eq_none_iff]
  constructor
  · intro hnone event hevent hslot
    obtain ⟨chosen, hchosen, hplace⟩ := h.every event hevent place hslot
    exact hnone chosen hchosen hplace
  · exact fun hnone event hevent => hnone event (h.among hevent)

/-- The events that count. -/
def fillers (state : List Pdu) : List Pdu :=
  state.filter fun event => ((viewSlot event).bind (filler state)) = some event

theorem mem_fillers {event : Pdu} :
    event ∈ fillers state ↔ ∃ place, filler state place = some event := by
  rw [fillers, List.mem_filter, decide_eq_true_eq]
  constructor
  · rintro ⟨-, h⟩
    obtain ⟨place, -, hplace⟩ := Option.bind_eq_some_iff.mp h
    exact ⟨place, hplace⟩
  · rintro ⟨place, hplace⟩
    obtain ⟨hmem, hslot⟩ := mem_of_filler hplace
    exact ⟨hmem, by rw [hslot]; exact hplace⟩

/-- The events that count are a pick. -/
theorem isPick_fillers (state : List Pdu) : IsPick state (fillers state) where
  among := List.filter_subset_self _
  one := by
    intro event hevent rival hrival place hslot hrivalSlot
    have hcounts : ∀ counted ∈ fillers state, viewSlot counted = some place →
        filler state place = some counted := by
      intro counted hcounted hplace
      obtain ⟨place', hplace'⟩ := mem_fillers.mp hcounted
      obtain ⟨-, hslot'⟩ := mem_of_filler hplace'
      obtain rfl := Option.some.inj (hplace.symm.trans hslot')
      exact hplace'
    have heq := (hcounts rival hrival hrivalSlot).symm.trans (hcounts event hevent hslot)
    exact Option.some.inj heq
  every := by
    intro event hevent place hslot
    cases h : filler state place with
    | none => exact absurd hslot (filler_eq_none_iff.mp h event hevent)
    | some chosen => exact ⟨chosen, mem_fillers.mpr ⟨place, h⟩, (mem_of_filler h).2⟩

theorem filler_fillers (state : List Pdu) (place : ViewSlot) :
    filler (fillers state) place = filler state place := by
  have hpick := isPick_fillers state
  cases h : filler state place with
  | none => exact hpick.filler_eq_none_iff.mpr h
  | some event => exact hpick.filler (mem_fillers.mpr ⟨place, h⟩) (mem_of_filler h).2

/-- No two events compete for a place. -/
def Uncontested (state : List Pdu) : Prop :=
  ∀ event ∈ state, ∀ rival ∈ state, ∀ place, viewSlot event = some place →
    viewSlot rival = some place → rival = event

/-- Where nothing is contested every pick counts alike. -/
theorem Uncontested.filler_pick (h : Uncontested state) (hpick : IsPick state pick)
    (place : ViewSlot) : filler pick place = filler state place := by
  cases hfiller : filler state place with
  | none => exact hpick.filler_eq_none_iff.mpr hfiller
  | some event =>
      obtain ⟨hmem, hslot⟩ := mem_of_filler hfiller
      obtain ⟨chosen, hchosen, hplace⟩ := hpick.every event hmem place hslot
      rw [hpick.filler hchosen hplace, h event hmem chosen (hpick.among hchosen) place hslot hplace]

end

/-! ## Listing the citations for a pick -/

/-- When an event has to be listed for the pick to count: first, in between or last. -/
def listingTurn (pick : List Pdu) (event : Pdu) : Nat :=
  if event ∉ pick then 1 else if (viewSlot event).any (·.lastCounts) then 2 else 0

/-- The citations in the order in which the picked events count. -/
def listedFor (byId : PduMap) (pick : List Pdu) (ids : List EventId) : List EventId :=
  sortByKey (fun id => ((byId.get id).map (listingTurn pick)).getD 1) ids

section

variable {byId : PduMap} {pick : List Pdu} {event : Pdu} {place : ViewSlot} {ids : List EventId}

theorem listingTurn_of_mem (hmem : event ∈ pick) (hslot : viewSlot event = some place) :
    listingTurn pick event = if place.lastCounts then 2 else 0 := by
  simp [listingTurn, hmem, hslot]

theorem mem_of_listingTurn (h : listingTurn pick event ≠ 1) : event ∈ pick := by
  by_contra hno
  exact h (if_pos hno)

theorem pairwise_listedFor :
    ((listedFor byId pick ids).filterMap byId.get).Pairwise
      (fun a b => listingTurn pick a ≤ listingTurn pick b) := by
  rw [List.pairwise_filterMap]
  apply (pairwise_sortByKey ids).imp
  intro id id' hle event hevent event' hevent'
  simpa [hevent, hevent'] using hle

/-- Among sorted events the last has the greatest turn and the first the least. -/
theorem listingTurn_filler {state : List Pdu}
    (hsorted : state.Pairwise (fun a b => listingTurn pick a ≤ listingTurn pick b)) {found : Pdu}
    (hfound : filler state place = some found) (hmem : event ∈ state)
    (hslot : viewSlot event = some place) :
    if place.lastCounts then listingTurn pick event ≤ listingTurn pick found
    else listingTurn pick found ≤ listingTurn pick event := by
  have hrival : event ∈ rivals place state := mem_rivals.mpr ⟨hmem, hslot⟩
  have hpair : (rivals place state).Pairwise
      (fun a b => listingTurn pick a ≤ listingTurn pick b) := hsorted.filter _
  unfold filler at hfound
  split_ifs with hlast
  · rw [if_pos hlast] at hfound
    obtain ⟨front, hfront⟩ := List.getLast?_eq_some_iff.mp hfound
    rw [hfront] at hrival hpair
    rcases List.mem_append.mp hrival with h | h
    · exact (List.pairwise_append.mp hpair).2.2 event h found (by simp)
    · rw [List.mem_singleton.mp h]
  · rw [if_neg hlast] at hfound
    obtain ⟨rest, hrest⟩ := List.head?_eq_some_iff.mp hfound
    rw [hrest] at hrival hpair
    rcases List.mem_cons.mp hrival with rfl | h
    · exact le_rfl
    · exact (List.pairwise_cons.mp hpair).1 event h

/-- Listed for a pick, the citations let the picked events count. -/
theorem filler_listedFor (h : IsPick (ids.filterMap byId.get) pick) (place : ViewSlot) :
    filler ((listedFor byId pick ids).filterMap byId.get) place = filler pick place := by
  have hperm : ((listedFor byId pick ids).filterMap byId.get).Perm (ids.filterMap byId.get) :=
    (perm_sortByKey ids).filterMap _
  have hpick : IsPick ((listedFor byId pick ids).filterMap byId.get) pick :=
    h.of_mem_iff fun _ => hperm.symm.mem_iff
  cases hfound : filler ((listedFor byId pick ids).filterMap byId.get) place with
  | none => exact (hpick.filler_eq_none_iff.mpr hfound).symm
  | some found =>
      obtain ⟨hmem, hslot⟩ := mem_of_filler hfound
      obtain ⟨chosen, hchosen, hplace⟩ := hpick.every found hmem place hslot
      have hturn := listingTurn_filler pairwise_listedFor hfound (hpick.among hchosen) hplace
      have hin : found ∈ pick := by
        apply mem_of_listingTurn
        rw [listingTurn_of_mem hchosen hplace] at hturn
        split_ifs at hturn with hlast
        · omega
        · omega
      exact (hpick.filler hin hslot).symm

end

/-! ## The verdict over the chain -/

/-- Why the chain refuses an event before the rules are asked. -/
def chainError (kind : Str) (ids : List EventId) (byId : PduMap) : Option AuthError :=
  let chain := authChain ids byId
  if ∃ id ∈ chain, byId.get id = none then some .missingAuthEvent
  else if kind ≠ roomCreate ∧ ∀ id ∈ chain, ∀ p ∈ byId.get id, p.kind ≠ roomCreate then
    some .noCreateEvent
  else none

section

variable {verifyB64 : VerifyB64} {event : Pdu} {byId : PduMap} {ids ids' : List EventId}

theorem checkAuthWithChain_eq_chainError (verifyB64 : VerifyB64) (event : Pdu) (byId : PduMap)
    (ids : List EventId) :
    checkAuthWithChain verifyB64 { event with authEvents := ids } byId =
      match chainError event.kind ids byId with
      | some error => .error error
      | none => checkAuth verifyB64 event (ids.filterMap byId.get) := by
  have hmissing : (authChain ids byId).any (fun id => (byId.get id).isNone) = true ↔
      ∃ id ∈ authChain ids byId, byId.get id = none := by
    simp
  have hcreate : ((authChain ids byId).filterMap byId.get).any (fun p => p.kind = roomCreate) = true ↔
      ¬ ∀ id ∈ authChain ids byId, ∀ p ∈ byId.get id, p.kind ≠ roomCreate := by
    simp only [List.any_eq_true, List.mem_filterMap, decide_eq_true_eq]
    push Not
    constructor
    · rintro ⟨p, ⟨id, hid, hp⟩, hkind⟩
      exact ⟨id, hid, p, hp, hkind⟩
    · rintro ⟨id, hid, p, hp, hkind⟩
      exact ⟨p, ⟨id, hid, hp⟩, hkind⟩
  simp only [checkAuthWithChain, chainError, hmissing, hcreate, not_not]
  split_ifs
  · rfl
  · rfl
  · rfl

theorem chainError_perm (kind : Str) (h : ids.Perm ids') :
    chainError kind ids byId = chainError kind ids' byId := by
  have hmem : ∀ id, id ∈ authChain ids byId ↔ id ∈ authChain ids' byId := by
    intro id
    simp only [mem_authChain_iff, h.mem_iff]
  simp only [chainError, hmem]

/-- The verdict over the chain does not depend on the order of the citations exactly when the chain
refuses the event, or the rules give the same verdict whichever of the cited events that compete for a
place fills it.  It does not where no place is contested. -/
theorem chain_verdict_order_free_iff (verifyB64 : VerifyB64) (event : Pdu) (byId : PduMap) :
    ((∀ ids, ids.Perm event.authEvents →
        checkAuthWithChain verifyB64 { event with authEvents := ids } byId =
          checkAuthWithChain verifyB64 event byId) ↔
      chainError event.kind event.authEvents byId ≠ none ∨
        ∀ pick pick', IsPick (citedEvents event byId) pick → IsPick (citedEvents event byId) pick' →
          checkAuth verifyB64 event pick = checkAuth verifyB64 event pick') ∧
    (Uncontested (citedEvents event byId) → ∀ ids, ids.Perm event.authEvents →
      checkAuthWithChain verifyB64 { event with authEvents := ids } byId =
        checkAuthWithChain verifyB64 event byId) := by
  have hiff : (∀ ids, ids.Perm event.authEvents →
        checkAuthWithChain verifyB64 { event with authEvents := ids } byId =
          checkAuthWithChain verifyB64 event byId) ↔
      chainError event.kind event.authEvents byId ≠ none ∨
        ∀ pick pick', IsPick (citedEvents event byId) pick → IsPick (citedEvents event byId) pick' →
          checkAuth verifyB64 event pick = checkAuth verifyB64 event pick' := by
    have hown := checkAuthWithChain_eq_chainError verifyB64 event byId event.authEvents
    cases herror : chainError event.kind event.authEvents byId with
    | some error =>
        refine iff_of_true (fun ids hperm => ?_) (.inl (by simp))
        rw [checkAuthWithChain_eq_chainError, chainError_perm event.kind hperm, herror]
        rw [herror] at hown
        exact hown.symm
    | none =>
        rw [herror] at hown
        have hlisted : ∀ ids, ids.Perm event.authEvents →
            checkAuthWithChain verifyB64 { event with authEvents := ids } byId =
              checkAuth verifyB64 event (ids.filterMap byId.get) := by
          intro ids hperm
          rw [checkAuthWithChain_eq_chainError, chainError_perm event.kind hperm, herror]
        simp only [ne_eq, not_true_eq_false, false_or]
        constructor
        · -- each pick is what the citations give in some order
          intro h pick pick' hpick hpick'
          have hgiven : ∀ pick, IsPick (citedEvents event byId) pick →
              checkAuth verifyB64 event pick = checkAuthWithChain verifyB64 event byId := by
            intro pick hpick
            have hperm : (listedFor byId pick event.authEvents).Perm event.authEvents :=
              perm_sortByKey _
            rw [← h _ hperm, hlisted _ hperm]
            exact checkAuth_of_filler verifyB64 event fun place => (filler_listedFor hpick place).symm
          rw [hgiven pick hpick, hgiven pick' hpick']
        · -- the events that count in some order are a pick
          intro h ids hperm
          have hpicks : ∀ ids : List EventId, ids.Perm event.authEvents →
              IsPick (citedEvents event byId) (fillers (ids.filterMap byId.get)) := fun ids hperm =>
            (isPick_fillers _).of_mem_iff fun _ => (hperm.filterMap byId.get).mem_iff
          have hsame := h _ _ (hpicks ids hperm) (hpicks event.authEvents (.refl _))
          rw [hlisted ids hperm]
          refine Eq.trans ?_ hown.symm
          rw [← checkAuth_of_filler verifyB64 event (filler_fillers (ids.filterMap byId.get)), hsame]
          exact checkAuth_of_filler verifyB64 event (filler_fillers _)
  refine ⟨hiff, fun hfree => hiff.mpr (.inr fun pick pick' hpick hpick' => ?_)⟩
  apply checkAuth_of_filler
  intro place
  rw [hfree.filler_pick hpick, hfree.filler_pick hpick']

end

namespace Sample

/-- A message of Bob that cites the room's create event, and his join before his ban. -/
def bobMessage : Pdu :=
  { stateEvent 'm' bob "m.room.message" [] 3 (content "body" "x") with
    stateKey := none
    authEvents := [eventId 'c', eventId 'j', eventId 'b'] }

end Sample

open Sample

/-- Bob's message passes when it lists his join first, and fails when it lists his ban first. -/
theorem verdict_depends_on_citation_order :
    ¬ ∀ (verifyB64 : VerifyB64) (event : Pdu) (byId : PduMap) (ids : List EventId),
      ids.Perm event.authEvents →
        checkAuthWithChain verifyB64 { event with authEvents := ids } byId =
          checkAuthWithChain verifyB64 event byId := by
  intro h
  have hbob := h noSignature bobMessage (pduMap [create, bobJoin, bobBan])
    [eventId 'c', eventId 'b', eventId 'j'] (by decide)
  revert hbob
  decide +kernel

end GaussMatrix.StateRes
