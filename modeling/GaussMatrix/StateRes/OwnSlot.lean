import GaussMatrix.StateRes.Resolve
import GaussMatrix.StateRes.Rules

/-!
# The hidden slot

An event is applied against the partial state without its own slot.  What the rules then no longer
see is the event's own predecessor: for a membership event the target's current membership, for
power levels the levels in force.
-/

namespace GaussMatrix.StateRes

open Library Util Api Api.Events

variable {verifyB64 : VerifyB64} {lookup : EventId → Option Pdu} {state : StateMap}

/-- The view of a state. -/
def viewOf (lookup : EventId → Option Pdu) (state : StateMap) : AuthView :=
  AuthView.new (stateEvents lookup state)

/-! ## The view without a slot -/

theorem lastOfKind_filter_slot {kind kind' stateKey : Str} (h : kind' ≠ kind) (l : List Pdu) :
    lastOfKind kind' (l.filter (fun pdu => stateSlot pdu ≠ some (slot kind stateKey))) =
      lastOfKind kind' l := by
  have hkeep : ∀ pdu : Pdu, (pdu.kind = kind' ∧ stateSlot pdu ≠ some (slot kind stateKey)) ↔
      pdu.kind = kind' := by
    intro pdu
    refine ⟨fun hp => hp.1, fun hp => ⟨hp, fun hs => ?_⟩⟩
    exact h (hp.symm.trans (stateSlot_eq_some_iff.mp hs).1)
  rw [lastOfKind, lastOfKind, List.filter_filter]
  congr 1
  apply List.filter_congr
  intro pdu _
  rw [← Bool.decide_and, decide_eq_decide]
  exact hkeep pdu

theorem filterMap_filter_slot {kind stateKey : Str} {entry : Pdu → Option (Str × Str)}
    (h : ∀ pdu : Pdu, pdu.kind = kind → entry pdu = none) (l : List Pdu) :
    (l.filter (fun pdu => stateSlot pdu ≠ some (slot kind stateKey))).filterMap entry =
      l.filterMap entry := by
  induction l with
  | nil => rfl
  | cons pdu l ih =>
      rw [List.filter_cons, List.filterMap_cons]
      split
      · rw [List.filterMap_cons, ih]
      · rename_i hs
        have hslot : stateSlot pdu = some (slot kind stateKey) := by simpa using hs
        rw [h pdu (stateSlot_eq_some_iff.mp hslot).1, ih]

theorem viewOf_erase_create (h : WellSlotted lookup state) {kind : Str} (stateKey : Str)
    (hk : kind ≠ roomCreate) :
    (viewOf lookup (state.erase (slot kind stateKey))).create = (viewOf lookup state).create := by
  simp only [viewOf, AuthView.new_eq, h.stateEvents_erase]
  exact lastOfKind_filter_slot hk.symm _

theorem viewOf_erase_powerLevels (h : WellSlotted lookup state) {kind : Str} (stateKey : Str)
    (hk : kind ≠ roomPowerLevels) :
    (viewOf lookup (state.erase (slot kind stateKey))).powerLevels =
      (viewOf lookup state).powerLevels := by
  simp only [viewOf, AuthView.new_eq, h.stateEvents_erase]
  rw [lastOfKind_filter_slot hk.symm]

theorem viewOf_erase_joinRules (h : WellSlotted lookup state) {kind : Str} (stateKey : Str)
    (hk : kind ≠ roomJoinRules) :
    (viewOf lookup (state.erase (slot kind stateKey))).joinRules =
      (viewOf lookup state).joinRules := by
  simp only [viewOf, AuthView.new_eq, h.stateEvents_erase]
  rw [lastOfKind_filter_slot hk.symm]

theorem viewOf_erase_members (h : WellSlotted lookup state) {kind : Str} (stateKey : Str)
    (hk : kind ≠ roomMember) :
    (viewOf lookup (state.erase (slot kind stateKey))).members = (viewOf lookup state).members := by
  simp only [viewOf, AuthView.new_eq, h.stateEvents_erase]
  exact filterMap_filter_slot (fun pdu hp => memberEntry_of_ne (hp ▸ hk)) _

theorem viewOf_erase_thirdPartyInvites (h : WellSlotted lookup state) {kind : Str}
    (stateKey : Str) (hk : kind ≠ roomThirdPartyInvite) :
    (viewOf lookup (state.erase (slot kind stateKey))).thirdPartyInvites =
      (viewOf lookup state).thirdPartyInvites := by
  simp only [viewOf, AuthView.new_eq, h.stateEvents_erase]
  exact filterMap_filter_slot (fun pdu hp => inviteEntry_of_ne (hp ▸ hk)) _

/-- Hiding a member slot hides that membership and nothing else. -/
theorem viewOf_erase_member (h : WellSlotted lookup state) (user : Str) :
    ∃ members, viewOf lookup (state.erase (slot roomMember user)) =
        { viewOf lookup state with members } ∧
      members.lookup user = none ∧
      ∀ other, other ≠ user → members.lookup other = (viewOf lookup state).membership other := by
  refine ⟨(viewOf lookup (state.erase (slot roomMember user))).members, ?_, ?_, ?_⟩
  · ext1
    · exact viewOf_erase_create h user (by simp)
    · exact viewOf_erase_powerLevels h user (by simp)
    · exact viewOf_erase_joinRules h user (by simp)
    · rfl
    · exact viewOf_erase_thirdPartyInvites h user (by simp)
  · have hm := (h.erase (slot roomMember user)).membership user
    rw [SortedMap.get_erase, if_pos rfl] at hm
    exact hm
  · intro other hne
    have hm := (h.erase (slot roomMember user)).membership other
    rw [SortedMap.get_erase, if_neg (by simp [slot_inj, hne]), ← h.membership] at hm
    exact hm

/-! ## The verdict without the own slot -/

/-- The verdict an application step asks for: against the state without the slot of the event. -/
def hiddenVerdict (verifyB64 : VerifyB64) (lookup : EventId → Option Pdu) (state : StateMap)
    (event : Pdu) (key : StateKey) : Except AuthError Unit :=
  checkAuth verifyB64 event (stateEvents lookup (state.erase key))

/-- The verdict over the whole partial state. -/
def fullVerdict (verifyB64 : VerifyB64) (lookup : EventId → Option Pdu) (state : StateMap)
    (event : Pdu) : Except AuthError Unit :=
  checkAuth verifyB64 event (stateEvents lookup state)

/-- A restricted rule and someone other than the user themselves who vouches for the join. -/
def VouchedByAnother (event : Pdu) (view : AuthView) (user : Str) : Prop :=
  view.RestrictedRule ∧ restrictedJoinAuthorised event view = true ∧
    event.contentStr "join_authorised_via_users_server" ≠ some user

/-- What a join, invite or knock of `user` needs when their current membership is not looked at. -/
def Admits (verifyB64 : VerifyB64) (event : Pdu) (view : AuthView) (user : Str) : Prop :=
  (event.contentStr "membership" = some "join".toList ∧ user = event.sender.asStr ∧
      (view.creator = some event.sender.asStr ∨ view.joinRule = "public".toList ∨
        VouchedByAnother event view user)) ∨
    (event.contentStr "membership" = some "invite".toList ∧ user ≠ event.sender.asStr ∧
      view.membership event.sender.asStr = some "join".toList ∧
      (thirdPartyInviteIsValid verifyB64 event view = true ∨
        view.inviteLevel ≤ view.powerLevel event.sender.asStr)) ∨
    (event.contentStr "membership" = some "knock".toList ∧ user = event.sender.asStr ∧
      view.KnockRule)

/-- An event that would bring a user in: a join, an invite or a knock for them. -/
def BringsIn (event : Pdu) (user : Str) : Prop :=
  event.kind = roomMember ∧ event.stateKey = some user ∧
    (event.contentStr "membership" = some "join".toList ∨
      event.contentStr "membership" = some "invite".toList ∨
      event.contentStr "membership" = some "knock".toList)

section Hidden

variable {event : Pdu} {view : AuthView} {user : Str} {members : List (Str × Str)}
  (hnone : members.lookup user = none)
  (hsame : ∀ other, other ≠ user → members.lookup other = view.membership other)

include hnone

theorem knockAllowed_hidden :
    KnockAllowed event { view with members } user ↔
      user = event.sender.asStr ∧ view.KnockRule := by
  have hu : AuthView.membership { view with members } user = none := hnone
  unfold KnockAllowed
  rw [hu]
  exact ⟨fun h => ⟨h.1, h.2.1⟩, fun h => ⟨h.1, h.2, nofun, nofun⟩⟩

include hsame

theorem restrictedJoinAuthorised_hidden :
    restrictedJoinAuthorised event { view with members } = true ↔
      restrictedJoinAuthorised event view = true ∧
        event.contentStr "join_authorised_via_users_server" ≠ some user := by
  unfold restrictedJoinAuthorised
  cases event.contentStr "join_authorised_via_users_server" with
  | none => simp
  | some authoriser =>
      change decide (members.lookup authoriser = some "join".toList ∧
        view.inviteLevel ≤ view.powerLevel authoriser) = true ↔ _
      by_cases hu : authoriser = user
      · rw [hu, hnone]
        simp
      · rw [hsame authoriser hu]
        simp [hu]

theorem joinAllowed_hidden :
    JoinAllowed event { view with members } user ↔
      user = event.sender.asStr ∧
        (view.creator = some event.sender.asStr ∨ view.joinRule = "public".toList ∨
          VouchedByAnother event view user) := by
  have hu : AuthView.membership { view with members } user = none := hnone
  unfold JoinAllowed VouchedByAnother
  rw [hu, restrictedJoinAuthorised_hidden hnone hsame]
  constructor
  · rintro ⟨hself, -, ⟨h, -⟩ | h | h | h⟩
    · exact ⟨hself, .inl h⟩
    · exact absurd h nofun
    · exact ⟨hself, .inr (.inl h)⟩
    · exact ⟨hself, .inr (.inr h)⟩
  · rintro ⟨hself, h | h | h⟩
    · exact ⟨hself, nofun, .inl ⟨h, rfl⟩⟩
    · exact ⟨hself, nofun, .inr (.inr (.inl h))⟩
    · exact ⟨hself, nofun, .inr (.inr (.inr h))⟩

theorem inviteAllowed_hidden :
    InviteAllowed verifyB64 event { view with members } user ↔
      user ≠ event.sender.asStr ∧ view.membership event.sender.asStr = some "join".toList ∧
        (thirdPartyInviteIsValid verifyB64 event view = true ∨
          view.inviteLevel ≤ view.powerLevel event.sender.asStr) := by
  have hu : AuthView.membership { view with members } user = none := hnone
  unfold InviteAllowed
  rw [hu]
  by_cases hself : user = event.sender.asStr
  · rw [← hself, hu]
    exact iff_of_false (fun h => absurd h.1 nofun) (fun h => h.1 rfl)
  · have hs : AuthView.membership { view with members } event.sender.asStr =
        view.membership event.sender.asStr := hsame _ (Ne.symm hself)
    rw [hs]
    constructor
    · rintro ⟨hjoin, -, -, h⟩
      exact ⟨hself, hjoin, h⟩
    · rintro ⟨-, hjoin, h⟩
      exact ⟨hjoin, nofun, nofun, h⟩

omit hnone in
theorem outranks_hidden (level : Int) :
    Outranks event { view with members } user level ↔ Outranks event view user level := by
  by_cases hself : event.sender.asStr = user
  · -- nobody outranks themselves
    refine iff_of_false (fun h => ?_) (fun h => ?_)
    · exact absurd (hself ▸ h.2.2) (lt_irrefl _)
    · exact absurd (hself ▸ h.2.2) (lt_irrefl _)
  · have hs : AuthView.membership { view with members } event.sender.asStr =
        view.membership event.sender.asStr := hsame _ hself
    unfold Outranks
    rw [hs]
    rfl

/-- Without the target's membership, a join, invite or knock is judged by the rest of the view. -/
theorem checkMemberAuth_hidden (hin : BringsIn event user) :
    checkMemberAuth verifyB64 event { view with members } = .ok () ↔
      Admits verifyB64 event view user := by
  obtain ⟨-, hkey, hm | hm | hm⟩ := hin
  · rw [checkMemberAuth_join hkey hm, joinAllowed_hidden hnone hsame, Admits, hm]
    have h₁ : (some "join".toList : Option Str) ≠ some "invite".toList := by decide
    have h₂ : (some "join".toList : Option Str) ≠ some "knock".toList := by decide
    simp only [h₁, h₂, true_and, false_and, or_false]
  · rw [checkMemberAuth_invite hkey hm, inviteAllowed_hidden hnone hsame, Admits, hm]
    have h₁ : (some "invite".toList : Option Str) ≠ some "join".toList := by decide
    have h₂ : (some "invite".toList : Option Str) ≠ some "knock".toList := by decide
    simp only [h₁, h₂, true_and, false_and, or_false, false_or]
  · rw [checkMemberAuth_knock hkey hm, knockAllowed_hidden hnone, Admits, hm]
    have h₁ : (some "knock".toList : Option Str) ≠ some "join".toList := by decide
    have h₂ : (some "knock".toList : Option Str) ≠ some "invite".toList := by decide
    simp only [h₁, h₂, true_and, false_and, false_or]

end Hidden

theorem hiddenVerdict_bringsIn (h : WellSlotted lookup state) {event : Pdu} {user : Str}
    (hin : BringsIn event user) :
    hiddenVerdict verifyB64 lookup state event (slot roomMember user) = .ok () ↔
      (viewOf lookup state).create ≠ none ∧
        Admits verifyB64 event (viewOf lookup state) user := by
  obtain ⟨members, hview, hnone, hsame⟩ := viewOf_erase_member h user
  change checkAuthView verifyB64 event (viewOf lookup (state.erase _)) = .ok () ↔ _
  rw [checkAuthView_member hin.1, hview, checkMemberAuth_hidden hnone hsame hin]

/-! ## What the own slot decides -/

/-- A self-join that only the user's own member slot authorises: by the invite in it, or, under a
restricted rule, by naming the joined user themselves as the one who vouches. -/
def RestsOnMembership (event : Pdu) (view : AuthView) (user : Str) : Prop :=
  (view.membership user = some "invite".toList ∨
      view.RestrictedRule ∧ restrictedJoinAuthorised event view = true) ∧
    view.creator ≠ some user ∧ view.joinRule ≠ "public".toList ∧ ¬ VouchedByAnother event view user

/-- An event whose verdict rests on its own slot: such a join, or new power levels whose sender has
not the power for them under the levels that are left without the slot. -/
def RestsOnOwnSlot (lookup : EventId → Option Pdu) (state : StateMap) (event : Pdu)
    (key : StateKey) : Prop :=
  (event.kind = roomMember ∧ event.contentStr "membership" = some "join".toList ∧
      ∃ user, event.stateKey = some user ∧
        RestsOnMembership event (viewOf lookup state) user) ∨
    (event.kind = roomPowerLevels ∧
      (viewOf lookup (state.erase key)).powerLevel event.sender.asStr <
        (viewOf lookup (state.erase key)).eventLevel roomPowerLevels true)

theorem viewOf_erase_create_eq_none (h : WellSlotted lookup state) (key : StateKey)
    (hnone : (viewOf lookup state).create = none) :
    (viewOf lookup (state.erase key)).create = none := by
  simp only [viewOf, AuthView.new_eq, h.stateEvents_erase, lastOfKind_eq_none_iff] at hnone ⊢
  exact fun pdu hp => hnone pdu (List.mem_of_mem_filter hp)

/-- An event that is not a membership event is judged by the create event, the power levels and the
members. -/
theorem checkAuthView_congr {event : Pdu} {view view' : AuthView} (hm : event.kind ≠ roomMember)
    (hcreate : view'.create = view.create) (hlevels : view'.powerLevels = view.powerLevels)
    (hmembers : view'.members = view.members) :
    checkAuthView verifyB64 event view' = checkAuthView verifyB64 event view := by
  obtain ⟨create, levels, rules, members, invites⟩ := view
  obtain ⟨create', levels', rules', members', invites'⟩ := view'
  simp only at hcreate hlevels hmembers
  subst hcreate hlevels hmembers
  unfold checkAuthView
  split
  · rfl
  · split
    · rfl
    · rfl

section Member

variable {event : Pdu} {user : Str}

theorem admits_of_joinAllowed {view : AuthView}
    (hm : event.contentStr "membership" = some "join".toList)
    (hjoin : JoinAllowed event view user) :
    ¬ Admits verifyB64 event view user ↔ RestsOnMembership event view user := by
  obtain ⟨hself, hban, hwhy⟩ := hjoin
  have hadmits : Admits verifyB64 event view user ↔
      (view.creator = some user ∨ view.joinRule = "public".toList ∨
        VouchedByAnother event view user) := by
    have h₁ : (some "join".toList : Option Str) ≠ some "invite".toList := by decide
    have h₂ : (some "join".toList : Option Str) ≠ some "knock".toList := by decide
    simp only [Admits, hm, h₁, h₂, true_and, false_and, or_false, hself]
  rw [hadmits, not_or, not_or, RestsOnMembership]
  constructor
  · rintro ⟨hcreator, hpublic, hvouched⟩
    refine ⟨?_, hcreator, hpublic, hvouched⟩
    rcases hwhy with h | h | h | h
    · exact absurd (hself ▸ h.1) hcreator
    · exact .inl h
    · exact absurd h hpublic
    · exact .inr h
  · rintro ⟨-, rest⟩
    exact rest

/-- A membership event the whole state allows is refused without its slot exactly when it is a join
that rests on it. -/
theorem hiddenVerdict_member (h : WellSlotted lookup state) (hkind : event.kind = roomMember)
    (hkey : event.stateKey = some user)
    (hfull : fullVerdict verifyB64 lookup state event = .ok ()) :
    hiddenVerdict verifyB64 lookup state event (slot roomMember user) ≠ .ok () ↔
      event.contentStr "membership" = some "join".toList ∧
        RestsOnMembership event (viewOf lookup state) user := by
  obtain ⟨hcreate, hok⟩ := (checkAuthView_member hkind).mp hfull
  change checkMemberAuth verifyB64 event (viewOf lookup state) = .ok () at hok
  have hpresent : (viewOf lookup state).create ≠ none := hcreate
  obtain ⟨members, hview, hnone, hsame⟩ := viewOf_erase_member h user
  have hhidden : hiddenVerdict verifyB64 lookup state event (slot roomMember user) = .ok () ↔
      checkMemberAuth verifyB64 event { viewOf lookup state with members } = .ok () := by
    change checkAuthView verifyB64 event (viewOf lookup (state.erase _)) = .ok () ↔ _
    rw [checkAuthView_member hkind, hview]
    exact and_iff_right hcreate
  obtain ⟨-, hm | hm | hm | hm | hm⟩ := membership_of_checkMemberAuth hok
  · rw [checkMemberAuth_join hkey hm] at hok
    rw [ne_eq, hiddenVerdict_bringsIn h ⟨hkind, hkey, .inl hm⟩, and_iff_right hpresent,
      admits_of_joinAllowed hm hok]
    exact (and_iff_right hm).symm
  · refine iff_of_false (not_not.mpr ?_) (fun hj => absurd (hm.symm.trans hj.1) (by decide))
    rw [checkMemberAuth_invite hkey hm] at hok
    rw [hhidden, checkMemberAuth_invite hkey hm, inviteAllowed_hidden hnone hsame]
    refine ⟨fun hself => hok.2.1 (hself ▸ hok.1), hok.1, hok.2.2.2⟩
  · refine iff_of_false (not_not.mpr ?_) (fun hj => absurd (hm.symm.trans hj.1) (by decide))
    rw [checkMemberAuth_leave hkey hm] at hok
    rw [hhidden, checkMemberAuth_leave hkey hm, LeaveAllowed, outranks_hidden hsame]
    exact hok
  · refine iff_of_false (not_not.mpr ?_) (fun hj => absurd (hm.symm.trans hj.1) (by decide))
    rw [checkMemberAuth_ban hkey hm] at hok
    rw [hhidden, checkMemberAuth_ban hkey hm, outranks_hidden hsame]
    exact hok
  · refine iff_of_false (not_not.mpr ?_) (fun hj => absurd (hm.symm.trans hj.1) (by decide))
    rw [checkMemberAuth_knock hkey hm] at hok
    rw [hhidden, checkMemberAuth_knock hkey hm, knockAllowed_hidden hnone]
    exact ⟨hok.1, hok.2.1⟩

end Member

/-- Power levels the whole state allows are refused without their slot exactly when the levels that
are left do not give their sender the power. -/
theorem hiddenVerdict_powerLevels (h : WellSlotted lookup state) {event : Pdu} {stateKey : Str}
    (hkind : event.kind = roomPowerLevels) (hkey : event.stateKey = some stateKey)
    (hfull : fullVerdict verifyB64 lookup state event = .ok ()) :
    hiddenVerdict verifyB64 lookup state event (slot roomPowerLevels stateKey) ≠ .ok () ↔
      (viewOf lookup (state.erase (slot roomPowerLevels stateKey))).powerLevel
          event.sender.asStr <
        (viewOf lookup (state.erase (slot roomPowerLevels stateKey))).eventLevel
          roomPowerLevels true := by
  have hc : event.kind ≠ roomCreate := by simp [hkind]
  have hm : event.kind ≠ roomMember := by simp [hkind]
  have hr : event.kind ≠ roomRedaction := by simp [hkind]
  have hstate : event.isState = true := by simp [Pdu.isState, hkey]
  obtain ⟨hcreate, hjoined, -⟩ := (checkAuthView_other hc hm).mp hfull
  have hcreate' : (viewOf lookup (state.erase (slot roomPowerLevels stateKey))).create ≠ none := by
    rw [viewOf_erase_create h stateKey (by simp)]
    exact hcreate
  have hjoined' : (viewOf lookup (state.erase (slot roomPowerLevels stateKey))).membership
      event.sender.asStr = some "join".toList := by
    rw [AuthView.membership, viewOf_erase_members h stateKey (by simp)]
    exact hjoined
  change checkAuthView verifyB64 event (viewOf lookup (state.erase _)) ≠ .ok () ↔ _
  rw [ne_eq, checkAuthView_other hc hm, if_neg hr, hstate, hkind, and_iff_right hcreate',
    and_iff_right hjoined', not_le]

/-- A state event the whole partial state allows is refused without its slot exactly when its verdict
rests on that slot. -/
theorem hiddenVerdict_ne_ok_iff (h : WellSlotted lookup state) {event : Pdu} {key : StateKey}
    (hslot : stateSlot event = some key)
    (hfull : fullVerdict verifyB64 lookup state event = .ok ()) :
    hiddenVerdict verifyB64 lookup state event key ≠ .ok () ↔
      RestsOnOwnSlot lookup state event key := by
  obtain ⟨⟨kind, stateKey⟩, rfl⟩ := toLex.surjective key
  obtain ⟨hkind, hkey⟩ := stateSlot_eq_some_iff.mp hslot
  by_cases hm : kind = roomMember
  · subst hm
    have hp : event.kind ≠ roomPowerLevels := by simp [hkind]
    rw [RestsOnOwnSlot, or_iff_left (fun hr => hp hr.1), and_iff_right hkind]
    refine (hiddenVerdict_member h hkind hkey hfull).trans (and_congr_right fun _ => ?_)
    constructor
    · exact fun hr => ⟨stateKey, hkey, hr⟩
    · rintro ⟨user, hu, hr⟩
      obtain rfl := Option.some.inj (hkey.symm.trans hu)
      exact hr
  · rw [RestsOnOwnSlot, or_iff_right (fun hr => hm (hkind ▸ hr.1))]
    by_cases hp : kind = roomPowerLevels
    · subst hp
      rw [and_iff_right hkind]
      exact hiddenVerdict_powerLevels h hkind hkey hfull
    · refine iff_of_false (not_not.mpr ?_) (fun hr => hp (hkind ▸ hr.1))
      change checkAuthView verifyB64 event (viewOf lookup (state.erase (slot kind stateKey))) = _
      by_cases hc : kind = roomCreate
      · rw [checkAuthView_create (hkind.trans hc)]
        exact viewOf_erase_create_eq_none h _
          ((checkAuthView_create (hkind.trans hc)).mp hfull)
      · rw [checkAuthView_congr (hkind ▸ hm) (viewOf_erase_create h stateKey hc)
          (viewOf_erase_powerLevels h stateKey hp) (viewOf_erase_members h stateKey hm)]
        exact hfull

/-! ## What the own slot forbids -/

/-- What a member's current membership forbids: a banned user neither joins, is invited nor knocks, a
joined one is neither invited nor knocks, and a creator who has been a member and was not invited
back joins by the rules of the room. -/
def MembershipForbids (event : Pdu) (view : AuthView) (user : Str) : Prop :=
  view.membership user = some "ban".toList ∧
      (event.contentStr "membership" = some "join".toList ∨
        event.contentStr "membership" = some "invite".toList ∨
        event.contentStr "membership" = some "knock".toList) ∨
    view.membership user = some "join".toList ∧
      (event.contentStr "membership" = some "invite".toList ∨
        event.contentStr "membership" = some "knock".toList) ∨
    event.contentStr "membership" = some "join".toList ∧
      view.membership user ≠ none ∧ view.membership user ≠ some "invite".toList ∧
      view.joinRule ≠ "public".toList ∧
      ¬ (view.RestrictedRule ∧ restrictedJoinAuthorised event view = true)

/-- An event that the value of its own slot forbids: a second create event, power levels whose sender
has not the power for them under the levels in force, or a membership that the present one rules
out. -/
def OwnSlotForbids (lookup : EventId → Option Pdu) (state : StateMap) (event : Pdu)
    (key : StateKey) : Prop :=
  (event.kind = roomCreate ∧ ((state.get key).bind lookup).isSome = true) ∨
    (event.kind = roomPowerLevels ∧
      (viewOf lookup state).powerLevel event.sender.asStr <
        (viewOf lookup state).eventLevel roomPowerLevels true) ∨
    (event.kind = roomMember ∧
      ∃ user, event.stateKey = some user ∧ MembershipForbids event (viewOf lookup state) user)

section Forbids

variable {event : Pdu} {stateKey : Str}

theorem fullVerdict_create (h : WellSlotted lookup state) (hkind : event.kind = roomCreate)
    (hhidden : hiddenVerdict verifyB64 lookup state event (slot roomCreate stateKey) = .ok ()) :
    fullVerdict verifyB64 lookup state event ≠ .ok () ↔
      ((state.get (slot roomCreate stateKey)).bind lookup).isSome = true := by
  have hothers : ∀ pdu ∈ stateEvents lookup (state.erase (slot roomCreate stateKey)),
      pdu.kind ≠ roomCreate := (checkAuth_create hkind).mp hhidden
  rw [ne_eq, fullVerdict, checkAuth_create hkind]
  constructor
  · intro hcreate
    push Not at hcreate
    obtain ⟨pdu, hpdu, hpduKind⟩ := hcreate
    obtain ⟨key, id, hid, hlookup⟩ := mem_stateEvents.mp hpdu
    by_cases hkey : key = slot roomCreate stateKey
    · rw [← hkey, hid, Option.bind_some, hlookup]
      rfl
    · have hmem : pdu ∈ stateEvents lookup (state.erase (slot roomCreate stateKey)) := by
        apply mem_stateEvents.mpr
        refine ⟨key, id, ?_, hlookup⟩
        rw [SortedMap.get_erase, if_neg hkey]
        exact hid
      exact absurd hpduKind (hothers pdu hmem)
  · intro hsome hnone
    obtain ⟨pdu, hpdu⟩ := Option.isSome_iff_exists.mp hsome
    obtain ⟨id, hid, hlookup⟩ := Option.bind_eq_some_iff.mp hpdu
    have hslot := stateSlot_eq_some_iff.mp (h _ id pdu hid hlookup)
    exact hnone pdu (mem_stateEvents.mpr ⟨_, id, hid, hlookup⟩) hslot.1

theorem fullVerdict_powerLevels (h : WellSlotted lookup state) (hkind : event.kind = roomPowerLevels)
    (hkey : event.stateKey = some stateKey)
    (hhidden : hiddenVerdict verifyB64 lookup state event (slot roomPowerLevels stateKey) = .ok ()) :
    fullVerdict verifyB64 lookup state event ≠ .ok () ↔
      (viewOf lookup state).powerLevel event.sender.asStr <
        (viewOf lookup state).eventLevel roomPowerLevels true := by
  have hc : event.kind ≠ roomCreate := by simp [hkind]
  have hm : event.kind ≠ roomMember := by simp [hkind]
  have hr : event.kind ≠ roomRedaction := by simp [hkind]
  have hstate : event.isState = true := by simp [Pdu.isState, hkey]
  obtain ⟨hcreate, hjoined, -⟩ := (checkAuthView_other hc hm).mp hhidden
  have hcreate' : (viewOf lookup state).create ≠ none := by
    rw [← viewOf_erase_create h stateKey (by simp : roomPowerLevels ≠ roomCreate)]
    exact hcreate
  have hjoined' : (viewOf lookup state).membership event.sender.asStr = some "join".toList := by
    rw [AuthView.membership, ← viewOf_erase_members h stateKey
      (by simp : roomPowerLevels ≠ roomMember)]
    exact hjoined
  change checkAuthView verifyB64 event (viewOf lookup state) ≠ .ok () ↔ _
  rw [ne_eq, checkAuthView_other hc hm, if_neg hr, hstate, hkind, and_iff_right hcreate',
    and_iff_right hjoined', not_le]

/-- A join that would be allowed from no membership is refused by a ban, or by a present membership
that lets nobody rejoin under a rule that lets nobody in. -/
theorem not_joinAllowed_iff {view : AuthView} {user : Str} (hself : user = event.sender.asStr)
    (hwhy : view.creator = some event.sender.asStr ∨ view.joinRule = "public".toList ∨
      VouchedByAnother event view user) :
    ¬ JoinAllowed event view user ↔
      view.membership user = some "ban".toList ∨
        view.membership user ≠ none ∧ view.membership user ≠ some "invite".toList ∧
          view.joinRule ≠ "public".toList ∧
          ¬ (view.RestrictedRule ∧ restrictedJoinAuthorised event view = true) := by
  constructor
  · intro hrefused
    by_cases hban : view.membership user = some "ban".toList
    · exact .inl hban
    have hpublic : view.joinRule ≠ "public".toList :=
      fun hp => hrefused ⟨hself, hban, .inr (.inr (.inl hp))⟩
    have hrestricted : ¬ (view.RestrictedRule ∧ restrictedJoinAuthorised event view = true) :=
      fun hr => hrefused ⟨hself, hban, .inr (.inr (.inr hr))⟩
    -- what is left of the reasons is that the sender created the room
    have hcreator : view.creator = some event.sender.asStr := by
      rcases hwhy with hcreator | hp | hv
      · exact hcreator
      · exact absurd hp hpublic
      · exact absurd ⟨hv.1, hv.2.1⟩ hrestricted
    exact .inr ⟨fun hn => hrefused ⟨hself, hban, .inl ⟨hcreator, hn⟩⟩,
      fun hi => hrefused ⟨hself, hban, .inr (.inl hi)⟩, hpublic, hrestricted⟩
  · intro hforbids ⟨_, hban, hallowed⟩
    rcases hforbids with hbanned | ⟨hmember, hinvite, hpublic, hrestricted⟩
    · exact hban hbanned
    · rcases hallowed with hc | hi | hp | hr
      · exact hmember hc.2
      · exact hinvite hi
      · exact hpublic hp
      · exact hrestricted hr

/-- A membership event allowed without its slot is refused by the whole state exactly when the
present membership forbids it. -/
theorem fullVerdict_member (h : WellSlotted lookup state) {user : Str}
    (hkind : event.kind = roomMember) (hkey : event.stateKey = some user)
    (hhidden : hiddenVerdict verifyB64 lookup state event (slot roomMember user) = .ok ()) :
    fullVerdict verifyB64 lookup state event ≠ .ok () ↔
      MembershipForbids event (viewOf lookup state) user := by
  obtain ⟨members, hview, hnone, hsame⟩ := viewOf_erase_member h user
  obtain ⟨hcreate, hok⟩ := (checkAuthView_member hkind).mp hhidden
  have hpresent : (viewOf lookup state).create ≠ none := by
    rw [← viewOf_erase_create h user (by simp : roomMember ≠ roomCreate)]
    exact hcreate
  have hfull : fullVerdict verifyB64 lookup state event = .ok () ↔
      checkMemberAuth verifyB64 event (viewOf lookup state) = .ok () :=
    (checkAuthView_member hkind).trans (and_iff_right hpresent)
  change checkMemberAuth verifyB64 event (viewOf lookup (state.erase _)) = .ok () at hok
  rw [hview] at hok
  rw [ne_eq, hfull]
  generalize viewOf lookup state = view at *
  have hapart : ("join".toList : Str) ≠ "invite".toList ∧ ("join".toList : Str) ≠ "knock".toList ∧
      ("invite".toList : Str) ≠ "knock".toList ∧ ("leave".toList : Str) ≠ "join".toList ∧
      ("leave".toList : Str) ≠ "invite".toList ∧ ("leave".toList : Str) ≠ "knock".toList ∧
      ("ban".toList : Str) ≠ "join".toList ∧ ("ban".toList : Str) ≠ "invite".toList ∧
      ("ban".toList : Str) ≠ "knock".toList := by decide
  obtain ⟨hji, hjk, hik, hlj, hli, hlk, hbj, hbi, hbk⟩ := hapart
  obtain ⟨-, hm | hm | hm | hm | hm⟩ := membership_of_checkMemberAuth hok
  · rw [checkMemberAuth_join hkey hm, joinAllowed_hidden hnone hsame] at hok
    rw [checkMemberAuth_join hkey hm, MembershipForbids, hm]
    simp only [Option.some.injEq, hji, hjk, or_false, and_false, true_and, and_true, false_or]
    exact not_joinAllowed_iff hok.1 hok.2
  · rw [checkMemberAuth_invite hkey hm, inviteAllowed_hidden hnone hsame] at hok
    rw [checkMemberAuth_invite hkey hm, InviteAllowed, MembershipForbids, hm]
    simp only [Option.some.injEq, hji.symm, hik, or_false, and_true, false_and, false_or]
    obtain ⟨-, hjoined, hwhy⟩ := hok
    constructor
    · intro hrefused
      by_cases hban : view.membership user = some "ban".toList
      · exact .inl hban
      · apply Or.inr
        by_contra hjoin
        exact hrefused ⟨hjoined, hjoin, hban, hwhy⟩
    · intro hforbids ⟨_, hjoin, hban, _⟩
      exact hforbids.elim hban hjoin
  · rw [checkMemberAuth_leave hkey hm, LeaveAllowed, outranks_hidden hsame] at hok
    rw [checkMemberAuth_leave hkey hm, MembershipForbids, hm]
    simp only [Option.some.injEq, hlj, hli, hlk, or_false, and_false, false_and]
    exact iff_of_false (not_not.mpr hok) not_false
  · rw [checkMemberAuth_ban hkey hm, outranks_hidden hsame] at hok
    rw [checkMemberAuth_ban hkey hm, MembershipForbids, hm]
    simp only [Option.some.injEq, hbj, hbi, hbk, or_false, and_false, false_and]
    exact iff_of_false (not_not.mpr hok) not_false
  · rw [checkMemberAuth_knock hkey hm, knockAllowed_hidden hnone] at hok
    rw [checkMemberAuth_knock hkey hm, KnockAllowed, MembershipForbids, hm]
    simp only [Option.some.injEq, hjk.symm, hik.symm, or_true, and_true, false_and, or_false]
    obtain ⟨hself, hrule⟩ := hok
    constructor
    · intro hrefused
      by_cases hban : view.membership user = some "ban".toList
      · exact .inl hban
      · apply Or.inr
        by_contra hjoin
        exact hrefused ⟨hself, hrule, hjoin, hban⟩
    · intro hforbids ⟨_, _, hjoin, hban⟩
      exact hforbids.elim hban hjoin

/-- An event allowed without its slot is refused by the whole state exactly when what the slot holds
forbids it. -/
theorem fullVerdict_ne_ok_iff (h : WellSlotted lookup state) {key : StateKey}
    (hslot : stateSlot event = some key)
    (hhidden : hiddenVerdict verifyB64 lookup state event key = .ok ()) :
    fullVerdict verifyB64 lookup state event ≠ .ok () ↔ OwnSlotForbids lookup state event key := by
  obtain ⟨⟨kind, stateKey⟩, rfl⟩ := toLex.surjective key
  obtain ⟨hkind, hkey⟩ := stateSlot_eq_some_iff.mp hslot
  unfold OwnSlotForbids
  by_cases hc : kind = roomCreate
  · subst hc
    have hp : event.kind ≠ roomPowerLevels := by simp [hkind]
    have hm : event.kind ≠ roomMember := by simp [hkind]
    rw [or_iff_left (not_or.mpr ⟨fun hr => hp hr.1, fun hr => hm hr.1⟩), and_iff_right hkind]
    exact fullVerdict_create h hkind hhidden
  rw [or_iff_right (fun hr => hc (hkind ▸ hr.1))]
  by_cases hp : kind = roomPowerLevels
  · subst hp
    have hm : event.kind ≠ roomMember := by simp [hkind]
    rw [or_iff_left (fun hr => hm hr.1), and_iff_right hkind]
    exact fullVerdict_powerLevels h hkind hkey hhidden
  rw [or_iff_right (fun hr => hp (hkind ▸ hr.1))]
  by_cases hm : kind = roomMember
  · subst hm
    rw [and_iff_right hkind, fullVerdict_member h hkind hkey hhidden]
    constructor
    · exact fun hr => ⟨stateKey, hkey, hr⟩
    · intro ⟨user, hu, hr⟩
      rw [Option.some.inj (hkey.symm.trans hu)]
      exact hr
  · -- no other event is judged by its own slot
    apply iff_of_false
    · apply not_not.mpr
      change checkAuthView verifyB64 event (viewOf lookup (state.erase (slot kind stateKey))) = _
        at hhidden
      rw [checkAuthView_congr (hkind ▸ hm) (viewOf_erase_create h stateKey hc)
        (viewOf_erase_powerLevels h stateKey hp) (viewOf_erase_members h stateKey hm)] at hhidden
      exact hhidden
    · exact fun hr => hm (hkind ▸ hr.1)

end Forbids

end GaussMatrix.StateRes
