import GaussMatrix.StateRes.State

/-!
# When the auth rules accept

The verdicts as conditions on the event and the view, one for each membership and one for the other
events.
-/

namespace GaussMatrix.StateRes

open Library Util Api Api.Events

variable {verifyB64 : VerifyB64} {event : Pdu} {view : AuthView} {target : Str}

/-! ## Membership events -/

/-- The join rule admits a user that someone powered vouches for. -/
def AuthView.RestrictedRule (view : AuthView) : Prop :=
  view.joinRule = "restricted".toList ∨ view.joinRule = "knock_restricted".toList

/-- The join rule admits knocking. -/
def AuthView.KnockRule (view : AuthView) : Prop :=
  view.joinRule = "knock".toList ∨ view.joinRule = "knock_restricted".toList

/-- When `target` may join: themselves, not banned, and as the creator on their first membership, on
an invite, by a public rule, or vouched for under a restricted one. -/
def JoinAllowed (event : Pdu) (view : AuthView) (target : Str) : Prop :=
  target = event.sender.asStr ∧ view.membership target ≠ some "ban".toList ∧
    (view.creator = some event.sender.asStr ∧ view.membership target = none ∨
      view.membership target = some "invite".toList ∨
      view.joinRule = "public".toList ∨
      view.RestrictedRule ∧ restrictedJoinAuthorised event view = true)

/-- When `target` may be invited: by a joined user, neither joined nor banned, and with a valid
third-party invite or enough power. -/
def InviteAllowed (verifyB64 : VerifyB64) (event : Pdu) (view : AuthView) (target : Str) : Prop :=
  view.membership event.sender.asStr = some "join".toList ∧
    view.membership target ≠ some "join".toList ∧ view.membership target ≠ some "ban".toList ∧
    (thirdPartyInviteIsValid verifyB64 event view = true ∨
      view.inviteLevel ≤ view.powerLevel event.sender.asStr)

/-- When the sender may act on `target` with a power of `level`: joined, with that power and more
power than the target. -/
def Outranks (event : Pdu) (view : AuthView) (target : Str) (level : Int) : Prop :=
  view.membership event.sender.asStr = some "join".toList ∧
    level ≤ view.powerLevel event.sender.asStr ∧
    view.powerLevel target < view.powerLevel event.sender.asStr

/-- When `target` may leave: themselves always, or removed by a user that outranks them. -/
def LeaveAllowed (event : Pdu) (view : AuthView) (target : Str) : Prop :=
  target = event.sender.asStr ∨ Outranks event view target view.kickLevel

/-- When `target` may knock: themselves, where the rule permits it, neither joined nor banned. -/
def KnockAllowed (event : Pdu) (view : AuthView) (target : Str) : Prop :=
  target = event.sender.asStr ∧ view.KnockRule ∧
    view.membership target ≠ some "join".toList ∧ view.membership target ≠ some "ban".toList

section Membership

variable (htarget : event.stateKey = some target)

include htarget

theorem checkMemberAuth_join (hm : event.contentStr "membership" = some "join".toList) :
    checkMemberAuth verifyB64 event view = .ok () ↔ JoinAllowed event view target := by
  simp only [checkMemberAuth, htarget, hm, Option.getD_some, if_true]
  split_ifs with hself hban hcreator hinvite hpublic hrule hvouch
  · exact iff_of_false nofun (fun h => hself h.1)
  · exact iff_of_false nofun (fun h => h.2.1 hban)
  · exact iff_of_true rfl ⟨not_not.mp hself, hban, .inl hcreator⟩
  · exact iff_of_true rfl ⟨not_not.mp hself, hban, .inr (.inl hinvite)⟩
  · exact iff_of_true rfl ⟨not_not.mp hself, hban, .inr (.inr (.inl hpublic))⟩
  · exact iff_of_true rfl ⟨not_not.mp hself, hban, .inr (.inr (.inr ⟨hrule, hvouch⟩))⟩
  · refine iff_of_false nofun ?_
    rintro ⟨-, -, h | h | h | h⟩
    · exact hcreator h
    · exact hinvite h
    · exact hpublic h
    · exact hvouch h.2
  · refine iff_of_false nofun ?_
    rintro ⟨-, -, h | h | h | h⟩
    · exact hcreator h
    · exact hinvite h
    · exact hpublic h
    · exact hrule h.1

theorem checkMemberAuth_invite (hm : event.contentStr "membership" = some "invite".toList) :
    checkMemberAuth verifyB64 event view = .ok () ↔
      InviteAllowed verifyB64 event view target := by
  have hne : "invite".toList ≠ "join".toList := by decide
  simp only [checkMemberAuth, htarget, hm, Option.getD_some, hne, if_true, if_false]
  split_ifs with hs ht hv hl
  · exact iff_of_false nofun (fun h => hs h.1)
  · refine iff_of_false nofun (fun h => ?_)
    rcases ht with ht | ht
    · exact h.2.1 ht
    · exact h.2.2.1 ht
  · rw [not_or] at ht
    exact iff_of_true rfl ⟨not_not.mp hs, ht.1, ht.2, .inl hv⟩
  · refine iff_of_false nofun ?_
    rintro ⟨-, -, -, h | h⟩
    · exact hv h
    · exact absurd h (not_le.mpr hl)
  · rw [not_or] at ht
    exact iff_of_true rfl ⟨not_not.mp hs, ht.1, ht.2, .inr (not_lt.mp hl)⟩

theorem checkMemberAuth_leave (hm : event.contentStr "membership" = some "leave".toList) :
    checkMemberAuth verifyB64 event view = .ok () ↔ LeaveAllowed event view target := by
  have hne : "leave".toList ≠ "join".toList ∧ "leave".toList ≠ "invite".toList := by decide
  simp only [checkMemberAuth, htarget, hm, Option.getD_some, hne, if_true, if_false]
  split_ifs with hself hs hl
  · exact iff_of_true rfl (.inl hself)
  · refine iff_of_false nofun ?_
    rintro (h | h)
    · exact hself h
    · exact hs h.1
  · refine iff_of_false nofun ?_
    rintro (h | ⟨-, h₁, h₂⟩)
    · exact hself h
    · omega
  · rw [not_or, not_lt, not_le] at hl
    exact iff_of_true rfl (.inr ⟨not_not.mp hs, hl⟩)

theorem checkMemberAuth_ban (hm : event.contentStr "membership" = some "ban".toList) :
    checkMemberAuth verifyB64 event view = .ok () ↔
      Outranks event view target view.banLevel := by
  have hne : "ban".toList ≠ "join".toList ∧ "ban".toList ≠ "invite".toList ∧
      "ban".toList ≠ "leave".toList := by decide
  simp only [checkMemberAuth, htarget, hm, Option.getD_some, hne, if_true, if_false]
  split_ifs with hs hl
  · exact iff_of_false nofun (fun h => hs h.1)
  · refine iff_of_false nofun ?_
    rintro ⟨-, h₁, h₂⟩
    omega
  · rw [not_or, not_lt, not_le] at hl
    exact iff_of_true rfl ⟨not_not.mp hs, hl⟩

theorem checkMemberAuth_knock (hm : event.contentStr "membership" = some "knock".toList) :
    checkMemberAuth verifyB64 event view = .ok () ↔ KnockAllowed event view target := by
  have hne : "knock".toList ≠ "join".toList ∧ "knock".toList ≠ "invite".toList ∧
      "knock".toList ≠ "leave".toList ∧ "knock".toList ≠ "ban".toList := by decide
  simp only [checkMemberAuth, htarget, hm, Option.getD_some, hne, if_true, if_false]
  split_ifs with h
  · rw [not_or] at h
    exact iff_of_true rfl h
  · rw [not_or] at h
    exact iff_of_false nofun h

end Membership

/-- An accepted membership event names its target and one of the five memberships. -/
theorem membership_of_checkMemberAuth (h : checkMemberAuth verifyB64 event view = .ok ()) :
    (∃ target, event.stateKey = some target) ∧
      (event.contentStr "membership" = some "join".toList ∨
        event.contentStr "membership" = some "invite".toList ∨
        event.contentStr "membership" = some "leave".toList ∨
        event.contentStr "membership" = some "ban".toList ∨
        event.contentStr "membership" = some "knock".toList) := by
  unfold checkMemberAuth at h
  cases htarget : event.stateKey with
  | none =>
      rw [htarget] at h
      exact absurd h (by simp)
  | some target =>
      refine ⟨⟨target, rfl⟩, ?_⟩
      by_contra hnone
      rw [htarget] at h
      simp only [not_or] at hnone
      obtain ⟨hjoin, hinvite, hleave, hban, hknock⟩ := hnone
      cases hm : event.contentStr "membership" with
      | none =>
          simp only [hm, Option.getD_none] at h
          exact absurd h (by simp)
      | some new =>
          rw [hm, Option.some.injEq] at hjoin hinvite hleave hban hknock
          simp only [hm, Option.getD_some, hjoin, hinvite, hleave, hban, hknock, if_false] at h
          exact absurd h (by simp)

/-- What a membership event of a joined user can be. -/
theorem checkMemberAuth_of_joined (htarget : event.stateKey = some target)
    (hjoin : view.membership target = some "join".toList)
    (h : checkMemberAuth verifyB64 event view = .ok ()) :
    event.contentStr "membership" = some "join".toList ∨
      event.contentStr "membership" = some "leave".toList ∨
        event.contentStr "membership" = some "ban".toList := by
  obtain ⟨-, hm | hm | hm | hm | hm⟩ := membership_of_checkMemberAuth h
  · exact .inl hm
  · exact absurd hjoin ((checkMemberAuth_invite htarget hm).mp h).2.1
  · exact .inr (.inl hm)
  · exact .inr (.inr hm)
  · exact absurd hjoin ((checkMemberAuth_knock htarget hm).mp h).2.2.1

/-! ## Banned users -/

/-- What a membership event of a banned user can be: a leave, or one more ban. -/
theorem checkMemberAuth_of_banned (htarget : event.stateKey = some target)
    (hban : view.membership target = some "ban".toList)
    (h : checkMemberAuth verifyB64 event view = .ok ()) :
    event.contentStr "membership" = some "leave".toList ∧ LeaveAllowed event view target ∨
      event.contentStr "membership" = some "ban".toList ∧
        Outranks event view target view.banLevel := by
  obtain ⟨-, hm | hm | hm | hm | hm⟩ := membership_of_checkMemberAuth h
  · exact absurd hban ((checkMemberAuth_join htarget hm).mp h).2.1
  · exact absurd hban ((checkMemberAuth_invite htarget hm).mp h).2.2.1
  · exact .inl ⟨hm, (checkMemberAuth_leave htarget hm).mp h⟩
  · exact .inr ⟨hm, (checkMemberAuth_ban htarget hm).mp h⟩
  · exact absurd hban ((checkMemberAuth_knock htarget hm).mp h).2.2.2

/-- A membership event that a banned user sends is their own leave. -/
theorem checkMemberAuth_of_banned_sender
    (hban : view.membership event.sender.asStr = some "ban".toList)
    (h : checkMemberAuth verifyB64 event view = .ok ()) :
    event.stateKey = some event.sender.asStr ∧
      event.contentStr "membership" = some "leave".toList := by
  have hnotJoined : view.membership event.sender.asStr ≠ some "join".toList := by
    rw [hban]
    decide
  obtain ⟨⟨target, htarget⟩, hm | hm | hm | hm | hm⟩ := membership_of_checkMemberAuth h
  · obtain ⟨rfl, hno, -⟩ := (checkMemberAuth_join htarget hm).mp h
    exact absurd hban hno
  · exact absurd ((checkMemberAuth_invite htarget hm).mp h).1 hnotJoined
  · rcases (checkMemberAuth_leave htarget hm).mp h with rfl | hout
    · exact ⟨htarget, hm⟩
    · exact absurd hout.1 hnotJoined
  · exact absurd ((checkMemberAuth_ban htarget hm).mp h).1 hnotJoined
  · obtain ⟨rfl, -, -, hno⟩ := (checkMemberAuth_knock htarget hm).mp h
    exact absurd hban hno

/-! ## The other events -/

/-- A create event is accepted where there is none. -/
theorem checkAuthView_create (h : event.kind = roomCreate) :
    checkAuthView verifyB64 event view = .ok () ↔ view.create = none := by
  rw [checkAuthView, if_pos h]
  cases view.create with
  | none => simp
  | some c => simp

theorem checkAuthView_member (h : event.kind = roomMember) :
    checkAuthView verifyB64 event view = .ok () ↔
      view.create ≠ none ∧ checkMemberAuth verifyB64 event view = .ok () := by
  rw [checkAuthView, if_neg (by simp [h])]
  by_cases hc : view.create = none
  · simp [hc]
  · simp [hc, h]

/-- What any other event needs: a create event, a joined sender, and the power for it, or a
redaction of the sender's own domain. -/
theorem checkAuthView_other (hc : event.kind ≠ roomCreate) (hm : event.kind ≠ roomMember) :
    checkAuthView verifyB64 event view = .ok () ↔
      view.create ≠ none ∧ view.membership event.sender.asStr = some "join".toList ∧
        if event.kind = roomRedaction then
          redactionTargetsOwnDomain event = true ∨
            view.redactLevel ≤ view.powerLevel event.sender.asStr
        else
          view.eventLevel event.kind event.isState ≤ view.powerLevel event.sender.asStr := by
  rw [checkAuthView, if_neg hc]
  by_cases hcreate : view.create = none
  · simp [hcreate]
  · rw [if_neg hcreate, if_neg hm]
    by_cases hs : view.membership event.sender.asStr = some "join".toList
    · simp only [hs, ne_eq, not_true_eq_false, if_false, hcreate, not_false_eq_true, true_and]
      by_cases hr : event.kind = roomRedaction
      · simp only [hr, if_true]
        by_cases hd : redactionTargetsOwnDomain event = true
        · simp [hd]
        · by_cases hl : view.redactLevel ≤ view.powerLevel event.sender.asStr
          · simp [hl]
          · simp [hd, hl]
      · simp only [hr, if_false]
        by_cases hl : view.powerLevel event.sender.asStr < view.eventLevel event.kind event.isState
        · simp [hl]
        · simp [hl, not_lt.mp hl]
    · simp only [ne_eq, hs, not_false_eq_true, if_true]
      exact iff_of_false nofun (fun h => h.2.1)

/-- What passes the rules when its sender is banned: their own leave, and a first create event. -/
theorem checkAuthView_of_banned_sender
    (hban : view.membership event.sender.asStr = some "ban".toList)
    (h : checkAuthView verifyB64 event view = .ok ()) :
    event.kind = roomMember ∧ event.stateKey = some event.sender.asStr ∧
        event.contentStr "membership" = some "leave".toList ∨
      event.kind = roomCreate ∧ view.create = none := by
  by_cases hc : event.kind = roomCreate
  · exact .inr ⟨hc, (checkAuthView_create hc).mp h⟩
  · by_cases hm : event.kind = roomMember
    · exact .inl ⟨hm, checkMemberAuth_of_banned_sender hban ((checkAuthView_member hm).mp h).2⟩
    · have hjoined := ((checkAuthView_other hc hm).mp h).2.1
      rw [hban] at hjoined
      exact absurd hjoined (by decide)

/-! ## Verdicts over events -/

theorem AuthView.create_new_eq_none_iff {state : List Pdu} :
    (AuthView.new state).create = none ↔ ∀ pdu ∈ state, pdu.kind ≠ roomCreate := by
  rw [AuthView.new_eq]
  exact lastOfKind_eq_none_iff

/-- A create event is accepted over events without one. -/
theorem checkAuth_create (h : event.kind = roomCreate) {state : List Pdu} :
    checkAuth verifyB64 event state = .ok () ↔ ∀ pdu ∈ state, pdu.kind ≠ roomCreate := by
  rw [checkAuth, checkAuthView_create h, AuthView.create_new_eq_none_iff]

/-- What a verdict over cited events needs: the whole chain, a create event in it unless the event is
one itself, and the rules over the cited events. -/
theorem checkAuthWithChain_ok_iff {byId : PduMap} :
    checkAuthWithChain verifyB64 event byId = .ok () ↔
      (∀ id ∈ authChain event.authEvents byId, (byId.get id).isSome) ∧
        (event.kind ≠ roomCreate →
          ∃ pdu ∈ (authChain event.authEvents byId).filterMap byId.get, pdu.kind = roomCreate) ∧
        checkAuth verifyB64 event (citedEvents event byId) = .ok () := by
  have hknown : (authChain event.authEvents byId).any (fun id => (byId.get id).isNone) = true ↔
      ¬ ∀ id ∈ authChain event.authEvents byId, (byId.get id).isSome := by
    simp [Option.isSome_iff_ne_none]
  simp only [checkAuthWithChain, hknown, List.any_eq_true, decide_eq_true_eq]
  by_cases hall : ∀ id ∈ authChain event.authEvents byId, (byId.get id).isSome
  · rw [if_neg (not_not.mpr hall)]
    split
    · rename_i hcreate
      exact iff_of_false nofun (fun h => hcreate.2 (h.2.1 hcreate.1))
    · rename_i hcreate
      rw [not_and_not_right] at hcreate
      exact ⟨fun h => ⟨hall, hcreate, h⟩, fun h => h.2.2⟩
  · rw [if_pos hall]
    exact iff_of_false nofun (fun h => hall h.1)

end GaussMatrix.StateRes
