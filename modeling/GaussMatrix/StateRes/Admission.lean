import GaussMatrix.StateRes.Application

/-!
# Who is let in

What the rules grant to a sender who is not in the room, and what an invite by a sender without the
invite power has to show for itself.
-/

namespace GaussMatrix.StateRes

open Library Util Api Api.Events

variable {verifyB64 : VerifyB64} {event : Pdu} {state : List Pdu} {view : AuthView}

/-! ## Outsiders -/

/-- A joined user who holds the invite level is named as the one who authorises the join. -/
def AuthorisedByMember (event : Pdu) (view : AuthView) : Prop :=
  ∃ authoriser, event.contentStr "join_authorised_via_users_server" = some authoriser ∧
    view.membership authoriser = some "join".toList ∧
      view.inviteLevel ≤ view.powerLevel authoriser

theorem restrictedJoinAuthorised_iff :
    restrictedJoinAuthorised event view = true ↔ AuthorisedByMember event view := by
  unfold restrictedJoinAuthorised AuthorisedByMember
  cases event.contentStr "join_authorised_via_users_server" with
  | none => exact iff_of_false nofun (fun ⟨_, h, _⟩ => nomatch h)
  | some authoriser =>
      constructor
      · intro h
        exact ⟨authoriser, rfl, of_decide_eq_true h⟩
      · intro ⟨named, hnamed, h⟩
        obtain rfl := Option.some.inj hnamed
        exact decide_eq_true h

/-- When `user`, who is not banned, may join: invited, as the creator on their first membership, by a
public rule, or authorised by a member under a restricted one. -/
def MayJoin (event : Pdu) (view : AuthView) (user : Str) : Prop :=
  view.membership user ≠ some "ban".toList ∧
    (view.membership user = some "invite".toList ∨
      (view.creator = some user ∧ view.membership user = none) ∨
      view.joinRule = "public".toList ∨
      ((view.joinRule = "restricted".toList ∨ view.joinRule = "knock_restricted".toList) ∧
        AuthorisedByMember event view))

/-- A sender who is not joined changes no membership but their own, and only so. -/
theorem checkMemberAuth_of_outsider
    (hsender : view.membership event.sender.asStr ≠ some "join".toList)
    (hok : checkMemberAuth verifyB64 event view = .ok ()) :
    event.stateKey = some event.sender.asStr ∧
      (event.contentStr "membership" = some "leave".toList ∨
        event.contentStr "membership" = some "knock".toList ∨
        event.contentStr "membership" = some "join".toList ∧
          MayJoin event view event.sender.asStr) := by
  -- join, invite, leave, ban, knock: an invite, a ban and a kick need a joined sender
  obtain ⟨⟨target, htarget⟩, hm | hm | hm | hm | hm⟩ := membership_of_checkMemberAuth hok
  · obtain ⟨hself, hban, hwhy⟩ := (checkMemberAuth_join htarget hm).mp hok
    rw [hself] at htarget hban hwhy
    refine ⟨htarget, .inr (.inr ⟨hm, hban, ?_⟩)⟩
    rcases hwhy with hcreator | hinvite | hpublic | hrestricted
    · exact .inr (.inl hcreator)
    · exact .inl hinvite
    · exact .inr (.inr (.inl hpublic))
    · exact .inr (.inr (.inr ⟨hrestricted.1, restrictedJoinAuthorised_iff.mp hrestricted.2⟩))
  · exact absurd ((checkMemberAuth_invite htarget hm).mp hok).1 hsender
  · rcases (checkMemberAuth_leave htarget hm).mp hok with hself | hkick
    · rw [hself] at htarget
      exact ⟨htarget, .inl hm⟩
    · exact absurd hkick.1 hsender
  · exact absurd ((checkMemberAuth_ban htarget hm).mp hok).1 hsender
  · obtain ⟨hself, -⟩ := (checkMemberAuth_knock htarget hm).mp hok
    rw [hself] at htarget
    exact ⟨htarget, .inr (.inl hm)⟩

/-- What the rules accept of a sender who is not joined: the first create event, and a leave, a knock
or a join of the sender's own, the join where the sender may join. -/
theorem outsiders_contained (verifyB64 : VerifyB64) (event : Pdu) (state : List Pdu)
    (hsender : (AuthView.new state).membership event.sender.asStr ≠ some "join".toList)
    (hok : checkAuth verifyB64 event state = .ok ()) :
    (event.kind = roomCreate ∧ ∀ pdu ∈ state, pdu.kind ≠ roomCreate) ∨
      (event.kind = roomMember ∧ event.stateKey = some event.sender.asStr ∧
        (event.contentStr "membership" = some "leave".toList ∨
          event.contentStr "membership" = some "knock".toList ∨
          event.contentStr "membership" = some "join".toList ∧
            MayJoin event (AuthView.new state) event.sender.asStr)) := by
  by_cases hcreate : event.kind = roomCreate
  · exact .inl ⟨hcreate, (checkAuth_create hcreate).mp hok⟩
  by_cases hmember : event.kind = roomMember
  · have hverdict := ((checkAuthView_member hmember).mp hok).2
    exact .inr ⟨hmember, checkMemberAuth_of_outsider hsender hverdict⟩
  · exact absurd ((checkAuthView_other hcreate hmember).mp hok).2.1 hsender

open Sample in
example : checkAuth noSignature bobJoin [create, publicRule, aliceJoin, bobBan] ≠ .ok () := by
  decide +kernel

open Sample in
/-- Bob's join into a public room, before he has a membership. -/
theorem outsiders_contained_sample : MayJoin bobJoin
    (AuthView.new [create, publicRule, aliceJoin]) bob.asStr := by
  have hcontained := outsiders_contained noSignature bobJoin [create, publicRule, aliceJoin]
    (by decide +kernel) (by decide +kernel)
  rcases hcontained with hfirst | ⟨-, -, hleave | hknock | hjoin⟩
  · exact absurd hfirst.1 (by decide +kernel)
  · exact absurd hleave (by decide +kernel)
  · exact absurd hknock (by decide +kernel)
  · exact hjoin.2

/-! ## Third-party invites -/

/-- The first outstanding third-party invite of the state with a token. -/
def outstandingInvite (state : List Pdu) (token : Str) : Option Pdu :=
  state.find? fun pdu => decide (pdu.kind = roomThirdPartyInvite ∧ pdu.stateKey = some token)

theorem thirdPartyPublicKey_eq (state : List Pdu) (token : Str) :
    (AuthView.new state).thirdPartyPublicKey token =
      (outstandingInvite state token).map fun invite =>
        (invite.contentStr "public_key").getD [] := by
  rw [AuthView.new_eq]
  show (state.filterMap inviteEntry).lookup token = _
  unfold outstandingInvite
  induction state with
  | nil => rfl
  | cons pdu state ih =>
      rw [List.find?_cons]
      by_cases hkind : pdu.kind = roomThirdPartyInvite
      · cases hkey : pdu.stateKey with
        | none =>
            have hentry : inviteEntry pdu = none := by
              rw [inviteEntry, if_pos hkind, hkey]
              rfl
            rw [List.filterMap_cons_none hentry, ih]
            simp
        | some key =>
            have hentry : inviteEntry pdu =
                some (key, (pdu.contentStr "public_key").getD []) := by
              rw [inviteEntry, if_pos hkind, hkey]
              rfl
            rw [List.filterMap_cons_some hentry, List.lookup_cons]
            by_cases hsame : token = key
            · simp [hkind, hsame]
            · have hother : (token == key) = false := beq_false_of_ne hsame
              rw [hother, ih]
              simp [hkind, Ne.symm hsame]
      · rw [List.filterMap_cons_none (inviteEntry_of_ne hkind), ih]
        simp [hkind]

/-- The invite redeems an outstanding third-party invite: its signed block names the token, and a
signature in the block verifies, over the block without its signatures, under the key that the
third-party invite advertises. -/
def Redeems (verifyB64 : VerifyB64) (event : Pdu) (state : List Pdu) : Prop :=
  ∃ signed token invite,
    event.content.bind (fun c => (c.get "third_party_invite").bind (·.get "signed")) = some signed ∧
    (signed.get "token").bind Json.asStr = some token ∧
    outstandingInvite state token = some invite ∧
    ∃ signatures byKey keys sig s, (signed.get "signatures").bind Json.asObject = some signatures ∧
      byKey ∈ signatures ∧ byKey.2.asObject = some keys ∧ sig ∈ keys ∧ sig.2.asStr = some s ∧
      verifyB64 (utf8Bytes (withoutSignatures signed).write) s
        ((invite.contentStr "public_key").getD []) = true

/-- Some string signature of a `signatures` object passes a test. -/
theorem any_signature_iff {signatures : List (Str × Json)} {test : Str → Bool} :
    (signatures.any fun byKey =>
      match byKey.2.asObject with
      | none => false
      | some keys => keys.any fun sig =>
          match sig.2.asStr with
          | none => false
          | some s => test s) = true ↔
      ∃ byKey keys sig s, byKey ∈ signatures ∧ byKey.2.asObject = some keys ∧ sig ∈ keys ∧
        sig.2.asStr = some s ∧ test s = true := by
  rw [List.any_eq_true]
  constructor
  · intro ⟨byKey, hbyKey, h⟩
    cases hkeys : byKey.2.asObject with
    | none =>
        rw [hkeys] at h
        cases h
    | some keys =>
        rw [hkeys] at h
        obtain ⟨sig, hsig, h⟩ := List.any_eq_true.mp h
        cases hs : sig.2.asStr with
        | none =>
            rw [hs] at h
            cases h
        | some s =>
            rw [hs] at h
            exact ⟨byKey, keys, sig, s, hbyKey, hkeys, hsig, hs, h⟩
  · intro ⟨byKey, keys, sig, s, hbyKey, hkeys, hsig, hs, h⟩
    refine ⟨byKey, hbyKey, ?_⟩
    rw [hkeys]
    refine List.any_eq_true.mpr ⟨sig, hsig, ?_⟩
    rw [hs]
    exact h

theorem thirdPartyInviteIsValid_iff :
    thirdPartyInviteIsValid verifyB64 event (AuthView.new state) = true ↔
      Redeems verifyB64 event state := by
  unfold thirdPartyInviteIsValid Redeems
  -- one case for each lookup that may fail, and last the signatures themselves
  cases hsigned : event.content.bind
      (fun c => (c.get "third_party_invite").bind (·.get "signed")) with
  | none => exact iff_of_false Bool.false_ne_true (fun ⟨_, _, _, h, _⟩ => nomatch h)
  | some signed =>
      dsimp only
      cases htoken : (signed.get "token").bind Json.asStr with
      | none =>
          apply iff_of_false Bool.false_ne_true
          intro ⟨signed', token, invite, hsigned', htoken', _⟩
          rw [← Option.some.inj hsigned', htoken] at htoken'
          cases htoken'
      | some token =>
          have hkey := thirdPartyPublicKey_eq state token
          rw [Option.bind_some, hkey]
          cases hinvite : outstandingInvite state token with
          | none =>
              apply iff_of_false Bool.false_ne_true
              intro ⟨signed', token', invite, hsigned', htoken', hinvite', _⟩
              rw [← Option.some.inj hsigned', htoken] at htoken'
              rw [← Option.some.inj htoken', hinvite] at hinvite'
              cases hinvite'
          | some invite =>
              dsimp only [Option.map_some]
              cases hsignatures : (signed.get "signatures").bind Json.asObject with
              | none =>
                  apply iff_of_false Bool.false_ne_true
                  intro ⟨signed', _, _, hsigned', _, _, signatures, _, _, _, _, hsignatures', _⟩
                  rw [← Option.some.inj hsigned', hsignatures] at hsignatures'
                  cases hsignatures'
              | some signatures =>
                  constructor
                  · intro h
                    obtain ⟨byKey, keys, sig, s, hbyKey, hkeys, hsig, hs, hok⟩ :=
                      any_signature_iff.mp h
                    exact ⟨signed, token, invite, rfl, htoken, hinvite, signatures, byKey, keys,
                      sig, s, hsignatures, hbyKey, hkeys, hsig, hs, hok⟩
                  · intro ⟨signed', token', invite', hsigned', htoken', hinvite', signatures',
                      byKey, keys, sig, s, hsignatures', hbyKey, hkeys, hsig, hs, hok⟩
                    rw [← Option.some.inj hsigned'] at htoken' hsignatures' hok
                    rw [← Option.some.inj (htoken.symm.trans htoken')] at hinvite'
                    rw [← Option.some.inj (hinvite.symm.trans hinvite')] at hok
                    rw [← Option.some.inj (hsignatures.symm.trans hsignatures')] at hbyKey
                    exact any_signature_iff.mpr
                      ⟨byKey, keys, sig, s, hbyKey, hkeys, hsig, hs, hok⟩

/-- An invite of a sender without the invite power passes exactly when the sender is in the room, the
invited user is neither in it nor banned, and the invite redeems an outstanding third-party invite;
whom the signed block names is not looked at. -/
theorem powerless_invite_redeems_iff (verifyB64 : VerifyB64) (event : Pdu) (state : List Pdu)
    {target : Str} (hkind : event.kind = roomMember) (htarget : event.stateKey = some target)
    (hinvite : event.contentStr "membership" = some "invite".toList)
    (hpower : (AuthView.new state).powerLevel event.sender.asStr <
      (AuthView.new state).inviteLevel) :
    checkAuth verifyB64 event state = .ok () ↔
      (∃ pdu ∈ state, pdu.kind = roomCreate) ∧
      (AuthView.new state).membership event.sender.asStr = some "join".toList ∧
      (AuthView.new state).membership target ≠ some "join".toList ∧
      (AuthView.new state).membership target ≠ some "ban".toList ∧
      Redeems verifyB64 event state := by
  have hcreate : (AuthView.new state).create ≠ none ↔ ∃ pdu ∈ state, pdu.kind = roomCreate := by
    rw [ne_eq, AuthView.create_new_eq_none_iff]
    push Not
    rfl
  have hpowerless : ¬ (AuthView.new state).inviteLevel ≤
      (AuthView.new state).powerLevel event.sender.asStr := not_le.mpr hpower
  rw [checkAuth, checkAuthView_member hkind, checkMemberAuth_invite htarget hinvite, InviteAllowed,
    hcreate, thirdPartyInviteIsValid_iff, or_iff_left hpowerless]

namespace SampleInvite

open Sample

/-- The block an identity server signed for `@d:x`. -/
def block : List (Str × Json) :=
  [("mxid".toList, .string "@d:x".toList), ("token".toList, .string "t".toList)]

/-- Bob's invite of a user with that block. -/
def inviteWith (user : Str) : Pdu :=
  let signatures := Json.object [("i".toList, .object [("k".toList, .string "s".toList)])]
  let signed := Json.ofFields (block ++ [("signatures".toList, signatures)])
  stateEvent 'v' bob roomMember user 9 (Json.ofFields
    [("membership".toList, .string "invite".toList),
      ("third_party_invite".toList, .object [("signed".toList, signed)])]).write

/-- Inviting takes a level of 50, and a third-party invite is outstanding. -/
def room : List Pdu :=
  [create, stateEvent 'p' alice roomPowerLevels [] 3
      (Json.object [("invite".toList, .number (F64.ofNat 50))]).write,
    aliceJoin, bobJoin, stateEvent 't' alice roomThirdPartyInvite "t" 4 (content "public_key" "k")]

/-- The signature `s` over the block verifies under the key `k`, and nothing else does. -/
def verify : VerifyB64 := fun bytes s key =>
  decide (bytes = utf8Bytes (Json.object block).write ∧ s = "s".toList ∧ key = "k".toList)

end SampleInvite

open SampleInvite in
/-- Bob's invite of the user the block was signed for redeems it. -/
theorem powerless_invite_redeems_sample : Redeems verify (inviteWith "@d:x") room :=
  ((@powerless_invite_redeems_iff verify (inviteWith "@d:x") room "@d:x" (by decide +kernel)
    (by decide +kernel) (by decide +kernel) (by decide +kernel)).mp (by decide +kernel)).2.2.2.2

open SampleInvite in
/-- The block signed for one user admits another. -/
theorem signed_block_admits_another :
    (inviteWith "@e:x").stateKey = some "@e:x".toList ∧
      (((inviteWith "@e:x").content.bind fun c =>
        (c.get "third_party_invite").bind (·.get "signed")).bind fun signed =>
          (signed.get "mxid").bind Json.asStr) = some "@d:x".toList ∧
      (AuthView.new room).powerLevel (inviteWith "@e:x").sender.asStr <
        (AuthView.new room).inviteLevel ∧
      checkAuth verify (inviteWith "@e:x") room = .ok () := by
  decide +kernel

end GaussMatrix.StateRes
