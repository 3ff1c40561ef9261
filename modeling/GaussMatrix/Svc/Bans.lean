import GaussMatrix.Svc.CurrentState
import GaussMatrix.Svc.History

/-!
# Bans

A banned user may leave and do nothing else: against the room's current state the rules let only
their own leave or a user who outranks them end the ban.  A federated event that cites events is
judged by what they say about its sender, whatever the room says now.
-/

namespace GaussMatrix.Svc

open Library Util Api Api.Events StateRes RoomService Fed

/-! ## Histories in which every event is its own -/

/-- What the current state of a room is read from is the room's own: its timeline holds events of the
room, and its slots name stored events of the slot. -/
structure OwnHistory (s : Data) (room : RoomId) : Prop where
  keyed : Keyed s
  timeline : OwnTimeline s room
  slots : OwnSlots s room

theorem ownHistory_empty (room : RoomId) : OwnHistory Store.empty room := by
  refine ⟨keyed_empty, ownTimeline_empty room, fun slotKey id hid => ?_⟩
  rw [currentState, Store.scan, Store.empty] at hid
  exact absurd hid (by simp [SortedMap.empty, SortedMap.insertAll, SortedMap.get])

theorem RoomService.SameRooms.ownHistory {s t : Data} {room : RoomId} (h : SameRooms s t)
    (ht : OwnHistory t room) : OwnHistory s room :=
  ⟨h.keyed ht.keyed, h.ownTimeline ht.timeline, h.ownSlots ht.slots⟩

theorem OwnHistory.append {s : Data} {room : RoomId} {q : Pdu} (h : OwnHistory s room)
    (hroom : sep ∉ room.asStr) (hq : Clean s q) (hplain : PlainKind q) :
    OwnHistory (append s q) room where
  keyed := h.keyed.append q
  timeline := h.timeline.append h.keyed (startsWith_timelineKey_iff hroom hq.room).mp
  slots := h.slots.append h.keyed h.timeline hroom hq hplain

/-- A run of clean appends keeps every room's history its own. -/
theorem OwnHistory.run {env : Env} {s : Data} {room : RoomId} {ops : List Op}
    (h : OwnHistory s room) (hroom : sep ∉ room.asStr)
    (hops : ∀ x ∈ runAppends env s ops, Clean x.1 x.2 ∧ PlainKind x.2) :
    OwnHistory (run (step env) s ops) room :=
  (holds_along_run env ops (fun _ _ hsame ht => hsame.ownHistory ht) h
    fun x hx ht => ht.append hroom (hops x hx).1 (hops x hx).2).2

/-! ## Local calls -/

/-- The user a call acts for. -/
def Op.caller : Op → Option UserId
  | createRoom creator _ _ _ => some creator
  | changeMembership actor _ _ _ _ => some actor
  | sendMessage sender _ _ _ _ _ => some sender
  | receiveTransaction _ => none

/-- The operation changes a membership or sends a message. -/
def Op.IsRoomCall : Op → Prop
  | changeMembership _ _ _ _ _ => True
  | sendMessage _ _ _ _ _ _ => True
  | createRoom _ _ _ _ => False
  | receiveTransaction _ => False

/-- A membership event for the user, in the room. -/
def IsMembershipOf (room : RoomId) (user : UserId) (q : Pdu) : Prop :=
  q.roomId = room ∧ q.kind = roomMember ∧ q.stateKey = some user.asStr

/-- The user's own leave. -/
def IsOwnLeave (room : RoomId) (user : UserId) (q : Pdu) : Prop :=
  IsMembershipOf room user q ∧ q.sender = user ∧
    q.contentStr "membership" = some "leave".toList

/-- A membership event for the user by another who is joined, has the kick power and more power than
the user. -/
def IsByModerator (s : Data) (room : RoomId) (user : UserId) (q : Pdu) : Prop :=
  IsMembershipOf room user q ∧ q.sender ≠ user ∧
    Outranks q (AuthView.new (currentStatePdus s room)) user.asStr
      (AuthView.new (currentStatePdus s room)).kickLevel

instance (room : RoomId) (user : UserId) (q : Pdu) : Decidable (IsMembershipOf room user q) :=
  inferInstanceAs (Decidable (_ ∧ _ ∧ _))

instance (room : RoomId) (user : UserId) (q : Pdu) : Decidable (IsOwnLeave room user q) :=
  inferInstanceAs (Decidable (_ ∧ _ ∧ _))

instance (event : Pdu) (view : AuthView) (target : Str) (level : Int) :
    Decidable (Outranks event view target level) :=
  inferInstanceAs (Decidable (_ ∧ _ ∧ _))

instance (s : Data) (room : RoomId) (user : UserId) (q : Pdu) :
    Decidable (IsByModerator s room user q) :=
  inferInstanceAs (Decidable (_ ∧ _ ∧ _))

section

variable {env : Env} {s : Data} {room : RoomId} {user : UserId} {q : Pdu}

/-- What a call appends has a plain type, comes from the caller, and passed the rules against the
current state of its room. -/
theorem roomCall_append {t : Data} {op : Op} (hop : op.IsRoomCall)
    (hadd : AppendedBy env t (s, q) op) :
    PlainKind q ∧ op.caller = some q.sender ∧
      checkAuth env.verifyB64 q (currentStatePdus s q.roomId) = .ok () := by
  cases op with
  | createRoom creator name topic now => exact hop.elim
  | changeMembership actor room' target membership now =>
      obtain ⟨hq, hok⟩ := hadd
      obtain ⟨-, hsender, hkind, -⟩ := membershipEvent_fields hq
      refine ⟨fun tuple htuple => ?_, congrArg some hsender.symm, hok⟩
      obtain ⟨_, -, rfl⟩ := Option.map_eq_some_iff.mp htuple
      rw [hkind]
      exact (by decide : sep ∉ roomMember)
  | sendMessage sender room' eventType txnId content now =>
      obtain ⟨hq, hok⟩ := hadd
      obtain ⟨-, hsender, -, hkey⟩ := messageEvent_fields hq
      refine ⟨fun tuple htuple => ?_, congrArg some hsender.symm, hok⟩
      obtain ⟨_, hsome, -⟩ := Option.map_eq_some_iff.mp htuple
      exact nomatch hkey.symm.trans hsome
  | receiveTransaction txn => exact hop.elim

/-- An event that passes the rules against the current state ends a ban only as the user's own leave
or by a moderator. -/
theorem ban_append (h : OwnHistory s room) (hroom : sep ∉ room.asStr) (hq : Clean s q)
    (hplain : PlainKind q) (hban : membership s room user.asStr = some "ban".toList)
    (hok : checkAuth env.verifyB64 q (currentStatePdus s q.roomId) = .ok ())
    (hleave : ¬ IsOwnLeave room user q) (hmoderator : ¬ IsByModerator s room user q) :
    membership (append s q) room user.asStr = some "ban".toList := by
  rw [membership_append h.keyed h.timeline hroom hq hplain h.slots]
  split
  · rename_i hslot
    obtain ⟨rfl, hslot⟩ := hslot
    obtain ⟨hkind, hkey⟩ := stateSlot_eq_some_iff.mp hslot
    rw [checkAuth, checkAuthView_member hkind] at hok
    rcases checkMemberAuth_of_banned hkey hban hok.2 with ⟨hm, hself | hout⟩ | ⟨hm, -⟩
    · exact absurd ⟨⟨rfl, hkind, hkey⟩, UserId.ext hself.symm, hm⟩ hleave
    · by_cases hsender : q.sender = user
      · exact absurd ⟨⟨rfl, hkind, hkey⟩, hsender, hm⟩ hleave
      · exact absurd ⟨⟨rfl, hkind, hkey⟩, hsender, hout⟩ hmoderator
    · exact hm
  · exact hban

/-- A run of calls keeps a ban that no event of it ends. -/
theorem ban_run {ops : List Op} (h : OwnHistory s room) (hroom : sep ∉ room.asStr)
    (hban : membership s room user.asStr = some "ban".toList)
    (hcalls : ∀ op ∈ ops, op.IsRoomCall) (hclean : ∀ x ∈ runAppends env s ops, Clean x.1 x.2)
    (hleave : ∀ x ∈ runAppends env s ops, ¬ IsOwnLeave room user x.2)
    (hmoderator : ∀ x ∈ runAppends env s ops, ¬ IsByModerator x.1 room user x.2) :
    membership (run (step env) s ops) room user.asStr = some "ban".toList := by
  have hP := holds_along_run env ops
    (P := fun t => OwnHistory t room ∧ membership t room user.asStr = some "ban".toList)
    (fun t u hsame hu => ⟨hsame.ownHistory hu.1, by rw [hsame.membership]; exact hu.2⟩)
    ⟨h, hban⟩ ?_
  · exact hP.2.2
  · rintro ⟨t, q⟩ hx ⟨ht, hbanned⟩
    obtain ⟨u, op, hop, hadd⟩ := appendedBy_of_mem_runAppends hx
    obtain ⟨hplain, -, hok⟩ := roomCall_append (hcalls op (mem_of_mem_trace hop)) hadd
    exact ⟨ht.append hroom (hclean _ hx) hplain,
      ban_append ht hroom (hclean _ hx) hplain hbanned hok (hleave _ hx) (hmoderator _ hx)⟩

end

namespace SampleRun

def publicRules : Pdu :=
  event 'j' alice roomJoinRules (some []) 3 [] (singleField "join_rule" "public")
def bobJoin : Pdu := event 'b' bob roomMember (some "@b:x") 4 [] memberJoinContent
def bobBan : Pdu := event 'n' alice roomMember (some "@b:x") 5 [] (singleField "membership" "ban")
def bobLeave : Pdu := event 'l' bob roomMember (some "@b:x") 6 [] (singleField "membership" "leave")
def bobMessage : Pdu :=
  event 'm' bob "m.room.message" none 6 [eventId 'c', eventId 'b'] (singleField "body" "x")

/-- The room after bob was banned. -/
def bannedRoom : List Op := [deliver [create, aliceJoin, publicRules, bobJoin, bobBan]]

/-- A leave of bob under the id of the join that alice sends next. -/
def plantedLeave : Pdu :=
  { bobLeave with
    depth := 3
    eventId := ((membershipEvent env (run (step env) Store.empty bannedRoom) alice room alice
      "join" 6).map fun p => p.eventId).getD placeholderEventId }

/-- The room after bob left, joined and was banned. -/
def plantedRoom : List Op :=
  [deliver [create, aliceJoin, publicRules, plantedLeave, bobJoin, bobBan]]

end SampleRun

/-- A ban outlasts every run of membership changes and messages that has neither the user's own leave
nor a membership event for the user by another joined user with the kick power and more power; so the
user alone gets out of it by leaving only. -/
theorem ban_persists (env : Env) (s : Data) (room : RoomId) (user : UserId)
    (hroom : sep ∉ room.asStr) (h : OwnHistory s room)
    (hban : membership s room user.asStr = some "ban".toList) (ops : List Op)
    (hcalls : ∀ op ∈ ops, op.IsRoomCall) (hclean : ∀ x ∈ runAppends env s ops, Clean x.1 x.2)
    (hleave : ∀ x ∈ runAppends env s ops, ¬ IsOwnLeave room user x.2) :
    ((∀ x ∈ runAppends env s ops, ¬ IsByModerator x.1 room user x.2) →
      membership (run (step env) s ops) room user.asStr = some "ban".toList) ∧
    ((∀ op ∈ ops, op.caller = some user) →
      membership (run (step env) s ops) room user.asStr = some "ban".toList) := by
  refine ⟨ban_run h hroom hban hcalls hclean hleave, fun hcaller => ?_⟩
  refine ban_run h hroom hban hcalls hclean hleave ?_
  rintro ⟨t, q⟩ hx ⟨-, hsender, -⟩
  obtain ⟨u, op, hop, hadd⟩ := appendedBy_of_mem_runAppends hx
  have hmem := mem_of_mem_trace hop
  obtain ⟨-, hcall, -⟩ := roomCall_append (hcalls op hmem) hadd
  exact hsender (Option.some.inj (hcall.symm.trans (hcaller op hmem)))

example : SampleRun.bobBan.contentStr "membership" = some "ban".toList := by decide +kernel

open SampleRun in
/-- Messages of the room's creator leave the ban in place. -/
theorem ban_persists_sample :
    membership (run (step env) (run (step env) Store.empty bannedRoom)
      [.sendMessage alice room "m.room.message" "t" "{}" 6]) room bob.asStr =
        some "ban".toList := by
  have hclean : ∀ x ∈ runAppends env Store.empty bannedRoom, Clean x.1 x.2 ∧ PlainKind x.2 := by
    decide +kernel
  have hrun : membership (run (step env) Store.empty bannedRoom) room bob.asStr =
        some "ban".toList ∧
      ∀ x ∈ runAppends env (run (step env) Store.empty bannedRoom)
          [.sendMessage alice room "m.room.message" "t" "{}" 6],
        Clean x.1 x.2 ∧ ¬ IsOwnLeave room bob x.2 ∧ ¬ IsByModerator x.1 room bob x.2 := by
    decide +kernel
  obtain ⟨hban, hmessage⟩ := hrun
  exact (ban_persists env (run (step env) Store.empty bannedRoom) room bob (by decide)
    ((ownHistory_empty room).run (by decide) hclean) hban
    [.sendMessage alice room "m.room.message" "t" "{}" 6] (by simp [Op.IsRoomCall])
    (fun x hx => (hmessage x hx).1) fun x hx => (hmessage x hx).2.1).1
      fun x hx => (hmessage x hx).2.2

open SampleRun in
/-- The banned user leaves, and is no longer banned.  And where an earlier leave of theirs is stored
under the id that a join of another user gets, the slot of that user reads as the leave. -/
theorem ban_left_by_user :
    (¬ ∀ (env : Env) (s : Data), Reachable env s → ∀ (room : RoomId) (user : UserId),
      membership s room user.asStr = some "ban".toList → ∀ ops : List Op,
        (∀ op ∈ ops, op.IsRoomCall) →
        (∀ x ∈ runAppends env s ops, ¬ IsByModerator x.1 room user x.2) →
          membership (run (step env) s ops) room user.asStr = some "ban".toList) ∧
    ¬ ∀ (env : Env) (s : Data), Reachable env s → ∀ (room : RoomId) (user : UserId),
      membership s room user.asStr = some "ban".toList → ∀ ops : List Op,
        (∀ op ∈ ops, op.IsRoomCall) →
        (∀ x ∈ runAppends env s ops,
          ¬ IsByModerator x.1 room user x.2 ∧ ¬ IsOwnLeave room user x.2) →
          membership (run (step env) s ops) room user.asStr = some "ban".toList := by
  constructor
  · intro h
    have hrun : membership (run (step env) Store.empty bannedRoom) room bob.asStr =
          some "ban".toList ∧
        (∀ x ∈ runAppends env (run (step env) Store.empty bannedRoom)
          [.changeMembership bob room bob "leave" 6], ¬ IsByModerator x.1 room bob x.2) ∧
        membership (run (step env) (run (step env) Store.empty bannedRoom)
          [.changeMembership bob room bob "leave" 6]) room bob.asStr ≠ some "ban".toList := by
      decide +kernel
    obtain ⟨hban, hmoderator, hafter⟩ := hrun
    exact hafter (h env _ ⟨_, rfl⟩ room bob hban _ (by simp [Op.IsRoomCall]) hmoderator)
  · intro h
    have hrun : membership (run (step env) Store.empty plantedRoom) room bob.asStr =
          some "ban".toList ∧
        (∀ x ∈ runAppends env (run (step env) Store.empty plantedRoom)
          [.changeMembership alice room alice "join" 6],
            ¬ IsByModerator x.1 room bob x.2 ∧ ¬ IsOwnLeave room bob x.2) ∧
        membership (run (step env) (run (step env) Store.empty plantedRoom)
          [.changeMembership alice room alice "join" 6]) room bob.asStr ≠ some "ban".toList := by
      decide +kernel
    obtain ⟨hban, hothers, hafter⟩ := hrun
    exact hafter (h env _ ⟨_, rfl⟩ room bob hban _ (by simp [Op.IsRoomCall]) hothers)

/-! ## Federated events -/

/-- The events whose view a federation verdict on `p` is taken over. -/
def judgedBy (s : Data) (byId : PduMap) (p : Pdu) : List Pdu :=
  if p.authEvents = [] then currentStatePdus s p.roomId else citedEvents p byId

theorem checkAuth_of_accepted {env : Env} {x : Receipt × Pdu} (h : Accepted env x) :
    checkAuth env.verifyB64 x.2 (judgedBy x.1.data x.1.byId x.2) = .ok () := by
  unfold Accepted federationVerdict at h
  unfold judgedBy
  split at h
  · rename_i hauth
    rw [if_pos hauth]
    exact h
  · rename_i hauth
    rw [if_neg hauth]
    exact (checkAuthWithChain_ok_iff.mp h).2.2

/-- A transaction appends an event whose sender is banned in the state it is judged by only as the
sender's own leave, or as a create event where that state has none. -/
theorem banned_sender_refused (env : Env) (s : Data) (txn : Json) :
    ∀ x ∈ receiveSteps env s txn, Accepted env x →
      (AuthView.new (judgedBy x.1.data x.1.byId x.2)).membership x.2.sender.asStr =
        some "ban".toList →
      IsOwnLeave x.2.roomId x.2.sender x.2 ∨
        x.2.kind = roomCreate ∧ ∀ q ∈ judgedBy x.1.data x.1.byId x.2, q.kind ≠ roomCreate := by
  intro x _ hok hban
  rcases checkAuthView_of_banned_sender hban (checkAuth_of_accepted hok) with
    ⟨hkind, hkey, hm⟩ | ⟨hkind, hcreate⟩
  · exact .inl ⟨⟨rfl, hkind, hkey⟩, rfl, hm⟩
  · exact .inr ⟨hkind, AuthView.create_new_eq_none_iff.mp hcreate⟩

open SampleRun in
/-- The sender leaves. -/
theorem banned_sender_refused_sample :
    ∃ x ∈ receiveSteps env (run (step env) Store.empty bannedRoom) (transaction [bobLeave]),
      Accepted env x ∧ (IsOwnLeave x.2.roomId x.2.sender x.2 ∨
        x.2.kind = roomCreate ∧ ∀ q ∈ judgedBy x.1.data x.1.byId x.2, q.kind ≠ roomCreate) := by
  have hsteps : ∃ x ∈ receiveSteps env (run (step env) Store.empty bannedRoom)
      (transaction [bobLeave]), Accepted env x ∧
        (AuthView.new (judgedBy x.1.data x.1.byId x.2)).membership x.2.sender.asStr =
          some "ban".toList := by
    decide +kernel
  obtain ⟨x, hx, hok, hban⟩ := hsteps
  exact ⟨x, hx, hok, banned_sender_refused env _ _ x hx hok hban⟩

open SampleRun in
/-- A banned user's message that cites the create event and the join from before the ban is
appended. -/
theorem banned_sender_accepted :
    ¬ ∀ (env : Env) (s : Data), Reachable env s → ∀ txn : Json, ∀ x ∈ receiveSteps env s txn,
      membership x.1.data x.2.roomId x.2.sender.asStr = some "ban".toList → Accepted env x →
        IsOwnLeave x.2.roomId x.2.sender x.2 := by
  intro h
  have hall := h env (run (step env) Store.empty bannedRoom) ⟨_, rfl⟩ (transaction [bobMessage])
  revert hall
  decide +kernel

end GaussMatrix.Svc
