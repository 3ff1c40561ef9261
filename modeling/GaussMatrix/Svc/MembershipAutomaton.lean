import GaussMatrix.Api.ReferenceBinding
import GaussMatrix.StateRes.Admission
import GaussMatrix.StateRes.RedactedState
import GaussMatrix.Svc.Window

/-!
# The memberships of a locally created room

The initial state of a new room gives its creator alone any power and leaves the room open to invited
users only.  Membership changes and messages keep it so: whatever they say, they write member slots
alone, and no user but the creator can act on another.
-/

namespace GaussMatrix.Svc

open Library Util Api Api.Events StateRes RoomService

/-! ## The contents that the server writes -/

/-- What the text of a small value is read as. -/
theorem content_of_write {p : Pdu} {v : Json} (hordered : Json.Ordered v) (hnesting : v.nesting ≤ 2)
    (h : p.contentJson = v.write) : p.content = some v.written := by
  have hdepth : v.nesting ≤ maxDepth := hnesting.trans (by decide)
  rw [Pdu.content, h, Json.parse_write hordered, if_pos hdepth]
  rfl

theorem get_object (fields : List (Str × Json)) (key : Str) :
    (Json.object fields).get key = fields.lookup key := rfl

variable {p q : Pdu} {creator : UserId} {user : Str}

theorem contentStr_singleField {field text : Str} (h : p.contentJson = singleField field text) :
    p.contentStr field = some text := by
  have hnesting : (Json.object [(field, .string text)]).nesting = 1 := rfl
  rw [Pdu.contentStr, content_of_write (by rfl) (by omega) h, Option.bind_some, Json.get_written]
  simp [Json.get, Json.asObject, Json.written, Json.asStr]

/-- From the room version that the server writes, a room's creator is the sender of its create
event. -/
theorem creatorOf_createContent (h : p.contentJson = createContent creator) :
    creatorOf p = some p.sender.asStr := by
  have hnesting : (Json.object [("creator".toList, .string creator.asStr),
      ("room_version".toList, .string (decimal maxSupportedRoomVersion))]).nesting = 1 := rfl
  have hversion : p.contentStr "room_version" = some (decimal maxSupportedRoomVersion) := by
    rw [Pdu.contentStr, content_of_write (by rfl) (by omega) h, Option.bind_some, Json.get_written]
    rfl
  have hparse : parseU8 (decimal maxSupportedRoomVersion) = some 12 := by decide +kernel
  rw [creatorOf, createRoomVersion, hversion, Option.bind_some, hparse]
  rfl

/-- The power levels of a new room. -/
def creatorLevels (creator : UserId) : Json :=
  .object [("users".toList, .object [(creator.asStr, .number (F64.ofNat 100))]),
    ("users_default".toList, .number (F64.ofNat 0))]

theorem content_powerLevels (h : p.contentJson = powerLevelsContent creator) :
    p.content = some (creatorLevels creator).written := by
  have hnesting : (creatorLevels creator).nesting = 2 := rfl
  exact content_of_write (by rfl) (by omega) h

theorem creatorLevels_finite (creator : UserId) : (creatorLevels creator).Finite := by
  have hpower : (F64.ofNat 100).isFinite = true := by decide +kernel
  have hzero : (F64.ofNat 0).isFinite = true := by decide +kernel
  unfold creatorLevels
  generalize F64.ofNat 100 = power at hpower
  generalize F64.ofNat 0 = zero at hzero
  simp [Json.Finite, Json.everywhere, Json.everywhereFields, Json.numberFinite, hpower, hzero]

/-- A new room names the power of its creator alone. -/
theorem users_creatorLevels (creator : UserId) (user : Str) :
    (((creatorLevels creator).written.get "users").bind (·.get user)).bind Json.asI64 =
      if user = creator.asStr then some 100 else none := by
  have hpower : (Json.number (F64.ofNat 100)).asI64 = some 100 := by decide +kernel
  rw [get_get_written_asI64 (creatorLevels_finite creator)]
  unfold creatorLevels
  generalize F64.ofNat 100 = power at hpower
  show (([(creator.asStr, Json.number power)] : List (Str × Json)).lookup user).bind Json.asI64 = _
  rw [Json.lookup_cons]
  by_cases huser : user = creator.asStr
  · rw [if_pos huser, if_pos huser]
    exact hpower
  · rw [if_neg huser, if_neg huser]
    rfl

/-- Every other level of a new room is at its default. -/
theorem level_creatorLevels (creator : UserId) {key : Str} (hkey : key ≠ "users".toList)
    (hdefault : key ≠ "users_default".toList) :
    ((creatorLevels creator).written.get key).bind Json.asI64 = none := by
  rw [get_written_asI64 (creatorLevels_finite creator)]
  unfold creatorLevels
  generalize F64.ofNat 100 = power
  generalize F64.ofNat 0 = zero
  rw [get_object, Json.lookup_cons, if_neg hkey, Json.lookup_cons, if_neg hdefault]
  rfl

theorem usersDefault_creatorLevels (creator : UserId) :
    ((creatorLevels creator).written.get "users_default").bind Json.asI64 = some 0 := by
  have hzero : (Json.number (F64.ofNat 0)).asI64 = some 0 := by decide +kernel
  have hne : "users_default".toList ≠ "users".toList := by decide
  rw [get_written_asI64 (creatorLevels_finite creator)]
  unfold creatorLevels
  generalize F64.ofNat 100 = power
  generalize F64.ofNat 0 = zero at hzero
  rw [get_object, Json.lookup_cons, if_neg hne, Json.lookup_cons, if_pos rfl]
  exact hzero

/-! ## The rules of the room -/

/-- A view in which the creator alone has power and only invited users may join. -/
structure CreatorView (creator : UserId) (view : AuthView) : Prop where
  create : view.create ≠ none
  createdBy : view.creator = some creator.asStr
  joinRule : view.joinRule = "invite".toList
  power : ∀ user, view.powerLevel user = if user = creator.asStr then 100 else 0
  kickLevel : view.kickLevel = 50
  banLevel : view.banLevel = 50
  known : view.membership creator.asStr ≠ none

/-- A state event as the server writes them: of a new room, or of a changed membership. -/
inductive LocalState (creator : UserId) (p : Pdu) : Prop
  | create (kind : p.kind = roomCreate) (sender : p.sender = creator)
      (content : p.contentJson = createContent creator)
  | powerLevels (kind : p.kind = roomPowerLevels)
      (content : p.contentJson = powerLevelsContent creator)
  | described (kind : p.kind = roomName ∨ p.kind = roomTopic)
  | member (kind : p.kind = roomMember) (membership : Str)
      (content : p.contentJson = singleField "membership" membership)

theorem LocalState.of_create (h : LocalState creator p) (hkind : p.kind = roomCreate) :
    p.sender = creator ∧ p.contentJson = createContent creator := by
  cases h with
  | create _ sender content => exact ⟨sender, content⟩
  | powerLevels kind _ | member kind _ _ => exact absurd (kind.symm.trans hkind) (by decide)
  | described kind =>
      rcases kind with kind | kind <;> exact absurd (kind.symm.trans hkind) (by decide)

theorem LocalState.of_powerLevels (h : LocalState creator p) (hkind : p.kind = roomPowerLevels) :
    p.contentJson = powerLevelsContent creator := by
  cases h with
  | powerLevels _ content => exact content
  | create kind _ _ | member kind _ _ => exact absurd (kind.symm.trans hkind) (by decide)
  | described kind =>
      rcases kind with kind | kind <;> exact absurd (kind.symm.trans hkind) (by decide)

theorem LocalState.of_member (h : LocalState creator p) (hkind : p.kind = roomMember) :
    ∃ membership, p.contentJson = singleField "membership" membership := by
  cases h with
  | member _ membership content => exact ⟨membership, content⟩
  | create kind _ _ | powerLevels kind _ => exact absurd (kind.symm.trans hkind) (by decide)
  | described kind =>
      rcases kind with kind | kind <;> exact absurd (kind.symm.trans hkind) (by decide)

theorem LocalState.kind_mem (h : LocalState creator p) :
    p.kind ∈ [roomCreate, roomPowerLevels, roomName, roomTopic, roomMember] := by
  cases h with
  | create kind _ _ | powerLevels kind _ | member kind _ _ => simp [kind]
  | described kind => rcases kind with kind | kind <;> simp [kind]

theorem LocalState.ne_joinRules (h : LocalState creator p) : p.kind ≠ roomJoinRules := by
  have hne : ∀ kind ∈ [roomCreate, roomPowerLevels, roomName, roomTopic, roomMember],
      kind ≠ roomJoinRules := by decide
  exact hne p.kind h.kind_mem

/-- An event of a kind that a state has is the last of its kind. -/
theorem exists_lastOfKind {kind : Str} {state : List Pdu} (h : ∃ p ∈ state, p.kind = kind) :
    ∃ p ∈ state, p.kind = kind ∧ lastOfKind kind state = some p := by
  cases hlast : lastOfKind kind state with
  | none =>
      obtain ⟨p, hp, hkind⟩ := h
      exact absurd hkind (lastOfKind_eq_none_iff.mp hlast p hp)
  | some p => exact ⟨p, (mem_of_lastOfKind hlast).1, (mem_of_lastOfKind hlast).2, rfl⟩

/-- The state events that the server writes make such a view. -/
theorem creatorView_new {state : List Pdu} (hstate : ∀ p ∈ state, LocalState creator p)
    (hcreate : ∃ p ∈ state, p.kind = roomCreate)
    (hlevels : ∃ p ∈ state, p.kind = roomPowerLevels)
    (hknown : (AuthView.new state).membership creator.asStr ≠ none) :
    CreatorView creator (AuthView.new state) := by
  -- the view takes the last create and power-levels event, and all of them say the same
  obtain ⟨c, hc, hcKind, hcLast⟩ := exists_lastOfKind hcreate
  obtain ⟨l, hl, hlKind, hlLast⟩ := exists_lastOfKind hlevels
  obtain ⟨hsender, hcContent⟩ := (hstate c hc).of_create hcKind
  have hlContent := content_powerLevels ((hstate l hl).of_powerLevels hlKind)
  have hnoRules : lastOfKind roomJoinRules state = none :=
    lastOfKind_eq_none_iff.mpr fun p hp => (hstate p hp).ne_joinRules
  have hlevel : ∀ {key : String} {default : Int}, key.toList ≠ "users".toList →
      key.toList ≠ "users_default".toList → (AuthView.new state).level key default = default := by
    intro key default hkey hdefault
    rw [AuthView.new_eq, AuthView.level, hlLast, Option.bind_some, hlContent, Option.bind_some,
      level_creatorLevels creator hkey hdefault, Option.getD_none]
  constructor
  case create =>
    rw [AuthView.new_eq, hcLast]
    exact Option.some_ne_none c
  case createdBy =>
    rw [AuthView.new_eq, AuthView.creator, hcLast, Option.bind_some,
      creatorOf_createContent hcContent, hsender]
  case joinRule =>
    rw [AuthView.new_eq, AuthView.joinRule, hnoRules]
    rfl
  case power =>
    intro user
    rw [AuthView.new_eq, AuthView.powerLevel, hlLast, Option.bind_some, hlContent]
    dsimp only
    rw [users_creatorLevels, usersDefault_creatorLevels]
    by_cases huser : user = creator.asStr
    · rw [if_pos huser, if_pos huser]
    · rw [if_neg huser, if_neg huser]
      rfl
  case kickLevel => exact hlevel (by decide) (by decide)
  case banLevel => exact hlevel (by decide) (by decide)
  case known => exact hknown

section

variable {verifyB64 : VerifyB64} {view : AuthView} {target : Str}

/-- Only the creator may act on another user, and not on themselves. -/
theorem CreatorView.of_outranks (h : CreatorView creator view) (hout : Outranks q view target 50) :
    q.sender = creator ∧ target ≠ creator.asStr := by
  obtain ⟨-, hpower, hmore⟩ := hout
  rw [h.power] at hpower
  rw [h.power, h.power] at hmore
  by_cases hsender : q.sender.asStr = creator.asStr
  · constructor
    · exact UserId.ext hsender
    · intro htarget
      rw [if_pos htarget, if_pos hsender] at hmore
      omega
  · rw [if_neg hsender] at hpower
    omega

/-- A join is the sender's own and takes up an invite, or repeats a join. -/
theorem CreatorView.join (h : CreatorView creator view) (htarget : q.stateKey = some target)
    (hm : q.contentStr "membership" = some "join".toList)
    (hok : checkMemberAuth verifyB64 q view = .ok ()) :
    target = q.sender.asStr ∧ view.membership target = some "invite".toList := by
  have hinvite : "invite".toList ≠ "public".toList ∧ "invite".toList ≠ "restricted".toList ∧
      "invite".toList ≠ "knock_restricted".toList := by decide
  -- the creator's first join, an invite, a public room, or a restricted one
  obtain ⟨hself, -, hfirst | hinvited | hpublic | ⟨hrestricted, -⟩⟩ :=
    (checkMemberAuth_join htarget hm).mp hok
  · rw [h.createdBy, Option.some.injEq] at hfirst
    rw [hself, ← hfirst.1] at hfirst
    exact absurd hfirst.2 h.known
  · exact ⟨hself, hinvited⟩
  · exact absurd (h.joinRule.symm.trans hpublic) hinvite.1
  · rcases hrestricted with hrule | hrule
    · exact absurd (h.joinRule.symm.trans hrule) hinvite.2.1
    · exact absurd (h.joinRule.symm.trans hrule) hinvite.2.2

/-- A leave of another user, or a ban, is by the creator, of another user than the creator. -/
theorem CreatorView.removal (h : CreatorView creator view) (htarget : q.stateKey = some target)
    (hm : q.contentStr "membership" = some "leave".toList ∧ target ≠ q.sender.asStr ∨
      q.contentStr "membership" = some "ban".toList)
    (hok : checkMemberAuth verifyB64 q view = .ok ()) :
    q.sender = creator ∧ target ≠ creator.asStr := by
  rcases hm with ⟨hleave, hother⟩ | hban
  · have hout := ((checkMemberAuth_leave htarget hleave).mp hok).resolve_left hother
    rw [h.kickLevel] at hout
    exact h.of_outranks hout
  · have hout := (checkMemberAuth_ban htarget hban).mp hok
    rw [h.banLevel] at hout
    exact h.of_outranks hout

/-- From a user who is neither joined nor invited the rules accept the user's own leave only. -/
theorem CreatorView.outsider (h : CreatorView creator view)
    (hjoin : view.membership q.sender.asStr ≠ some "join".toList)
    (hinvite : view.membership q.sender.asStr ≠ some "invite".toList)
    (hok : checkAuthView verifyB64 q view = .ok ()) :
    q.kind = roomMember ∧ q.stateKey = some q.sender.asStr ∧
      q.contentStr "membership" = some "leave".toList := by
  have hknock : "invite".toList ≠ "knock".toList ∧
      "invite".toList ≠ "knock_restricted".toList := by decide
  by_cases hcreate : q.kind = roomCreate
  · exact absurd ((checkAuthView_create hcreate).mp hok) h.create
  by_cases hmember : q.kind = roomMember
  · have hverdict := ((checkAuthView_member hmember).mp hok).2
    obtain ⟨hkey, hleave | hknocks | ⟨hjoins, -⟩⟩ := checkMemberAuth_of_outsider hjoin hverdict
    · exact ⟨hmember, hkey, hleave⟩
    · obtain ⟨-, hrule | hrule, -⟩ := (checkMemberAuth_knock hkey hknocks).mp hverdict
      · exact absurd (h.joinRule.symm.trans hrule) hknock.1
      · exact absurd (h.joinRule.symm.trans hrule) hknock.2
    · exact absurd (h.join hkey hjoins hverdict).2 hinvite
  · exact absurd ((checkAuthView_other hcreate hmember).mp hok).2.1 hjoin

end

/-! ## Ids -/

/-- The texts whose digests make the event's id. -/
def hashedTexts (env : Env) (q : Pdu) : List (List UInt8) :=
  let built := { q with eventId := placeholderEventId }
  [built.contentText, built.referenceText env.sha256 maxSupportedRoomVersion]

/-- The digest tells apart the texts under the ids of the events. -/
def DigestsDiffer (env : Env) (events : List Pdu) : Prop :=
  ∀ text ∈ events.flatMap (hashedTexts env), ∀ text' ∈ events.flatMap (hashedTexts env),
    env.sha256 text = env.sha256 text' → text = text'

/-- The event's id is the one that the server gives it. -/
def GenuineId (env : Env) (q : Pdu) : Prop :=
  withReferenceId env { q with eventId := placeholderEventId } = some q

section

variable {env : Env} {events : List Pdu}

theorem contentText_eq_of_referenceId_eq (hdigests : ∀ text ∈ [p.contentText,
      p.referenceText env.sha256 maxSupportedRoomVersion], ∀ text' ∈ [q.contentText,
      q.referenceText env.sha256 maxSupportedRoomVersion],
        env.sha256 text = env.sha256 text' → text = text')
    (h : p.referenceId env.sha256 maxSupportedRoomVersion =
      q.referenceId env.sha256 maxSupportedRoomVersion) : p.contentText = q.contentText := by
  have htext : p.referenceText env.sha256 maxSupportedRoomVersion =
      q.referenceText env.sha256 maxSupportedRoomVersion :=
    hdigests _ (List.mem_cons_of_mem _ List.mem_cons_self) _
      (List.mem_cons_of_mem _ List.mem_cons_self) (base64urlEncode_injective (List.cons.inj h).2)
  exact hdigests _ List.mem_cons_self _ List.mem_cons_self
    (base64Encode_injective (Pdu.contentHash_eq_of_text htext))

/-- An event that the server builds and names has the id that the server gives it. -/
theorem genuineId_of_built {built : Pdu} (h : withReferenceId env built = some q)
    (hbuilt : built.eventId = placeholderEventId) : GenuineId env q := by
  have hback : { q with eventId := placeholderEventId } = built := by
    obtain ⟨id, rfl⟩ := withReferenceId_eq_some h
    rw [← hbuilt]
  rw [GenuineId, hback]
  exact h

/-- One id, one unhashed event. -/
theorem contentText_eq_of_eventId_eq (hdigests : DigestsDiffer env events) (hp : p ∈ events)
    (hq : q ∈ events) (hpId : GenuineId env p) (hqId : GenuineId env q)
    (hid : p.eventId = q.eventId) : p.contentText = q.contentText := by
  have hmem : ∀ r ∈ events, ∀ text ∈ hashedTexts env r, text ∈ events.flatMap (hashedTexts env) :=
    fun r hr text htext => List.mem_flatMap.mpr ⟨r, hr, htext⟩
  obtain ⟨idP, hparseP, hbuiltP⟩ := Option.map_eq_some_iff.mp hpId
  obtain ⟨idQ, hparseQ, hbuiltQ⟩ := Option.map_eq_some_iff.mp hqId
  have hsame : idP = idQ :=
    (congrArg Pdu.eventId hbuiltP).trans (hid.trans (congrArg Pdu.eventId hbuiltQ).symm)
  have hreference := (EventId.asStr_of_parse hparseP).symm.trans
    ((congrArg EventId.asStr hsame).trans (EventId.asStr_of_parse hparseQ))
  have hbuilt := contentText_eq_of_referenceId_eq
    (fun text htext text' htext' => hdigests text (hmem p hp text htext) text'
      (hmem q hq text' htext')) hreference
  exact hbuilt

theorem contentStr_eq (p : Pdu) (key : Str) :
    p.contentStr key = ((p.content.getD (.object [])).written.get key).bind Json.asStr := by
  have hstr : ∀ v : Json, v.written.asStr = v.asStr := fun v => by cases v <;> rfl
  rw [Pdu.contentStr, Json.get_written]
  cases p.content with
  | none => rfl
  | some c =>
      rw [Option.bind_some, Option.getD_some]
      cases c.get key with
      | none => rfl
      | some v => exact (hstr v).symm

/-- One id, one slot and one text for each field of the content. -/
theorem same_of_contentText_eq (h : p.contentText = q.contentText) :
    stateSlot p = stateSlot q ∧ ∀ key, p.contentStr key = q.contentStr key := by
  have hfield := Pdu.unhashed_eq_of_text h
  obtain ⟨-, -, hpKind, hpKey, -, -, -, -, hpContent⟩ := Pdu.unhashed_fields p
  obtain ⟨-, -, hqKind, hqKey, -, -, -, -, hqContent⟩ := Pdu.unhashed_fields q
  have hkind := hfield "type".toList
  rw [hpKind, hqKind] at hkind
  have hkind : p.kind = q.kind := Json.string.inj (Option.some.inj hkind)
  have hkey := hfield "state_key".toList
  rw [hpKey, hqKey, Option.map_map, Option.map_map] at hkey
  have hinjective : Function.Injective (Json.written ∘ Json.string) :=
    fun _ _ heq => Json.string.inj heq
  have hkey : p.stateKey = q.stateKey := Option.map_injective hinjective hkey
  have hcontent := hfield "content".toList
  rw [hpContent, hqContent] at hcontent
  constructor
  · rw [stateSlot, stateSlot, Pdu.stateTuple, Pdu.stateTuple, hkind, hkey]
  · intro key
    rw [contentStr_eq, contentStr_eq, Option.some.inj hcontent]

/-! ## The events of the room -/

/-- An event of the room as the server makes them. -/
structure LocalEvent (env : Env) (room : RoomId) (creator : UserId) (events : List Pdu) (q : Pdu) :
    Prop where
  mem : q ∈ events
  room : q.roomId = room
  genuine : GenuineId env q
  state : q.stateKey.isSome = true → LocalState creator q

/-- The room's timeline holds such events alone, and its slots are their own. -/
structure LocalRoom (env : Env) (room : RoomId) (creator : UserId) (events : List Pdu) (t : Data) :
    Prop where
  keyed : Keyed t
  timeline : ∀ p ∈ timeline t room, LocalEvent env room creator events p
  slots : OwnSlots t room

variable {room : RoomId} {t u : Data}

theorem LocalEvent.plainKind (h : LocalEvent env room creator events q) : PlainKind q := by
  have hplain : ∀ kind ∈ [roomCreate, roomPowerLevels, roomName, roomTopic, roomMember],
      sep ∉ kind := by decide
  intro tuple htuple
  obtain ⟨key, hkey, heq⟩ := Option.map_eq_some_iff.mp htuple
  have hstate : q.stateKey.isSome = true := by rw [hkey]; rfl
  rw [← heq]
  exact hplain q.kind (h.state hstate).kind_mem

theorem LocalEvent.same_of_eventId_eq (hdigests : DigestsDiffer env events)
    (hp : LocalEvent env room creator events p) (hq : LocalEvent env room creator events q)
    (hid : p.eventId = q.eventId) :
    stateSlot p = stateSlot q ∧ ∀ key, p.contentStr key = q.contentStr key :=
  same_of_contentText_eq
    (contentText_eq_of_eventId_eq hdigests hp.mem hq.mem hp.genuine hq.genuine hid)

/-- Events of one room under one timeline key have one id. -/
theorem eventId_eq_of_timelineKey_eq (hroom : p.roomId = q.roomId)
    (hkey : timelineKey p = timelineKey q) : p.eventId = q.eventId := by
  unfold timelineKey at hkey
  rw [hroom] at hkey
  have hrest := (List.cons.inj (List.append_cancel_left hkey)).2
  exact EventId.ext
    (append_sep_inj (sep_not_mem_padDecimal _ _) (sep_not_mem_padDecimal _ _) hrest).2

theorem mem_timeline_append_self (hs : Keyed t) (hroom : q.roomId = room) :
    p ∈ RoomService.timeline (append t q) room ↔
      p = q ∨ p ∈ RoomService.timeline t room ∧ timelineKey p ≠ timelineKey q := by
  have hpre : startsWith (roomPrefix room) (timelineKey q) = true := by
    rw [startsWith_iff, ← hroom, roomPrefix, timelineKey]
    exact ⟨padDecimal 20 q.depth.toNat ++ sep :: q.eventId.asStr, by simp⟩
  rw [mem_timeline_append hs]
  constructor
  · exact fun h => h.1
  · intro h
    rcases h with h | h
    · exact ⟨.inl h, h ▸ hpre⟩
    · exact ⟨.inr h, ((mem_timeline_iff hs).mp h.1).2⟩

section Append

variable (h : LocalRoom env room creator events t) (hdigests : DigestsDiffer env events)
  (hq : LocalEvent env room creator events q)

include h hq

theorem LocalRoom.timeline_append :
    ∀ p ∈ RoomService.timeline (append t q) room, LocalEvent env room creator events p := by
  intro p hp
  rcases (mem_timeline_append_self h.keyed hq.room).mp hp with hp | ⟨hp, -⟩
  · rw [hp]
    exact hq
  · exact h.timeline p hp

/-- A lookup of another id finds what it found. -/
theorem LocalRoom.pdu_append_of_ne {id : EventId} (hne : q.eventId ≠ id) :
    pdu (append t q) room id = pdu t room id := by
  apply pdu_congr (h.keyed.append q) h.keyed
  intro p hid
  rw [mem_timeline_append_self h.keyed hq.room]
  constructor
  · intro hp
    rcases hp with hp | ⟨hp, -⟩
    · exact absurd (hp ▸ hid) hne
    · exact hp
  · intro hp
    have hkey : timelineKey p ≠ timelineKey q := by
      intro hkey
      have hroom : p.roomId = q.roomId := (h.timeline p hp).room.trans hq.room.symm
      exact hne ((eventId_eq_of_timelineKey_eq hroom hkey).symm.trans hid)
    exact .inr ⟨hp, hkey⟩

include hdigests

/-- A lookup of the appended event's id finds an event of its slot with its content. -/
theorem LocalRoom.pdu_append_self : ∃ p, pdu (append t q) room q.eventId = some p ∧
    stateSlot p = stateSlot q ∧ ∀ key, p.contentStr key = q.contentStr key := by
  have hfound : (pdu (append t q) room q.eventId).isSome = true :=
    pdu_isSome_iff.mpr ⟨q, (mem_timeline_append_self h.keyed hq.room).mpr (.inl rfl), rfl⟩
  obtain ⟨p, hp⟩ := Option.isSome_iff_exists.mp hfound
  obtain ⟨hmem, hid⟩ := mem_timeline_of_pdu hp
  exact ⟨p, hp, (h.timeline_append hq p hmem).same_of_eventId_eq hdigests hq hid⟩

/-- An event under a slot that the appended event does not fill has another id. -/
theorem LocalRoom.eventId_ne {slotKey : StateKey} {id : EventId}
    (hid : (currentState t room).get slotKey = some id) (hslot : stateSlot q ≠ some slotKey) :
    q.eventId ≠ id := by
  intro heq
  obtain ⟨p, hp, hpSlot⟩ := h.slots slotKey id hid
  obtain ⟨hmem, hpId⟩ := mem_timeline_of_pdu hp
  have hsame := ((h.timeline p hmem).same_of_eventId_eq hdigests hq (hpId.trans heq.symm)).1
  exact hslot (hsame.symm.trans hpSlot)

theorem LocalRoom.append : LocalRoom env room creator events (append t q) := by
  constructor
  case keyed => exact h.keyed.append q
  case timeline => exact h.timeline_append hq
  case slots =>
    -- the slot that `q` fills has the id of `q`; any other slot has an event of another id
    intro slotKey id hid
    rw [currentState_get_append_self hq.room hq.plainKind] at hid
    by_cases hslot : stateSlot q = some slotKey
    · rw [if_pos hslot] at hid
      obtain ⟨p, hp, hsame, -⟩ := h.pdu_append_self hdigests hq
      rw [← Option.some.inj hid]
      exact ⟨p, hp, hsame.trans hslot⟩
    · rw [if_neg hslot] at hid
      obtain ⟨p, hp, hpSlot⟩ := h.slots slotKey id hid
      rw [h.pdu_append_of_ne hq (h.eventId_ne hdigests hq hid hslot)]
      exact ⟨p, hp, hpSlot⟩

/-- An append keeps the event of every slot that its event does not fill. -/
theorem LocalRoom.slotEvent_append {slotKey : StateKey} (hslot : stateSlot q ≠ some slotKey) :
    ((currentState (RoomService.append t q) room).get slotKey).bind
        (pdu (RoomService.append t q) room) =
      ((currentState t room).get slotKey).bind (pdu t room) := by
  rw [currentState_get_append_self hq.room hq.plainKind, if_neg hslot]
  cases hid : (currentState t room).get slotKey with
  | none => rfl
  | some id => exact h.pdu_append_of_ne hq (h.eventId_ne hdigests hq hid hslot)

/-- An append changes the membership of the user whose slot its event fills. -/
theorem LocalRoom.membership_append (user : Str) :
    membership (RoomService.append t q) room user =
      if stateSlot q = some (slot roomMember user) then q.contentStr "membership"
      else membership t room user := by
  have hafter := (h.append hdigests hq).slots.wellSlotted.membership user
  have hbefore := h.slots.wellSlotted.membership user
  rw [membership, membership, currentStatePdus, currentStatePdus, hafter, hbefore]
  by_cases hslot : stateSlot q = some (slot roomMember user)
  · rw [if_pos hslot, currentState_get_append_self hq.room hq.plainKind, if_pos hslot,
      Option.bind_some]
    obtain ⟨p, hp, -, hcontent⟩ := h.pdu_append_self hdigests hq
    rw [hp]
    exact hcontent "membership"
  · rw [if_neg hslot, h.slotEvent_append hdigests hq hslot]

end Append

theorem LocalRoom.of_sameRooms (h : LocalRoom env room creator events u) (hsame : SameRooms t u) :
    LocalRoom env room creator events t := by
  constructor
  case keyed => exact hsame.keyed h.keyed
  case timeline =>
    rw [hsame.timeline]
    exact h.timeline
  case slots => exact hsame.ownSlots h.slots

/-- The slots that a new room fills first: its creation, its power levels and its creator. -/
def firstSlots (creator : UserId) : List StateKey :=
  [slot roomCreate [], slot roomPowerLevels [], slot roomMember creator.asStr]

/-- The slots of the room that a new room fills first are filled. -/
def Opened (room : RoomId) (creator : UserId) (t : Data) : Prop :=
  ∀ slotKey ∈ firstSlots creator, ((currentState t room).get slotKey).isSome = true

theorem isSome_slot_append {slotKey : StateKey} (hq : LocalEvent env room creator events q)
    (h : stateSlot q = some slotKey ∨ ((currentState t room).get slotKey).isSome = true) :
    ((currentState (RoomService.append t q) room).get slotKey).isSome = true := by
  rw [currentState_get_append_self hq.room hq.plainKind]
  by_cases hslot : stateSlot q = some slotKey
  · rw [if_pos hslot]
    rfl
  · rw [if_neg hslot]
    exact h.resolve_left hslot

theorem Opened.append (h : Opened room creator t) (hq : LocalEvent env room creator events q) :
    Opened room creator (RoomService.append t q) :=
  fun slotKey hkey => isSome_slot_append hq (.inr (h slotKey hkey))

theorem Opened.of_sameRooms (h : Opened room creator u) (hsame : SameRooms t u) :
    Opened room creator t := by
  unfold Opened
  rw [hsame.currentState]
  exact h

/-- A filled slot has an event of the current state. -/
theorem LocalRoom.exists_of_isSome (h : LocalRoom env room creator events t) {kind key : Str}
    (hfilled : ((currentState t room).get (slot kind key)).isSome = true) :
    ∃ p ∈ currentStatePdus t room, p.kind = kind ∧ p.stateKey = some key ∧
      ((currentState t room).get (slot kind key)).bind (pdu t room) = some p := by
  obtain ⟨id, hid⟩ := Option.isSome_iff_exists.mp hfilled
  obtain ⟨p, hp, hslot⟩ := h.slots (slot kind key) id hid
  obtain ⟨hkind, hkey⟩ := stateSlot_eq_some_iff.mp hslot
  refine ⟨p, mem_stateEvents.mpr ⟨slot kind key, id, hid, hp⟩, hkind, hkey, ?_⟩
  rw [hid]
  exact hp

theorem LocalRoom.localState (h : LocalRoom env room creator events t) :
    ∀ p ∈ currentStatePdus t room, LocalState creator p := by
  intro p hp
  obtain ⟨⟨kind, key⟩, id, hid, hp⟩ := mem_stateEvents.mp hp
  obtain ⟨p', hp', hslot⟩ := h.slots _ id hid
  have hsame : p' = p := Option.some.inj (hp'.symm.trans hp)
  rw [hsame] at hslot
  have hkey : p.stateKey = some key := (stateSlot_eq_some_iff.mp hslot).2
  exact (h.timeline p (mem_timeline_of_pdu hp).1).state (by rw [hkey]; rfl)

theorem LocalRoom.creatorView (h : LocalRoom env room creator events t)
    (hopened : Opened room creator t) :
    CreatorView creator (AuthView.new (currentStatePdus t room)) := by
  obtain ⟨c, hc, hcKind, -, -⟩ := h.exists_of_isSome (hopened _ List.mem_cons_self)
  obtain ⟨l, hl, hlKind, -, -⟩ :=
    h.exists_of_isSome (hopened _ (List.mem_cons_of_mem _ List.mem_cons_self))
  obtain ⟨m, hm, hmKind, hmKey, hmSlot⟩ := h.exists_of_isSome
    (hopened _ (List.mem_cons_of_mem _ (List.mem_cons_of_mem _ List.mem_cons_self)))
  apply creatorView_new h.localState ⟨c, hc, hcKind⟩ ⟨l, hl, hlKind⟩
  -- the creator's own slot is filled, so their first join is not admitted a second time
  have hmembership := h.slots.wellSlotted.membership creator.asStr
  obtain ⟨membership, content⟩ := (h.localState m hm).of_member hmKind
  have hsome : m.contentStr "membership" = some membership := contentStr_singleField content
  rw [currentStatePdus, hmembership, hmSlot, Option.bind_some, hsome]
  exact Option.some_ne_none membership

/-! ## Calls on the room -/

/-- The call changes a membership in the room, to one of the four that it can be changed to, or sends
a message to the room. -/
def Op.IsCallOn (room : RoomId) : Op → Prop
  | changeMembership _ room' _ membership _ => room' = room ∧
      membership ∈ ["join".toList, "leave".toList, "invite".toList, "ban".toList]
  | sendMessage _ room' _ _ _ _ => room' = room
  | createRoom _ _ _ _ => False
  | receiveTransaction _ => False

instance (room : RoomId) : (op : Op) → Decidable (op.IsCallOn room)
  | .createRoom _ _ _ _ => inferInstanceAs (Decidable False)
  | .changeMembership _ _ _ _ _ => inferInstanceAs (Decidable (_ ∧ _))
  | .sendMessage _ _ _ _ _ _ => inferInstanceAs (Decidable (_ = _))
  | .receiveTransaction _ => inferInstanceAs (Decidable False)

/-- What a call appends: nothing, or one event that the rules accept over the current state. -/
theorem appended_call {op : Op} (hop : op.IsCallOn room) :
    appended env t op = [] ∨ ∃ q, appended env t op = [q] ∧ AppendedBy env t (t, q) op := by
  have hone : ∀ built : Option Pdu, (built.bind (authorized env t)).toList = [] ∨
      ∃ q, (built.bind (authorized env t)).toList = [q] ∧ built = some q ∧
        checkAuth env.verifyB64 q (currentStatePdus t q.roomId) = .ok () := by
    intro built
    cases hq : built.bind (authorized env t) with
    | none => exact .inl rfl
    | some q =>
        obtain ⟨p, hp, hauthorized⟩ := Option.bind_eq_some_iff.mp hq
        obtain ⟨hsame, hok⟩ := authorized_eq_some_iff.mp hauthorized
        exact .inr ⟨q, rfl, hsame ▸ hp, hok⟩
  cases op with
  | createRoom creator name topic now => exact hop.elim
  | changeMembership actor room' target membership now => exact hone _
  | sendMessage sender room' eventType txnId content now =>
      rw [appended]
      cases t.get .transactions (txnKey sender txnId) with
      | some existing => exact .inl rfl
      | none => exact hone _
  | receiveTransaction txn => exact hop.elim

/-- What a call appends is an event of the room: a member event or a message. -/
theorem localEvent_call {op : Op} (hop : op.IsCallOn room) (hadd : AppendedBy env t (t, q) op)
    (hq : q ∈ events) : LocalEvent env room creator events q ∧
      (q.kind = roomMember ∨ q.stateKey = none) ∧
        checkAuth env.verifyB64 q (currentStatePdus t room) = .ok () := by
  cases op with
  | createRoom creator name topic now => exact hop.elim
  | changeMembership actor room' target membership now =>
      obtain ⟨hbuilt, hok⟩ := hadd
      have hbuilt : membershipEvent env t actor room' target membership now = some q := hbuilt
      obtain ⟨hroom, -, hkind, -⟩ := membershipEvent_fields hbuilt
      obtain ⟨link, -, hid⟩ := Option.bind_eq_some_iff.mp hbuilt
      have hcontent : q.contentJson = singleField "membership" membership := by
        obtain ⟨id, rfl⟩ := withReferenceId_eq_some hid
        rfl
      rw [← hop.1, ← hroom]
      exact ⟨⟨hq, rfl, genuineId_of_built hid rfl, fun _ => .member hkind membership hcontent⟩,
        .inl hkind, hok⟩
  | sendMessage sender room' eventType txnId content now =>
      obtain ⟨hbuilt, hok⟩ := hadd
      have hbuilt : messageEvent env t sender room' eventType content now = some q := hbuilt
      obtain ⟨hroom, -, -, hkey⟩ := messageEvent_fields hbuilt
      obtain ⟨link, -, hid⟩ := Option.bind_eq_some_iff.mp hbuilt
      have hnone : ¬ q.stateKey.isSome = true := by
        rw [hkey]
        exact Bool.false_ne_true
      have hop : room' = room := hop
      rw [← hop, ← hroom]
      exact ⟨⟨hq, rfl, genuineId_of_built hid rfl, fun hstate => absurd hstate hnone⟩,
        .inr hkey, hok⟩
  | receiveTransaction txn => exact hop.elim

/-- What one call can do to the room. -/
structure AutomatonStep (env : Env) (room : RoomId) (creator : UserId) (t : Data) (op : Op) :
    Prop where
  /-- The create and power-levels slots stay as they are. -/
  slots : ∀ kind ∈ [roomCreate, roomPowerLevels],
    stateEventPdu (step env t op) room kind [] = stateEventPdu t room kind []
  /-- Who comes to be joined was invited. -/
  join : ∀ user, membership (step env t op) room user = some "join".toList →
    membership t room user ≠ some "join".toList →
      membership t room user = some "invite".toList
  /-- Only the creator removes another user, and nobody bans or removes the creator. -/
  removal : ∀ q ∈ appended env t op, ∀ target, q.kind = roomMember → q.stateKey = some target →
    (q.contentStr "membership" = some "leave".toList ∧ target ≠ q.sender.asStr ∨
      q.contentStr "membership" = some "ban".toList) → q.sender = creator ∧ target ≠ creator.asStr
  /-- Who is neither joined nor invited can only leave. -/
  outsider : ∀ q ∈ appended env t op, membership t room q.sender.asStr ≠ some "join".toList →
    membership t room q.sender.asStr ≠ some "invite".toList → IsOwnLeave room q.sender q

theorem stateEventPdu_eq {kind key : Str} (hkind : sep ∉ kind) : stateEventPdu t room kind key =
    ((currentState t room).get (slot kind key)).bind (pdu t room) := by
  rw [stateEventPdu]
  congr 1
  apply Option.ext
  intro id
  rw [currentState_get_iff]
  exact (and_iff_right hkind).symm

/-- One call keeps the room as it is made, and does only what it can. -/
theorem LocalRoom.step {op : Op} (h : LocalRoom env room creator events t)
    (hopened : Opened room creator t) (hdigests : DigestsDiffer env events)
    (hop : op.IsCallOn room) (hmem : ∀ q ∈ appended env t op, q ∈ events) :
    AutomatonStep env room creator t op ∧
      LocalRoom env room creator events (Svc.step env t op) ∧
        Opened room creator (Svc.step env t op) := by
  -- a call leaves the rooms as an append of its event leaves them, or as they are
  have hsame := step_sameRooms env t op
  rcases @appended_call env room t op hop with hnone | ⟨q, hone, hadd⟩
  · rw [hnone] at hsame hmem
    refine ⟨?_, h.of_sameRooms hsame, hopened.of_sameRooms hsame⟩
    constructor
    case slots => exact fun kind _ => hsame.stateEventPdu room kind []
    case join =>
      intro user hjoined hnot
      rw [hsame.membership] at hjoined
      exact absurd hjoined hnot
    case removal =>
      rw [hnone]
      exact fun q hq => absurd hq List.not_mem_nil
    case outsider =>
      rw [hnone]
      exact fun q hq => absurd hq List.not_mem_nil
  · rw [hone] at hsame hmem
    obtain ⟨hq, hkind, hok⟩ :=
      @localEvent_call q creator env events room t op hop hadd (hmem q List.mem_cons_self)
    have hview := h.creatorView hopened
    have hafter := h.append hdigests hq
    refine ⟨?_, hafter.of_sameRooms hsame, (hopened.append hq).of_sameRooms hsame⟩
    constructor
    case slots =>
      -- a call appends a member event or no state event, so it fills neither slot
      intro kind hslot
      have hplain : ∀ kind ∈ [roomCreate, roomPowerLevels], sep ∉ kind ∧ kind ≠ roomMember := by
        decide
      obtain ⟨hsep, hne⟩ := hplain kind hslot
      have hother : stateSlot q ≠ some (slot kind []) := by
        intro heq
        obtain ⟨hqKind, hqKey⟩ := stateSlot_eq_some_iff.mp heq
        rcases hkind with hmember | hmessage
        · exact hne (hqKind.symm.trans hmember)
        · exact nomatch hmessage.symm.trans hqKey
      rw [hsame.stateEventPdu, stateEventPdu_eq hsep, stateEventPdu_eq hsep]
      exact h.slotEvent_append hdigests hq hother
    case join =>
      intro user hjoined hnot
      have hmembership : membership (Svc.step env t op) room user =
          membership (RoomService.append t q) room user := hsame.membership room user
      rw [hmembership, h.membership_append hdigests hq] at hjoined
      by_cases hslot : stateSlot q = some (slot roomMember user)
      · rw [if_pos hslot] at hjoined
        obtain ⟨hmember, hkey⟩ := stateSlot_eq_some_iff.mp hslot
        have hverdict := ((checkAuthView_member hmember).mp hok).2
        exact (hview.join hkey hjoined hverdict).2
      · rw [if_neg hslot] at hjoined
        exact absurd hjoined hnot
    case removal =>
      intro p hp target hmember hkey hm
      rw [hone, List.mem_singleton] at hp
      rw [hp] at hmember hkey hm ⊢
      have hverdict := ((checkAuthView_member hmember).mp hok).2
      exact hview.removal hkey hm hverdict
    case outsider =>
      intro p hp hjoin hinvite
      rw [hone, List.mem_singleton] at hp
      rw [hp] at hjoin hinvite ⊢
      obtain ⟨hmember, hkey, hleave⟩ := hview.outsider hjoin hinvite hok
      exact ⟨⟨hq.room, hmember, hkey⟩, rfl, hleave⟩

/-! ## The new room -/

variable {s : Data} {name topic : Option Str} {now : Nat → UInt64} {i : Nat}
  {prevEvents : List EventId} {contents : List (Str × Str × Str)}

theorem built_of_mem_initialEvents
    (hp : p ∈ initialEvents env room creator now i prevEvents contents) :
    p.roomId = room ∧ p.sender = creator ∧ GenuineId env p := by
  induction contents generalizing i prevEvents with
  | nil => exact absurd hp List.not_mem_nil
  | cons content contents ih =>
      simp only [initialEvents] at hp
      split at hp
      · exact absurd hp List.not_mem_nil
      · rename_i q hq
        rcases List.mem_cons.mp hp with hp | hp
        · rw [hp]
          have hgenuine := genuineId_of_built hq rfl
          obtain ⟨id, rfl⟩ := withReferenceId_eq_some hq
          exact ⟨rfl, rfl, hgenuine⟩
        · exact ih hp

/-- Where every event got an id there is one for each content. -/
theorem map_content_initialEvents
    (hall : (initialEvents env room creator now i prevEvents contents).length = contents.length) :
    (initialEvents env room creator now i prevEvents contents).map
        (fun p => (p.kind, p.stateKey, p.contentJson)) =
      contents.map fun c => (c.1, some c.2.1, c.2.2) := by
  induction contents generalizing i prevEvents with
  | nil => rfl
  | cons content contents ih =>
      simp only [initialEvents] at hall ⊢
      revert hall
      split
      · intro hall
        exact absurd hall (by simp)
      · rename_i q hq
        intro hall
        rw [List.length_cons, List.length_cons, Nat.add_right_cancel_iff] at hall
        rw [List.map_cons, List.map_cons, ih hall]
        obtain ⟨id, rfl⟩ := withReferenceId_eq_some hq
        rfl

theorem localState_of_content {c : Str × Str × Str} (hc : c ∈ initialState creator name topic)
    (hsender : p.sender = creator)
    (hp : (p.kind, p.stateKey, p.contentJson) = (c.1, some c.2.1, c.2.2)) :
    LocalState creator p := by
  obtain ⟨hkind, hrest⟩ := Prod.mk.inj hp
  obtain ⟨-, hcontent⟩ := Prod.mk.inj hrest
  simp only [initialState, List.mem_append, List.mem_cons, List.not_mem_nil, or_false,
    Option.mem_toList, Option.map_eq_some_iff] at hc
  rcases hc with ((rfl | rfl | rfl) | ⟨_, -, rfl⟩) | ⟨_, -, rfl⟩
  · exact .create hkind hsender hcontent
  · exact .member hkind "join".toList hcontent
  · exact .powerLevels hkind hcontent
  · exact .described (.inl hkind)
  · exact .described (.inr hkind)

/-- What a created room is. -/
theorem createRoom_eq_some (h : createRoom env s creator name topic now = (some room, t)) :
    t = (createdEvents env s creator name topic now).foldl RoomService.append s ∧
      (createdEvents env s creator name topic now).map
          (fun p => (p.kind, p.stateKey, p.contentJson)) =
        (initialState creator name topic).map (fun c => (c.1, some c.2.1, c.2.2)) ∧
      ∀ p ∈ createdEvents env s creator name topic now,
        p.roomId = room ∧ GenuineId env p ∧ LocalState creator p := by
  unfold createRoom at h
  unfold createdEvents
  cases hmint : mintRoomId env s creator (now 0) with
  | none =>
      rw [hmint] at h
      exact nomatch (Prod.mk.inj h).1
  | some minted =>
      rw [hmint] at h
      dsimp only at h
      obtain ⟨hroom, hdata⟩ := Prod.mk.inj h
      by_cases hall : (initialEvents env minted creator now 0 []
          (initialState creator name topic)).length = (initialState creator name topic).length
      · rw [if_pos hall, Option.some.injEq] at hroom
        refine ⟨hdata.symm, map_content_initialEvents hall, fun p hp => ?_⟩
        obtain ⟨hpRoom, hsender, hgenuine⟩ := built_of_mem_initialEvents hp
        obtain ⟨c, hc, heq⟩ := List.mem_map.mp (exists_content_of_mem_initialEvents hp)
        exact ⟨hpRoom.trans hroom, hgenuine, localState_of_content hc hsender heq.symm⟩
      · rw [if_neg hall] at hroom
        exact nomatch hroom

/-- Appends of such events keep the room as it is made and fill their slots. -/
theorem LocalRoom.foldl_append {ps : List Pdu} (h : LocalRoom env room creator events t)
    (hdigests : DigestsDiffer env events)
    (hps : ∀ p ∈ ps, LocalEvent env room creator events p) :
    LocalRoom env room creator events (ps.foldl RoomService.append t) ∧
      ∀ slotKey, (∃ p ∈ ps, stateSlot p = some slotKey) ∨
        ((currentState t room).get slotKey).isSome = true →
          ((currentState (ps.foldl RoomService.append t) room).get slotKey).isSome = true := by
  -- a slot filled before the first append stays filled through the others
  induction ps generalizing t with
  | nil =>
      apply And.intro h
      intro slotKey hfilled
      rcases hfilled with ⟨p, hp, -⟩ | hfilled
      · exact absurd hp List.not_mem_nil
      · exact hfilled
  | cons p ps ih =>
      obtain ⟨hp, hps⟩ := List.forall_mem_cons.mp hps
      obtain ⟨hroom, hslots⟩ := ih (h.append hdigests hp) hps
      apply And.intro hroom
      intro slotKey hfilled
      apply hslots
      rcases hfilled with ⟨p', hp', hslot⟩ | hfilled
      · rcases List.mem_cons.mp hp' with hfirst | hlater
        · rw [hfirst] at hslot
          exact .inr (isSome_slot_append hp (.inl hslot))
        · exact .inl ⟨p', hlater, hslot⟩
      · exact .inr (isSome_slot_append hp (.inr hfilled))

/-- The room id is not in use: no event is stored for it and no slot of it is filled. -/
structure Unclaimed (s : Data) (room : RoomId) : Prop where
  timeline : timeline s room = []
  slots : ∀ slotKey, (currentState s room).get slotKey = none

theorem localRoom_of_unclaimed (hs : Keyed s) (h : Unclaimed s room) :
    LocalRoom env room creator events s := by
  constructor
  case keyed => exact hs
  case timeline =>
    rw [h.timeline]
    exact fun p hp => absurd hp List.not_mem_nil
  case slots =>
    intro slotKey id hid
    exact nomatch (h.slots slotKey).symm.trans hid

/-- A new room under an unused id is made so. -/
theorem localRoom_createRoom (hs : Keyed s) (hunclaimed : Unclaimed s room)
    (hdigests : DigestsDiffer env events)
    (h : createRoom env s creator name topic now = (some room, t))
    (hmem : ∀ p ∈ createdEvents env s creator name topic now, p ∈ events) :
    LocalRoom env room creator events t ∧ Opened room creator t := by
  obtain ⟨hdata, hcontents, hevents⟩ := createRoom_eq_some h
  have hlocal : ∀ p ∈ createdEvents env s creator name topic now,
      LocalEvent env room creator events p := by
    intro p hp
    obtain ⟨hroom, hgenuine, hstate⟩ := hevents p hp
    exact ⟨hmem p hp, hroom, hgenuine, fun _ => hstate⟩
  obtain ⟨hroom, hslots⟩ :=
    LocalRoom.foldl_append (localRoom_of_unclaimed hs hunclaimed) hdigests hlocal
  rw [hdata]
  apply And.intro hroom
  intro slotKey hkey
  have hcontent : ∃ c ∈ initialState creator name topic, slotKey = slot c.1 c.2.1 := by
    simp only [firstSlots, List.mem_cons, List.not_mem_nil, or_false] at hkey
    rcases hkey with hkey | hkey | hkey
    · exact ⟨(roomCreate, [], createContent creator), by simp [initialState], hkey⟩
    · exact ⟨(roomPowerLevels, [], powerLevelsContent creator), by simp [initialState], hkey⟩
    · exact ⟨(roomMember, creator.asStr, memberJoinContent), by simp [initialState], hkey⟩
  obtain ⟨c, hc, hslot⟩ := hcontent
  have hevent : (c.1, some c.2.1, c.2.2) ∈ (createdEvents env s creator name topic now).map
      fun p => (p.kind, p.stateKey, p.contentJson) := by
    rw [hcontents]
    exact List.mem_map.mpr ⟨c, hc, rfl⟩
  obtain ⟨p, hp, heq⟩ := List.mem_map.mp hevent
  obtain ⟨hkind, hrest⟩ := Prod.mk.inj heq
  obtain ⟨hkey', -⟩ := Prod.mk.inj hrest
  rw [hslot]
  exact hslots _ (.inl ⟨p, hp, stateSlot_eq_some_iff.mpr ⟨hkind, hkey'⟩⟩)

/-- Over a run of calls every call does only what it can, and the two slots keep their events. -/
theorem LocalRoom.run {ops : List Op} (h : LocalRoom env room creator events t)
    (hopened : Opened room creator t) (hdigests : DigestsDiffer env events)
    (hcalls : ∀ op ∈ ops, op.IsCallOn room) (hmem : ∀ x ∈ runAppends env t ops, x.2 ∈ events) :
    (∀ x ∈ trace (Svc.step env) t ops, AutomatonStep env room creator x.1 x.2) ∧
      ∀ kind ∈ [roomCreate, roomPowerLevels],
        stateEventPdu (Library.run (Svc.step env) t ops) room kind [] =
          stateEventPdu t room kind [] := by
  induction ops generalizing t with
  | nil => exact ⟨fun x hx => absurd hx List.not_mem_nil, fun _ _ => rfl⟩
  | cons op ops ih =>
      obtain ⟨hop, hcalls⟩ := List.forall_mem_cons.mp hcalls
      rw [runAppends_cons, List.forall_mem_append] at hmem
      have hfirst : ∀ q ∈ appended env t op, q ∈ events := by
        intro q hq
        have hsnd : q ∈ (appends env t op).map Prod.snd := by
          rw [appends, map_snd_trace]
          exact hq
        obtain ⟨y, hy, hyq⟩ := List.mem_map.mp hsnd
        rw [← hyq]
        exact hmem.1 y hy
      obtain ⟨hstep, hroom, hopen⟩ := h.step hopened hdigests hop hfirst
      obtain ⟨hsteps, hslots⟩ := ih hroom hopen hcalls hmem.2
      constructor
      · exact List.forall_mem_cons.mpr ⟨hstep, hsteps⟩
      · intro kind hkind
        exact (hslots kind hkind).trans (hstep.slots kind hkind)

end

/-- In a room that was made under an unused id, and over any run of membership changes and messages
in it, the create and power-levels slots keep their events, a user comes to be joined from an invite
only, the creator alone removes others and is removed by none, and who is neither joined nor invited
can only leave. -/
theorem membership_automaton (env : Env) (s : Data) (hs : Reachable env s) (creator : UserId)
    (name topic : Option Str) (now : Nat → UInt64) (room : RoomId) (made : Data)
    (hmade : createRoom env s creator name topic now = (some room, made))
    (hunclaimed : Unclaimed s room) (ops : List Op) (hcalls : ∀ op ∈ ops, op.IsCallOn room)
    (hdigests : DigestsDiffer env (createdEvents env s creator name topic now ++
      (runAppends env made ops).map Prod.snd)) :
    (∀ x ∈ trace (step env) made ops, AutomatonStep env room creator x.1 x.2) ∧
      ∀ kind ∈ [roomCreate, roomPowerLevels], ∃ p, stateEventPdu made room kind [] = some p ∧
        stateEventPdu (run (step env) made ops) room kind [] = some p := by
  obtain ⟨hroom, hopened⟩ := localRoom_createRoom hs.keyed hunclaimed hdigests hmade
    fun p hp => List.mem_append_left _ hp
  obtain ⟨hsteps, hslots⟩ := hroom.run hopened hdigests hcalls
    fun x hx => List.mem_append_right _ (List.mem_map_of_mem hx)
  apply And.intro hsteps
  intro kind hkind
  have hfirst : ∀ kind ∈ [roomCreate, roomPowerLevels],
      sep ∉ kind ∧ slot kind [] ∈ firstSlots creator := by
    simp only [List.forall_mem_cons]
    exact ⟨⟨by decide, List.mem_cons_self⟩, ⟨by decide, List.mem_cons_of_mem _ List.mem_cons_self⟩,
      fun _ h => absurd h List.not_mem_nil⟩
  obtain ⟨hsep, hslot⟩ := hfirst kind hkind
  obtain ⟨p, -, -, -, hp⟩ := hroom.exists_of_isSome (hopened _ hslot)
  have hevent : stateEventPdu made room kind [] = some p := (stateEventPdu_eq hsep).trans hp
  exact ⟨p, hevent, (hslots kind hkind).trans hevent⟩

open SampleRun in
/-- Alice makes a room and invites Bob. -/
theorem membership_automaton_sample :
    AutomatonStep env mintedRoom alice (createRoom env Store.empty alice none none fun _ => 0).2
      (.changeMembership alice mintedRoom bob "invite" 1) := by
  have hroom : (createRoom env Store.empty alice none none fun _ => 0).1 = some mintedRoom := by
    decide +kernel
  have hunclaimed : Unclaimed Store.empty mintedRoom := ⟨rfl, fun _ => rfl⟩
  exact (membership_automaton env Store.empty ⟨[], rfl⟩ alice none none (fun _ => 0) mintedRoom
    (createRoom env Store.empty alice none none fun _ => 0).2 (Prod.ext hroom rfl) hunclaimed
    [.changeMembership alice mintedRoom bob "invite" 1] (by decide +kernel)
    fun _ _ _ _ heq => heq).1 _ List.mem_cons_self

end GaussMatrix.Svc
