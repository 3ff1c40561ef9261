import GaussMatrix.Svc.IncrementalSync

/-!
# Presence of co-members

A sync lists the presence of the users who have a member event in the current state of a room that
the user is joined to, whatever membership the event says.
-/

namespace GaussMatrix.Svc

open Library Util Api Api.Events StateRes RoomService

/-! ## Recording presence -/

/-- Record a user's presence and status message. -/
def setPresence (s : Data) (user : UserId) (presence : Str) (statusMsg : Option Str) : Data :=
  s.put .presence user.asStr (.text (presence ++ sep :: statusMsg.getD []))

/-- A call that writes room history, or one that records presence. -/
inductive ServerOp
  | room (op : Op)
  | setPresence (user : UserId) (presence : Str) (statusMsg : Option Str)

/-- The data after a call. -/
def serverStep (env : Env) (s : Data) : ServerOp → Data
  | .room op => step env s op
  | .setPresence user presence statusMsg => setPresence s user presence statusMsg

/-- The appends of a call: the data before each, and its event. -/
def callAppends (env : Env) (s : Data) : ServerOp → List (Data × Pdu)
  | .room op => appends env s op
  | .setPresence _ _ _ => []

/-- The appends of a run of calls. -/
def serverAppends (env : Env) (s : Data) (ops : List ServerOp) : List (Data × Pdu) :=
  (trace (serverStep env) s ops).flatMap fun x => callAppends env x.1 x.2

theorem setPresence_sameRooms (s : Data) (user : UserId) (presence : Str) (statusMsg : Option Str) :
    SameRooms (setPresence s user presence statusMsg) s :=
  SameRooms.put .presence (by decide) s user.asStr _

/-- What the data says of the rooms and every append keeps, a run of calls keeps. -/
theorem holds_along_server_run (env : Env) (ops : List ServerOp) {s : Data} {P : Data → Prop}
    (hsame : ∀ t u, SameRooms t u → P u → P t) (hs : P s)
    (happ : ∀ x ∈ serverAppends env s ops, P x.1 → P (append x.1 x.2)) :
    P (run (serverStep env) s ops) := by
  induction ops generalizing s with
  | nil => exact hs
  | cons op ops ih =>
      have hcons : serverAppends env s (op :: ops) =
          callAppends env s op ++ serverAppends env (serverStep env s op) ops :=
        List.flatMap_cons
      rw [hcons, List.forall_mem_append] at happ
      -- a presence call appends nothing; any other call is a run of its own
      apply ih _ happ.2
      cases op with
      | room op =>
          have hone : ∀ x ∈ runAppends env s [op], P x.1 → P (append x.1 x.2) := by
            rw [runAppends_cons]
            intro x hx
            rcases List.mem_append.mp hx with hx | hx
            · exact happ.1 x hx
            · exact absurd hx List.not_mem_nil
          exact (holds_along_run env [op] hsame hs hone).2
      | setPresence user presence statusMsg =>
          exact hsame _ _ (setPresence_sameRooms s user presence statusMsg) hs

/-! ## Who is listed -/

/-- The user has a member event in the room's current state, of whatever membership. -/
def HasMemberEvent (s : Data) (room : RoomId) (user : UserId) : Prop :=
  ∃ p ∈ currentStatePdus s room, p.kind = roomMember ∧ p.stateKey = some user.asStr

/-- Some room has both users joined. -/
def CoJoined (s : Data) (user other : UserId) : Prop :=
  ∃ room, isJoined s room user = true ∧ isJoined s room other = true

variable {s : Data} {user other : UserId} {x : PresenceUpdate}

theorem user_of_presenceFor (h : presenceFor s user = some x) : x.user = user := by
  obtain ⟨raw, -, hx⟩ := Option.bind_eq_some_iff.mp h
  have hx : some (⟨user, _, _⟩ : PresenceUpdate) = some x := hx
  rw [← Option.some.inj hx]

/-- A member event names the user whose id is its state key. -/
theorem memberOf_eq_some_iff {p : Pdu} :
    (if p.kind ≠ roomMember then none else p.stateKey.bind UserId.parse) = some other ↔
      p.kind = roomMember ∧ p.stateKey = some other.asStr := by
  by_cases hkind : p.kind = roomMember
  · rw [if_neg (not_not.mpr hkind), Option.bind_eq_some_iff]
    constructor
    · intro ⟨key, hkey, hparse⟩
      rw [UserId.asStr_of_parse hparse]
      exact ⟨hkind, hkey⟩
    · intro ⟨_, hkey⟩
      exact ⟨other.asStr, hkey, UserId.parse_asStr other⟩
  · rw [if_pos hkind]
    exact iff_of_false nofun fun h => hkind h.1

/-- A user is listed for a member event in a room that has the reader joined. -/
theorem mem_coResidentPresence : x ∈ coResidentPresence s user ↔
    presenceFor s x.user = some x ∧
      ∃ room ∈ rooms s, isJoined s room user = true ∧ HasMemberEvent s room x.user := by
  have hmember : ∀ other, (∃ room ∈ rooms s, isJoined s room user = true ∧
      HasMemberEvent s room other) ↔
        other ∈ ((rooms s).filter fun room => isJoined s room user).flatMap fun room =>
          (currentStatePdus s room).filterMap fun p =>
            if p.kind ≠ roomMember then none else p.stateKey.bind UserId.parse := by
    intro other
    simp only [List.mem_flatMap, List.mem_filter, List.mem_filterMap, memberOf_eq_some_iff,
      HasMemberEvent, and_assoc]
  rw [coResidentPresence, List.mem_filterMap]
  simp only [mem_sortByKey, List.mem_eraseDups, ← hmember]
  constructor
  · rintro ⟨other, hshares, hx⟩
    rw [user_of_presenceFor hx]
    exact ⟨hx, hshares⟩
  · rintro ⟨hx, hshares⟩
    exact ⟨x.user, hshares, hx⟩

theorem nodup_coResidentPresence (s : Data) (user : UserId) :
    ((coResidentPresence s user).map PresenceUpdate.user).Nodup := by
  rw [coResidentPresence, List.map_filterMap]
  apply List.Nodup.filterMap _ ((perm_sortByKey _).nodup_iff.mpr (nodup_eraseDups _))
  intro a b other ha hb
  obtain ⟨x, hx, hxo⟩ := Option.map_eq_some_iff.mp ha
  obtain ⟨y, hy, hyo⟩ := Option.map_eq_some_iff.mp hb
  rw [← user_of_presenceFor hx, ← user_of_presenceFor hy, hxo, hyo]

/-- The list has the presence of the users who are joined to a room together with the reader, as far
as it is recorded, once each. -/
def ListsCoMembers (s : Data) (user : UserId) (l : List PresenceUpdate) : Prop :=
  (l.map PresenceUpdate.user).Nodup ∧
    ∀ x, x ∈ l ↔ presenceFor s x.user = some x ∧ CoJoined s user x.user

/-- The users of recorded presence who have a member event in a room that has the reader joined are
joined to a room with the reader. -/
def MembersJoined (s : Data) (user : UserId) : Prop :=
  ∀ other, (presenceFor s other).isSome = true → ∀ room ∈ rooms s, isJoined s room user = true →
    HasMemberEvent s room other → CoJoined s user other

/-- The users of recorded presence who are joined to a room with the reader have a member event in a
room that is found and has the reader joined. -/
def CoMembersFound (s : Data) (user : UserId) : Prop :=
  ∀ other, (presenceFor s other).isSome = true → CoJoined s user other →
    ∃ room ∈ rooms s, isJoined s room user = true ∧ HasMemberEvent s room other

theorem listsCoMembers_iff (s : Data) (user : UserId) :
    ListsCoMembers s user (coResidentPresence s user) ↔
      MembersJoined s user ∧ CoMembersFound s user := by
  constructor
  · intro ⟨_, hall⟩
    constructor
    · intro other hrecorded room hroom hjoined hmember
      obtain ⟨x, hx⟩ := Option.isSome_iff_exists.mp hrecorded
      have hother := user_of_presenceFor hx
      rw [← hother] at hx hmember ⊢
      exact ((hall x).mp (mem_coResidentPresence.mpr ⟨hx, room, hroom, hjoined, hmember⟩)).2
    · intro other hrecorded hco
      obtain ⟨x, hx⟩ := Option.isSome_iff_exists.mp hrecorded
      have hother := user_of_presenceFor hx
      rw [← hother] at hx hco ⊢
      exact (mem_coResidentPresence.mp ((hall x).mpr ⟨hx, hco⟩)).2
  · intro ⟨hjoined, hfound⟩
    apply And.intro (nodup_coResidentPresence s user)
    intro x
    rw [mem_coResidentPresence]
    apply and_congr_right
    intro hx
    have hrecorded : (presenceFor s x.user).isSome = true := Option.isSome_iff_exists.mpr ⟨x, hx⟩
    constructor
    · intro ⟨room, hroom, hreader, hmember⟩
      exact hjoined x.user hrecorded room hroom hreader hmember
    · exact hfound x.user hrecorded

/-! ## Runs without separators -/

/-- The event's room id, type and state key have no separator. -/
def NoSeparator (q : Pdu) : Prop :=
  sep ∉ q.roomId.asStr ∧ ∀ tuple ∈ q.stateTuple, sep ∉ tuple.1 ∧ sep ∉ tuple.2

instance (q : Pdu) : Decidable (NoSeparator q) := inferInstanceAs (Decidable (_ ∧ _))

/-- Every room's history is its own, and every key of the state family has its three parts alone. -/
structure SeparateRooms (s : Data) : Prop where
  own : ∀ room : RoomId, sep ∉ room.asStr → OwnHistory s room
  keys : ∀ key ∈ (s .roomState).keys, key.count sep = 2

theorem separateRooms_empty : SeparateRooms Store.empty := by
  constructor
  · intro room _
    exact ownHistory_empty room
  · intro key hkey
    exact absurd hkey List.not_mem_nil

theorem RoomService.SameRooms.separateRooms {t : Data} (h : SameRooms s t)
    (ht : SeparateRooms t) : SeparateRooms s := by
  constructor
  · intro room hroom
    exact h.ownHistory (ht.own room hroom)
  · rw [h.roomState]
    exact ht.keys

theorem count_stateKey {room : RoomId} {kind key : Str} (hroom : sep ∉ room.asStr)
    (hkind : sep ∉ kind) (hkey : sep ∉ key) : (stateKey room kind key).count sep = 2 := by
  simp [stateKey, List.count_append, List.count_eq_zero.mpr hroom, List.count_eq_zero.mpr hkind,
    List.count_eq_zero.mpr hkey]

theorem SeparateRooms.append {q : Pdu} (h : SeparateRooms s) (hq : Clean s q)
    (hplain : NoSeparator q) : SeparateRooms (append s q) := by
  constructor
  · intro room hroom
    exact (h.own room hroom).append hroom hq fun tuple htuple => (hplain.2 tuple htuple).1
  · intro key hkey
    rw [append_roomState] at hkey
    cases htuple : q.stateTuple with
    | none =>
        rw [htuple] at hkey
        exact h.keys key hkey
    | some tuple =>
        obtain ⟨kind, slotKey⟩ := tuple
        rw [htuple] at hkey
        rcases (SortedMap.mem_keys_insert _ _ _ _).mp hkey with hkey | hkey
        · obtain ⟨hkind, hslot⟩ := hplain.2 _ htuple
          rw [hkey]
          exact count_stateKey hplain.1 hkind hslot
        · exact h.keys key hkey

/-- A room id that a user is joined under has no separator. -/
theorem SeparateRooms.sep_not_mem (h : SeparateRooms s) {room : RoomId}
    (hjoined : isJoined s room user = true) : sep ∉ room.asStr := by
  intro hsep
  rw [isJoined, stateEventContent, stateEventPdu, stateEvent] at hjoined
  cases hget : s.get .roomState (stateKey room roomMember user.asStr) with
  | none =>
      rw [hget] at hjoined
      exact absurd hjoined (by simp)
  | some value =>
      have hkey := h.keys _ (((s .roomState).mem_keys_iff _).mpr ⟨value, hget⟩)
      have hpos : 0 < room.asStr.count sep := List.count_pos_iff.mpr hsep
      simp only [stateKey, List.count_append, List.count_cons_self] at hkey
      omega

/-- The event that a user's membership is read from is a member event of theirs. -/
theorem OwnHistory.hasMemberEvent {room : RoomId} (h : OwnHistory s room)
    (hjoined : isJoined s room user = true) : HasMemberEvent s room user := by
  rw [isJoined, stateEventContent] at hjoined
  cases hp : stateEventPdu s room roomMember user.asStr with
  | none =>
      rw [hp] at hjoined
      exact absurd hjoined (by simp)
  | some p =>
      have hkind : sep ∉ roomMember := by decide
      obtain ⟨id, hid, hpdu⟩ := Option.bind_eq_some_iff.mp hp
      obtain ⟨p', hp', hslot⟩ := h.slots (slot roomMember user.asStr) id
        (currentState_get_iff.mpr ⟨hkind, hid⟩)
      have hsame : p' = p := Option.some.inj (hp'.symm.trans hpdu)
      rw [hsame] at hslot
      exact ⟨p, mem_currentStatePdus_of_stateEventPdu hkind hp, stateSlot_eq_some_iff.mp hslot⟩

theorem SeparateRooms.mem_rooms (h : SeparateRooms s) {room : RoomId}
    (hjoined : isJoined s room user = true) : room ∈ rooms s := by
  have hroom : sep ∉ room.asStr := h.sep_not_mem hjoined
  obtain ⟨p, hp⟩ := exists_timeline_of_isJoined hjoined
  exact Svc.mem_rooms (h.own room hroom).keyed hroom hp

theorem SeparateRooms.coMembersFound (h : SeparateRooms s) (user : UserId) :
    CoMembersFound s user := by
  intro other _ ⟨room, hreader, hother⟩
  exact ⟨room, h.mem_rooms hreader, hreader,
    (h.own room (h.sep_not_mem hreader)).hasMemberEvent hother⟩

theorem separateRooms_run {env : Env} {ops : List ServerOp}
    (hops : ∀ x ∈ serverAppends env Store.empty ops, Clean x.1 x.2 ∧ NoSeparator x.2) :
    SeparateRooms (run (serverStep env) Store.empty ops) :=
  holds_along_server_run env ops (fun _ _ hsame hu => hsame.separateRooms hu)
    separateRooms_empty fun x hx ht => ht.append (hops x hx).1 (hops x hx).2

/-- In every state a sync lists the presence of exactly the co-members if, and only if, the members of
the reader's rooms are co-members and the co-members are found.  They are found in every state that a
run reaches whose events have fresh ids and no separators. -/
theorem presence_reaches_co_members_iff (s : Data) (user : UserId) (since : Option Str)
    (now : RoomId → UInt64) :
    (ListsCoMembers s user (sync s user since now).presence ↔
      MembersJoined s user ∧ CoMembersFound s user) ∧
    ∀ (env : Env) (ops : List ServerOp),
      (∀ x ∈ serverAppends env Store.empty ops, Clean x.1 x.2 ∧ NoSeparator x.2) →
        s = run (serverStep env) Store.empty ops →
          (ListsCoMembers s user (sync s user since now).presence ↔ MembersJoined s user) := by
  constructor
  · exact listsCoMembers_iff s user
  · intro env ops hops hs
    have hfound : CoMembersFound s user := by
      rw [hs]
      exact (separateRooms_run hops).coMembersFound user
    exact (listsCoMembers_iff s user).trans (and_iff_left hfound)

/-- A user who is listed and joined to no room is listed wrongly. -/
theorem SeparateRooms.not_listsCoMembers (h : SeparateRooms s)
    (hlisted : ∃ x ∈ coResidentPresence s user, x.user = other)
    (hnot : ∀ room ∈ rooms s, isJoined s room other = false) (since : Option Str)
    (now : RoomId → UInt64) : ¬ ListsCoMembers s user (sync s user since now).presence := by
  intro ⟨_, hall⟩
  obtain ⟨x, hx, hother⟩ := hlisted
  obtain ⟨-, room, -, hjoined⟩ := (hall x).mp hx
  rw [hother] at hjoined
  rw [hnot room (h.mem_rooms hjoined)] at hjoined
  exact Bool.false_ne_true hjoined

namespace SampleRun

/-- The room after Bob was banned and set his presence. -/
def bannedPresence : List ServerOp :=
  bannedRoom.map ServerOp.room ++ [.setPresence bob "online" none]

end SampleRun

open SampleRun in
/-- Alice's sync lists the presence of Bob, who is banned from the one room they were joined to. -/
theorem presence_lists_banned_member : ¬ ListsCoMembers
    (run (serverStep env) Store.empty bannedPresence) alice
    (sync (run (serverStep env) Store.empty bannedPresence) alice none fun _ => 0).presence := by
  have hrun : (∀ x ∈ serverAppends env Store.empty bannedPresence,
        Clean x.1 x.2 ∧ NoSeparator x.2) ∧
      (∃ x ∈ coResidentPresence (run (serverStep env) Store.empty bannedPresence) alice,
        x.user = bob) ∧
      ∀ room ∈ rooms (run (serverStep env) Store.empty bannedPresence),
        isJoined (run (serverStep env) Store.empty bannedPresence) room bob = false := by
    decide +kernel
  obtain ⟨hclean, hlisted, hnot⟩ := hrun
  exact (separateRooms_run hclean).not_listsCoMembers hlisted hnot none fun _ => 0

end GaussMatrix.Svc
