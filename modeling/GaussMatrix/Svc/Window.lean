import GaussMatrix.Svc.Bans
import GaussMatrix.Svc.Sync

/-!
# Windows of a local run

Over any part of a local run the state of a room is that of its start with the events appended to the
room applied in order, and a user comes to be joined by their own join and ceases to be by their own
leave or ban.
-/

namespace GaussMatrix.Svc

open Library Util Api Api.Events StateRes RoomService

/-! ## Local appends -/

/-- The operation is not a federation transaction. -/
def Op.IsLocal (op : Op) : Prop := op.caller.isSome

instance (op : Op) : Decidable op.IsLocal := inferInstanceAs (Decidable (_ = _))

/-- The events a run on an empty store appends, in order. -/
def runEvents (env : Env) (ops : List Op) : List Pdu := (runAppends env Store.empty ops).map Prod.snd

section

variable {env : Env} {s : Data} {room : RoomId} {user : UserId} {p q : Pdu} {ops : List Op}

theorem exists_content_of_mem_initialEvents {creator : UserId} {now : Nat → UInt64} {i : Nat}
    {prevEvents : List EventId} {contents : List (Str × Str × Str)}
    (hp : p ∈ initialEvents env room creator now i prevEvents contents) :
    (p.kind, p.stateKey, p.contentJson) ∈ contents.map fun c => (c.1, some c.2.1, c.2.2) := by
  induction contents generalizing i prevEvents with
  | nil => simp [initialEvents] at hp
  | cons content contents ih =>
      simp only [initialEvents] at hp
      split at hp
      · simp at hp
      · rename_i q hq
        rw [List.map_cons]
        rcases List.mem_cons.mp hp with rfl | hp
        · obtain ⟨id, rfl⟩ := withReferenceId_eq_some hq
          exact List.mem_cons_self
        · exact List.mem_cons_of_mem _ (ih hp)

/-- The events of a new room have plain types, and the membership among them is a join. -/
theorem created_append {creator : UserId} {name topic : Option Str} {now : Nat → UInt64}
    (hp : p ∈ createdEvents env s creator name topic now) :
    PlainKind p ∧ (p.kind = roomMember → p.contentStr "membership" = some "join".toList) := by
  rw [createdEvents] at hp
  split at hp
  · simp at hp
  · have hcontent := exists_content_of_mem_initialEvents hp
    have hkinds : ∀ c ∈ initialState creator name topic,
        sep ∉ c.1 ∧ (c.1 = roomMember → c.2.2 = memberJoinContent) := by
      have hplain : sep ∉ roomCreate ∧ sep ∉ roomMember ∧ sep ∉ roomPowerLevels ∧
          sep ∉ roomName ∧ sep ∉ roomTopic := by decide
      have hother : roomCreate ≠ roomMember ∧ roomPowerLevels ≠ roomMember ∧
          roomName ≠ roomMember ∧ roomTopic ≠ roomMember := by decide
      intro c hc
      simp only [initialState, List.mem_append, List.mem_cons, List.not_mem_nil, or_false,
        Option.mem_toList, Option.map_eq_some_iff] at hc
      rcases hc with ((rfl | rfl | rfl) | ⟨_, -, rfl⟩) | ⟨_, -, rfl⟩
      · exact ⟨hplain.1, fun h => absurd h hother.1⟩
      · exact ⟨hplain.2.1, fun _ => rfl⟩
      · exact ⟨hplain.2.2.1, fun h => absurd h hother.2.1⟩
      · exact ⟨hplain.2.2.2.1, fun h => absurd h hother.2.2.1⟩
      · exact ⟨hplain.2.2.2.2, fun h => absurd h hother.2.2.2⟩
    obtain ⟨c, hc, heq⟩ := List.mem_map.mp hcontent
    simp only [Prod.mk.injEq] at heq
    obtain ⟨hkind, -, hjson⟩ := heq
    obtain ⟨hplain, hjoin⟩ := hkinds c hc
    constructor
    · intro tuple htuple
      obtain ⟨_, -, rfl⟩ := Option.map_eq_some_iff.mp htuple
      rw [← hkind]
      exact hplain
    · intro hmember
      have hparse : (((Json.parse memberJoinContent).toOption.bind fun c => c.get "membership").bind
          Json.asStr) = some "join".toList := by
        decide +kernel
      rw [Pdu.contentStr, Pdu.content, ← hjson, hjoin (hkind.trans hmember)]
      rw [← hparse, Option.bind_assoc]

/-- What a local operation appends has a plain type, and is an event of a new room or passed the rules
against the current state of its room. -/
theorem local_append {t : Data} {op : Op} (hop : op.IsLocal) (hadd : AppendedBy env t (s, q) op) :
    PlainKind q ∧ ((q.kind = roomMember → q.contentStr "membership" = some "join".toList) ∨
      checkAuth env.verifyB64 q (currentStatePdus s q.roomId) = .ok ()) := by
  cases op with
  | createRoom creator name topic now =>
      obtain ⟨hplain, hjoin⟩ := created_append hadd
      exact ⟨hplain, .inl hjoin⟩
  | changeMembership actor room target membership now =>
      have hcall : (Op.changeMembership actor room target membership now).IsRoomCall := trivial
      obtain ⟨hplain, -, hok⟩ := roomCall_append hcall hadd
      exact ⟨hplain, .inr hok⟩
  | sendMessage sender room eventType txnId content now =>
      have hcall : (Op.sendMessage sender room eventType txnId content now).IsRoomCall := trivial
      obtain ⟨hplain, -, hok⟩ := roomCall_append hcall hadd
      exact ⟨hplain, .inr hok⟩
  | receiveTransaction txn => exact absurd hop (by simp [Op.IsLocal, Op.caller])

end

/-! ## Runs with well-named events -/

/-- Room ids have no separator, and an id has one event in its room. -/
structure WellNamed (events : List Pdu) : Prop where
  rooms : ∀ p ∈ events, sep ∉ p.roomId.asStr
  ids : IdsDetermine events

instance (events : List Pdu) : Decidable (WellNamed events) :=
  decidable_of_iff ((∀ p ∈ events, sep ∉ p.roomId.asStr) ∧ IdsDetermine events)
    ⟨fun h => ⟨h.1, h.2⟩, fun h => ⟨h.rooms, h.ids⟩⟩

section

variable {env : Env} {s : Data} {room : RoomId} {user : UserId} {p q : Pdu} {ops later : List Op}

theorem WellNamed.of_subset {events events' : List Pdu} (h : WellNamed events')
    (hsub : ∀ p ∈ events, p ∈ events') : WellNamed events :=
  ⟨fun p hp => h.rooms p (hsub p hp), h.ids.of_subset hsub⟩

theorem runEvents_append : runEvents env (ops ++ later) = runEvents env ops ++
    (runAppends env (run (step env) Store.empty ops) later).map Prod.snd := by
  rw [runEvents, runEvents, runAppends_append, List.map_append]

/-- The events of a part of a run are well named with those of the run. -/
theorem WellNamed.of_append (h : WellNamed (runEvents env (ops ++ later))) :
    WellNamed (runEvents env ops) := by
  refine h.of_subset fun p hp => ?_
  rw [runEvents_append]
  exact List.mem_append_left _ hp

theorem mem_runEvents_of_stored {x : Data × Pdu} (hx : x ∈ runAppends env Store.empty ops)
    (hp : Stored x.1 p) : p ∈ runEvents env ops := by
  have hall := (holds_along_run env ops
    (P := fun t => ∀ p, Stored t p → p ∈ runEvents env ops) ?_ ?_ ?_).1 x hx
  · exact hall p hp
  · intro t u hsame hu p hp
    unfold Stored at hp hu
    rw [hsame.events] at hp
    exact hu p hp
  · intro p hp
    exact absurd hp (by simp [Stored, Store.empty])
  · intro y hy ht p hp
    rcases stored_append_iff.mp hp with rfl | ⟨hp, -⟩
    · exact List.mem_map_of_mem hy
    · exact ht p hp

/-- In a run with well-named events every append is clean. -/
theorem WellNamed.clean (h : WellNamed (runEvents env ops)) :
    ∀ x ∈ runAppends env Store.empty ops, Clean x.1 x.2 := by
  intro x hx
  have hmem : x.2 ∈ runEvents env ops := List.mem_map_of_mem hx
  refine ⟨h.rooms x.2 hmem, fun p hp hid => ?_⟩
  have hkeyed := (keyed_empty.along_run env ops).1 x hx
  obtain ⟨hstored, hpre⟩ := (mem_timeline_iff hkeyed).mp hp
  have hpmem := mem_runEvents_of_stored hx hstored
  exact h.ids p hpmem x.2 hmem
    ((startsWith_timelineKey_iff (h.rooms x.2 hmem) (h.rooms p hpmem)).mp hpre) hid

/-- Such a run leaves the events that it appended in its stream. -/
theorem WellNamed.streamed (h : WellNamed (runEvents env ops)) :
    Streamed (runEvents env ops) (run (step env) Store.empty ops) := by
  induction ops using List.reverseRecOn with
  | nil => exact streamed_empty
  | append_singleton ops op ih =>
      have hevents : runEvents env (ops ++ [op]) = runEvents env ops ++
          appended env (run (step env) Store.empty ops) op := by
        rw [runEvents_append, runAppends_cons, List.map_append, appends, map_snd_trace]
        simp [runAppends, trace]
      rw [hevents] at h ⊢
      rw [run_append, run_cons, run_nil]
      refine (step_sameRooms env _ op).streamed ?_
      exact (ih (h.of_subset fun p hp => List.mem_append_left _ hp)).foldl_append h.rooms h.ids

theorem OwnHistory.local_run (hroom : sep ∉ room.asStr) (h : WellNamed (runEvents env ops))
    (hlocal : ∀ op ∈ ops, op.IsLocal) :
    OwnHistory (Library.run (step env) Store.empty ops) room := by
  refine (ownHistory_empty room).run hroom fun x hx => ⟨h.clean x hx, ?_⟩
  obtain ⟨t, op, hop, hadd⟩ := appendedBy_of_mem_runAppends hx
  exact (local_append (hlocal op (mem_of_mem_trace hop)) hadd).1

/-! ## The state of a room -/

/-- The full current state of a room, by slot. -/
def roomState (s : Data) (room : RoomId) : RoomEvents := roomEvents (pdu s room) (currentState s room)

theorem values_roomState (s : Data) (room : RoomId) :
    (roomState s room).values = currentStatePdus s room :=
  values_roomEvents

theorem roomState_congr {t : Data} (h : SameRooms s t) (room : RoomId) :
    roomState s room = roomState t room := by
  rw [roomState, roomState, h.pdu, h.currentState]

theorem isJoined_iff (h : OwnSlots s room) :
    isJoined s room user = true ↔ membership s room user.asStr = some "join".toList := by
  have hslot : stateEventPdu s room roomMember user.asStr =
      ((currentState s room).get (slot roomMember user.asStr)).bind (pdu s room) := by
    rw [stateEventPdu]
    congr 1
    apply Option.ext
    intro id
    rw [currentState_get_iff]
    exact (and_iff_right (by decide : sep ∉ roomMember)).symm
  rw [membership, currentStatePdus, h.wellSlotted.membership, ← hslot, isJoined, stateEventContent]
  cases stateEventPdu s room roomMember user.asStr with
  | none => exact iff_of_false Bool.false_ne_true (Option.some_ne_none _).symm
  | some p =>
      rw [Option.bind_some, Pdu.contentStr, Pdu.content, ← Option.bind_assoc]
      exact decide_eq_true_iff

theorem isJoined_congr {t : Data} (h : SameRooms s t) (room : RoomId) (user : UserId) :
    isJoined s room user = isJoined t room user := by
  rw [isJoined, isJoined, stateEventContent, stateEventContent, h.stateEventPdu]

end

/-! ## Windows -/

/-- The events that a part of a run appends to a room, in order. -/
def windowEvents (env : Env) (s : Data) (ops : List Op) (room : RoomId) : List Pdu :=
  ((runAppends env s ops).map Prod.snd).filter (·.roomId = room)

section

variable {env : Env} {s : Data} {room : RoomId} {user : UserId} {q : Pdu} {ops : List Op}
  (h : OwnHistory s room) (hroom : sep ∉ room.asStr)

include h hroom

/-- A clean local append changes the room's state by its event. -/
theorem roomState_append (hq : Clean s q) (hplain : PlainKind q) :
    roomState (append s q) room =
      if q.roomId = room then applyEvent (roomState s room) q else roomState s room :=
  roomEvents_append h.keyed h.timeline hroom hq hplain h.slots

theorem isJoined_append (hq : Clean s q) (hplain : PlainKind q) :
    isJoined (append s q) room user = true ↔
      if q.roomId = room ∧ stateSlot q = some (slot roomMember user.asStr) then
        q.contentStr "membership" = some "join".toList
      else isJoined s room user = true := by
  rw [isJoined_iff (h.append hroom hq hplain).slots, isJoined_iff h.slots,
    membership_append h.keyed h.timeline hroom hq hplain h.slots]
  split
  · exact Iff.rfl
  · exact Iff.rfl

end

section

variable {env : Env} {s : Data} {ops : List Op}

/-- What each append of a run folds its event into is folded from the events of the run. -/
theorem foldl_along_run {α : Type} {F : Data → α} {g : α → Pdu → α}
    (hsame : ∀ t u, SameRooms t u → F t = F u)
    (happ : ∀ x ∈ runAppends env s ops, F (append x.1 x.2) = g (F x.1) x.2) :
    F (run (step env) s ops) = ((runAppends env s ops).map Prod.snd).foldl g (F s) := by
  have hfold : ∀ (qs : List Pdu) (t : Data),
      (∀ x ∈ trace append t qs, F (append x.1 x.2) = g (F x.1) x.2) →
        F (qs.foldl append t) = qs.foldl g (F t) := by
    intro qs
    induction qs with
    | nil => exact fun _ _ => rfl
    | cons q qs ih =>
        intro t ht
        rw [trace, List.forall_mem_cons] at ht
        rw [List.foldl_cons, List.foldl_cons, ← ht.1]
        exact ih (append t q) ht.2
  induction ops generalizing s with
  | nil => rfl
  | cons op ops ih =>
      rw [runAppends_cons, List.forall_mem_append] at happ
      rw [run_cons, runAppends_cons, List.map_append, List.foldl_append, ih happ.2,
        hsame _ _ (step_sameRooms env s op), hfold _ s happ.1, appends, map_snd_trace]

variable {room : RoomId} {user : UserId} (h : OwnHistory s room) (hroom : sep ∉ room.asStr)
  (hclean : ∀ x ∈ runAppends env s ops, Clean x.1 x.2) (hlocal : ∀ op ∈ ops, op.IsLocal)

include hlocal in
theorem local_of_mem_runAppends {x : Data × Pdu} (hx : x ∈ runAppends env s ops) :
    PlainKind x.2 ∧ ((x.2.kind = roomMember → x.2.contentStr "membership" = some "join".toList) ∨
      checkAuth env.verifyB64 x.2 (currentStatePdus x.1 x.2.roomId) = .ok ()) := by
  obtain ⟨t, op, hop, hadd⟩ := appendedBy_of_mem_runAppends hx
  exact local_append (hlocal op (mem_of_mem_trace hop)) hadd

include h hroom hclean hlocal

theorem OwnHistory.along_window :
    (∀ x ∈ runAppends env s ops, OwnHistory x.1 room) ∧
      OwnHistory (Library.run (step env) s ops) room :=
  holds_along_run env ops (fun _ _ hsame ht => hsame.ownHistory ht) h fun x hx ht =>
    ht.append hroom (hclean x hx) (local_of_mem_runAppends hlocal hx).1

/-- Over a window a room's state changes by the room's events, in order. -/
theorem roomState_run :
    roomState (run (step env) s ops) room =
      (windowEvents env s ops room).foldl applyEvent (roomState s room) := by
  have halong := (h.along_window hroom hclean hlocal).1
  have hfold := foldl_along_run (F := fun t => roomState t room)
    (g := fun state q => if q.roomId = room then applyEvent state q else state)
    (fun t u hsame => roomState_congr hsame room) fun x hx =>
      roomState_append (halong x hx) hroom (hclean x hx) (local_of_mem_runAppends hlocal hx).1
  rw [windowEvents, List.foldl_filter]
  simpa using hfold

/-- A user that a window joins to a room has a join of their own in it. -/
theorem joinedInDelta_of_joined (hbefore : isJoined s room user = false)
    (hafter : isJoined (run (step env) s ops) room user = true) :
    joinedInDelta (windowEvents env s ops room) user = true := by
  by_contra hno
  have halong := (h.along_window hroom hclean hlocal).1
  have hstart : ¬ isJoined s room user = true := by simp [hbefore]
  have hend := (holds_along_run env ops (P := fun t => ¬ isJoined t room user = true)
    (fun t u hsame hu => by rwa [isJoined_congr hsame]) hstart fun x hx ht => ?_).2
  · exact hend hafter
  · rw [isJoined_append (halong x hx) hroom (hclean x hx) (local_of_mem_runAppends hlocal hx).1]
    split
    · rename_i hslot
      intro hjoin
      refine hno (List.any_eq_true.mpr ⟨x.2, ?_, ?_⟩)
      · exact List.mem_filter.mpr ⟨List.mem_map_of_mem hx, decide_eq_true hslot.1⟩
      · obtain ⟨hkind, hkey⟩ := stateSlot_eq_some_iff.mp hslot.2
        exact decide_eq_true ⟨hkind, hkey, hjoin⟩
    · exact ht

/-- A user whose membership of a room a window ends has a leave or a ban of their own in it. -/
theorem leftInDelta_of_left (hbefore : isJoined s room user = true)
    (hafter : isJoined (run (step env) s ops) room user = false) :
    leftInDelta (windowEvents env s ops room) user = true := by
  by_contra hno
  have halong := (h.along_window hroom hclean hlocal).1
  have hend := (holds_along_run env ops (P := fun t => isJoined t room user = true)
    (fun t u hsame hu => by rwa [isJoined_congr hsame]) hbefore fun x hx ht => ?_).2
  · exact absurd (hend.symm.trans hafter) (by simp)
  · obtain ⟨hplain, hadd⟩ := local_of_mem_runAppends hlocal hx
    rw [isJoined_append (halong x hx) hroom (hclean x hx) hplain]
    split
    · rename_i hslot
      obtain ⟨hkind, hkey⟩ := stateSlot_eq_some_iff.mp hslot.2
      rcases hadd with hjoin | hok
      · exact hjoin hkind
      · -- the rules let a joined user's membership become a leave or a ban only
        have hjoined := (isJoined_iff (halong x hx).slots).mp ht
        rw [hslot.1, checkAuth, checkAuthView_member hkind] at hok
        rcases checkMemberAuth_of_joined hkey hjoined hok.2 with hm | hm | hm
        · exact hm
        · refine absurd (List.any_eq_true.mpr ⟨x.2, ?_, ?_⟩) hno
          · exact List.mem_filter.mpr ⟨List.mem_map_of_mem hx, decide_eq_true hslot.1⟩
          · rw [Bool.or_eq_true]
            exact .inl (decide_eq_true ⟨hkind, hkey, hm⟩)
        · refine absurd (List.any_eq_true.mpr ⟨x.2, ?_, ?_⟩) hno
          · exact List.mem_filter.mpr ⟨List.mem_map_of_mem hx, decide_eq_true hslot.1⟩
          · rw [Bool.or_eq_true]
            exact .inr (decide_eq_true ⟨hkind, hkey, hm⟩)
    · exact ht

end

end GaussMatrix.Svc
