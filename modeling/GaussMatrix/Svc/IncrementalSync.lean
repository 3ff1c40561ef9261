import GaussMatrix.Svc.LinearDag
import GaussMatrix.Svc.Window

/-!
# Incremental sync

A client that takes an initial sync and then one delta after the other shows at every point what an
initial sync would show it there.
-/

namespace GaussMatrix.Svc

open Library Util Api Api.Events StateRes RoomService

/-! ## What a client makes of its views -/

/-- The rooms that a client shows, each with its state by slot. -/
abbrev ClientRooms := RoomId → Option RoomEvents

/-- Overwrite the slots of state events. -/
def overwrite (state : RoomEvents) (events : List Pdu) : RoomEvents := events.foldl applyEvent state

/-- Take in a view: drop the rooms left, add the rooms joined, overwrite the slots of their state
events. -/
def takeIn (client : ClientRooms) (view : SyncView) : ClientRooms := fun room =>
  let kept := if room ∈ view.left.map (·.room) then none else client room
  match view.joined.find? (·.room = room) with
  | none => kept
  | some joined => some (overwrite (kept.getD SortedMap.empty) joined.state)

/-- The client shows the rooms and the state of the view. -/
structure Shows (client : ClientRooms) (view : SyncView) : Prop where
  rooms : ∀ room, (client room).isSome ↔ room ∈ view.joined.map (·.room)
  state : ∀ joined ∈ view.joined, (client joined.room).map SortedMap.values = some joined.state

/-- The timeline of a room in a view, empty where the view does not have the room. -/
def viewTimeline (view : SyncView) (room : RoomId) : List Pdu :=
  ((view.joined.find? (·.room = room)).map (·.timeline)).getD []

/-- A client between two syncs, with the data at its last sync and the token from it. -/
structure Syncing where
  data : Data
  since : Str
  client : ClientRooms

/-- The operations between two syncs, and the clock at the second. -/
structure Window where
  ops : List Op
  now : RoomId → UInt64

/-- The initial sync. -/
def firstSync (s : Data) (user : UserId) (now : RoomId → UInt64) : Syncing :=
  let view := sync s user none now
  ⟨s, view.nextBatch, takeIn (fun _ => none) view⟩

/-- The sync after a window, from the token of the one before. -/
def syncStep (env : Env) (user : UserId) (x : Syncing) (w : Window) : Syncing :=
  let s := run (step env) x.data w.ops
  let view := sync s user (some x.since) w.now
  ⟨s, view.nextBatch, takeIn x.client view⟩

/-! ## Positions -/

section

variable {s : Data} {user : UserId} {now : RoomId → UInt64} {room : RoomId} {p : Pdu}
  {delta : List Pdu}

/-- A token asks for the position it was made at. -/
theorem sincePosition_nextBatch (h : streamLen s < 2 ^ 64) :
    sincePosition (some (nextBatch s)) = some (streamLen s) := by
  have hstrip : stripPrefix ['s'] ('s' :: decimal (streamLen s)) = some (decimal (streamLen s)) :=
    rfl
  rw [sincePosition, nextBatch, Option.bind_some, hstrip, Option.bind_some, parseU64_decimal h]

/-! ## Rooms of views -/

theorem mem_deltaRooms {x : RoomId × List Pdu} : x ∈ deltaRooms delta ↔
    x.2 = delta.filter (·.roomId = x.1) ∧ x.2 ≠ [] := by
  have hget : ∀ room : RoomId,
      (SortedMap.groupBy (fun p : Pdu => p.roomId.asStr) delta).get room.asStr =
        if delta.filter (·.roomId = room) = [] then none
        else some (delta.filter (·.roomId = room)) := fun room =>
    SortedMap.get_groupBy fun p => by rw [decide_eq_true_iff, RoomId.ext_iff]
  obtain ⟨room, events⟩ := x
  rw [deltaRooms, List.mem_filterMap]
  constructor
  · rintro ⟨⟨key, group⟩, hmem, hroom⟩
    obtain ⟨room', hparse, heq⟩ := Option.map_eq_some_iff.mp hroom
    obtain ⟨rfl, rfl⟩ := Prod.mk.inj heq
    obtain rfl := RoomId.asStr_of_parse hparse
    rw [SortedMap.mem_entries_iff, hget] at hmem
    split at hmem
    · exact nomatch hmem
    · rename_i hne
      have hgroup := Option.some.inj hmem
      exact ⟨hgroup.symm, hgroup ▸ hne⟩
  · rintro ⟨hevents, hne⟩
    refine ⟨(room.asStr, events), ?_, by simp⟩
    rw [SortedMap.mem_entries_iff, hget, ← hevents, if_neg hne]

/-- A room of a timeline is one of the rooms. -/
theorem mem_rooms (hs : Keyed s) (hroom : sep ∉ room.asStr) (hp : p ∈ timeline s room) :
    room ∈ rooms s := by
  obtain ⟨hstored, hpre⟩ := (mem_timeline_iff hs).mp hp
  obtain ⟨rest, hrest⟩ := startsWith_iff.mp hpre
  rw [rooms, List.mem_eraseDups, List.mem_filterMap]
  refine ⟨(timelineKey p, .pdu p), ((s .events).mem_entries_iff _ _).mpr hstored, ?_⟩
  rw [hrest, roomPrefix, List.append_assoc, List.singleton_append, splitOnce_append hroom,
    Option.bind_some, RoomId.parse_asStr]

theorem sep_not_mem_of_mem_rooms (h : room ∈ rooms s) : sep ∉ room.asStr := by
  rw [rooms, List.mem_eraseDups, List.mem_filterMap] at h
  obtain ⟨e, -, hroom⟩ := h
  obtain ⟨parts, hsplit, hparse⟩ := Option.bind_eq_some_iff.mp hroom
  rw [RoomId.asStr_of_parse hparse]
  exact (splitOnce_eq_some hsplit).2

theorem exists_timeline_of_isJoined (h : isJoined s room user = true) : ∃ p, p ∈ timeline s room := by
  rw [isJoined, stateEventContent] at h
  cases hp : stateEventPdu s room roomMember user.asStr with
  | none =>
      rw [hp] at h
      exact absurd h (by simp)
  | some p =>
      obtain ⟨id, -, hp⟩ := Option.bind_eq_some_iff.mp hp
      exact ⟨p, (mem_timeline_of_pdu hp).1⟩

theorem find?_map_of_unique {α β : Type} {l : List α} {f : α → β} {p : β → Bool} {a : α}
    (ha : a ∈ l) (hp : p (f a) = true) (huniq : ∀ b ∈ l, p (f b) = true → b = a) :
    (l.map f).find? p = some (f a) := by
  cases hfind : (l.map f).find? p with
  | none =>
      have hno := List.find?_eq_none.mp hfind (f a) (List.mem_map_of_mem ha)
      exact absurd hp hno
  | some c =>
      obtain ⟨b, hb, rfl⟩ := List.mem_map.mp (List.mem_of_find?_eq_some hfind)
      rw [huniq b hb (List.find?_some hfind)]

variable (s user now delta) in
/-- The entry of a room in the joined rooms of a delta. -/
theorem find?_deltaJoined (room : RoomId) :
    (deltaJoined s user now delta).find? (·.room = room) =
      if isJoined s room user = true ∧ delta.filter (·.roomId = room) ≠ [] then
        some (deltaRoom s user now (room, delta.filter (·.roomId = room)))
      else none := by
  split
  · rename_i hroom
    refine find?_map_of_unique ?_ (decide_eq_true rfl) ?_
    · exact List.mem_filter.mpr ⟨mem_deltaRooms.mpr ⟨rfl, hroom.2⟩, hroom.1⟩
    · intro x hx hroom'
      obtain rfl := of_decide_eq_true hroom'
      exact Prod.ext rfl (mem_deltaRooms.mp (List.mem_of_mem_filter hx)).1
  · rename_i hroom
    rw [List.find?_eq_none]
    intro joined hjoined hroom'
    obtain ⟨x, hx, rfl⟩ := List.mem_map.mp hjoined
    obtain ⟨hx, hin⟩ := List.mem_filter.mp hx
    obtain rfl := of_decide_eq_true hroom'
    obtain ⟨hevents, hne⟩ := mem_deltaRooms.mp hx
    exact hroom ⟨hin, hevents ▸ hne⟩

variable (s user delta) in
theorem mem_deltaLeft (room : RoomId) : room ∈ (deltaLeft s user delta).map (·.room) ↔
    isJoined s room user = false ∧ leftInDelta (delta.filter (·.roomId = room)) user = true := by
  rw [deltaLeft, List.map_map, List.mem_map]
  constructor
  · rintro ⟨x, hx, rfl⟩
    obtain ⟨hx, hleft⟩ := List.mem_filter.mp hx
    rw [Bool.and_eq_true, Bool.not_eq_true'] at hleft
    rw [(mem_deltaRooms.mp hx).1] at hleft
    exact hleft
  · rintro ⟨hout, hleft⟩
    have hne : delta.filter (·.roomId = room) ≠ [] := by
      intro hnil
      rw [hnil] at hleft
      exact Bool.false_ne_true hleft
    refine ⟨(room, delta.filter (·.roomId = room)), List.mem_filter.mpr ⟨?_, ?_⟩, rfl⟩
    · exact mem_deltaRooms.mpr ⟨rfl, hne⟩
    · rw [Bool.and_eq_true, Bool.not_eq_true']
      exact ⟨hout, hleft⟩

variable (user now) in
/-- The entry of a room in the joined rooms of an initial sync. -/
theorem find?_initialJoined (hs : Keyed s) (room : RoomId) :
    (initialJoined s user now).find? (·.room = room) =
      if isJoined s room user = true ∧ sep ∉ room.asStr then some (fullRoom s now room)
      else none := by
  split
  · rename_i hroom
    obtain ⟨p, hp⟩ := exists_timeline_of_isJoined hroom.1
    refine find?_map_of_unique ?_ (decide_eq_true rfl) fun room' _ hroom' => of_decide_eq_true hroom'
    exact List.mem_filter.mpr ⟨mem_rooms hs hroom.2 hp, hroom.1⟩
  · rename_i hroom
    rw [List.find?_eq_none]
    intro joined hjoined hroom'
    obtain ⟨room', hmem, rfl⟩ := List.mem_map.mp hjoined
    obtain ⟨hmem, hin⟩ := List.mem_filter.mp hmem
    obtain rfl := of_decide_eq_true hroom'
    exact hroom ⟨hin, sep_not_mem_of_mem_rooms hmem⟩

/-! ## States by slot -/

/-- Events that each fill their slot overwrite as entries do. -/
theorem overwrite_values {state events : RoomEvents} (h : InOwnSlots events) :
    overwrite state events.values = state.insertAll events.entries := by
  have hentries : ∀ (entries : List (StateKey × Pdu)) (state : RoomEvents),
      (∀ e ∈ entries, stateSlot e.2 = some e.1) →
        (entries.map Prod.snd).foldl applyEvent state = state.insertAll entries := by
    intro entries
    induction entries with
    | nil => exact fun _ _ => rfl
    | cons e entries ih =>
        intro state hslots
        rw [List.forall_mem_cons] at hslots
        have hone : applyEvent state e.2 = state.insert e.1 e.2 := by rw [applyEvent, hslots.1]
        rw [List.map_cons, List.foldl_cons, hone, ih _ hslots.2]
        rfl
  exact hentries events.entries state fun e he => h e.1 e.2 ((events.mem_entries_iff _ _).mp he)

/-- Full state over a state with no further slot is the full state. -/
theorem overwrite_full {state events : RoomEvents} (h : InOwnSlots events)
    (hkeys : ∀ key, (state.get key).isSome → (events.get key).isSome) :
    overwrite state events.values = events := by
  apply SortedMap.ext_get
  intro key
  rw [overwrite_values h, SortedMap.get_insertAll_entries]
  cases hevent : events.get key with
  | some event => rfl
  | none =>
      have hno : state.get key = none := by
        cases hstate : state.get key with
        | none => rfl
        | some p =>
            have hsome := hkeys key (by rw [hstate]; rfl)
            rw [hevent] at hsome
            exact absurd hsome (by simp)
      rw [hno]
      rfl

/-- Events that are no state events overwrite nothing. -/
theorem overwrite_filter_isState (state : RoomEvents) (events : List Pdu) :
    overwrite state (events.filter fun p => p.isState) = events.foldl applyEvent state := by
  rw [overwrite, List.foldl_filter]
  congr
  funext state p
  split
  · rfl
  · rename_i hno
    have hslot : stateSlot p = none := by
      rw [stateSlot, Pdu.stateTuple]
      cases hkey : p.stateKey with
      | none => rfl
      | some key => exact absurd (by rw [Pdu.isState, hkey]; rfl) hno
    rw [applyEvent, hslot]

/-- Applying events fills slots and empties none. -/
theorem isSome_get_foldl_applyEvent {events : List Pdu} {state : RoomEvents} {key : StateKey}
    (h : (state.get key).isSome) : ((events.foldl applyEvent state).get key).isSome := by
  induction events generalizing state with
  | nil => exact h
  | cons p events ih =>
      refine ih ?_
      rw [applyEvent]
      cases stateSlot p with
      | none => exact h
      | some slotKey =>
          rw [SortedMap.get_insert]
          split
          · rfl
          · exact h

end

/-! ## Syncs along a run -/

section

variable {env : Env} {user : UserId} {done : List Op} {x : Syncing} {w : Window}
  {now : RoomId → UInt64}

/-- The rooms that a view of the data shows, each with its state. -/
def shown (s : Data) (user : UserId) : ClientRooms := fun room =>
  if isJoined s room user = true ∧ sep ∉ room.asStr then some (roomState s room) else none

/-- A client is up to date with a run: it has the token of its data and shows what there is to see. -/
structure UpToDate (env : Env) (user : UserId) (done : List Op) (x : Syncing) : Prop where
  data : x.data = run (step env) Store.empty done
  since : x.since = nextBatch x.data
  client : x.client = shown x.data user

/-- An initial sync shows the joined rooms. -/
theorem takeIn_initial {s : Data} (hs : Keyed s)
    (hslots : ∀ room, sep ∉ room.asStr → OwnSlots s room) :
    takeIn (fun _ => none) (sync s user none now) = shown s user := by
  funext room
  have hfind := find?_initialJoined user now hs room
  have hjoined : (sync s user none now).joined = initialJoined s user now := rfl
  by_cases hroom : isJoined s room user = true ∧ sep ∉ room.asStr
  · have hown := (hslots room hroom.2).wellSlotted.inOwnSlots
    have hfull : overwrite SortedMap.empty (currentStatePdus s room) = roomState s room := by
      rw [← values_roomState]
      exact overwrite_full hown nofun
    rw [if_pos hroom] at hfind
    simp only [takeIn, hjoined, hfind, shown, if_pos hroom, ite_self, Option.getD_none]
    exact congrArg some hfull
  · rw [if_neg hroom] at hfind
    simp only [takeIn, hjoined, hfind, shown, if_neg hroom, ite_self]

/-- What a window does to each room, as a delta tells it. -/
structure DeltaTells (user : UserId) (s s' : Data) (delta : List Pdu) : Prop where
  named : ∀ p ∈ delta, sep ∉ p.roomId.asStr
  slots : ∀ room, sep ∉ room.asStr → OwnSlots s' room
  state : ∀ room, sep ∉ room.asStr →
    roomState s' room = (delta.filter (·.roomId = room)).foldl applyEvent (roomState s room)
  join : ∀ room, sep ∉ room.asStr → isJoined s room user = false → isJoined s' room user = true →
    joinedInDelta (delta.filter (·.roomId = room)) user = true
  leave : ∀ room, sep ∉ room.asStr → isJoined s room user = true → isJoined s' room user = false →
    leftInDelta (delta.filter (·.roomId = room)) user = true

/-- A delta takes a client from what there was to see to what there is. -/
theorem takeIn_delta {s s' : Data} {delta : List Pdu} {view : SyncView}
    (h : DeltaTells user s s' delta) (hjoined : view.joined = deltaJoined s' user now delta)
    (hleft : view.left = deltaLeft s' user delta) :
    takeIn (shown s user) view = shown s' user := by
  funext room
  have hfind := find?_deltaJoined s' user now delta room
  have hdrop := mem_deltaLeft s' user delta room
  by_cases hsep : sep ∈ room.asStr
  · -- a room whose id has a separator has no events, and is not shown
    have hnil : delta.filter (·.roomId = room) = [] := by
      rw [List.filter_eq_nil_iff]
      intro p hp hroom
      exact h.named p hp (of_decide_eq_true hroom ▸ hsep)
    rw [if_neg fun hboth => hboth.2 hnil] at hfind
    have hno : ∀ t : Data, ¬ (isJoined t room user = true ∧ sep ∉ room.asStr) :=
      fun t hboth => hboth.2 hsep
    simp only [takeIn, hjoined, hfind, shown, if_neg (hno s), if_neg (hno s'), ite_self]
  · have hstate := h.state room hsep
    cases hafter : isJoined s' room user with
    | false =>
        have hno' : ¬ (isJoined s' room user = true ∧ sep ∉ room.asStr) :=
          fun hboth => absurd (hafter.symm.trans hboth.1) (by simp)
        rw [if_neg fun hboth => absurd (hafter.symm.trans hboth.1) (by simp)] at hfind
        simp only [takeIn, hjoined, hfind, shown, if_neg hno']
        split
        · rfl
        · rename_i hkept
          -- a room kept was not joined before, or its leave would be in the delta
          have hbefore : ¬ (isJoined s room user = true ∧ sep ∉ room.asStr) := by
            intro hboth
            rw [hleft, hdrop] at hkept
            exact hkept ⟨hafter, h.leave room hsep hboth.1 hafter⟩
          rw [if_neg hbefore]
    | true =>
        have hkept : ¬ room ∈ view.left.map (·.room) := by
          rw [hleft, hdrop]
          exact fun hboth => absurd (hafter.symm.trans hboth.1) (by simp)
        have hyes' : isJoined s' room user = true ∧ sep ∉ room.asStr := ⟨hafter, hsep⟩
        by_cases hnil : delta.filter (·.roomId = room) = []
        · -- nothing happened in the room
          have hbefore : isJoined s room user = true := by
            by_contra hno
            have hjoin := h.join room hsep (by simpa using hno) hafter
            rw [hnil] at hjoin
            exact Bool.false_ne_true hjoin
          rw [if_neg fun hboth => hboth.2 hnil] at hfind
          rw [hnil] at hstate
          simp only [takeIn, hjoined, hfind, shown, if_pos hyes', if_neg hkept,
            if_pos (And.intro hbefore hsep)]
          exact congrArg some hstate.symm
        · rw [if_pos ⟨hafter, hnil⟩] at hfind
          simp only [takeIn, hjoined, hfind, shown, if_pos hyes', if_neg hkept]
          refine congrArg some ?_
          by_cases hown : joinedInDelta (delta.filter (·.roomId = room)) user = true
          · -- the full state covers the slots shown before
            have hslots := (h.slots room hsep).wellSlotted.inOwnSlots
            simp only [deltaRoom, if_pos hown]
            rw [← values_roomState]
            refine overwrite_full hslots fun key hkey => ?_
            show ((roomState s' room).get key).isSome = true
            rw [hstate]
            refine isSome_get_foldl_applyEvent ?_
            split at hkey
            · exact hkey
            · exact absurd hkey (by simp [SortedMap.empty, SortedMap.get])
          · have hbefore : isJoined s room user = true := by
              by_contra hno
              exact hown (h.join room hsep (by simpa using hno) hafter)
            simp only [deltaRoom, if_neg hown, if_pos (And.intro hbefore hsep), Option.getD_some]
            rw [overwrite_filter_isState, hstate]

theorem clean_of_window {ops : List Op} (hnamed : WellNamed (runEvents env (done ++ ops))) :
    ∀ y ∈ runAppends env (run (step env) Store.empty done) ops, Clean y.1 y.2 := by
  intro y hy
  refine hnamed.clean y ?_
  rw [runAppends_append]
  exact List.mem_append_right _ hy

variable (user) in
/-- Between two points of a local run, the events appended tell what happened to each room. -/
theorem deltaTells_run {ops : List Op} (hlocal : ∀ op ∈ done ++ ops, op.IsLocal)
    (hnamed : WellNamed (runEvents env (done ++ ops))) :
    DeltaTells user (run (step env) Store.empty done) (run (step env) Store.empty (done ++ ops))
      ((runAppends env (run (step env) Store.empty done) ops).map Prod.snd) := by
  have hevents : ∀ p ∈ (runAppends env (run (step env) Store.empty done) ops).map Prod.snd,
      p ∈ runEvents env (done ++ ops) := by
    intro p hp
    rw [runEvents_append]
    exact List.mem_append_right _ hp
  have hdone : ∀ op ∈ done, op.IsLocal := fun op hop => hlocal op (List.mem_append_left _ hop)
  have hops : ∀ op ∈ ops, op.IsLocal := fun op hop => hlocal op (List.mem_append_right _ hop)
  have hnamed' : WellNamed (runEvents env done) := hnamed.of_append
  have hown : ∀ room : RoomId, sep ∉ room.asStr →
      OwnHistory (run (step env) Store.empty done) room :=
    fun room hroom => OwnHistory.local_run hroom hnamed' hdone
  have hclean := clean_of_window hnamed
  rw [run_append]
  constructor
  · exact fun p hp => hnamed.rooms p (hevents p hp)
  · exact fun room hroom => ((hown room hroom).along_window hroom hclean hops).2.slots
  · exact fun room hroom => roomState_run (hown room hroom) hroom hclean hops
  · exact fun room hroom => joinedInDelta_of_joined (hown room hroom) hroom hclean hops
  · exact fun room hroom => leftInDelta_of_left (hown room hroom) hroom hclean hops

/-- A reader at the end of a run gets from an earlier position the events appended since. -/
theorem eventsSince_run {ops : List Op} (hnamed : WellNamed (runEvents env (done ++ ops)))
    (hlen : (runEvents env (done ++ ops)).length < 2 ^ 64) :
    eventsSince (run (step env) Store.empty (done ++ ops))
        (streamLen (run (step env) Store.empty done)) =
      (runAppends env (run (step env) Store.empty done) ops).map Prod.snd := by
  have hnamed' : WellNamed (runEvents env done) := hnamed.of_append
  rw [hnamed.streamed.eventsSince_eq hnamed.rooms hnamed.ids (by omega), hnamed'.streamed.len,
    runEvents_append, List.drop_left]

variable (now) in
/-- The delta after a window. -/
theorem sync_window (h : UpToDate env user done x)
    (hnamed : WellNamed (runEvents env (done ++ w.ops)))
    (hlen : (runEvents env (done ++ w.ops)).length < 2 ^ 64) :
    let s := run (step env) x.data w.ops
    let delta := (runAppends env x.data w.ops).map Prod.snd
    (sync s user (some x.since) now).joined = deltaJoined s user now delta ∧
      (sync s user (some x.since) now).left = deltaLeft s user delta := by
  intro s delta
  have hs : s = run (step env) Store.empty (done ++ w.ops) := by
    rw [run_append, ← h.data]
  have hdata := h.data
  have hdelta : eventsSince s (streamLen x.data) = delta := by
    rw [hs, hdata, eventsSince_run hnamed hlen, ← hdata]
  have hlt : streamLen x.data < 2 ^ 64 := by
    rw [hdata, hnamed.of_append.streamed.len]
    rw [runEvents_append, List.length_append] at hlen
    omega
  have hpos : sincePosition (some x.since) = some (streamLen x.data) := by
    rw [h.since, sincePosition_nextBatch hlt]
  simp only [sync, hpos, hdelta]
  exact ⟨trivial, trivial⟩

/-- A sync after a window brings the client up to date again. -/
theorem UpToDate.step (h : UpToDate env user done x)
    (hlocal : ∀ op ∈ done ++ w.ops, op.IsLocal)
    (hnamed : WellNamed (runEvents env (done ++ w.ops)))
    (hlen : (runEvents env (done ++ w.ops)).length < 2 ^ 64) :
    UpToDate env user (done ++ w.ops) (syncStep env user x w) where
  data := by
    rw [run_append, ← h.data]
    rfl
  since := rfl
  client := by
    obtain ⟨hjoined, hleft⟩ := sync_window w.now h hnamed hlen
    have htells := deltaTells_run user hlocal hnamed
    rw [run_append, ← h.data] at htells
    show takeIn x.client _ = shown (run (Svc.step env) x.data w.ops) user
    rw [h.client]
    exact takeIn_delta htells hjoined hleft

/-- The timeline of a joined room in a delta is what the window appended to the room. -/
theorem viewTimeline_window (h : UpToDate env user done x)
    (hnamed : WellNamed (runEvents env (done ++ w.ops)))
    (hlen : (runEvents env (done ++ w.ops)).length < 2 ^ 64) (room : RoomId)
    (hroom : isJoined (run (step env) x.data w.ops) room user = true) :
    viewTimeline (sync (run (step env) x.data w.ops) user (some x.since) w.now) room =
      windowEvents env x.data w.ops room := by
  rw [viewTimeline, (sync_window w.now h hnamed hlen).1, find?_deltaJoined]
  by_cases hnil : windowEvents env x.data w.ops room = []
  · rw [if_neg fun hboth => hboth.2 hnil, hnil]
    rfl
  · rw [if_pos ⟨hroom, hnil⟩]
    rfl

theorem shows_shown {s : Data} (hs : Keyed s) : Shows (shown s user) (sync s user none now) := by
  have hjoined : (sync s user none now).joined = initialJoined s user now := rfl
  constructor
  · intro room
    rw [hjoined, shown, initialJoined, List.map_map]
    constructor
    · intro hsome
      split at hsome
      · rename_i hroom
        obtain ⟨p, hp⟩ := exists_timeline_of_isJoined hroom.1
        exact List.mem_map.mpr ⟨room, List.mem_filter.mpr ⟨mem_rooms hs hroom.2 hp, hroom.1⟩, rfl⟩
      · exact nomatch hsome
    · intro hmem
      obtain ⟨room', hroom', rfl⟩ := List.mem_map.mp hmem
      obtain ⟨hrooms, hin⟩ := List.mem_filter.mp hroom'
      rw [if_pos ⟨hin, sep_not_mem_of_mem_rooms hrooms⟩]
      rfl
  · intro joined hmem
    obtain ⟨room, hroom', rfl⟩ := List.mem_map.mp hmem
    obtain ⟨hrooms, hin⟩ := List.mem_filter.mp hroom'
    have hroom : isJoined s room user = true ∧ sep ∉ room.asStr :=
      ⟨hin, sep_not_mem_of_mem_rooms hrooms⟩
    show (shown s user room).map SortedMap.values = some (currentStatePdus s room)
    rw [shown, if_pos hroom, Option.map_some, values_roomState]

theorem data_run (x : Syncing) (windows : List Window) :
    (run (syncStep env user) x windows).data =
      run (Svc.step env) x.data (windows.flatMap (·.ops)) := by
  induction windows generalizing x with
  | nil => rfl
  | cons w windows ih =>
      rw [run_cons, ih, List.flatMap_cons, run_append]
      rfl

/-- Along the windows of a local run the client stays up to date. -/
theorem UpToDate.along (h : UpToDate env user done x) (windows : List Window)
    (hlocal : ∀ op ∈ done ++ windows.flatMap (·.ops), op.IsLocal)
    (hnamed : WellNamed (runEvents env (done ++ windows.flatMap (·.ops))))
    (hlen : (runEvents env (done ++ windows.flatMap (·.ops))).length < 2 ^ 64) :
    UpToDate env user (done ++ windows.flatMap (·.ops)) (run (syncStep env user) x windows) ∧
      ∀ y ∈ trace (syncStep env user) x windows, ∀ room,
        isJoined (run (Svc.step env) y.1.data y.2.ops) room user = true →
          viewTimeline (sync (run (Svc.step env) y.1.data y.2.ops) user (some y.1.since) y.2.now)
            room = windowEvents env y.1.data y.2.ops room := by
  induction windows generalizing done x with
  | nil => exact ⟨by simpa using h, by simp [trace]⟩
  | cons w windows ih =>
      have hsplit : done ++ (w :: windows).flatMap (·.ops) =
          (done ++ w.ops) ++ windows.flatMap (·.ops) := by
        rw [List.flatMap_cons, List.append_assoc]
      rw [hsplit] at hlocal hnamed hlen ⊢
      have hnamed' : WellNamed (runEvents env (done ++ w.ops)) := hnamed.of_append
      have hlen' : (runEvents env (done ++ w.ops)).length < 2 ^ 64 := by
        rw [runEvents_append, List.length_append] at hlen
        omega
      have hlocal' : ∀ op ∈ done ++ w.ops, op.IsLocal :=
        fun op hop => hlocal op (List.mem_append_left _ hop)
      obtain ⟨hend, hrest⟩ := ih (h.step hlocal' hnamed' hlen') hlocal hnamed hlen
      refine ⟨hend, ?_⟩
      rw [trace, List.forall_mem_cons]
      exact ⟨fun room hroom => viewTimeline_window h hnamed' hlen' room hroom, hrest⟩

end

/-- After an initial sync and any number of deltas a client of a local run shows the rooms and the
states that an initial sync shows there; and each delta has, for a joined room, the events that its
window appended to the room, in order. -/
theorem incremental_sync_eq_initial (env : Env) (user : UserId) (first : List Op)
    (now : RoomId → UInt64) (windows : List Window)
    (hlocal : ∀ op ∈ first ++ windows.flatMap (·.ops), op.IsLocal)
    (hnamed : WellNamed (runEvents env (first ++ windows.flatMap (·.ops)))) :
    let start := firstSync (run (step env) Store.empty first) user now
    let final := run (syncStep env user) start windows
    streamLen final.data < 2 ^ 64 →
      (∀ now', Shows final.client (sync final.data user none now')) ∧
      ∀ y ∈ trace (syncStep env user) start windows, ∀ room,
        isJoined (run (step env) y.1.data y.2.ops) room user = true →
          viewTimeline (sync (run (step env) y.1.data y.2.ops) user (some y.1.since) y.2.now)
            room = windowEvents env y.1.data y.2.ops room := by
  intro start final hlen
  have hnamed' : WellNamed (runEvents env first) := hnamed.of_append
  have hlocal' : ∀ op ∈ first, op.IsLocal := fun op hop => hlocal op (List.mem_append_left _ hop)
  have hstart : UpToDate env user first start := by
    refine ⟨rfl, rfl, takeIn_initial hnamed'.streamed.keyed fun room hroom => ?_⟩
    exact (OwnHistory.local_run hroom hnamed' hlocal').slots
  have hdata : final.data = run (step env) Store.empty (first ++ windows.flatMap (·.ops)) := by
    rw [run_append]
    exact data_run start windows
  have hlen' : (runEvents env (first ++ windows.flatMap (·.ops))).length < 2 ^ 64 := by
    rw [← hnamed.streamed.len, ← hdata]
    exact hlen
  obtain ⟨hfinal, htimelines⟩ := hstart.along windows hlocal hnamed hlen'
  refine ⟨fun now' => ?_, htimelines⟩
  show Shows (run (syncStep env user) start windows).client _
  rw [hfinal.client]
  refine shows_shown ?_
  rw [hfinal.data]
  exact hnamed.streamed.keyed

namespace SampleRun

/-- An environment whose digests are a length and a sum of bytes. -/
def summingEnv : Env := { env with sha256 := fun bytes => [UInt8.ofNat bytes.length, bytes.sum] }

/-- The creation of a room, and bob's invite to it. -/
def inviting : List Op :=
  [.createRoom alice none none fun _ => 0, .changeMembership alice mintedRoom bob "invite" 0]

/-- Bob joins and sends a message, then leaves. -/
def joinThenLeave : List Window :=
  [⟨[.changeMembership bob mintedRoom bob "join" 0,
      .sendMessage bob mintedRoom "m.room.message" "1" (singleField "body" "x") 0], fun _ => 0⟩,
    ⟨[.changeMembership bob mintedRoom bob "leave" 0], fun _ => 0⟩]

end SampleRun

open SampleRun in
/-- Bob's client over his join and his leave. -/
theorem incremental_sync_sample :
    let start := firstSync (run (step summingEnv) Store.empty inviting) bob fun _ => 0
    let final := run (syncStep summingEnv bob) start joinThenLeave
    Shows final.client (sync final.data bob none fun _ => 0) := by
  intro start final
  have hrun : WellNamed (runEvents summingEnv (inviting ++ joinThenLeave.flatMap (·.ops))) ∧
      streamLen final.data = 7 := by
    decide +kernel
  obtain ⟨hnamed, hlen⟩ := hrun
  exact (incremental_sync_eq_initial summingEnv bob inviting (fun _ => 0) joinThenLeave
    (by decide +kernel) hnamed (by rw [hlen]; decide)).1 fun _ => 0

end GaussMatrix.Svc
