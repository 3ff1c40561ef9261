import GaussMatrix.Svc.Timeline

/-!
# Current state

Timeline and state keys join their parts with a separator, so the room id and the event type can be
read off a key only where they do not contain it.  Where they do not, the families of two rooms are
apart, and an append changes the one slot its event fills.
-/

namespace GaussMatrix.Svc

open Library Util Api Api.Events StateRes

namespace RoomService

variable {s t : Data} {room : RoomId} {id : EventId} {p q : Pdu} {kind key : Str}

/-! ## Keys -/

theorem startsWith_timelineKey_iff (hroom : sep ∉ room.asStr) (hq : sep ∉ q.roomId.asStr) :
    startsWith (roomPrefix room) (timelineKey q) = true ↔ q.roomId = room := by
  rw [roomPrefix, timelineKey, startsWith_sep_iff hroom hq, eq_comm, RoomId.ext_iff]

theorem sep_not_mem_padDecimal (width n : Nat) : sep ∉ padDecimal width n :=
  fun h => absurd (isDigit_of_mem_padDecimal h) (by decide)

theorem eventId_of_timelineKey_eq (hp : sep ∉ p.roomId.asStr) (hq : sep ∉ q.roomId.asStr)
    (h : timelineKey p = timelineKey q) : p.roomId = q.roomId ∧ p.eventId = q.eventId := by
  obtain ⟨hroom, hrest⟩ := append_sep_inj hp hq h
  obtain ⟨-, hid⟩ := append_sep_inj (sep_not_mem_padDecimal _ _) (sep_not_mem_padDecimal _ _) hrest
  exact ⟨RoomId.ext hroom, EventId.ext hid⟩

theorem roomPrefix_append (room : RoomId) (kind key : Str) :
    roomPrefix room ++ (kind ++ sep :: key) = stateKey room kind key := by
  rw [roomPrefix, stateKey, List.append_assoc]
  rfl

theorem stateKey_inj {kind' key' : Str} (hkind : sep ∉ kind) (hkind' : sep ∉ kind')
    (h : stateKey room kind key = stateKey room kind' key') : kind = kind' ∧ key = key' := by
  rw [← roomPrefix_append, ← roomPrefix_append] at h
  exact append_sep_inj hkind hkind' (List.append_cancel_left h)

/-! ## Slots -/

theorem stateSlotOf_eq_some_iff {e : Str × Record} {slotKey : StateKey} :
    stateSlotOf room e = some (slotKey, id) ↔
      ∃ kind key, e.1 = stateKey room kind key ∧ sep ∉ kind ∧ slotKey = slot kind key ∧
        e.2.asText.bind EventId.parse = some id := by
  simp only [stateSlotOf, bind, Option.bind_eq_some_iff, pure, Option.some.injEq, Prod.mk.injEq]
  constructor
  · rintro ⟨rest, hrest, ⟨kind, key⟩, hsplit, id', hid, rfl, rfl⟩
    obtain ⟨rfl, hkind⟩ := splitOnce_eq_some hsplit
    rw [stripPrefix_eq_some_iff, roomPrefix_append] at hrest
    exact ⟨kind, key, hrest, hkind, rfl, hid⟩
  · rintro ⟨kind, key, hkey, hkind, rfl, hid⟩
    refine ⟨kind ++ sep :: key, ?_, (kind, key), splitOnce_append hkind key, id, hid, rfl, rfl⟩
    rw [stripPrefix_eq_some_iff, roomPrefix_append, hkey]

/-- A slot of the current state holds the event that its key in the state family names. -/
theorem currentState_get_iff :
    (currentState s room).get (slot kind key) = some id ↔
      sep ∉ kind ∧ stateEvent s room kind key = some id := by
  have hmem : ∀ id, (slot kind key, id) ∈ (s.scan .roomState).filterMap (stateSlotOf room) ↔
      sep ∉ kind ∧ stateEvent s room kind key = some id := by
    intro id
    simp only [List.mem_filterMap, stateSlotOf_eq_some_iff, Store.scan, Prod.exists,
      SortedMap.mem_entries_iff]
    constructor
    · rintro ⟨_, value, hget, kind', key', rfl, hkind, hslot, hid⟩
      obtain ⟨rfl, rfl⟩ := slot_inj.mp hslot
      rw [stateEvent, Store.get, hget]
      exact ⟨hkind, hid⟩
    · rintro ⟨hkind, hid⟩
      obtain ⟨text, htext, hparse⟩ := Option.bind_eq_some_iff.mp hid
      obtain ⟨value, hget, hvalue⟩ := Option.bind_eq_some_iff.mp htext
      exact ⟨_, value, hget, kind, key, rfl, hkind, rfl,
        Option.bind_eq_some_iff.mpr ⟨text, hvalue, hparse⟩⟩
  rw [currentState, SortedMap.get_insertAll_eq_some_iff, hmem]
  intro id₁ id₂ h₁ h₂
  exact Option.some.inj (((hmem id₁).mp h₁).2.symm.trans ((hmem id₂).mp h₂).2)

theorem mem_currentStatePdus_of_stateEventPdu (hkind : sep ∉ kind)
    (h : stateEventPdu s room kind key = some p) : p ∈ currentStatePdus s room := by
  obtain ⟨id, hid, hp⟩ := Option.bind_eq_some_iff.mp h
  exact mem_stateEvents.mpr ⟨slot kind key, id, currentState_get_iff.mpr ⟨hkind, hid⟩, hp⟩

/-- The event is a state event stored under a key of the state family. -/
def FillsKey (q : Pdu) (key : Str) : Prop :=
  q.stateTuple.map (fun tuple => stateKey q.roomId tuple.1 tuple.2) = some key

instance (q : Pdu) (key : Str) : Decidable (FillsKey q key) := inferInstanceAs (Decidable (_ = _))

theorem FillsKey.exists_tuple (h : FillsKey q key) :
    ∃ kind' key', q.stateTuple = some (kind', key') ∧ stateKey q.roomId kind' key' = key := by
  obtain ⟨⟨kind', key'⟩, htuple, hkey⟩ := Option.map_eq_some_iff.mp h
  exact ⟨kind', key', htuple, hkey⟩

theorem stateEvent_append_of_fills (h : FillsKey q (stateKey room kind key)) :
    stateEvent (append s q) room kind key = some q.eventId := by
  obtain ⟨kind', key', htuple, hkey⟩ := h.exists_tuple
  rw [stateEvent, Store.get, append_roomState, htuple]
  simp [hkey, Record.asText]

theorem stateEvent_append_of_not_fills (h : ¬ FillsKey q (stateKey room kind key)) :
    stateEvent (append s q) room kind key = stateEvent s room kind key := by
  rw [stateEvent, Store.get, append_roomState]
  cases htuple : q.stateTuple with
  | none => rfl
  | some tuple =>
      obtain ⟨kind', key'⟩ := tuple
      have hkey : stateKey room kind key ≠ stateKey q.roomId kind' key' := fun heq =>
        h (by rw [FillsKey, htuple, Option.map_some, heq])
      simp only [SortedMap.get_insert_ne _ hkey]
      rfl

/-- The type of a state event has no separator. -/
def PlainKind (q : Pdu) : Prop := ∀ tuple ∈ q.stateTuple, sep ∉ tuple.1

instance (q : Pdu) : Decidable (PlainKind q) :=
  inferInstanceAs (Decidable (∀ tuple ∈ q.stateTuple, sep ∉ tuple.1))

theorem fillsKey_self_iff (hkind : sep ∉ kind) (hplain : PlainKind q) :
    FillsKey q (stateKey q.roomId kind key) ↔ stateSlot q = some (slot kind key) := by
  rw [stateSlot_eq_some_iff]
  constructor
  · intro h
    obtain ⟨kind', key', htuple, hkey⟩ := h.exists_tuple
    obtain ⟨hkindEq, hkeyEq⟩ := stateKey_inj (hplain _ htuple) hkind hkey
    obtain ⟨own, hown, heq⟩ := Option.map_eq_some_iff.mp htuple
    obtain ⟨hown', hkey'⟩ := Prod.mk.inj heq
    exact ⟨hown'.trans hkindEq, hown.trans (congrArg some (hkey'.trans hkeyEq))⟩
  · intro ⟨hq, hkey⟩
    rw [FillsKey, Pdu.stateTuple, hkey, hq]
    rfl

theorem fillsKey_iff (hroom : sep ∉ room.asStr) (hq : sep ∉ q.roomId.asStr) (hkind : sep ∉ kind)
    (hplain : PlainKind q) :
    FillsKey q (stateKey room kind key) ↔ q.roomId = room ∧ stateSlot q = some (slot kind key) := by
  constructor
  · intro h
    obtain ⟨kind', key', -, hkey⟩ := h.exists_tuple
    obtain rfl := RoomId.ext (append_sep_inj hq hroom hkey).1
    exact ⟨rfl, (fillsKey_self_iff hkind hplain).mp h⟩
  · intro ⟨hself, h⟩
    rw [← hself]
    exact (fillsKey_self_iff hkind hplain).mpr h

/-- The appended event takes the slot from `c`: it fills the slot's key under another id, or it takes
the place of `c` in lookups. -/
def TakesSlot (room : RoomId) (kind key : Str) (c q : Pdu) : Prop :=
  FillsKey q (stateKey room kind key) ∧ q.eventId ≠ c.eventId ∨ ShadowsAt room c q

/-- A slot that held `c` holds it after an append exactly when the event does not take it. -/
theorem stateEventPdu_append_iff {c : Pdu} (hs : Keyed s)
    (hc : stateEventPdu s room kind key = some c) :
    stateEventPdu (append s q) room kind key = some c ↔ ¬ TakesSlot room kind key c q := by
  obtain ⟨id, hid, hp⟩ := Option.bind_eq_some_iff.mp hc
  obtain ⟨-, rfl⟩ := mem_timeline_of_pdu hp
  unfold TakesSlot
  rw [stateEventPdu]
  by_cases hfills : FillsKey q (stateKey room kind key)
  · rw [stateEvent_append_of_fills hfills, Option.bind_some]
    by_cases hq : q.eventId = c.eventId
    · rw [hq, pdu_append_iff hs hp]
      simp
    · refine iff_of_false (fun h => hq ?_) (fun h => h (.inl ⟨hfills, hq⟩))
      exact (mem_timeline_of_pdu h).2.symm
  · rw [stateEvent_append_of_not_fills hfills, hid, Option.bind_some, pdu_append_iff hs hp]
    simp [hfills]

theorem SameRooms.stateEventPdu (h : SameRooms s t) (room : RoomId) (kind key : Str) :
    stateEventPdu s room kind key = RoomService.stateEventPdu t room kind key := by
  rw [RoomService.stateEventPdu, RoomService.stateEventPdu, h.stateEvent, h.pdu]

/-! ## What an append does to a room -/

/-- Two data sets with the same events of an id in a room look that id up alike. -/
theorem pdu_congr (hs : Keyed s) (ht : Keyed t)
    (h : ∀ p, p.eventId = id → (p ∈ timeline s room ↔ p ∈ timeline t room)) :
    pdu s room id = pdu t room id := by
  apply Option.ext
  intro p
  rw [pdu_eq_some_iff hs, pdu_eq_some_iff ht]
  constructor
  · rintro ⟨hp, hid, hmin⟩
    exact ⟨(h p hid).mp hp, hid, fun q hq hqid => hmin q ((h q hqid).mpr hq) hqid⟩
  · rintro ⟨hp, hid, hmin⟩
    exact ⟨(h p hid).mpr hp, hid, fun q hq hqid => hmin q ((h q hqid).mp hq) hqid⟩

/-- The event's room id has no separator, and no other event of its room has its id. -/
structure Clean (s : Data) (q : Pdu) : Prop where
  room : sep ∉ q.roomId.asStr
  fresh : ∀ p ∈ timeline s q.roomId, p.eventId = q.eventId → p = q

instance (s : Data) (q : Pdu) : Decidable (Clean s q) :=
  decidable_of_iff
    (sep ∉ q.roomId.asStr ∧ ∀ p ∈ timeline s q.roomId, p.eventId = q.eventId → p = q)
    ⟨fun h => ⟨h.1, h.2⟩, fun h => ⟨h.1, h.2⟩⟩

/-- The room's timeline holds events of the room only. -/
def OwnTimeline (s : Data) (room : RoomId) : Prop := ∀ p ∈ timeline s room, p.roomId = room

theorem ownTimeline_empty (room : RoomId) : OwnTimeline Store.empty room := by
  intro p hp
  exact absurd hp (by simp [timeline, Store.scan, Store.empty, SortedMap.empty])

theorem OwnTimeline.append (h : OwnTimeline s room) (hs : Keyed s)
    (hq : startsWith (roomPrefix room) (timelineKey q) = true → q.roomId = room) :
    OwnTimeline (append s q) room := by
  intro p hp
  obtain ⟨rfl | ⟨hp, -⟩, hpre⟩ := (mem_timeline_append hs).mp hp
  · exact hq hpre
  · exact h p hp

theorem SameRooms.ownTimeline (h : SameRooms s t) (ht : OwnTimeline t room) :
    OwnTimeline s room := by
  unfold OwnTimeline
  rw [h.timeline]
  exact ht

theorem OwnTimeline.roomId_of_mem_currentStatePdus (h : OwnTimeline s room)
    (hp : p ∈ currentStatePdus s room) : p.roomId = room := by
  obtain ⟨-, id, -, hp⟩ := mem_stateEvents.mp hp
  exact h p (mem_timeline_of_pdu hp).1

section Append

variable (hs : Keyed s) (hown : OwnTimeline s room) (hroom : sep ∉ room.asStr)
  (hq : Clean s q)

include hs hown hroom hq

/-- An append changes a lookup only for its own room and id, which then finds it. -/
theorem pdu_append (id : EventId) :
    pdu (append s q) room id =
      if q.roomId = room ∧ q.eventId = id then some q else pdu s room id := by
  by_cases hself : q.roomId = room ∧ q.eventId = id
  · obtain ⟨rfl, rfl⟩ := hself
    rw [if_pos ⟨rfl, rfl⟩, pdu_eq_some_iff (hs.append q)]
    have hpre : startsWith (roomPrefix q.roomId) (timelineKey q) = true :=
      (startsWith_timelineKey_iff hroom hroom).mpr rfl
    refine ⟨(mem_timeline_append hs).mpr ⟨.inl rfl, hpre⟩, rfl, fun p hp hid => ?_⟩
    rcases ((mem_timeline_append hs).mp hp).1 with rfl | ⟨hp, -⟩
    · exact le_rfl
    · rw [hq.fresh p hp hid]
  · rw [if_neg hself]
    refine pdu_congr (hs.append q) hs fun p hid => ?_
    rw [mem_timeline_append hs]
    constructor
    · rintro ⟨rfl | ⟨hp, -⟩, hpre⟩
      · exact absurd ⟨(startsWith_timelineKey_iff hroom hq.room).mp hpre, hid⟩ hself
      · exact hp
    · intro hp
      obtain ⟨-, hpre⟩ := (mem_timeline_iff hs).mp hp
      refine ⟨.inr ⟨hp, fun hkey => hself ?_⟩, hpre⟩
      have hproom := hown p hp
      obtain ⟨hr, hi⟩ := eventId_of_timelineKey_eq (hproom ▸ hroom) hq.room hkey
      exact ⟨hr ▸ hproom, hi ▸ hid⟩

end Append

/-- An append changes the slot whose key in the state family its event fills. -/
theorem currentState_get_append_of_fills {P : StateKey → Prop} [DecidablePred P]
    (hfills : ∀ kind key, sep ∉ kind →
      (FillsKey q (stateKey room kind key) ↔ P (slot kind key)))
    (hplain : ∀ kind key, P (slot kind key) → sep ∉ kind) (slotKey : StateKey) :
    (currentState (append s q) room).get slotKey =
      if P slotKey then some q.eventId else (currentState s room).get slotKey := by
  obtain ⟨kind, key⟩ := slotKey
  change (currentState _ room).get (slot kind key) =
    if P (slot kind key) then some q.eventId else (currentState s room).get (slot kind key)
  apply Option.ext
  intro id
  rw [currentState_get_iff]
  by_cases hkind : sep ∈ kind
  · rw [if_neg fun h => hplain kind key h hkind, currentState_get_iff]
    simp [hkind]
  · by_cases hslot : P (slot kind key)
    · rw [if_pos hslot, stateEvent_append_of_fills ((hfills kind key hkind).mpr hslot)]
      simp [hkind]
    · rw [if_neg hslot, stateEvent_append_of_not_fills (mt (hfills kind key hkind).mp hslot),
        currentState_get_iff]

theorem sep_not_mem_of_stateSlot (hplain : PlainKind q) (h : stateSlot q = some (slot kind key)) :
    sep ∉ kind := by
  obtain ⟨tuple, htuple, hslot⟩ := Option.map_eq_some_iff.mp h
  exact hplain (kind, key) (htuple.trans (congrArg some hslot))

/-- An append changes the slot its event fills. -/
theorem currentState_get_append (hroom : sep ∉ room.asStr) (hq : Clean s q) (hplain : PlainKind q)
    (slotKey : StateKey) :
    (currentState (append s q) room).get slotKey =
      if q.roomId = room ∧ stateSlot q = some slotKey then some q.eventId
      else (currentState s room).get slotKey :=
  @currentState_get_append_of_fills s room q
    (fun slotKey => q.roomId = room ∧ stateSlot q = some slotKey) _
    (fun _ _ hkind => fillsKey_iff hroom hq.room hkind hplain)
    (fun _ _ hslot => sep_not_mem_of_stateSlot hplain hslot.2) slotKey

theorem currentState_get_append_self (hroom : q.roomId = room) (hplain : PlainKind q)
    (slotKey : StateKey) :
    (currentState (append s q) room).get slotKey =
      if stateSlot q = some slotKey then some q.eventId else (currentState s room).get slotKey := by
  rw [← hroom]
  exact @currentState_get_append_of_fills s q.roomId q (fun slotKey => stateSlot q = some slotKey) _
    (fun _ _ hkind => fillsKey_self_iff hkind hplain)
    (fun _ _ hslot => sep_not_mem_of_stateSlot hplain hslot) slotKey


/-! ## Events in their own slots -/

/-- Every slot of the room's current state names a stored event of that slot. -/
def OwnSlots (s : Data) (room : RoomId) : Prop :=
  ∀ slotKey id, (currentState s room).get slotKey = some id →
    ∃ p, pdu s room id = some p ∧ stateSlot p = some slotKey

theorem OwnSlots.wellSlotted (h : OwnSlots s room) :
    WellSlotted (pdu s room) (currentState s room) := by
  intro slotKey id p hid hp
  obtain ⟨p', hp', hslot⟩ := h slotKey id hid
  rw [Option.some.inj (hp.symm.trans hp')]
  exact hslot

theorem SameRooms.ownSlots (h : SameRooms s t) (ht : OwnSlots t room) : OwnSlots s room := by
  unfold OwnSlots
  rw [h.currentState, h.pdu]
  exact ht

/-- The membership of a user in the room's current state, as the auth rules read it. -/
def membership (s : Data) (room : RoomId) (user : Str) : Option Str :=
  (AuthView.new (currentStatePdus s room)).membership user

theorem SameRooms.membership (h : SameRooms s t) (room : RoomId) (user : Str) :
    membership s room user = RoomService.membership t room user := by
  rw [RoomService.membership, h.currentStatePdus]
  rfl

section Append

variable (hs : Keyed s) (hown : OwnTimeline s room) (hroom : sep ∉ room.asStr)
  (hq : Clean s q) (hplain : PlainKind q)

include hs hown hroom hq hplain

/-- An append changes the event of the slot it fills. -/
theorem slotEvent_append (h : OwnSlots s room) (slotKey : StateKey) :
    ((currentState (append s q) room).get slotKey).bind (pdu (append s q) room) =
      if q.roomId = room ∧ stateSlot q = some slotKey then some q
      else ((currentState s room).get slotKey).bind (pdu s room) := by
  rw [currentState_get_append hroom hq hplain]
  by_cases hslot : q.roomId = room ∧ stateSlot q = some slotKey
  · rw [if_pos hslot, if_pos hslot, Option.bind_some, pdu_append hs hown hroom hq,
      if_pos ⟨hslot.1, rfl⟩]
  · rw [if_neg hslot, if_neg hslot]
    cases hid : (currentState s room).get slotKey with
    | none => rfl
    | some id =>
        obtain ⟨p, hp, -⟩ := h slotKey id hid
        rw [Option.bind_some, Option.bind_some, pdu_append hs hown hroom hq]
        split
        · rename_i hself
          obtain ⟨rfl, rfl⟩ := hself
          obtain ⟨hmem, hpid⟩ := mem_timeline_of_pdu hp
          rw [hp, hq.fresh p hmem hpid]
        · rfl

theorem OwnSlots.append (h : OwnSlots s room) : OwnSlots (append s q) room := by
  intro slotKey id hid
  have hevent := slotEvent_append hs hown hroom hq hplain h slotKey
  rw [hid, Option.bind_some] at hevent
  rw [hevent]
  split
  · rename_i hslot
    exact ⟨q, rfl, hslot.2⟩
  · rename_i hslot
    rw [currentState_get_append hroom hq hplain, if_neg hslot] at hid
    rw [hid, Option.bind_some]
    exact h slotKey id hid

/-- An append puts its event into the state of its room as the rules read it. -/
theorem roomEvents_append (h : OwnSlots s room) :
    roomEvents (pdu (append s q) room) (currentState (append s q) room) =
      if q.roomId = room then applyEvent (roomEvents (pdu s room) (currentState s room)) q
      else roomEvents (pdu s room) (currentState s room) := by
  apply SortedMap.ext_get
  intro slotKey
  rw [roomEvents, SortedMap.get_filterMapValues, slotEvent_append hs hown hroom hq hplain h]
  by_cases hself : q.roomId = room
  · rw [if_pos hself, applyEvent]
    cases hslot : stateSlot q with
    | none => simp [roomEvents, SortedMap.get_filterMapValues]
    | some key =>
        simp only [SortedMap.get_insert, roomEvents, SortedMap.get_filterMapValues]
        by_cases hkey : slotKey = key
        · rw [if_pos hkey, if_pos ⟨hself, by rw [hkey]⟩]
        · rw [if_neg hkey, if_neg fun hboth => hkey (Option.some.inj hboth.2).symm]
  · rw [if_neg hself, if_neg (fun hboth => hself hboth.1), roomEvents,
      SortedMap.get_filterMapValues]

/-- An append changes the membership of the user whose slot it fills. -/
theorem membership_append (h : OwnSlots s room) (user : Str) :
    membership (append s q) room user =
      if q.roomId = room ∧ stateSlot q = some (slot roomMember user) then
        q.contentStr "membership"
      else membership s room user := by
  have h' := h.append hs hown hroom hq hplain
  rw [membership, membership, currentStatePdus, currentStatePdus, h'.wellSlotted.membership,
    h.wellSlotted.membership, slotEvent_append hs hown hroom hq hplain h]
  split
  · rfl
  · rfl

end Append

end RoomService

end GaussMatrix.Svc
