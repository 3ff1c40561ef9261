import GaussMatrix.Svc.CurrentState
import GaussMatrix.Svc.LinearDag

/-!
# Appends to a store that may fail

An append is up to three writes, and what each of them returns is dropped.  A write that fails leaves
its family as it was, so what an acknowledged event can be found by depends on which writes took
effect.
-/

namespace GaussMatrix.Svc

open Library Util Api Api.Events StateRes RoomService

/-- Which writes of a call take effect, by family; a call writes to a family once. -/
abbrev Writes := Cf → Bool

/-- A write that may fail. -/
def tryPut (w : Writes) (s : Data) (cf : Cf) (key : Str) (value : Record) : Data :=
  if w cf then s.put cf key value else s

/-! ## The calls -/

/-- `append`, its writes allowed to fail. -/
def appendTrying (w : Writes) (s : Data) (p : Pdu) : Data :=
  let s := tryPut w s .events (timelineKey p) (.pdu p)
  let s := match p.stateTuple with
    | some (kind, key) =>
        tryPut w s .roomState (stateKey p.roomId kind key) (.text p.eventId.asStr)
    | none => s
  let seq := s.count .eventStream
  tryPut w s .eventStream (streamKey seq) (.text (streamEntry p))

/-- `changeMembership`, its writes allowed to fail. -/
def changeMembershipTrying (env : Env) (w : Writes) (s : Data) (actor : UserId) (room : RoomId)
    (target : UserId) (membership : Str) (now : UInt64) : Option Str × Data :=
  match (membershipEvent env s actor room target membership now).bind (authorized env s) with
  | none => (none, s)
  | some p => (some p.eventId.asStr, appendTrying w s p)

/-- `sendMessage`, its writes allowed to fail. -/
def sendMessageTrying (env : Env) (w : Writes) (s : Data) (sender : UserId) (room : RoomId)
    (eventType txnId content : Str) (now : UInt64) : Option Str × Data :=
  match s.get .transactions (txnKey sender txnId) with
  | some existing => (existing.asText, s)
  | none =>
      match (messageEvent env s sender room eventType content now).bind (authorized env s) with
      | none => (none, s)
      | some p =>
          (some p.eventId.asStr,
            tryPut w (appendTrying w s p) .transactions (txnKey sender txnId)
              (.text p.eventId.asStr))

/-- Where no write fails the calls are those of the infallible store. -/
theorem trying_all (env : Env) (s : Data) :
    changeMembershipTrying env (fun _ => true) s = changeMembership env s ∧
      sendMessageTrying env (fun _ => true) s = sendMessage env s :=
  ⟨rfl, rfl⟩

/-! ## Finding an event -/

/-- The room's timeline has an event of this id. -/
def InTimeline (s : Data) (room : RoomId) (id : Str) : Prop :=
  ∃ p ∈ timeline s room, p.eventId.asStr = id

/-- The global stream records an event of this id in the room. -/
def InStream (s : Data) (room : RoomId) (id : Str) : Prop :=
  ∃ key, s.get .eventStream key = some (.text (room.asStr ++ sep :: id))

/-- The event of this id is what the slot resolves to. -/
def InSlot (s : Data) (room : RoomId) (kind key id : Str) : Prop :=
  ∃ p ∈ stateEventPdu s room kind key, p.eventId.asStr = id

instance (s : Data) (room : RoomId) (id : Str) : Decidable (InTimeline s room id) :=
  inferInstanceAs (Decidable (∃ p ∈ timeline s room, p.eventId.asStr = id))

section

variable {w : Writes} {s t : Data} {p : Pdu}

theorem tryPut_of_ne {cf cf' : Cf} (h : cf' ≠ cf) (key : Str) (value : Record) :
    tryPut w s cf key value cf' = s cf' := by
  unfold tryPut
  split
  · exact Store.put_of_ne s h key value
  · rfl

theorem tryPut_self (cf : Cf) (key : Str) (value : Record) :
    tryPut w s cf key value cf = if w cf then (s cf).insert key value else s cf := by
  unfold tryPut
  split
  · exact Store.put_self s cf key value
  · rfl

/-- The writes of the state slot, apart from the others. -/
theorem slotWrite_of_ne {cf : Cf} (h : cf ≠ .roomState) :
    (match p.stateTuple with
      | some (kind, key) =>
          tryPut w s .roomState (stateKey p.roomId kind key) (.text p.eventId.asStr)
      | none => s) cf = s cf := by
  cases p.stateTuple with
  | none => rfl
  | some slot => exact tryPut_of_ne h _ _

theorem appendTrying_events : appendTrying w s p .events =
    if w .events then (s .events).insert (timelineKey p) (.pdu p) else s .events := by
  simp only [appendTrying]
  rw [tryPut_of_ne (by decide), slotWrite_of_ne (by decide), tryPut_self]

theorem appendTrying_eventStream : appendTrying w s p .eventStream =
    if w .eventStream then
      (s .eventStream).insert (streamKey (streamLen s)) (.text (streamEntry p))
    else s .eventStream := by
  simp only [appendTrying, Store.count]
  rw [tryPut_self, slotWrite_of_ne (by decide), tryPut_of_ne (by decide)]
  rfl

theorem appendTrying_roomState {kind key : Str} (h : p.stateTuple = some (kind, key)) :
    appendTrying w s p .roomState =
      if w .roomState then
        (s .roomState).insert (stateKey p.roomId kind key) (.text p.eventId.asStr)
      else s .roomState := by
  simp only [appendTrying, h]
  rw [tryPut_of_ne (by decide), tryPut_self, tryPut_of_ne (by decide)]

/-- An event that was written to the events family is in its room's timeline. -/
theorem inTimeline_of_insert
    (h : t .events = (s .events).insert (timelineKey p) (.pdu p)) :
    InTimeline t p.roomId p.eventId.asStr := by
  have hget : (t .events).get (timelineKey p) = some (.pdu p) := by
    rw [h, SortedMap.get_insert_self]
  have hmem : (timelineKey p, Record.pdu p) ∈ t.scan .events :=
    ((t .events).mem_entries_iff _ _).mpr hget
  have hpfx : startsWith (roomPrefix p.roomId) (timelineKey p) = true := by
    rw [startsWith_iff]
    exact ⟨padDecimal 20 p.depth.toNat ++ sep :: p.eventId.asStr, by simp [timelineKey, roomPrefix]⟩
  refine ⟨p, ?_, rfl⟩
  exact List.mem_filterMap.mpr ⟨_, List.mem_filter.mpr ⟨hmem, hpfx⟩, rfl⟩

/-- An id of the timeline is resolved to an event of that id. -/
theorem exists_pdu_of_inTimeline {room : RoomId} {id : EventId} (h : InTimeline s room id.asStr) :
    ∃ q, pdu s room id = some q ∧ q.eventId = id := by
  obtain ⟨p, hp, hid⟩ := h
  have hfound : (pdu s room id).isSome := pdu_isSome_iff.mpr ⟨p, hp, EventId.ext hid⟩
  obtain ⟨q, hq⟩ := Option.isSome_iff_exists.mp hfound
  exact ⟨q, hq, (mem_timeline_of_pdu hq).2⟩

/-- A slot that names an event of the timeline resolves to it. -/
theorem inSlot_of_get {room : RoomId} {kind key : Str} {id : EventId}
    (hslot : s.get .roomState (stateKey room kind key) = some (.text id.asStr))
    (h : InTimeline s room id.asStr) : InSlot s room kind key id.asStr := by
  obtain ⟨q, hq, hid⟩ := exists_pdu_of_inTimeline h
  refine ⟨q, ?_, congrArg EventId.asStr hid⟩
  have hevent : stateEvent s room kind key = some id := by
    rw [stateEvent, hslot]
    exact EventId.parse_asStr id
  rw [Option.mem_def, stateEventPdu, hevent]
  exact hq

/-- A stream entry of a room whose id has no separator is read back as its event. -/
theorem mem_eventsSince_of_get {room : RoomId} (hsep : sep ∉ room.asStr) {id : EventId} {seq : Nat}
    (hentry : s.get .eventStream (streamKey seq) = some (.text (room.asStr ++ sep :: id.asStr)))
    (h : InTimeline s room id.asStr) : ∃ q ∈ eventsSince s seq, q.eventId = id := by
  obtain ⟨q, hq, hid⟩ := exists_pdu_of_inTimeline h
  refine ⟨q, ?_, hid⟩
  have hmem : (streamKey seq, Record.text (room.asStr ++ sep :: id.asStr)) ∈ s.scan .eventStream :=
    ((s .eventStream).mem_entries_iff _ _).mpr hentry
  refine List.mem_filterMap.mpr ⟨_, List.mem_filter.mpr ⟨hmem, ?_⟩, ?_⟩
  · simp [streamKey, parseDecimal_padDecimal]
  · show (splitOnce sep (room.asStr ++ sep :: id.asStr)).bind _ = some q
    rw [splitOnce_append hsep, Option.bind_some]
    show (RoomId.parse room.asStr).bind _ = some q
    rw [RoomId.parse_asStr, Option.bind_some, EventId.parse_asStr]
    exact hq

end

/-! ## What an acknowledgement says -/

/-- What the families hold of an acknowledged event: it is where its writes took effect, and a family
whose write failed is as it was. -/
structure Acknowledged (w : Writes) (s s' : Data) (room : RoomId) (id : Str) : Prop where
  timeline : if w .events then InTimeline s' room id else s' .events = s .events
  stream : if w .eventStream then InStream s' room id else s' .eventStream = s .eventStream
  since : w .events → w .eventStream → sep ∉ room.asStr →
    ∃ p ∈ eventsSince s' (streamLen s), p.eventId.asStr = id

section

variable {env : Env} {w : Writes} {s : Data} {p : Pdu}

theorem acknowledged_of_families {s' : Data} (hevents : s' .events = appendTrying w s p .events)
    (hstream : s' .eventStream = appendTrying w s p .eventStream) :
    Acknowledged w s s' p.roomId p.eventId.asStr := by
  rw [appendTrying_events] at hevents
  rw [appendTrying_eventStream] at hstream
  have hget : w .eventStream → s'.get .eventStream (streamKey (streamLen s)) =
      some (.text (p.roomId.asStr ++ sep :: p.eventId.asStr)) := by
    intro hw
    rw [if_pos hw] at hstream
    rw [Store.get, hstream, SortedMap.get_insert_self]
    rfl
  constructor
  · split
    · rename_i hw
      rw [if_pos hw] at hevents
      exact inTimeline_of_insert hevents
    · rename_i hw
      rwa [if_neg hw] at hevents
  · split
    · rename_i hw
      exact ⟨_, hget hw⟩
    · rename_i hw
      rwa [if_neg hw] at hstream
  · intro hw hw' hsep
    rw [if_pos hw] at hevents
    obtain ⟨q, hq, hid⟩ := mem_eventsSince_of_get hsep (hget hw') (inTimeline_of_insert hevents)
    exact ⟨q, hq, congrArg EventId.asStr hid⟩

/-- A membership event is in its slot where the slot was written and the timeline has it. -/
theorem slot_of_appendTrying {kind key : Str} (h : p.stateTuple = some (kind, key)) :
    if w .roomState then
      InTimeline (appendTrying w s p) p.roomId p.eventId.asStr →
        InSlot (appendTrying w s p) p.roomId kind key p.eventId.asStr
    else appendTrying w s p .roomState = s .roomState := by
  have hfamily := appendTrying_roomState (w := w) (s := s) h
  split
  · rename_i hw
    rw [if_pos hw] at hfamily
    apply inSlot_of_get
    rw [Store.get, hfamily, SortedMap.get_insert_self]
  · rename_i hw
    rwa [if_neg hw] at hfamily

end

/-- An acknowledged event is in the timeline and in the stream where those writes took effect, and a
membership event in its slot where that write did and the timeline has it; where nothing is
acknowledged nothing is written.  A repeated transaction is answered from its record. -/
theorem acknowledged_events_written (env : Env) (w : Writes) (s : Data) :
    (∀ actor room target membership now,
      match changeMembershipTrying env w s actor room target membership now with
      | (none, s') => s' = s
      | (some id, s') => Acknowledged w s s' room id ∧
          if w .roomState then InTimeline s' room id → InSlot s' room roomMember target.asStr id
          else s' .roomState = s .roomState) ∧
    (∀ sender room eventType txnId content now,
      match sendMessageTrying env w s sender room eventType txnId content now with
      | (none, s') => s' = s
      | (some id, s') =>
          s.get .transactions (txnKey sender txnId) = some (.text id) ∧ s' = s ∨
          s.get .transactions (txnKey sender txnId) = none ∧ Acknowledged w s s' room id) := by
  constructor
  · intro actor room target membership now
    unfold changeMembershipTrying
    cases hp : (membershipEvent env s actor room target membership now).bind (authorized env s) with
    | none => rfl
    | some p =>
        obtain ⟨built, hbuilt, hauth⟩ := Option.bind_eq_some_iff.mp hp
        obtain ⟨rfl, -⟩ := authorized_eq_some_iff.mp hauth
        obtain ⟨rfl, -, hkind, hkey⟩ := membershipEvent_fields hbuilt
        have htuple : built.stateTuple = some (roomMember, target.asStr) := by
          rw [Pdu.stateTuple, hkey, hkind]
          rfl
        exact ⟨acknowledged_of_families rfl rfl, slot_of_appendTrying htuple⟩
  · intro sender room eventType txnId content now
    unfold sendMessageTrying
    cases htxn : s.get .transactions (txnKey sender txnId) with
    | some existing =>
        -- the transaction was answered before
        cases existing with
        | text id => exact .inl ⟨rfl, rfl⟩
        | pdu p => rfl
    | none =>
        simp only
        cases hp : (messageEvent env s sender room eventType content now).bind
            (authorized env s) with
        | none => rfl
        | some p =>
            obtain ⟨built, hbuilt, hauth⟩ := Option.bind_eq_some_iff.mp hp
            obtain ⟨rfl, -⟩ := authorized_eq_some_iff.mp hauth
            obtain ⟨rfl, -, -, -⟩ := messageEvent_fields hbuilt
            exact .inr ⟨trivial, acknowledged_of_families (tryPut_of_ne (by decide) _ _)
              (tryPut_of_ne (by decide) _ _)⟩

namespace SampleRun

/-- A message of Alice whose timeline entry is not written. -/
def lostMessage : Option Str × Data :=
  sendMessageTrying shortEnv (fun cf => cf ≠ .events)
    (run (step shortEnv) Store.empty [deliver [create, aliceJoin]]) alice room
    "m.room.message" "1" (singleField "body" "x") 0

end SampleRun

open SampleRun in
/-- The write of a message's timeline entry fails, and the message is acknowledged all the same. -/
theorem acknowledged_message_lost :
    ¬ ∀ (env : Env) (w : Writes) (ops : List Op) (sender : UserId) (room : RoomId)
      (eventType txnId content : Str) (now : UInt64) (id : Str) (s' : Data),
      sendMessageTrying env w (run (step env) Store.empty ops) sender room eventType txnId content
        now = (some id, s') → InTimeline s' room id ∧ InStream s' room id := by
  intro h
  have hid : lostMessage.1 = some (lostMessage.1.getD []) := by decide +kernel
  have hsent : lostMessage = (some (lostMessage.1.getD []), lostMessage.2) := by rw [← hid]
  have hlost : ¬ InTimeline lostMessage.2 room (lostMessage.1.getD []) := by decide +kernel
  exact hlost (h _ _ _ _ _ _ _ _ _ _ _ hsent).1

end GaussMatrix.Svc
