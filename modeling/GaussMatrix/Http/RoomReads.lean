import GaussMatrix.Http.Ingress
import GaussMatrix.Svc.IncrementalSync
import GaussMatrix.Svc.RoomPrefix

/-!
# Who can read a room

Two servers that differ in one room only are compared by the answers they give to somebody who was
never in that room.  The reads of other rooms tell them apart as little as refusals do; every read of
the room itself does.
-/

namespace GaussMatrix.Http

open Library Util Api Api.Events StateRes Svc RoomService

/-! ## Two servers -/

/-- The entries of a family that are not under the room's prefix. -/
def outside (room : RoomId) (family : SortedMap Str Record) : SortedMap Str Record :=
  family.filter fun key _ => !startsWith (roomPrefix room) key

/-- The data sets differ only in the events and the state of the room, and in the stream of all
events. -/
structure DifferOnlyIn (room : RoomId) (s t : Data) : Prop where
  events : outside room (s .events) = outside room (t .events)
  roomState : outside room (s .roomState) = outside room (t .roomState)
  others : ∀ cf, cf ≠ .events → cf ≠ .roomState → cf ≠ .eventStream → s cf = t cf

/-- The user is not joined to the room, and no join of theirs is among its events. -/
structure NeverJoined (s : Data) (room : RoomId) (user : UserId) : Prop where
  now : isJoined s room user = false
  before : ∀ p ∈ timeline s room, setsMembership user "join".toList p = false

/-- The user that a request authenticates as. -/
def requester (s : Data) (req : Request) : Option UserId :=
  (accessToken req.authorization req.target).bind (SessionStore.userFor s)

/-- Whatever the room holds, the request gets the same answer from somebody who was never in it. -/
def Confined (sha256 : List UInt8 → List UInt8) (room : RoomId) (req : Request) : Prop :=
  ∀ s t, DifferOnlyIn room s t →
    (∀ user, requester s req = some user → NeverJoined s room user ∧ NeverJoined t room user) →
      handle sha256 s req = handle sha256 t req

/-- The keys of one room are among those of the other. -/
def SharesKeys (room other : RoomId) : Prop :=
  startsWith (roomPrefix room) (roomPrefix other) = true ∨
    startsWith (roomPrefix other) (roomPrefix room) = true

/-- The request carries a token, and reads the room, or one that shares keys with it; a read of one
event asks for an id that an event can have. -/
def Addresses (sha256 : List UInt8 → List UInt8) (room : RoomId) (req : Request) : Prop :=
  (accessToken req.authorization req.target).isSome ∧
    ∃ m other, resolve req.method req.target = .found m ∧ m.endpoint.method = .get ∧
      ((roomReads sha256).lookup m.endpoint.path).isSome ∧
      (m.param "roomId").bind RoomId.parse = some other ∧ SharesKeys room other ∧
      (m.endpoint.path = eventPath → ((m.param "eventId").bind EventId.parse).isSome)

/-! ## Reads of other rooms -/

section

variable {s t : Data} {room other : RoomId} {m : RouteMatch} {sha256 : List UInt8 → List UInt8}
  {req : Request}

theorem filter_const_true {α : Type} (o : Option α) : (o.filter fun _ => true) = o := by
  cases o <;> rfl

/-- Families that agree outside a room agree under the prefix of a room that shares no keys. -/
theorem filter_eq_of_outside (hkeys : ¬ SharesKeys room other) {f g : SortedMap Str Record}
    (h : outside room f = outside room g) :
    (f.filter fun key _ => startsWith (roomPrefix other) key) =
      g.filter fun key _ => startsWith (roomPrefix other) key := by
  apply SortedMap.ext_get
  intro key
  rw [SortedMap.get_filter, SortedMap.get_filter]
  by_cases hother : startsWith (roomPrefix other) key = true
  · -- a key under both prefixes would have one of them under the other
    have hroom : startsWith (roomPrefix room) key = false := by
      rw [← Bool.not_eq_true]
      intro hroom
      rw [startsWith_iff_isPrefix] at hother hroom
      apply hkeys
      rw [SharesKeys, startsWith_iff_isPrefix, startsWith_iff_isPrefix]
      exact List.prefix_or_prefix_of_prefix hroom hother
    have hget := congrArg (fun family => family.get key) h
    simp only [outside, SortedMap.get_filter, hroom, Bool.not_false, filter_const_true] at hget
    rw [hget]
  · cases f.get key <;> cases g.get key <;> simp [Option.filter, hother]

theorem DifferOnlyIn.timeline (h : DifferOnlyIn room s t) (hkeys : ¬ SharesKeys room other) :
    timeline s other = RoomService.timeline t other :=
  congrArg (fun family => family.entries.filterMap fun e => e.2.decode)
    (filter_eq_of_outside hkeys h.events)

theorem DifferOnlyIn.pdu (h : DifferOnlyIn room s t) (hkeys : ¬ SharesKeys room other) :
    pdu s other = RoomService.pdu t other := by
  funext id
  rw [RoomService.pdu, RoomService.pdu, h.timeline hkeys]

theorem DifferOnlyIn.currentStatePdus (h : DifferOnlyIn room s t) (hkeys : ¬ SharesKeys room other) :
    currentStatePdus s other = RoomService.currentStatePdus t other := by
  rw [RoomService.currentStatePdus, RoomService.currentStatePdus, h.pdu hkeys,
    currentState_eq_filter, currentState_eq_filter, filter_eq_of_outside hkeys h.roomState]

theorem DifferOnlyIn.stateEventContent (h : DifferOnlyIn room s t) (hkeys : ¬ SharesKeys room other)
    (kind key : Str) :
    stateEventContent s other kind key = RoomService.stateEventContent t other kind key := by
  have hunder : startsWith (roomPrefix other) (stateKey other kind key) = true := by
    rw [startsWith_iff_isPrefix, ← roomPrefix_append]
    exact List.prefix_append _ _
  have hslot : (s .roomState).get (stateKey other kind key) =
      (t .roomState).get (stateKey other kind key) := by
    have hget := congrArg (fun family => family.get (stateKey other kind key))
      (filter_eq_of_outside hkeys h.roomState)
    simpa only [SortedMap.get_filter, hunder, filter_const_true] using hget
  rw [RoomService.stateEventContent, RoomService.stateEventContent, stateEventPdu, stateEventPdu,
    stateEvent, stateEvent, Store.get, Store.get, hslot, h.pdu hkeys]

theorem withRoom_congr {answer answer' : RoomId → Response}
    (h : ∀ other, (m.param "roomId").bind RoomId.parse = some other → answer other = answer' other) :
    withRoom m answer = withRoom m answer' := by
  unfold withRoom
  cases hroomId : m.param "roomId" with
  | none => rfl
  | some roomId =>
      cases hother : RoomId.parse roomId with
      | none => simp only [hother]
      | some other =>
          simp only [hother]
          apply h
          rw [hroomId, Option.bind_some, hother]

/-- A handler of a room read answers alike, unless the request addresses the room. -/
theorem serve_eq_of_not_shares (h : DifferOnlyIn room s t)
    (hkeys : ∀ other, (m.param "roomId").bind RoomId.parse = some other → ¬ SharesKeys room other) :
    ∀ read ∈ roomReads sha256, read.2 s m = read.2 t m := by
  have hstate : ∀ other, (m.param "roomId").bind RoomId.parse = some other →
      currentStatePdus s other = currentStatePdus t other := fun other hother =>
    h.currentStatePdus (hkeys other hother)
  have htimeline : ∀ other, (m.param "roomId").bind RoomId.parse = some other →
      timeline s other = timeline t other := fun other hother => h.timeline (hkeys other hother)
  have hcontent : serveStateEvent s m = serveStateEvent t m := by
    unfold serveStateEvent
    cases m.param "eventType" with
    | none => rfl
    | some kind =>
        apply withRoom_congr
        intro other hother
        rw [h.stateEventContent (hkeys other hother)]
  have hevent : serveEvent sha256 s m = serveEvent sha256 t m := by
    unfold serveEvent
    cases m.param "eventId" with
    | none => rfl
    | some eventId =>
        apply withRoom_congr
        intro other hother
        rw [htimeline other hother]
  simp only [roomReads, List.forall_mem_cons]
  refine ⟨?_, ?_, ?_, hcontent, hcontent, ?_, hevent, by simp⟩
  · exact withRoom_congr fun other hother => by rw [hstate other hother]
  · exact withRoom_congr fun other hother => by rw [hstate other hother]
  · exact withRoom_congr fun other hother => by rw [hstate other hother]
  · exact withRoom_congr fun other hother => by rw [htimeline other hother]

/-- No event has an id that is not one. -/
theorem find_eventId_eq_none {eventId : Str} (h : EventId.parse eventId = none) (events : List Pdu) :
    (events.find? fun p => p.eventId.asStr = eventId) = none := by
  rw [List.find?_eq_none]
  intro p _ heq
  rw [← of_decide_eq_true heq, EventId.parse_asStr] at h
  exact absurd h (by simp)

theorem requester_eq (h : DifferOnlyIn room s t) (req : Request) : requester s req = requester t req := by
  have hfamily := h.others .accessTokens (by decide) (by decide) (by decide)
  rw [requester, requester]
  congr 1
  funext token
  rw [SessionStore.userFor, SessionStore.userFor, Store.get, Store.get, hfamily]

theorem authenticate_eq (h : DifferOnlyIn room s t) (m : RouteMatch) (req : Request) :
    authenticate s m req = authenticate t m req := by
  have hfamily := h.others .accessTokens (by decide) (by decide) (by decide)
  have huser : ∀ token, SessionStore.userFor s token = SessionStore.userFor t token := by
    intro token
    rw [SessionStore.userFor, SessionStore.userFor, Store.get, Store.get, hfamily]
  simp only [authenticate, huser]

end

/-! ## Reads of the room -/

/-- Somebody who is in no room. -/
def stranger : UserId := ⟨"@a:x", valid_alice⟩

/-- An event of the room, of a member that no user is. -/
def secretEvent (home : RoomId) (id : EventId) (content : Str) : Pdu where
  eventId := id
  roomId := home
  sender := stranger
  kind := roomMember
  stateKey := some []
  originServerTs := 0
  depth := 0
  prevEvents := []
  authEvents := []
  contentJson := content

/-- The stranger is logged in, and a slot names an event that is not stored. -/
def withoutSecret (token key : Str) (p : Pdu) : Data :=
  (Store.empty.put .accessTokens token (.text stranger.asStr)).put .roomState key
    (.text p.eventId.asStr)

/-- The same with the event stored. -/
def withSecret (token key : Str) (p : Pdu) : Data :=
  (withoutSecret token key p).put .events (timelineKey p) (.pdu p)

section

variable {token kind key : Str} {room other : RoomId} {p : Pdu}

theorem timeline_withoutSecret (room : RoomId) : timeline (withoutSecret token key p) room = [] := rfl

theorem timeline_withSecret_of_prefix (h : startsWith (roomPrefix room) (timelineKey p) = true) :
    timeline (withSecret token key p) room = [p] := by
  have hscan : (withSecret token key p).scan .events = [(timelineKey p, .pdu p)] := rfl
  rw [timeline, hscan, List.filter_singleton, h]
  rfl

theorem timeline_withSecret_subset (room : RoomId) : timeline (withSecret token key p) room ⊆ [p] := by
  have hscan : (withSecret token key p).scan .events = [(timelineKey p, .pdu p)] := rfl
  rw [timeline, hscan, List.filter_singleton]
  cases startsWith (roomPrefix room) (timelineKey p) with
  | false => exact List.nil_subset _
  | true => exact List.Subset.refl _

theorem stateEvent_withoutSecret :
    stateEvent (withoutSecret token (stateKey other kind key) p) other kind key = some p.eventId := by
  rw [stateEvent, withoutSecret, Store.get_put, if_pos rfl]
  exact EventId.parse_asStr _

theorem stateEventPdu_withoutSecret (room : RoomId) (kind' key' : Str) :
    stateEventPdu (withoutSecret token key p) room kind' key' = none := by
  rw [stateEventPdu]
  cases stateEvent (withoutSecret token key p) room kind' key' <;> rfl

theorem currentStatePdus_withoutSecret (room : RoomId) :
    currentStatePdus (withoutSecret token key p) room = [] := by
  rw [currentStatePdus, stateEvents, List.filterMap_eq_nil_iff]
  exact fun _ _ => rfl

theorem stateEventPdu_withSecret (h : startsWith (roomPrefix other) (timelineKey p) = true) :
    stateEventPdu (withSecret token (stateKey other kind key) p) other kind key = some p := by
  have hslot : stateEvent (withSecret token (stateKey other kind key) p) other kind key =
      some p.eventId := stateEvent_withoutSecret
  rw [stateEventPdu, hslot, Option.bind_some, pdu, timeline_withSecret_of_prefix h]
  simp

theorem currentStatePdus_withSecret (hkind : sep ∉ kind)
    (h : startsWith (roomPrefix other) (timelineKey p) = true) :
    currentStatePdus (withSecret token (stateKey other kind key) p) other = [p] := by
  have hscan : (withSecret token (stateKey other kind key) p).scan .roomState =
      [(stateKey other kind key, .text p.eventId.asStr)] := rfl
  have hslot : stateSlotOf other (stateKey other kind key, .text p.eventId.asStr) =
      some (slot kind key, p.eventId) := by
    rw [stateSlotOf_eq_some_iff]
    exact ⟨kind, key, rfl, hkind, rfl, EventId.parse_asStr _⟩
  have hstate : currentState (withSecret token (stateKey other kind key) p) other =
      SortedMap.empty.insertAll [(slot kind key, p.eventId)] := by
    rw [currentState, hscan, List.filterMap_cons, hslot, List.filterMap_nil]
  have hvalues : (SortedMap.empty.insertAll [(slot kind key, p.eventId)]).values = [p.eventId] := rfl
  rw [currentStatePdus, stateEvents, hstate, hvalues, List.filterMap_cons, List.filterMap_nil, pdu,
    timeline_withSecret_of_prefix h]
  simp

theorem differOnlyIn_secret (h : startsWith (roomPrefix room) (timelineKey p) = true) :
    DifferOnlyIn room (withoutSecret token key p) (withSecret token key p) where
  events := by
    have hinsert : (withSecret token key p) .events =
        ((withoutSecret token key p) .events).insert (timelineKey p) (.pdu p) := rfl
    rw [hinsert, outside, outside, SortedMap.filter_insert_of_rejected _ (by simp [h])]
  roomState := rfl
  others cf hevents _ _ := (Store.put_of_ne _ hevents _ _).symm

theorem requester_secret {req : Request}
    (htoken : accessToken req.authorization req.target = some token) :
    requester (withoutSecret token key p) req = some stranger := by
  have hget : (withoutSecret token key p).get .accessTokens token = some (.text stranger.asStr) := by
    rw [Store.get, withoutSecret, Store.put_of_ne _ (by decide), Store.put_self,
      SortedMap.get_insert_self]
  rw [requester, htoken, Option.bind_some, SessionStore.userFor, hget]
  exact UserId.parse_asStr _

/-- Nobody joins through an event under a slot that is not theirs, or that says nothing. -/
theorem neverJoined_withSecret {id : EventId} {home : RoomId} {content : Str}
    (h : key ≠ stateKey room roomMember stranger.asStr ∨ content = "{}".toList) :
    NeverJoined (withSecret token key (secretEvent home id content)) room stranger := by
  constructor
  case now =>
    rw [← Bool.not_eq_true]
    intro hjoined
    unfold isJoined at hjoined
    split at hjoined
    · exact absurd hjoined (by simp)
    · rename_i found hfound
      obtain ⟨p, hp, rfl⟩ := Option.map_eq_some_iff.mp hfound
      obtain ⟨found, hevent, hp⟩ := Option.bind_eq_some_iff.mp hp
      -- the slot is the one that the event is under, and the event is the only one there is
      have hkey : key = stateKey room roomMember stranger.asStr := by
        by_contra hne
        have hslots : (withSecret token key (secretEvent home id content)) .roomState =
            SortedMap.empty.insert key (.text id.asStr) := rfl
        rw [stateEvent, Store.get, hslots, SortedMap.get_insert_ne _ (Ne.symm hne)] at hevent
        exact absurd hevent (by simp)
      have honly : p = secretEvent home id content := by
        have hmem := timeline_withSecret_subset room (List.mem_of_find?_eq_some hp)
        exact List.mem_singleton.mp hmem
      rcases h with hne | hcontent
      · exact hne hkey
      · rw [honly] at hjoined
        revert hjoined
        show ¬ (decide (((Json.parse content).toOption.bind fun c => c.get "membership").bind
          Json.asStr = some "join".toList) = true)
        rw [hcontent]
        decide +kernel
  case before =>
    intro p hp
    rw [List.mem_singleton.mp (timeline_withSecret_subset room hp), setsMembership,
      decide_eq_false_iff_not]
    rintro ⟨-, hstate, -⟩
    exact absurd (Option.some.inj hstate) (by decide)

theorem neverJoined_withoutSecret : NeverJoined (withoutSecret token key p) room stranger := by
  constructor
  case now =>
    rw [isJoined, stateEventContent, stateEventPdu_withoutSecret]
    rfl
  case before =>
    intro q hq
    rw [timeline_withoutSecret] at hq
    exact absurd hq List.not_mem_nil

/-- The slot of the empty key is nobody's. -/
theorem stateKey_nil_ne : stateKey other roomMember [] ≠ stateKey room roomMember stranger.asStr := by
  intro h
  have hnil : stateKey other roomMember [] = (other.asStr ++ sep :: roomMember) ++ [sep] := by
    simp [stateKey]
  have hstranger : stateKey room roomMember stranger.asStr =
      (room.asStr ++ sep :: (roomMember ++ sep :: "@a:".toList)) ++ ['x'] := by
    simp [stateKey, stranger]
  rw [hnil, hstranger] at h
  have hlast := List.append_inj_right' h rfl
  exact absurd hlast (by decide)

theorem withRoom_eq {m : RouteMatch} (h : (m.param "roomId").bind RoomId.parse = some other)
    (answer : RoomId → Response) : withRoom m answer = answer other := by
  obtain ⟨roomId, hroomId, hother⟩ := Option.bind_eq_some_iff.mp h
  simp only [withRoom, hroomId, hother]

theorem write_event_array_ne (sha256 : List UInt8 → List UInt8) (p : Pdu) (rest : List Json) :
    (Json.array []).write ≠ (Json.array (p.toJson sha256 :: rest)).write := by
  cases rest <;> simp [Pdu.toJson, Json.ofFields, Json.write, Json.writeItems]

/-- An answer of one field shows what is in it. -/
theorem write_field_inj {field : Str} {v w : Json}
    (h : (Json.ofFields [(field, v)]).write = (Json.ofFields [(field, w)]).write) :
    v.write = w.write := by
  have hfield : ∀ u, (Json.ofFields [(field, u)]).write =
      '{' :: (Json.writeJsonString field ++ ':' :: u.write ++ ['}']) := by
    intro u
    simp [Json.ofFields, SortedList.insert, Json.write, Json.writeFields]
  rw [hfield, hfield] at h
  have hrest := List.append_cancel_right (List.cons.inj h).2
  exact (List.cons.inj (List.append_cancel_left hrest)).2

/-- A room whose events are under both prefixes. -/
theorem exists_home (h : SharesKeys room other) : ∃ home : RoomId, ∀ p : Pdu, p.roomId = home →
    startsWith (roomPrefix room) (timelineKey p) = true ∧
      startsWith (roomPrefix other) (timelineKey p) = true := by
  have hself : ∀ p : Pdu, roomPrefix p.roomId <+: timelineKey p := fun p => ⟨_, by
    rw [roomPrefix, timelineKey, List.append_assoc, List.singleton_append]⟩
  simp only [SharesKeys, startsWith_iff_isPrefix] at h ⊢
  rcases h with h | h
  · refine ⟨other, fun p hp => ?_⟩
    rw [← hp] at h ⊢
    exact ⟨h.trans (hself p), hself p⟩
  · refine ⟨room, fun p hp => ?_⟩
    rw [← hp] at h ⊢
    exact ⟨hself p, h.trans (hself p)⟩

end

/-- A handler answers differently when one event is stored, to somebody who was never in the room. -/
def Reveals (token : Str) (room : RoomId) (m : RouteMatch) (serve : Data → RouteMatch → Response) :
    Prop :=
  ∃ key p, startsWith (roomPrefix room) (timelineKey p) = true ∧
    NeverJoined (withSecret token key p) room stranger ∧
    serve (withoutSecret token key p) m ≠ serve (withSecret token key p) m

section

variable {token : Str} {room other : RoomId} {m : RouteMatch} {sha256 : List UInt8 → List UInt8}
  {serve : Data → RouteMatch → Response}

/-- An answer from the state of the room. -/
theorem reveals_of_state (hshares : SharesKeys room other) (answer : List Pdu → Response)
    (hserve : ∀ s, serve s m = answer (currentStatePdus s other))
    (hne : ∀ home id, answer [] ≠ answer [secretEvent home id memberJoinContent]) :
    Reveals token room m serve := by
  obtain ⟨home, hhome⟩ := exists_home hshares
  obtain ⟨hroom, hother⟩ := hhome (secretEvent home placeholderEventId memberJoinContent) rfl
  refine ⟨stateKey other roomMember [], _, hroom, neverJoined_withSecret (.inl stateKey_nil_ne), ?_⟩
  have hkind : sep ∉ roomMember := by decide
  rw [hserve, hserve, currentStatePdus_withoutSecret, currentStatePdus_withSecret hkind hother]
  exact hne _ _

/-- An answer from the timeline of the room. -/
theorem reveals_of_timeline (hshares : SharesKeys room other) (answer : List Pdu → Response)
    (id : EventId) (hserve : ∀ s, serve s m = answer (timeline s other))
    (hne : ∀ home, answer [] ≠ answer [secretEvent home id memberJoinContent]) :
    Reveals token room m serve := by
  obtain ⟨home, hhome⟩ := exists_home hshares
  obtain ⟨hroom, hother⟩ := hhome (secretEvent home id memberJoinContent) rfl
  refine ⟨stateKey other roomMember [], _, hroom, neverJoined_withSecret (.inl stateKey_nil_ne), ?_⟩
  rw [hserve, hserve, timeline_withoutSecret, timeline_withSecret_of_prefix hother]
  exact hne _

theorem reveals_serveStateEvent (hshares : SharesKeys room other)
    (hother : (m.param "roomId").bind RoomId.parse = some other)
    (hkind : (m.param "eventType").isSome) : Reveals token room m serveStateEvent := by
  obtain ⟨home, hhome⟩ := exists_home hshares
  obtain ⟨hroom, hprefix⟩ := hhome (secretEvent home placeholderEventId "{}".toList) rfl
  obtain ⟨kind, hkind⟩ := Option.isSome_iff_exists.mp hkind
  refine ⟨stateKey other kind ((m.param "stateKey").getD []), _, hroom,
    neverJoined_withSecret (.inr rfl), ?_⟩
  simp only [serveStateEvent, hkind, withRoom_eq hother, stateEventContent,
    stateEventPdu_withoutSecret, stateEventPdu_withSecret hprefix]
  intro h
  have hstatus : 404 = 200 := congrArg Response.status h
  exact absurd hstatus (by decide)

theorem reveals_serveEvent (hshares : SharesKeys room other)
    (hother : (m.param "roomId").bind RoomId.parse = some other)
    (hid : ((m.param "eventId").bind EventId.parse).isSome) :
    Reveals token room m (serveEvent sha256) := by
  obtain ⟨id, hid⟩ := Option.isSome_iff_exists.mp hid
  obtain ⟨eventId, hparam, hid⟩ := Option.bind_eq_some_iff.mp hid
  apply reveals_of_timeline hshares (fun events =>
    (events.find? fun p => p.eventId.asStr = eventId).elim
      (.error 404 (.notFound "event not found")) fun p => .jsonOk (p.toJson sha256).write) id
  · intro s
    rw [serveEvent, hparam]
    refine (withRoom_eq hother _).trans ?_
    cases (timeline s other).find? fun p => p.eventId.asStr = eventId <;> rfl
  · intro home h
    have hfound : decide ((secretEvent home id memberJoinContent).eventId.asStr = eventId) = true :=
      decide_eq_true (EventId.asStr_of_parse hid)
    simp only [List.find?_nil, List.find?_cons, hfound] at h
    have hstatus : 404 = 200 := congrArg Response.status h
    exact absurd hstatus (by decide)

theorem exists_joinedMember (home : RoomId) (id : EventId) :
    ∃ profile, joinedMember (secretEvent home id memberJoinContent) = some ([], profile) := by
  have hjoin : ((Json.parse memberJoinContent).toOption.bind fun c =>
      (c.get "membership").bind Json.asStr) = some "join".toList := by
    decide +kernel
  obtain ⟨content, hcontent, hmembership⟩ := Option.bind_eq_some_iff.mp hjoin
  refine ⟨memberProfile content, ?_⟩
  have hevent : (secretEvent home id memberJoinContent).content = some content := hcontent
  rw [joinedMember, if_neg (by simp [secretEvent]), hevent]
  exact if_pos hmembership

/-- Each room read reveals what the room holds. -/
theorem reveals_of_room_read (hshares : SharesKeys room other)
    (hother : (m.param "roomId").bind RoomId.parse = some other) :
    ∀ read ∈ roomReads sha256,
      ("{eventType}".toList ∈ splitPath read.1 → (m.param "eventType").isSome) →
      (read.1 = eventPath → ((m.param "eventId").bind EventId.parse).isSome) →
        Reveals token room m read.2 := by
  have hstate : (m.param "eventType").isSome → Reveals token room m serveStateEvent :=
    reveals_serveStateEvent hshares hother
  simp only [roomReads, List.forall_mem_cons]
  refine ⟨fun _ _ => ?_, fun _ _ => ?_, fun _ _ => ?_, fun hkind _ => ?_, fun hkind _ => ?_,
    fun _ _ => ?_, fun _ hid => reveals_serveEvent hshares hother (hid trivial), by simp⟩
  · -- the state
    apply reveals_of_state hshares (fun events =>
      .jsonOk (Json.array (events.map (Pdu.toJson sha256))).write) (fun s => withRoom_eq hother _)
    intro home id h
    exact write_event_array_ne sha256 _ [] (congrArg Response.body h)
  · -- the members
    apply reveals_of_state hshares (fun events => .jsonOk (Json.ofFields [("chunk".toList,
      .array ((events.filter fun p => p.kind = roomMember).map (Pdu.toJson sha256)))]).write)
      (fun s => withRoom_eq hother _)
    intro home id h
    exact write_event_array_ne sha256 _ [] (write_field_inj (congrArg Response.body h))
  · -- the joined members
    apply reveals_of_state hshares (fun events => .jsonOk (Json.ofFields [("joined".toList,
      .ofFields (events.filterMap joinedMember))]).write) (fun s => withRoom_eq hother _)
    intro home id h
    obtain ⟨content, hmember⟩ := exists_joinedMember home id
    have hwrite := write_field_inj (congrArg Response.body h)
    rw [List.filterMap_cons, hmember] at hwrite
    simp [Json.ofFields, SortedList.insert, Json.write, Json.writeFields, Json.writeJsonString]
      at hwrite
  · exact hstate (hkind (by decide +kernel))
  · exact hstate (hkind (by decide +kernel))
  · -- the messages
    apply reveals_of_timeline hshares (fun events => .jsonOk (messagesBody sha256 events))
      placeholderEventId (fun s => withRoom_eq hother _)
    intro home h
    have hbody : messagesBody sha256 [] =
        messagesBody sha256 [secretEvent home placeholderEventId memberJoinContent] :=
      congrArg Response.body h
    have hpage : ∀ events, messagesBody sha256 events =
        "\x7b\"chunk\":".toList ++ ((Json.array (events.map (Pdu.toJson sha256))).write ++
          ",\"end\":\"end\",\"start\":\"start\"\x7d".toList) := by
      intro events
      have hfields : Json.ofFields [("chunk".toList, .array (events.map (Pdu.toJson sha256))),
          ("start".toList, .string "start".toList), ("end".toList, .string "end".toList)] =
          .object [("chunk".toList, .array (events.map (Pdu.toJson sha256))),
            ("end".toList, .string "end".toList), ("start".toList, .string "start".toList)] := rfl
      rw [messagesBody, hfields]
      simp only [Json.write, Json.writeFields, List.append_assoc, List.cons_append]
      rfl
    rw [hpage, hpage] at hbody
    have hchunk := List.append_cancel_right (List.append_cancel_left hbody)
    exact write_event_array_ne sha256 _ [] hchunk

end

/-! ## Which requests are confined -/

section

variable {sha256 : List UInt8 → List UInt8} {room other : RoomId} {req : Request} {m : RouteMatch}
  {s t : Data} {serve : Data → RouteMatch → Response}

theorem mem_of_lookup {reads : List (Str × (Data → RouteMatch → Response))} {path : Str}
    (h : reads.lookup path = some serve) : (path, serve) ∈ reads := by
  obtain ⟨before, after, rfl, -⟩ := List.lookup_eq_some_iff.mp h
  simp

example : (roomReads id).map (fun read => (splitPath read.1).length) = [6, 6, 6, 8, 7, 6, 7] := by
  decide +kernel

theorem auth_of_room_read (hm : resolve req.method req.target = .found m)
    (hget : m.endpoint.method = .get)
    (hserve : (roomReads sha256).lookup m.endpoint.path = some serve) :
    m.endpoint.auth = .accessToken := by
  have hpaths : ∀ endpoint ∈ Endpoint.surface, endpoint.method = .get →
      endpoint.path ∈ (roomReads id).map Prod.fst → endpoint.auth = .accessToken := by
    decide +kernel
  have hpath : m.endpoint.path ∈ (roomReads sha256).map Prod.fst :=
    List.mem_map_of_mem (mem_of_lookup hserve)
  exact hpaths m.endpoint (resolve_found hm).1 hget hpath

theorem handle_eq (hm : resolve req.method req.target = .found m)
    (hget : m.endpoint.method = .get)
    (hserve : (roomReads sha256).lookup m.endpoint.path = some serve) :
    handle sha256 s req =
      some (match authenticate s m req with
        | .error refused => refused
        | .ok _ => serve s m) := by
  rw [handle, hm]
  show (if m.endpoint.method ≠ .get then none
    else ((roomReads sha256).lookup m.endpoint.path).map fun serve =>
      match authenticate s m req with
      | .error refused => refused
      | .ok _ => serve s m) = _
  rw [if_neg (not_not_intro hget), hserve, Option.map_some]

theorem authenticate_withoutToken (hauth : m.endpoint.auth = .accessToken)
    (htoken : accessToken req.authorization req.target = none) :
    authenticate s m req = .error (.error 401 (.missingToken "missing access token")) := by
  simp only [authenticate, hauth, htoken]

theorem authenticate_requester (hauth : m.endpoint.auth = .accessToken) {user : UserId}
    (huser : requester s req = some user) : authenticate s m req = .ok (some user) := by
  obtain ⟨token, htoken, huser⟩ := Option.bind_eq_some_iff.mp huser
  simp only [authenticate, hauth, htoken, huser]

/-- A handler answers alike where the request does not address the room. -/
theorem serve_eq_of_not_addresses (h : DifferOnlyIn room s t) (hnot : ¬ Addresses sha256 room req)
    (htoken : (accessToken req.authorization req.target).isSome)
    (hm : resolve req.method req.target = .found m) (hget : m.endpoint.method = .get)
    (hserve : (roomReads sha256).lookup m.endpoint.path = some serve) : serve s m = serve t m := by
  by_cases hkeys : ∀ other, (m.param "roomId").bind RoomId.parse = some other → ¬ SharesKeys room other
  · exact serve_eq_of_not_shares h hkeys _ (mem_of_lookup hserve)
  · push Not at hkeys
    obtain ⟨other, hother, hshares⟩ := hkeys
    -- what is left is a read of an event by an id that no event has
    have hevent : m.endpoint.path = eventPath ∧
        ¬ ((m.param "eventId").bind EventId.parse).isSome := by
      by_contra hid
      apply hnot
      refine ⟨htoken, m, other, hm, hget, by rw [hserve]; rfl, hother, hshares, fun hpath => ?_⟩
      by_contra hnone
      exact hid ⟨hpath, hnone⟩
    have hserveEvent : serve = serveEvent sha256 := by
      have hlookup : (roomReads sha256).lookup eventPath = some (serveEvent sha256) := rfl
      rw [hevent.1, hlookup] at hserve
      exact (Option.some.inj hserve).symm
    rw [hserveEvent, serveEvent, serveEvent]
    cases hparam : m.param "eventId" with
    | none => rfl
    | some eventId =>
        have hid : EventId.parse eventId = none := by
          simpa [hparam] using hevent.2
        simp only [find_eventId_eq_none hid]

end

/-- A request is confined to the room's members exactly when it does not address the room: no read of
the room asks who reads. -/
theorem room_read_confined_iff (sha256 : List UInt8 → List UInt8) (room : RoomId) (req : Request) :
    Confined sha256 room req ↔ ¬ Addresses sha256 room req := by
  constructor
  · rintro h ⟨htoken, m, other, hm, hget, hread, hother, hshares, hid⟩
    obtain ⟨token, htoken⟩ := Option.isSome_iff_exists.mp htoken
    obtain ⟨serve, hserve⟩ := Option.isSome_iff_exists.mp hread
    obtain ⟨hmem, -, segments, hmatch⟩ := resolve_found hm
    have hauth := auth_of_room_read hm hget hserve
    have hkind : "{eventType}".toList ∈ splitPath m.endpoint.path → (m.param "eventType").isSome :=
      fun hsegment => matchTemplate_isSome hmatch hsegment (by decide +kernel)
    have hreveals : Reveals token room m serve :=
      reveals_of_room_read hshares hother _ (mem_of_lookup hserve) hkind hid
    obtain ⟨key, p, hprefix, hnever, hne⟩ := hreveals
    have huser := @requester_secret token key p req htoken
    have hdiffer := @differOnlyIn_secret token key room p hprefix
    have hsame := h _ _ hdiffer (by
      intro user huser'
      obtain rfl := Option.some.inj (huser.symm.trans huser')
      exact ⟨neverJoined_withoutSecret, hnever⟩)
    have huser' := huser
    rw [requester_eq hdiffer] at huser'
    rw [handle_eq hm hget hserve, handle_eq hm hget hserve, authenticate_requester hauth huser,
      authenticate_requester hauth huser'] at hsame
    exact hne (Option.some.inj hsame)
  · intro hnot s t hdiffer _
    cases hm : resolve req.method req.target with
    | methodNotAllowed allowed => simp only [handle, hm]
    | notFound => simp only [handle, hm]
    | found m =>
        by_cases hget : m.endpoint.method = .get
        · cases hserve : (roomReads sha256).lookup m.endpoint.path with
          | none => simp only [handle, hm, hserve, Option.map_none]
          | some serve =>
              rw [handle_eq hm hget hserve, handle_eq hm hget hserve, authenticate_eq hdiffer]
              cases htoken : accessToken req.authorization req.target with
              | none => rw [authenticate_withoutToken (auth_of_room_read hm hget hserve) htoken]
              | some token =>
                  rw [serve_eq_of_not_addresses hdiffer hnot (by rw [htoken]; rfl) hm hget hserve]
        · simp only [handle, hm, ne_eq, hget, not_false_eq_true, if_true]

/-! ## A stranger -/

namespace SampleReads

open SampleRun SampleLogins

/-- Alice is logged in. -/
def loggedIn : Data := (SessionStore.create lengthHash Store.empty stranger).2

/-- Bob has created a room. -/
def bobsRoom : Data := (createRoom env loggedIn SampleRun.bob none none fun _ => 0).2

def bobsRoomId : RoomId := ⟨"!0000000000000000:x", valid_mintedRoom⟩

/-- Alice asks for the state of the room. -/
def stateRequest : Request where
  method := .get
  target := "/_matrix/client/v3/rooms/!0000000000000000:x/state"
  authorization := some ("Bearer ".toList ++ SessionStore.mint lengthHash Store.empty stranger)

end SampleReads

open SampleRun SampleReads in
/-- Alice, who was never in Bob's room, reads its state. -/
theorem stranger_reads_room :
    ¬ ∀ (sha256 : List UInt8 → List UInt8) (room : RoomId) (req : Request),
      Confined sha256 room req := by
  intro h
  have hdiffer : DifferOnlyIn bobsRoomId loggedIn bobsRoom := by
    constructor
    case events => decide +kernel
    case roomState => decide +kernel
    case others =>
      intro cf hevents hstate hstream
      exact (createRoom_of_ne ⟨hevents, hstate, hstream⟩ env _ SampleRun.bob none none fun _ => 0).symm
  have hrequester : requester loggedIn stateRequest = some stranger := by decide +kernel
  have hbefore : NeverJoined loggedIn bobsRoomId stranger := by
    constructor
    case now => decide +kernel
    case before => decide +kernel
  have hafter : NeverJoined bobsRoom bobsRoomId stranger := by
    constructor
    case now => decide +kernel
    case before => decide +kernel
  have hsame := h id bobsRoomId stateRequest loggedIn bobsRoom hdiffer (by
    intro user huser
    obtain rfl := Option.some.inj (hrequester.symm.trans huser)
    exact ⟨hbefore, hafter⟩)
  -- both servers take the request to the handler of the room's state
  have hroute : (match resolve stateRequest.method stateRequest.target with
      | .found m => decide (m.endpoint.method = .get ∧
          m.endpoint.path = "/_matrix/client/v3/rooms/{roomId}/state".toList ∧
          (m.param "roomId").bind RoomId.parse = some bobsRoomId)
      | _ => false) = true := by
    decide +kernel
  cases hm : resolve stateRequest.method stateRequest.target with
  | methodNotAllowed allowed => rw [hm] at hroute; exact nomatch hroute
  | notFound => rw [hm] at hroute; exact nomatch hroute
  | found m =>
      rw [hm] at hroute
      obtain ⟨hget, hpath, hroom⟩ := of_decide_eq_true hroute
      have hserve : (roomReads id).lookup m.endpoint.path = some (serveRoomState id) := by
        rw [hpath]
        exact List.lookup_cons_self
      have hauth := auth_of_room_read hm hget hserve
      have hanswer : ∀ s, requester s stateRequest = some stranger → handle id s stateRequest =
          some (.jsonOk (Json.array ((currentStatePdus s bobsRoomId).map (Pdu.toJson id))).write) := by
        intro s huser
        rw [handle_eq hm hget hserve, authenticate_requester hauth huser]
        exact congrArg some (withRoom_eq hroom _)
      -- the room has no state on one of them
      have hempty : currentStatePdus loggedIn bobsRoomId = [] := by decide +kernel
      have hstate : currentStatePdus bobsRoom bobsRoomId ≠ [] := by decide +kernel
      have hbob : requester bobsRoom stateRequest = some stranger := by
        rw [← requester_eq hdiffer]
        exact hrequester
      rw [hanswer _ hrequester, hanswer _ hbob, hempty] at hsame
      obtain ⟨p, ps, hps⟩ := List.exists_cons_of_ne_nil hstate
      rw [hps] at hsame
      exact write_event_array_ne id p _ (congrArg Response.body (Option.some.inj hsame))

end GaussMatrix.Http
