import GaussMatrix.Svc.CurrentState
import GaussMatrix.Svc.History

/-!
# What a federation verdict reads

An event that cites nothing is judged by its room's current state; one that cites events is judged by
them and their auth chain, looked up among the known events of every room of the transaction.
Nothing compares the rooms of the events on that path.
-/

namespace GaussMatrix.Svc

open Library Util Api Api.Events StateRes RoomService Fed

/-- The known events of an event's auth chain. -/
def chainEvents (byId : PduMap) (p : Pdu) : List Pdu :=
  (authChain p.authEvents byId).filterMap byId.get

/-- The events the verdict on `p` reads. -/
def usedEvents (s : Data) (byId : PduMap) (p : Pdu) : List Pdu :=
  if p.authEvents = [] then currentStatePdus s p.roomId else chainEvents byId p

/-- The event and each known event of its auth chain cite, among the known events, only events of
their own room. -/
def CitesOwnRoom (byId : PduMap) (p : Pdu) : Prop :=
  ∀ e ∈ p :: chainEvents byId p, ∀ q ∈ citedEvents e byId, q.roomId = e.roomId

instance (byId : PduMap) (p : Pdu) : Decidable (CitesOwnRoom byId p) :=
  inferInstanceAs (Decidable (∀ e ∈ p :: chainEvents byId p, ∀ q ∈ citedEvents e byId, _ = _))

section

variable {byId : PduMap} {p e q : Pdu}

theorem mem_authParents_iff {a b : EventId} :
    b ∈ authParents byId a ↔ ∃ e, byId.get a = some e ∧ b ∈ e.authEvents := by
  unfold authParents
  cases byId.get a with
  | none => simp
  | some e => simp

theorem mem_citedEvents_iff : q ∈ citedEvents e byId ↔ ∃ id ∈ e.authEvents, byId.get id = some q :=
  List.mem_filterMap

theorem mem_chainEvents_iff :
    q ∈ chainEvents byId p ↔ ∃ id ∈ authChain p.authEvents byId, byId.get id = some q :=
  List.mem_filterMap

theorem citedEvents_subset_chainEvents (h : q ∈ citedEvents p byId) : q ∈ chainEvents byId p := by
  obtain ⟨id, hid, hq⟩ := mem_citedEvents_iff.mp h
  exact mem_chainEvents_iff.mpr ⟨id, mem_authChain_iff.mpr ⟨id, hid, .refl⟩, hq⟩

/-- The auth chain is closed under citation. -/
theorem mem_chainEvents_of_cited (he : e ∈ chainEvents byId p) (hq : q ∈ citedEvents e byId) :
    q ∈ chainEvents byId p := by
  obtain ⟨id, hid, he⟩ := mem_chainEvents_iff.mp he
  obtain ⟨root, hroot, hpath⟩ := mem_authChain_iff.mp hid
  obtain ⟨id', hid', hq⟩ := mem_citedEvents_iff.mp hq
  have hstep : id' ∈ authParents byId id := mem_authParents_iff.mpr ⟨e, he, hid'⟩
  exact mem_chainEvents_iff.mpr ⟨id', mem_authChain_iff.mpr ⟨root, hroot, hpath.tail hstep⟩, hq⟩

/-- The whole chain lies in the event's room exactly when no single citation leaves its room. -/
theorem chainEvents_own_room_iff :
    (∀ e ∈ chainEvents byId p, e.roomId = p.roomId) ↔ CitesOwnRoom byId p := by
  constructor
  · intro h e he q hq
    rcases List.mem_cons.mp he with rfl | he
    · exact h q (citedEvents_subset_chainEvents hq)
    · rw [h q (mem_chainEvents_of_cited he hq), h e he]
  · intro h e he
    obtain ⟨id, hid, he⟩ := mem_chainEvents_iff.mp he
    obtain ⟨root, hroot, hpath⟩ := mem_authChain_iff.mp hid
    -- along the path every known event is of the event's room
    induction hpath generalizing e with
    | refl => exact h p List.mem_cons_self e (mem_citedEvents_iff.mpr ⟨root, hroot, he⟩)
    | @tail a b hpath hstep ih =>
        obtain ⟨parent, ha, hcited⟩ := mem_authParents_iff.mp hstep
        have hchain : a ∈ authChain p.authEvents byId :=
          mem_authChain_iff.mpr ⟨root, hroot, hpath⟩
        have hparent : parent ∈ chainEvents byId p := mem_chainEvents_iff.mpr ⟨a, hchain, ha⟩
        rw [h parent (List.mem_cons_of_mem _ hparent) e
          (mem_citedEvents_iff.mpr ⟨b, hcited, he⟩), ih parent hparent hchain ha]

theorem citesOwnRoom_of_authEvents_eq_nil (h : p.authEvents = []) : CitesOwnRoom byId p := by
  rw [← chainEvents_own_room_iff]
  intro e he
  obtain ⟨id, hid, -⟩ := mem_chainEvents_iff.mp he
  obtain ⟨root, hroot, -⟩ := mem_authChain_iff.mp hid
  rw [h] at hroot
  simp at hroot

/-! ## Without the events of other rooms -/

/-- The known events of one room. -/
def ofRoom (room : RoomId) (byId : PduMap) : PduMap := byId.filter fun _ e => e.roomId = room

theorem ofRoom_get (room : RoomId) (byId : PduMap) (id : EventId) :
    (ofRoom room byId).get id = (byId.get id).filter fun e => e.roomId = room :=
  SortedMap.get_filter _ _ _

section

variable (h : CitesOwnRoom byId p)

include h

/-- Along the auth chain the known events are those of the event's room. -/
theorem ofRoom_get_of_mem_authChain {id : EventId} (hid : id ∈ authChain p.authEvents byId) :
    (ofRoom p.roomId byId).get id = byId.get id := by
  rw [ofRoom_get]
  cases he : byId.get id with
  | none => rfl
  | some e =>
      have hroom := chainEvents_own_room_iff.mpr h e (mem_chainEvents_iff.mpr ⟨id, hid, he⟩)
      rw [Option.filter_some, if_pos (by simpa using hroom)]

theorem mem_authChain_ofRoom_iff (id : EventId) :
    id ∈ authChain p.authEvents (ofRoom p.roomId byId) ↔ id ∈ authChain p.authEvents byId := by
  simp only [mem_authChain_iff]
  constructor
  · rintro ⟨root, hroot, hpath⟩
    refine ⟨root, hroot, Relation.ReflTransGen.mono (fun a b hstep => ?_) _ _ hpath⟩
    obtain ⟨e, he, hb⟩ := mem_authParents_iff.mp hstep
    rw [ofRoom_get, Option.filter_eq_some_iff] at he
    exact mem_authParents_iff.mpr ⟨e, he.1, hb⟩
  · rintro ⟨root, hroot, hpath⟩
    refine ⟨root, hroot, ?_⟩
    induction hpath with
    | refl => exact .refl
    | @tail a b hpath hstep ih =>
        have ha := ofRoom_get_of_mem_authChain h (mem_authChain_iff.mpr ⟨root, hroot, hpath⟩)
        refine ih.tail ?_
        rw [authParents, ha]
        exact hstep

/-- A verdict whose citations stay in the event's room is the one reached when the events of the
other rooms are not known at all. -/
theorem checkAuthWithChain_ofRoom (verifyB64 : VerifyB64) :
    checkAuthWithChain verifyB64 p (ofRoom p.roomId byId) = checkAuthWithChain verifyB64 p byId := by
  have hget : ∀ id ∈ authChain p.authEvents byId,
      (ofRoom p.roomId byId).get id = byId.get id := fun id => ofRoom_get_of_mem_authChain h
  have hmissing : (authChain p.authEvents (ofRoom p.roomId byId)).any
      (fun id => ((ofRoom p.roomId byId).get id).isNone) =
        (authChain p.authEvents byId).any (fun id => (byId.get id).isNone) := by
    rw [Bool.eq_iff_iff, List.any_eq_true, List.any_eq_true]
    refine exists_congr fun id => ?_
    rw [mem_authChain_ofRoom_iff h]
    exact and_congr_right fun hid => by rw [hget id hid]
  have hchain : ∀ e, e ∈ chainEvents (ofRoom p.roomId byId) p ↔ e ∈ chainEvents byId p := by
    intro e
    rw [mem_chainEvents_iff, mem_chainEvents_iff]
    refine exists_congr fun id => ?_
    rw [mem_authChain_ofRoom_iff h]
    exact and_congr_right fun hid => by rw [hget id hid]
  have hcreate : (chainEvents (ofRoom p.roomId byId) p).any (fun e => e.kind = roomCreate) =
      (chainEvents byId p).any (fun e => e.kind = roomCreate) := by
    rw [Bool.eq_iff_iff, List.any_eq_true, List.any_eq_true]
    exact exists_congr fun e => and_congr_left fun _ => hchain e
  have hcited : citedEvents p (ofRoom p.roomId byId) = citedEvents p byId :=
    List.filterMap_congr fun id hid => hget id (mem_authChain_iff.mpr ⟨id, hid, .refl⟩)
  unfold chainEvents at hcreate
  simp only [checkAuthWithChain, hmissing, hcreate, hcited]

end

end

/-! ## Accepted events -/

theorem ownTimeline_along_run {env : Env} {ops : List Op} {room : RoomId}
    (hrooms : ∀ x ∈ runAppends env Store.empty ops,
      startsWith (roomPrefix room) (timelineKey x.2) = true → x.2.roomId = room) :
    ∀ x ∈ runAppends env Store.empty ops, Keyed x.1 ∧ OwnTimeline x.1 room :=
  (holds_along_run env ops (P := fun t => Keyed t ∧ OwnTimeline t room)
    (fun _ _ hsame h => ⟨hsame.keyed h.1, hsame.ownTimeline h.2⟩)
    ⟨keyed_empty, ownTimeline_empty room⟩
    fun x hx h => ⟨h.1.append x.2, h.2.append h.1 (hrooms x hx)⟩).1

theorem mem_runAppends_of_accepted {env : Env} {s : Data} {ops : List Op} {txn : Json}
    {x : Receipt × Pdu} (hx : x ∈ receiveSteps env (run (step env) s ops) txn)
    (hok : Accepted env x) :
    (x.1.data, x.2) ∈ runAppends env s (ops ++ [.receiveTransaction txn]) := by
  refine mem_runAppends_of_receipt (mem_runReceipts ?_ hx) hok
  rw [trace_append]
  exact List.mem_append_right _ List.mem_cons_self

/-- Where no event of another room is stored under a key with the prefix of the event's room, the
verdict that accepts an event reads events of its room only exactly when no citation of the event or
of its chain leaves its room. -/
theorem verdict_reads_own_room_iff (env : Env) (ops : List Op) (txn : Json) :
    ∀ x ∈ receiveSteps env (run (step env) Store.empty ops) txn, Accepted env x →
      (∀ y ∈ runAppends env Store.empty (ops ++ [.receiveTransaction txn]),
        startsWith (roomPrefix x.2.roomId) (timelineKey y.2) = true → y.2.roomId = x.2.roomId) →
      ((∀ e ∈ usedEvents x.1.data x.1.byId x.2, e.roomId = x.2.roomId) ↔
        CitesOwnRoom x.1.byId x.2) := by
  intro x hx hok hrooms
  unfold usedEvents
  by_cases hauth : x.2.authEvents = []
  · rw [if_pos hauth]
    obtain ⟨-, hown⟩ := ownTimeline_along_run hrooms _ (mem_runAppends_of_accepted hx hok)
    exact iff_of_true (fun e => hown.roomId_of_mem_currentStatePdus)
      (citesOwnRoom_of_authEvents_eq_nil hauth)
  · rw [if_neg hauth]
    exact chainEvents_own_room_iff

namespace SampleRun

def otherRoom : RoomId := ⟨"!s:x", valid_secondRoom⟩
def otherCreate : Pdu :=
  { event 'd' bob roomCreate (some []) 1 [] (singleField "creator" "@b:x") with roomId := otherRoom }
def otherJoin : Pdu :=
  { event 'e' bob roomMember (some "@b:x") 2 [] memberJoinContent with
    roomId := otherRoom }
def citingMessage : Pdu :=
  event 'm' alice "m.room.message" none 3 [eventId 'c', eventId 'a'] (singleField "body" "x")
def intrudingMessage : Pdu :=
  event 'm' bob "m.room.message" none 3 [eventId 'd', eventId 'e'] (singleField "body" "x")

end SampleRun

open SampleRun in
/-- A message that cites the create event and the join of its own room. -/
theorem verdict_reads_own_room_sample :
    ∃ x ∈ receiveSteps env (run (step env) Store.empty [deliver [create, aliceJoin]])
        (transaction [citingMessage]), Accepted env x ∧
      ∀ e ∈ usedEvents x.1.data x.1.byId x.2, e.roomId = x.2.roomId := by
  have hlength : (receiveSteps env (run (step env) Store.empty [deliver [create, aliceJoin]])
      (transaction [citingMessage])).length ≠ 0 := by
    decide +kernel
  obtain ⟨x, hx⟩ := List.exists_mem_of_length_pos (Nat.pos_of_ne_zero hlength)
  have haccepted : ∀ x ∈ receiveSteps env (run (step env) Store.empty
      [deliver [create, aliceJoin]]) (transaction [citingMessage]), Accepted env x := by
    decide +kernel
  have hrooms : ∀ x ∈ receiveSteps env (run (step env) Store.empty [deliver [create, aliceJoin]])
      (transaction [citingMessage]), ∀ y ∈ runAppends env Store.empty
      ([deliver [create, aliceJoin]] ++ [.receiveTransaction (transaction [citingMessage])]),
        startsWith (roomPrefix x.2.roomId) (timelineKey y.2) = true →
          y.2.roomId = x.2.roomId := by
    decide +kernel
  have hcites : ∀ x ∈ receiveSteps env (run (step env) Store.empty [deliver [create, aliceJoin]])
      (transaction [citingMessage]), CitesOwnRoom x.1.byId x.2 := by
    decide +kernel
  refine ⟨x, hx, haccepted x hx, ?_⟩
  exact (verdict_reads_own_room_iff env [deliver [create, aliceJoin]] (transaction [citingMessage])
    x hx (haccepted x hx) (hrooms x hx)).mpr (hcites x hx)

open SampleRun in
/-- A user of another room, whose message cites that room's create event and join, is admitted. -/
theorem verdict_reads_other_room :
    ¬ ∀ (env : Env) (ops : List Op) (txn : Json),
      ∀ x ∈ receiveSteps env (run (step env) Store.empty ops) txn, Accepted env x →
        ∀ e ∈ usedEvents x.1.data x.1.byId x.2, e.roomId = x.2.roomId := by
  intro h
  have hused := h env [deliver [create, aliceJoin]]
    (transaction [otherCreate, otherJoin, intrudingMessage])
  revert hused
  decide +kernel

end GaussMatrix.Svc
