import GaussMatrix.Svc.CurrentState
import GaussMatrix.Svc.History

/-!
# Convergence of federated delivery

A state event is written over whatever its slot holds, and no fork is ever resolved on the way in.
So two orders of delivery leave one state exactly when each slot is filled last by one event.
-/

namespace GaussMatrix.Svc

open Library Util Api Api.Events StateRes RoomService Fed

namespace RoomService

/-- The id of the last event of a list that fills a key of the state family. -/
def lastFiller (key : Str) (pdus : List Pdu) : Option EventId :=
  ((pdus.filter fun p => FillsKey p key).getLast?).map Pdu.eventId

section

variable {s : Data} {room : RoomId} {kind key : Str} {pdus : List Pdu}

theorem lastFiller_concat (key : Str) (pdus : List Pdu) (p : Pdu) :
    lastFiller key (pdus ++ [p]) = if FillsKey p key then some p.eventId else lastFiller key pdus := by
  rw [lastFiller, lastFiller, List.filter_append]
  by_cases hp : FillsKey p key
  · simp [hp]
  · simp [hp]

theorem lastFiller_eq_none_iff {key : Str} :
    lastFiller key pdus = none ↔ ∀ p ∈ pdus, ¬ FillsKey p key := by
  rw [lastFiller, Option.map_eq_none_iff, List.getLast?_eq_none_iff, List.filter_eq_nil_iff]
  simp

theorem exists_of_lastFiller {key : Str} {id : EventId} (h : lastFiller key pdus = some id) :
    ∃ p ∈ pdus, FillsKey p key ∧ p.eventId = id := by
  obtain ⟨p, hlast, hid⟩ := Option.map_eq_some_iff.mp h
  obtain ⟨hp, hkey⟩ := List.mem_filter.mp (List.mem_of_getLast? hlast)
  exact ⟨p, hp, of_decide_eq_true hkey, hid⟩

/-- Where one event at most fills a key, the order does not matter to it. -/
theorem lastFiller_eq_of_perm {key : Str} {pdus' : List Pdu} (hperm : pdus.Perm pdus')
    (huniq : ∀ p ∈ pdus, ∀ q ∈ pdus, FillsKey p key → FillsKey q key → p.eventId = q.eventId) :
    lastFiller key pdus = lastFiller key pdus' := by
  cases hl : lastFiller key pdus with
  | none =>
      have hnone := lastFiller_eq_none_iff.mp hl
      exact (lastFiller_eq_none_iff.mpr fun p hp => hnone p (hperm.mem_iff.mpr hp)).symm
  | some id =>
      obtain ⟨p, hp, hkey, rfl⟩ := exists_of_lastFiller hl
      cases hr : lastFiller key pdus' with
      | none => exact absurd hkey (lastFiller_eq_none_iff.mp hr p (hperm.mem_iff.mp hp))
      | some id' =>
          obtain ⟨q, hq, hkey', rfl⟩ := exists_of_lastFiller hr
          rw [huniq p hp q (hperm.mem_iff.mpr hq) hkey hkey']

/-- After some appends a slot names the last event that filled its key. -/
theorem stateEvent_foldl_append (s : Data) (room : RoomId) (kind key : Str) (pdus : List Pdu) :
    stateEvent (pdus.foldl append s) room kind key =
      (lastFiller (stateKey room kind key) pdus).or (stateEvent s room kind key) := by
  induction pdus using List.reverseRecOn with
  | nil => rfl
  | append_singleton pdus p ih =>
      rw [List.foldl_append, lastFiller_concat]
      by_cases hp : FillsKey p (stateKey room kind key)
      · rw [if_pos hp]
        exact stateEvent_append_of_fills hp
      · rw [if_neg hp, ← ih]
        exact stateEvent_append_of_not_fills hp

/-- Two current states are the same when the slots of separator-free types name the same events. -/
theorem currentState_eq_iff {t : Data} :
    currentState s room = currentState t room ↔
      ∀ kind key, sep ∉ kind → stateEvent s room kind key = stateEvent t room kind key := by
  constructor
  · intro h kind key hkind
    apply Option.ext
    intro id
    have hs : (currentState s room).get (slot kind key) = some id ↔ _ := currentState_get_iff
    have ht : (currentState t room).get (slot kind key) = some id ↔ _ := currentState_get_iff
    rw [h] at hs
    have hboth := hs.symm.trans ht
    simpa [hkind] using hboth
  · intro h
    apply SortedMap.ext_get
    rintro ⟨kind, key⟩
    apply Option.ext
    intro id
    change (currentState s room).get (slot kind key) = some id ↔
      (currentState t room).get (slot kind key) = some id
    rw [currentState_get_iff, currentState_get_iff]
    exact and_congr_right fun hkind => by rw [h kind key hkind]

/-- A state key that an event of the room fills has a separator-free type in front. -/
theorem FillsKey.exists_plain {q : Pdu} {key : Str} (h : FillsKey q key) (hq : q.roomId = room) :
    ∃ kind key', sep ∉ kind ∧ key = stateKey room kind key' := by
  obtain ⟨kind, key', -, rfl⟩ := h.exists_tuple
  subst hq
  -- the type in front ends at the first separator after the room's prefix
  have hmem : sep ∈ kind ++ sep :: key' := List.mem_append_right _ List.mem_cons_self
  obtain ⟨front, rest, hsplit, hfront⟩ := List.eq_append_cons_of_mem hmem
  refine ⟨front, rest, hfront, ?_⟩
  rw [← roomPrefix_append, hsplit, roomPrefix_append]

end

end RoomService

/-! ## Deliveries -/

section

variable {env : Env} {s : Data} {txns : List Json}

theorem map_snd_receiveSteps (env : Env) (s : Data) (txn : Json) :
    (receiveSteps env s txn).map Prod.snd = transactionPdus txn :=
  map_snd_trace _ _

/-- Deliveries that accept everything leave the room history that appending their events makes. -/
theorem run_deliveries_sameRooms
    (h : ∀ y ∈ runReceipts env s (txns.map .receiveTransaction), Accepted env y) :
    SameRooms (run (step env) s (txns.map .receiveTransaction))
      ((txns.flatMap transactionPdus).foldl append s) := by
  induction txns generalizing s with
  | nil => exact .refl s
  | cons txn txns ih =>
      rw [List.map_cons, runReceipts, trace, List.flatMap_cons, List.forall_mem_append] at h
      have hall : (receiveSteps env s txn).filter (Accepted env) = receiveSteps env s txn :=
        List.filter_eq_self.mpr fun y hy => decide_eq_true (h.1 y hy)
      have hstep := step_sameRooms env s (.receiveTransaction txn)
      rw [appended, hall, map_snd_receiveSteps] at hstep
      rw [List.map_cons, run_cons, List.flatMap_cons, List.foldl_append]
      exact (ih h.2).trans (hstep.foldl_append _)

end

/-- Two servers with the same data, which accept the same events of a room in two orders, end with the
same current state of the room exactly when each key of the room's state is filled last by the same
event in both orders. -/
theorem deliveries_converge_iff (env : Env) (s : Data) (room : RoomId) (txns txns' : List Json)
    (hperm : (txns.flatMap transactionPdus).Perm (txns'.flatMap transactionPdus))
    (hroom : ∀ p ∈ txns.flatMap transactionPdus, p.roomId = room)
    (hacc : ∀ y ∈ runReceipts env s (txns.map .receiveTransaction), Accepted env y)
    (hacc' : ∀ y ∈ runReceipts env s (txns'.map .receiveTransaction), Accepted env y) :
    currentState (run (step env) s (txns.map .receiveTransaction)) room =
        currentState (run (step env) s (txns'.map .receiveTransaction)) room ↔
      ∀ key, lastFiller key (txns.flatMap transactionPdus) =
        lastFiller key (txns'.flatMap transactionPdus) := by
  rw [(run_deliveries_sameRooms hacc).currentState, (run_deliveries_sameRooms hacc').currentState,
    currentState_eq_iff]
  simp only [stateEvent_foldl_append]
  constructor
  · intro h key
    -- a key that nothing fills has no last filler in either order
    by_cases hfills : ∃ p ∈ txns.flatMap transactionPdus, FillsKey p key
    · obtain ⟨p, hp, hkey⟩ := hfills
      obtain ⟨kind, key', hkind, rfl⟩ := hkey.exists_plain (hroom p hp)
      have hslot := h kind key' hkind
      cases hl : lastFiller (stateKey room kind key') (txns.flatMap transactionPdus) with
      | none => exact absurd hkey (lastFiller_eq_none_iff.mp hl p hp)
      | some id =>
          cases hr : lastFiller (stateKey room kind key') (txns'.flatMap transactionPdus) with
          | none => exact absurd hkey (lastFiller_eq_none_iff.mp hr p (hperm.mem_iff.mp hp))
          | some id' =>
              rw [hl, hr] at hslot
              exact hslot
    · have hl : lastFiller key (txns.flatMap transactionPdus) = none :=
        lastFiller_eq_none_iff.mpr fun p hp hkey => hfills ⟨p, hp, hkey⟩
      have hr : lastFiller key (txns'.flatMap transactionPdus) = none :=
        lastFiller_eq_none_iff.mpr fun p hp hkey => hfills ⟨p, hperm.mem_iff.mpr hp, hkey⟩
      rw [hl, hr]
  · intro h kind key _
    rw [h]

namespace SampleRun

/-- A topic event of alice. -/
def topic (c : Char) : Pdu :=
  event c alice roomTopic (some []) 3 [eventId 'c', eventId 'a'] (singleField "topic" "x")

/-- A name event of alice. -/
def name : Pdu :=
  event 'n' alice roomName (some []) 3 [eventId 'c', eventId 'a'] (singleField "name" "x")

/-- The data after alice created the room and joined it. -/
def aliceRoom : Data := run (step env) Store.empty [deliver [create, aliceJoin]]

end SampleRun

open SampleRun in
/-- A name and a topic leave the same state in both orders. -/
theorem deliveries_converge_sample :
    currentState (run (step env) aliceRoom
        ([transaction [name], transaction [topic 's']].map .receiveTransaction)) room =
      currentState (run (step env) aliceRoom
        ([transaction [topic 's', name]].map .receiveTransaction)) room := by
  have hpdus : [transaction [name], transaction [topic 's']].flatMap transactionPdus =
      [name, topic 's'] := by
    decide +kernel
  have hpdus' : [transaction [topic 's', name]].flatMap transactionPdus = [topic 's', name] := by
    decide +kernel
  have hacc : ∀ y ∈ runReceipts env aliceRoom
      ([transaction [name], transaction [topic 's']].map .receiveTransaction), Accepted env y := by
    decide +kernel
  have hacc' : ∀ y ∈ runReceipts env aliceRoom
      ([transaction [topic 's', name]].map .receiveTransaction), Accepted env y := by
    decide +kernel
  refine (deliveries_converge_iff env aliceRoom room _ _ ?_ ?_ hacc hacc').mpr fun key => ?_
  · rw [hpdus, hpdus']
    exact List.Perm.swap _ _ _
  · rw [hpdus]
    decide
  · rw [hpdus, hpdus']
    refine lastFiller_eq_of_perm (List.Perm.swap _ _ _) fun p hp q hq hkey hkey' => ?_
    have hslots : ∀ p ∈ [name, topic 's'], ∀ q ∈ [name, topic 's'],
        p.stateTuple.map (fun tuple => stateKey p.roomId tuple.1 tuple.2) =
          q.stateTuple.map (fun tuple => stateKey q.roomId tuple.1 tuple.2) →
        p.eventId = q.eventId := by
      decide
    exact hslots p hp q hq (hkey.trans hkey'.symm)

open SampleRun in
/-- Two topics that cite the same events leave the state of the one delivered last. -/
theorem deliveries_diverge :
    ¬ ∀ (env : Env) (s : Data), Reachable env s → ∀ (room : RoomId) (txns txns' : List Json),
      (txns.flatMap transactionPdus).Perm (txns'.flatMap transactionPdus) →
      (∀ p ∈ txns.flatMap transactionPdus, p.roomId = room ∧ p.authEvents ≠ []) →
      ((txns.flatMap transactionPdus).map Pdu.eventId).Nodup →
      (∀ y ∈ runReceipts env s (txns.map .receiveTransaction), Accepted env y) →
      (∀ y ∈ runReceipts env s (txns'.map .receiveTransaction), Accepted env y) →
      currentState (run (step env) s (txns.map .receiveTransaction)) room =
        currentState (run (step env) s (txns'.map .receiveTransaction)) room := by
  intro h
  have hsame := h env aliceRoom ⟨_, rfl⟩ room [transaction [topic 's'], transaction [topic 't']]
    [transaction [topic 't'], transaction [topic 's']]
    (by decide +kernel) (by decide +kernel) (by decide +kernel) (by decide +kernel)
    (by decide +kernel)
  revert hsame
  decide +kernel

end GaussMatrix.Svc
