import GaussMatrix.Svc.CurrentState
import GaussMatrix.Svc.History

/-!
# The create slot

While a room's current state has a create event, an event judged by that state cannot be another.  An
event that cites others is judged by them, and a second create event that cites no create event is
accepted and fills the slot.
-/

namespace GaussMatrix.Svc

open Library Util Api Api.Events StateRes RoomService Fed

/-- The event is one of the room's create slot. -/
def IsRoomCreate (room : RoomId) (q : Pdu) : Prop :=
  q.roomId = room ∧ q.stateTuple = some (roomCreate, [])

/-- A create event of the room other than `c` that cites events: its auth chain is known, and it
cites no create event. -/
def Recreates (room : RoomId) (c : Pdu) (x : Receipt × Pdu) : Prop :=
  IsRoomCreate room x.2 ∧ x.2.eventId ≠ c.eventId ∧ x.2.authEvents ≠ [] ∧
    (∀ id ∈ authChain x.2.authEvents x.1.byId, (x.1.byId.get id).isSome) ∧
    ∀ q ∈ citedEvents x.2 x.1.byId, q.kind ≠ roomCreate

/-- An event that takes the create slot from `c` without being a create event of the room: it is
stored under the key of the slot, or takes the place of `c` in lookups. -/
def TakesPlace (room : RoomId) (c q : Pdu) : Prop :=
  (FillsKey q (stateKey room roomCreate []) ∧ q.eventId ≠ c.eventId ∧ ¬ IsRoomCreate room q) ∨
    ShadowsAt room c q

instance (room : RoomId) (q : Pdu) : Decidable (IsRoomCreate room q) :=
  inferInstanceAs (Decidable (_ ∧ _))

instance (room : RoomId) (c : Pdu) (x : Receipt × Pdu) : Decidable (Recreates room c x) :=
  inferInstanceAs (Decidable (_ ∧ _ ∧ _ ∧ _ ∧ _))

instance (room : RoomId) (c q : Pdu) : Decidable (TakesPlace room c q) :=
  inferInstanceAs (Decidable (_ ∨ _))

section

variable {env : Env} {s : Data} {room : RoomId} {c q : Pdu}

theorem IsRoomCreate.kind (h : IsRoomCreate room q) : q.kind = roomCreate := by
  obtain ⟨key, -, htuple⟩ := Option.map_eq_some_iff.mp h.2
  exact (Prod.mk.inj htuple).1

theorem IsRoomCreate.fillsKey (h : IsRoomCreate room q) :
    FillsKey q (stateKey room roomCreate []) := by
  rw [FillsKey, h.2, h.1]
  rfl

theorem takesSlot_create_iff : TakesSlot room roomCreate [] c q ↔
    IsRoomCreate room q ∧ q.eventId ≠ c.eventId ∨ TakesPlace room c q := by
  have hfills : IsRoomCreate room q → FillsKey q (stateKey room roomCreate []) := fun h => h.fillsKey
  unfold TakesSlot TakesPlace
  tauto

variable (hc : stateEventPdu s room roomCreate [] = some c) (hkind : c.kind = roomCreate)

include hc hkind

/-- No create event passes the rules over the current state. -/
theorem checkAuth_create_refused (hq : IsRoomCreate room q) :
    checkAuth env.verifyB64 q (currentStatePdus s room) ≠ .ok () := by
  intro hok
  exact (checkAuth_create hq.kind).mp hok c
    (mem_currentStatePdus_of_stateEventPdu (by decide) hc) hkind

/-- An accepted create event other than `c` is one that cites no create event. -/
theorem recreates_of_accepted {x : Receipt × Pdu} (hx : x.1.data = s) (hok : Accepted env x)
    (hq : IsRoomCreate room x.2) (hid : x.2.eventId ≠ c.eventId) : Recreates room c x := by
  unfold Accepted federationVerdict at hok
  rw [hx] at hok
  split at hok
  · rw [hq.1] at hok
    exact absurd hok (checkAuth_create_refused hc hkind hq)
  · rename_i hauth
    obtain ⟨hchain, -, hcited⟩ := checkAuthWithChain_ok_iff.mp hok
    exact ⟨hq, hid, hauth, hchain, (checkAuth_create hq.kind).mp hcited⟩

/-- An event that an operation other than creating a room appends keeps the slot, unless it takes its
place or recreates the room. -/
theorem create_slot_append {t : Data} {op : Op} (hs : Keyed s) (hadd : AppendedBy env t (s, q) op)
    (hop : ∀ creator name topic now, op ≠ .createRoom creator name topic now)
    (hcites : ∀ r txn, op = .receiveTransaction txn → (r, q) ∈ receiveSteps env t txn →
      r.data = s → ¬ Recreates room c (r, q))
    (hplace : ¬ TakesPlace room c q) :
    stateEventPdu (append s q) room roomCreate [] = some c := by
  rw [stateEventPdu_append_iff hs hc, takesSlot_create_iff]
  rintro (⟨hq, hid⟩ | htakes)
  · cases op with
    | createRoom creator name topic now => exact hop creator name topic now rfl
    | changeMembership actor room' target membership now =>
        have hmember := (membershipEvent_fields hadd.1).2.2.1
        exact roomMember_ne.1 (hmember.symm.trans hq.kind)
    | sendMessage sender room' eventType txnId content now =>
        have hnone := (messageEvent_fields hadd.1).2.2.2
        obtain ⟨key, hkey, -⟩ := Option.map_eq_some_iff.mp hq.2
        exact nomatch hnone.symm.trans hkey
    | receiveTransaction txn =>
        obtain ⟨r, hdata, hmem, hok⟩ := hadd
        exact hcites r txn rfl hmem hdata (recreates_of_accepted hc hkind hdata hok hq hid)
  · exact hplace htakes

end

/-- The create event of a room's current state.  An accepted event of a transaction keeps it in its
slot exactly when it neither recreates the room nor takes the place of the create event; and it is
still there at the end of a run of operations other than creating a room whose events all keep it. -/
theorem create_event_permanent (env : Env) (s : Data) (hs : Reachable env s) (room : RoomId) (c : Pdu)
    (hc : stateEventPdu s room roomCreate [] = some c) (hkind : c.kind = roomCreate)
    (ops : List Op)
    (hops : ∀ op ∈ ops, ∀ creator name topic now, op ≠ .createRoom creator name topic now) :
    (∀ x ∈ runReceipts env s ops, Accepted env x →
      stateEventPdu x.1.data room roomCreate [] = some c →
        (stateEventPdu (append x.1.data x.2) room roomCreate [] = some c ↔
          ¬ Recreates room c x ∧ ¬ TakesPlace room c x.2)) ∧
    ((∀ x ∈ runReceipts env s ops, ¬ Recreates room c x) →
      (∀ x ∈ runAppends env s ops, ¬ TakesPlace room c x.2) →
        stateEventPdu (run (step env) s ops) room roomCreate [] = some c) := by
  constructor
  · intro x hx hok hslot
    have hkeyed := (hs.keyed.along_run env ops).1 _ (mem_runAppends_of_receipt hx hok)
    rw [stateEventPdu_append_iff hkeyed hslot, takesSlot_create_iff, not_or]
    refine and_congr_left fun _ => not_congr ⟨fun h => ?_, fun h => ⟨h.1, h.2.1⟩⟩
    exact recreates_of_accepted hslot hkind rfl hok h.1 h.2
  · intro hcites hplace
    have hP := holds_along_run env ops
      (P := fun t => Keyed t ∧ stateEventPdu t room roomCreate [] = some c)
      (fun t u hsame hu => ⟨hsame.keyed hu.1, by rw [hsame.stateEventPdu]; exact hu.2⟩)
      ⟨hs.keyed, hc⟩ ?_
    · exact hP.2.2
    · rintro ⟨t, q⟩ hx ⟨hkeyed, hslot⟩
      obtain ⟨u, op, hop, hadd⟩ := appendedBy_of_mem_runAppends hx
      refine ⟨hkeyed.append q, create_slot_append hslot hkind hkeyed hadd
        (hops op (mem_of_mem_trace hop)) ?_ (hplace _ hx)⟩
      rintro r txn rfl hr -
      exact hcites _ (mem_runReceipts hop hr)

namespace SampleRun

def secondCreate : Pdu :=
  event 'd' bob roomCreate (some []) 3 [eventId 'a'] (singleField "creator" "@b:x")

end SampleRun

open SampleRun in
/-- A message leaves the create event in its slot. -/
theorem create_event_permanent_sample :
    stateEventPdu (run (step env) (run (step env) Store.empty [deliver [create, aliceJoin]])
      [deliver [message]]) room roomCreate [] = some create := by
  have hcites : ∀ x ∈ runReceipts env
      (run (step env) Store.empty [deliver [create, aliceJoin]]) [deliver [message]],
        ¬ Recreates room create x := by
    decide +kernel
  have hplace : ∀ x ∈ runAppends env
      (run (step env) Store.empty [deliver [create, aliceJoin]]) [deliver [message]],
        ¬ TakesPlace room create x.2 := by
    decide +kernel
  exact (create_event_permanent env _ ⟨_, rfl⟩ room create (by decide +kernel) rfl
    [deliver [message]] (by simp [deliver])).2 hcites hplace

open SampleRun in
/-- A second create event that cites only a join replaces the first. -/
theorem create_event_replaced :
    ¬ ∀ (env : Env) (s : Data), Reachable env s → ∀ (room : RoomId) (c : Pdu),
      stateEventPdu s room roomCreate [] = some c → c.kind = roomCreate → ∀ ops : List Op,
        (∀ op ∈ ops, ∀ creator name topic now, op ≠ .createRoom creator name topic now) →
          stateEventPdu (run (step env) s ops) room roomCreate [] = some c := by
  intro h
  have hslot := h env (run (step env) Store.empty [deliver [create, aliceJoin]]) ⟨_, rfl⟩ room
    create (by decide +kernel) rfl [deliver [secondCreate]] (by simp [deliver])
  revert hslot
  decide +kernel

end GaussMatrix.Svc
