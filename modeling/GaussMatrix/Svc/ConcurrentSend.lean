import GaussMatrix.Svc.ConcurrentAppend
import GaussMatrix.Svc.LinearDag

/-!
# Concurrent sends

A send looks its transaction up before it takes the room's lock, and records it last under the lock.
Sends under one transaction id append one event unless a call stores its event after the transaction
has been recorded.
-/

namespace GaussMatrix.Svc

open Library Util Api Api.Events StateRes RoomService

/-! ## The store and lock operations of a send -/

/-- What one of several sends of a transaction brings of its own: the event type, the content and the
clock reading. -/
structure SendCall where
  eventType : Str
  content : Str
  now : UInt64

/-- Where a send stands. -/
inductive SendPhase
  | start
  /-- The lookup found no transaction. -/
  | unrecorded
  | locked
  /-- The event is linked onto the tip of the room's timeline. -/
  | linked (p : Pdu)
  /-- The state slots still to look up, and the events of those looked up. -/
  | authorizing (p : Pdu) (slots : List EventId) (state : List Pdu)
  | accepted (p : Pdu)
  /-- The event is stored, and the append goes on. -/
  | appending (p : Pdu) (phase : AppendPhase)
  | appended (p : Pdu)
  /-- The result is settled, and the lock still held. -/
  | settled (result : Option Str)
  | returned (result : Option Str)
  deriving DecidableEq

/-- The shared data, and the call that holds the room's lock. -/
structure Locked (ι : Type) where
  data : Data
  holder : Option ι

/-- One operation of the call `i`: a store operation, or taking or releasing the lock.  A call that
finds the lock taken waits. -/
def sendStep {ι : Type} (env : Env) (sender : UserId) (room : RoomId) (txnId : Str)
    (call : SendCall) (i : ι) (s : Locked ι) (phase : SendPhase) : Locked ι × SendPhase :=
  match phase with
  | .start =>
      match s.data.get .transactions (txnKey sender txnId) with
      | some existing => (s, .returned existing.asText)
      | none => (s, .unrecorded)
  | .unrecorded =>
      match s.holder with
      | some _ => (s, .unrecorded)
      | none => ({ s with holder := some i }, .locked)
  | .locked =>
      match messageEvent env s.data sender room call.eventType call.content call.now with
      | none => (s, .settled none)
      | some p => (s, .linked p)
  | .linked p => (s, .authorizing p (currentState s.data p.roomId).values [])
  | .authorizing p (id :: slots) state =>
      (s, .authorizing p slots (state ++ (pdu s.data p.roomId id).toList))
  | .authorizing p [] state =>
      match checkAuth env.verifyB64 p state with
      | .ok () => (s, .accepted p)
      | .error _ => (s, .settled none)
  | .accepted p =>
      let r := appendStep s.data ⟨[p], .idle⟩
      ({ s with data := r.1 }, .appending p r.2.phase)
  | .appending p phase =>
      let r := appendStep s.data ⟨[], phase⟩
      ({ s with data := r.1 }, if r.2.phase = .idle then .appended p else .appending p r.2.phase)
  | .appended p =>
      ({ s with data := s.data.put .transactions (txnKey sender txnId) (.text p.eventId.asStr) },
        .settled (some p.eventId.asStr))
  | .settled result => ({ s with holder := none }, .returned result)
  | .returned result => (s, .returned result)

namespace SendPhase

/-- The call holds the room's lock. -/
def inside : SendPhase → Bool
  | start | unrecorded | returned _ => false
  | _ => true

/-- The event that is stored, while the transaction is not recorded. -/
def stored : SendPhase → Option Pdu
  | appending p _ => some p
  | appended p => some p
  | _ => none

/-- The event that the next operation records. -/
def recording : SendPhase → Option Pdu
  | appended p => some p
  | _ => none

/-- The result, once it is settled. -/
def result : SendPhase → Option Str
  | settled result => result
  | returned result => result
  | _ => none

/-- The event that the next operation stores. -/
def storing : SendPhase → Option Pdu
  | accepted p => some p
  | _ => none

end SendPhase

section

variable {ι : Type} {env : Env} {sender : UserId} {room : RoomId} {txnId : Str} {call : SendCall}
  {i : ι} {s : Locked ι} {phase : SendPhase}

/-- The record of the transaction. -/
def Locked.record (s : Locked ι) (sender : UserId) (txnId : Str) : Option Record :=
  s.data.get .transactions (txnKey sender txnId)

theorem appendStep_transactions (s : Data) (w : Writer) :
    (appendStep s w).1 .transactions = s .transactions := by
  obtain ⟨queue, phase⟩ := w
  cases phase with
  | idle => cases queue <;> rfl
  | stored p =>
      simp only [appendStep]
      cases p.stateTuple <;> rfl
  | slotted p => rfl
  | counted p seq => rfl

/-- Only the last write of a call records the transaction. -/
theorem record_sendStep : (sendStep env sender room txnId call i s phase).1.record sender txnId =
    match phase.recording with
    | some p => some (.text p.eventId.asStr)
    | none => s.record sender txnId := by
  unfold sendStep Locked.record
  split
  · split <;> rfl
  · split <;> rfl
  · split <;> rfl
  · rfl
  · rfl
  · split <;> rfl
  · rename_i p
    exact congrArg (SortedMap.get · _) (appendStep_transactions s.data ⟨[p], .idle⟩)
  · rename_i p phase
    exact congrArg (SortedMap.get · _) (appendStep_transactions s.data ⟨[], phase⟩)
  · exact (Store.get_put ..).trans (if_pos rfl)
  · rfl
  · rfl

/-- Only an accepted event is stored. -/
theorem events_sendStep : (sendStep env sender room txnId call i s phase).1.data .events =
    match phase.storing with
    | some p => (s.data .events).insert (timelineKey p) (.pdu p)
    | none => s.data .events := by
  unfold sendStep
  split
  · split <;> rfl
  · split <;> rfl
  · split <;> rfl
  · rfl
  · rfl
  · split <;> rfl
  · rename_i p
    exact appendStep_events s.data ⟨[p], .idle⟩
  · rename_i p phase
    have hevents := appendStep_events s.data ⟨[], phase⟩
    cases phase <;> exact hevents
  · rfl
  · rfl
  · rfl

theorem lock_sendStep : Threads.LockStep Locked.holder SendPhase.inside i s
    (sendStep env sender room txnId call i s phase).1 phase
      (sendStep env sender room txnId call i s phase).2 := by
  unfold sendStep
  split
  · split <;> exact .inl ⟨rfl, rfl⟩
  · split
    · exact .inl ⟨rfl, rfl⟩
    · rename_i hfree
      exact .inr (.inl ⟨hfree, rfl, rfl⟩)
  · split <;> exact .inl ⟨rfl, rfl⟩
  · exact .inl ⟨rfl, rfl⟩
  · exact .inl ⟨rfl, rfl⟩
  · split <;> exact .inl ⟨rfl, rfl⟩
  · exact .inl ⟨rfl, rfl⟩
  · refine .inl ⟨rfl, ?_⟩
    dsimp only
    split <;> rfl
  · exact .inl ⟨rfl, rfl⟩
  · exact .inr (.inr ⟨rfl, rfl, rfl⟩)
  · exact .inl ⟨rfl, rfl⟩

/-- A stored event waits for its record. -/
theorem stored_sendStep {p : Pdu} :
    (sendStep env sender room txnId call i s phase).2.stored = some p ↔
      phase.storing = some p ∨ phase.stored = some p ∧ phase.recording = none := by
  unfold sendStep
  split
  · split <;> simp [SendPhase.stored, SendPhase.storing]
  · split <;> simp [SendPhase.stored, SendPhase.storing]
  · split <;> simp [SendPhase.stored, SendPhase.storing]
  · simp [SendPhase.stored, SendPhase.storing]
  · simp [SendPhase.stored, SendPhase.storing]
  · split <;> simp [SendPhase.stored, SendPhase.storing]
  · simp [SendPhase.stored, SendPhase.storing]
  · dsimp only
    split <;> simp [SendPhase.stored, SendPhase.storing, SendPhase.recording]
  · simp [SendPhase.stored, SendPhase.storing, SendPhase.recording]
  · simp [SendPhase.stored, SendPhase.storing]
  · simp [SendPhase.stored, SendPhase.storing]

/-- A call's result is the text it found, or the id of the event it recorded. -/
theorem result_sendStep {r : Str}
    (h : (sendStep env sender room txnId call i s phase).2.result = some r) :
    phase.result = some r ∨ (∃ p, phase.recording = some p ∧ r = p.eventId.asStr) ∨
      (s.record sender txnId).bind Record.asText = some r := by
  unfold sendStep at h
  split at h
  · split at h
    · rename_i hrecord
      rw [Locked.record, hrecord]
      exact .inr (.inr h)
    · exact absurd h (by simp [SendPhase.result])
  · split at h
    · exact absurd h (by simp [SendPhase.result])
    · exact absurd h (by simp [SendPhase.result])
  · split at h
    · exact absurd h (by simp [SendPhase.result])
    · exact absurd h (by simp [SendPhase.result])
  · exact absurd h (by simp [SendPhase.result])
  · exact absurd h (by simp [SendPhase.result])
  · split at h
    · exact absurd h (by simp [SendPhase.result])
    · exact absurd h (by simp [SendPhase.result])
  · exact absurd h (by simp [SendPhase.result])
  · dsimp only at h
    split at h
    · exact absurd h (by simp [SendPhase.result])
    · exact absurd h (by simp [SendPhase.result])
  · exact .inr (.inl ⟨_, rfl, (Option.some.inj h).symm⟩)
  · exact .inl h
  · exact .inl h

theorem stored_of_recording {p : Pdu} (h : phase.recording = some p) : phase.stored = some p := by
  cases phase with
  | appended q => exact h
  | start | unrecorded | locked | linked _ | authorizing _ _ _ | accepted _ | appending _ _
  | settled _ | returned _ => exact absurd h (by simp [SendPhase.recording])

theorem of_storing {p : Pdu} (h : phase.storing = some p) :
    phase.inside = true ∧ phase.stored = none ∧ phase.recording = none := by
  cases phase with
  | accepted q => exact ⟨rfl, rfl, rfl⟩
  | start | unrecorded | locked | linked _ | authorizing _ _ _ | appending _ _ | appended _
  | settled _ | returned _ => exact absurd h (by simp [SendPhase.storing])

theorem inside_of_stored {p : Pdu} (h : phase.stored = some p) : phase.inside = true := by
  cases phase with
  | appending _ _ | appended _ => rfl
  | start | unrecorded | locked | linked _ | authorizing _ _ _ | accepted _ | settled _
  | returned _ => exact absurd h (by simp [SendPhase.stored])

end

/-! ## A send on its own -/

section

variable {ι : Type} {env : Env} {sender : UserId} {room : RoomId} {txnId : Str} {call : SendCall}
  {i : ι} {s : Data} {p : Pdu}

/-- Some operations of a call on its own. -/
def sendAlone (env : Env) (sender : UserId) (room : RoomId) (txnId : Str) (call : SendCall) (i : ι)
    (n : Nat) (x : Locked ι × SendPhase) : Locked ι × SendPhase :=
  (fun x => sendStep env sender room txnId call i x.1 x.2)^[n] x

theorem sendAlone_add (m n : Nat) (x : Locked ι × SendPhase) :
    sendAlone env sender room txnId call i (m + n) x =
      sendAlone env sender room txnId call i n (sendAlone env sender room txnId call i m x) := by
  rw [sendAlone, Nat.add_comm, Function.iterate_add_apply]
  rfl

/-- The state events are looked up one after the other. -/
theorem sendAlone_authorizing (l : Locked ι) (slots : List EventId) (state : List Pdu) :
    sendAlone env sender room txnId call i slots.length (l, .authorizing p slots state) =
      (l, .authorizing p [] (state ++ slots.filterMap (pdu l.data p.roomId))) := by
  induction slots generalizing state with
  | nil => simp [sendAlone]
  | cons id slots ih =>
      rw [List.length_cons, Nat.add_comm, sendAlone_add]
      have hone : sendAlone env sender room txnId call i 1 (l, .authorizing p (id :: slots) state) =
          (l, .authorizing p slots (state ++ (pdu l.data p.roomId id).toList)) := rfl
      rw [hone, ih, List.append_assoc, List.filterMap_cons]
      cases pdu l.data p.roomId id <;> rfl

theorem sendAlone_unrecorded (hrecord : s.get .transactions (txnKey sender txnId) = none) :
    sendAlone env sender room txnId call i 2 (⟨s, none⟩, .start) = (⟨s, some i⟩, .locked) := by
  simp [sendAlone, sendStep, hrecord]

/-- An accepted event is appended and recorded, and the lock released. -/
theorem sendAlone_accepted (htuple : p.stateTuple = none) :
    sendAlone env sender room txnId call i 5 (⟨s, some i⟩, .accepted p) =
      (⟨(append s p).put .transactions (txnKey sender txnId) (.text p.eventId.asStr), none⟩,
        .returned (some p.eventId.asStr)) := by
  simp [sendAlone, sendStep, appendStep, append, htuple, streamLen]

/-- On its own a send's operations are those of `sendMessage`. -/
theorem sendAlone_eq (env : Env) (s : Data) (sender : UserId) (room : RoomId) (txnId : Str)
    (call : SendCall) (i : ι) :
    ∃ n, sendAlone env sender room txnId call i n (⟨s, none⟩, .start) =
      (⟨(sendMessage env s sender room call.eventType txnId call.content call.now).2, none⟩,
        .returned
          (sendMessage env s sender room call.eventType txnId call.content call.now).1) := by
  cases hrecord : s.get .transactions (txnKey sender txnId) with
  | some existing =>
      -- the recorded reply is returned at once
      refine ⟨1, ?_⟩
      simp [sendAlone, sendStep, sendMessage, hrecord]
  | none =>
      -- the room is locked, the state is read event by event, and the event is checked
      cases hevent : messageEvent env s sender room call.eventType call.content call.now with
      | none =>
          refine ⟨2 + 2, ?_⟩
          rw [sendAlone_add, sendAlone_unrecorded hrecord]
          simp [sendAlone, sendStep, sendMessage, hrecord, hevent]
      | some p =>
          have hstateKey := (messageEvent_fields hevent).2.2.2
          have htuple : p.stateTuple = none := by
            rw [Pdu.stateTuple, hstateKey]
            rfl
          have hlinked : sendAlone env sender room txnId call i 2 (⟨s, some i⟩, .locked) =
              (⟨s, some i⟩, .authorizing p (currentState s p.roomId).values []) := by
            simp [sendAlone, sendStep, hevent]
          cases hauth : checkAuth env.verifyB64 p (currentStatePdus s p.roomId) with
          | ok _ =>
              have hchecked : sendAlone env sender room txnId call i 1
                  (⟨s, some i⟩, .authorizing p [] ([] ++ currentStatePdus s p.roomId)) =
                    (⟨s, some i⟩, .accepted p) := by
                simp [sendAlone, sendStep, hauth]
              refine ⟨2 + (2 + ((currentState s p.roomId).values.length + (1 + 5))), ?_⟩
              rw [sendAlone_add, sendAlone_unrecorded hrecord, sendAlone_add, hlinked,
                sendAlone_add, sendAlone_authorizing, sendAlone_add]
              exact (congrArg _ hchecked).trans ((sendAlone_accepted htuple).trans
                (by simp [sendMessage, hrecord, hevent, authorized, hauth]))
          | error _ =>
              refine ⟨2 + (2 + ((currentState s p.roomId).values.length + 2)), ?_⟩
              rw [sendAlone_add, sendAlone_unrecorded hrecord, sendAlone_add, hlinked,
                sendAlone_add, sendAlone_authorizing]
              have hrefused : sendAlone env sender room txnId call i 2
                  (⟨s, some i⟩, .authorizing p [] ([] ++ currentStatePdus s p.roomId)) =
                    (⟨s, none⟩, .returned none) := by
                simp [sendAlone, sendStep, hauth]
              exact hrefused.trans (by simp [sendMessage, hrecord, hevent, authorized, hauth])

end

/-! ## Interleaved sends -/

/-- One operation of one of the sends. -/
def sendsStep {ι : Type} [DecidableEq ι] (env : Env) (sender : UserId) (room : RoomId) (txnId : Str)
    (calls : ι → SendCall) :
    Threads ι (Locked ι) SendPhase → ι → Threads ι (Locked ι) SendPhase :=
  Threads.step fun i => sendStep env sender room txnId (calls i) i

/-- The sends before their first operations, with the lock free. -/
def sendsStart (ι : Type) (s : Data) : Threads ι (Locked ι) SendPhase := ⟨⟨s, none⟩, fun _ => .start⟩

/-- The event that a step stores. -/
def storedEvent {ι : Type} (x : Threads ι (Locked ι) SendPhase × ι) : Option Pdu :=
  (x.1.phase x.2).storing

/-- The transaction is not recorded yet when a step stores an event. -/
def StoresUnrecorded {ι : Type} (sender : UserId) (txnId : Str)
    (x : Threads ι (Locked ι) SendPhase × ι) : Prop :=
  (storedEvent x).isSome → x.1.shared.record sender txnId = none

/-- At most one event was stored, and what a call returned is the id of that event, or what the
transaction was recorded as before. -/
structure SentOnce {ι : Type} (record : Option Record) (puts : List Pdu) (phase : ι → SendPhase) :
    Prop where
  once : puts.length ≤ 1
  same : ∀ i r, phase i = .returned (some r) →
    match record with
    | some existing => existing.asText = some r
    | none => puts.map (·.eventId.asStr) = [r]

section

variable {ι : Type} {env : Env} {sender : UserId} {room : RoomId} {txnId : Str}
  {calls : ι → SendCall} {c : Threads ι (Locked ι) SendPhase} {stands : Prop} {puts : List Pdu}

/-- The lock holder is the call inside, what was stored is named by results and by the record, and
before the record stands at most the holder's own event.  No more than one event is stored exactly
when the steps so far stand. -/
structure SendInv (sender : UserId) (txnId : Str) (stands : Prop) (puts : List Pdu)
    (c : Threads ι (Locked ι) SendPhase) : Prop where
  lock : Threads.Exclusive Locked.holder SendPhase.inside c
  stored : ∀ i, ∀ p ∈ (c.phase i).stored, p ∈ puts
  result : ∀ i r, (c.phase i).result = some r → ∃ p ∈ puts, r = p.eventId.asStr
  recorded : ∀ e, c.shared.record sender txnId = some e → ∃ p ∈ puts, e = .text p.eventId.asStr
  unrecorded : c.shared.record sender txnId = none →
    puts = [] ∨ ∃ i p, puts = [p] ∧ (c.phase i).stored = some p
  full : stands ↔ puts.length ≤ 1

theorem sendInv_start {s : Data} (h : s.get .transactions (txnKey sender txnId) = none) :
    SendInv sender txnId True [] (sendsStart ι s) where
  lock := fun _ => by simp [sendsStart, SendPhase.inside]
  stored := fun _ _ hp => absurd hp (by simp [sendsStart, SendPhase.stored])
  result := fun _ _ hr => absurd hr (by simp [sendsStart, SendPhase.result])
  recorded := fun _ he => absurd (h.symm.trans he) (by simp)
  unrecorded := fun _ => .inl rfl
  full := by simp

namespace SendInv

/-- An event is stored by the lock holder, which has stored none before. -/
theorem puts_eq_nil (h : SendInv sender txnId stands puts c) {i : ι} {q : Pdu}
    (hstoring : (c.phase i).storing = some q) (hnone : c.shared.record sender txnId = none) :
    puts = [] := by
  rcases h.unrecorded hnone with hnil | ⟨j, p, -, hp⟩
  · exact hnil
  · obtain ⟨hinside, hno, -⟩ := of_storing hstoring
    have hij : i = j := h.lock.eq hinside (inside_of_stored hp)
    rw [← hij, hno] at hp
    exact nomatch hp

variable [DecidableEq ι]

/-- An operation of any call keeps the invariant. -/
theorem step (h : SendInv sender txnId stands puts c) (i : ι) :
    SendInv sender txnId (stands ∧ StoresUnrecorded sender txnId (c, i))
      (puts ++ (storedEvent (c, i)).toList) (sendsStep env sender room txnId calls c i) := by
  have hrecord : (sendsStep env sender room txnId calls c i).shared.record sender txnId =
      match (c.phase i).recording with
      | some p => some (.text p.eventId.asStr)
      | none => c.shared.record sender txnId := record_sendStep
  refine ⟨h.lock.step lock_sendStep, ?_, ?_, ?_, ?_, ?_⟩
  · intro j p hp
    by_cases hj : j = i
    · subst hj
      rw [sendsStep, Threads.step_phase_self] at hp
      rcases stored_sendStep.mp hp with hstoring | ⟨hst, -⟩
      · exact List.mem_append_right _ (Option.mem_toList.mpr hstoring)
      · exact List.mem_append_left _ (h.stored j p hst)
    · rw [sendsStep, Threads.step_phase_of_ne hj] at hp
      exact List.mem_append_left _ (h.stored j p hp)
  · intro j r hr
    have hold : ∃ p ∈ puts, r = p.eventId.asStr := by
      by_cases hj : j = i
      · subst hj
        rw [sendsStep, Threads.step_phase_self] at hr
        rcases result_sendStep hr with hr | ⟨p, hp, hid⟩ | hr
        · exact h.result j r hr
        · exact ⟨p, h.stored j p (stored_of_recording hp), hid⟩
        · obtain ⟨e, he, htext⟩ := Option.bind_eq_some_iff.mp hr
          obtain ⟨p, hp, rfl⟩ := h.recorded e he
          exact ⟨p, hp, (Option.some.inj htext).symm⟩
      · rw [sendsStep, Threads.step_phase_of_ne hj] at hr
        exact h.result j r hr
    obtain ⟨p, hp, hid⟩ := hold
    exact ⟨p, List.mem_append_left _ hp, hid⟩
  · intro e he
    rw [hrecord] at he
    cases hrec : (c.phase i).recording with
    | none =>
        rw [hrec] at he
        obtain ⟨p, hp, hid⟩ := h.recorded e he
        exact ⟨p, List.mem_append_left _ hp, hid⟩
    | some p =>
        rw [hrec] at he
        exact ⟨p, List.mem_append_left _ (h.stored i p (stored_of_recording hrec)),
          (Option.some.inj he).symm⟩
  · intro hnone
    rw [hrecord] at hnone
    cases hrec : (c.phase i).recording with
    | some p =>
        rw [hrec] at hnone
        exact nomatch hnone
    | none =>
        rw [hrec] at hnone
        cases hstoring : (c.phase i).storing with
        | some q =>
            refine .inr ⟨i, q, ?_, ?_⟩
            · rw [h.puts_eq_nil hstoring hnone, storedEvent, hstoring]
              rfl
            · rw [sendsStep, Threads.step_phase_self]
              exact stored_sendStep.mpr (.inl hstoring)
        | none =>
            rw [storedEvent, hstoring, Option.toList_none, List.append_nil]
            refine (h.unrecorded hnone).imp_right ?_
            rintro ⟨j, p, hputs, hp⟩
            refine ⟨j, p, hputs, ?_⟩
            by_cases hj : j = i
            · subst hj
              rw [sendsStep, Threads.step_phase_self]
              exact stored_sendStep.mpr (.inr ⟨hp, hrec⟩)
            · rw [sendsStep, Threads.step_phase_of_ne hj]
              exact hp
  · cases hstoring : (c.phase i).storing with
    | none =>
        have hstands : StoresUnrecorded sender txnId (c, i) := by
          intro hsome
          rw [storedEvent, hstoring] at hsome
          exact nomatch hsome
        rw [storedEvent, hstoring, Option.toList_none, List.append_nil]
        exact (and_iff_left hstands).trans h.full
    | some q =>
        have hstands : StoresUnrecorded sender txnId (c, i) ↔
            c.shared.record sender txnId = none := by
          simp [StoresUnrecorded, storedEvent, hstoring]
        rw [storedEvent, hstoring, Option.toList_some, List.length_append, List.length_singleton,
          hstands, h.full]
        cases hnone : c.shared.record sender txnId with
        | none =>
            rw [h.puts_eq_nil hstoring hnone]
            simp
        | some e =>
            -- the event recorded was stored before
            obtain ⟨p, hp, -⟩ := h.recorded e hnone
            have hpos := List.length_pos_of_mem hp
            constructor
            · rintro ⟨-, hno⟩
              exact nomatch hno
            · intro hle
              omega

end SendInv

variable [DecidableEq ι]

variable (env room calls) in
theorem sendInv_run {s : Data} (h : s.get .transactions (txnKey sender txnId) = none)
    (schedule : List ι) :
    SendInv sender txnId
      (∀ x ∈ trace (sendsStep env sender room txnId calls) (sendsStart ι s) schedule,
        StoresUnrecorded sender txnId x)
      ((trace (sendsStep env sender room txnId calls) (sendsStart ι s) schedule).filterMap
        storedEvent)
      (run (sendsStep env sender room txnId calls) (sendsStart ι s) schedule) := by
  induction schedule using List.reverseRecOn with
  | nil => simpa [trace] using sendInv_start h
  | append_singleton schedule i ih =>
      rw [trace_append, run_append, List.filterMap_append]
      simp only [trace, run_cons, run_nil, List.forall_mem_append, List.forall_mem_singleton]
      have hone : [(run (sendsStep env sender room txnId calls) (sendsStart ι s) schedule,
          i)].filterMap storedEvent =
            (storedEvent (run (sendsStep env sender room txnId calls) (sendsStart ι s) schedule,
              i)).toList := by
        cases hstored : storedEvent
          (run (sendsStep env sender room txnId calls) (sendsStart ι s) schedule, i) <;>
            simp [hstored]
      rw [hone]
      exact ih.step i

/-- The transaction is recorded, and every call has found that or has yet to look. -/
structure FoundBefore (sender : UserId) (txnId : Str) (existing : Record)
    (c : Threads ι (Locked ι) SendPhase) : Prop where
  record : c.shared.record sender txnId = some existing
  phase : ∀ i, c.phase i = .start ∨ c.phase i = .returned existing.asText

theorem FoundBefore.step {existing : Record} (h : FoundBefore sender txnId existing c) (i : ι) :
    FoundBefore sender txnId existing (sendsStep env sender room txnId calls c i) := by
  have hlookup : c.shared.data.get .transactions (txnKey sender txnId) = some existing := h.record
  have hnext : sendStep env sender room txnId (calls i) i c.shared (c.phase i) =
      (c.shared, .returned existing.asText) := by
    rcases h.phase i with hi | hi
    · simp only [hi, sendStep, hlookup]
    · simp only [hi, sendStep]
  constructor
  · rw [sendsStep, Threads.step_shared, hnext]
    exact h.record
  · intro j
    by_cases hj : j = i
    · subst hj
      rw [sendsStep, Threads.step_phase_self, hnext]
      exact .inr rfl
    · rw [sendsStep, Threads.step_phase_of_ne hj]
      exact h.phase j

variable (env room calls) in
/-- Where the transaction is recorded from the start, every call finds the record and stores
nothing. -/
theorem foundBefore_run {s : Data} {existing : Record}
    (h : s.get .transactions (txnKey sender txnId) = some existing) (schedule : List ι) :
    (∀ x ∈ trace (sendsStep env sender room txnId calls) (sendsStart ι s) schedule,
      storedEvent x = none) ∧
    ∀ i r, (run (sendsStep env sender room txnId calls) (sendsStart ι s) schedule).phase i =
      .returned (some r) → existing.asText = some r := by
  have hstart : FoundBefore sender txnId existing (sendsStart ι s) := ⟨h, fun _ => .inl rfl⟩
  have hboth : (∀ x ∈ trace (sendsStep env sender room txnId calls) (sendsStart ι s) schedule,
        FoundBefore sender txnId existing x.1) ∧
      FoundBefore sender txnId existing
        (run (sendsStep env sender room txnId calls) (sendsStart ι s) schedule) :=
    holds_along_trace hstart fun x _ hx => hx.step x.2
  obtain ⟨halong, hend⟩ := hboth
  constructor
  · intro x hx
    rcases (halong x hx).phase x.2 with hphase | hphase
    · rw [storedEvent, hphase]
      rfl
    · rw [storedEvent, hphase]
      rfl
  · intro i r hr
    rcases hend.phase i with hphase | hphase
    · exact absurd (hphase.symm.trans hr) (by simp)
    · exact SendPhase.returned.inj (hphase.symm.trans hr)

end

/-- However sends of one transaction interleave, they append one event and return its id exactly when
no call stores an event after the transaction has been recorded. -/
theorem sentOnce_iff {ι : Type} [DecidableEq ι] (env : Env) (s : Data) (sender : UserId)
    (room : RoomId) (txnId : Str) (calls : ι → SendCall) (schedule : List ι) :
    let steps := trace (sendsStep env sender room txnId calls) (sendsStart ι s) schedule
    let final := run (sendsStep env sender room txnId calls) (sendsStart ι s) schedule
    SentOnce (s.get .transactions (txnKey sender txnId)) (steps.filterMap storedEvent) final.phase ↔
      ∀ x ∈ steps, StoresUnrecorded sender txnId x := by
  intro steps final
  cases hrecord : s.get .transactions (txnKey sender txnId) with
  | some existing =>
      obtain ⟨hnone, hsame⟩ := foundBefore_run env room calls hrecord schedule
      have hputs : steps.filterMap storedEvent = [] := List.filterMap_eq_nil_iff.mpr hnone
      constructor
      · intro _ x hx hsome
        rw [hnone x hx] at hsome
        exact nomatch hsome
      · intro _
        exact ⟨by rw [hputs]; exact Nat.zero_le _, hsame⟩
  | none =>
      have hinv := sendInv_run env room calls hrecord schedule
      constructor
      · intro h
        exact hinv.full.mpr h.once
      · intro h
        have hle := hinv.full.mp h
        refine ⟨hle, fun i r hr => ?_⟩
        have hresult : (final.phase i).result = some r := by
          rw [hr]
          rfl
        obtain ⟨p, hp, rfl⟩ := hinv.result i r hresult
        -- the event is the only one
        obtain ⟨q, hq⟩ := List.length_eq_one_iff.mp
          (Nat.le_antisymm hle (List.length_pos_of_mem hp))
        rw [hq, List.mem_singleton] at hp
        rw [hp]
        show (steps.filterMap storedEvent).map (·.eventId.asStr) = _
        rw [hq]
        rfl

namespace SampleRun

/-- Two messages of alice under one transaction id. -/
def twoSends : Bool → SendCall
  | true => ⟨"m.room.message", singleField "body" "x", 0⟩
  | false => ⟨"m.room.message", singleField "body" "y", 0⟩

end SampleRun

open SampleRun in
/-- Two calls that both find no transaction append two events. -/
theorem concurrent_sends_append_twice :
    ¬ ∀ (env : Env) (s : Data) (sender : UserId) (room : RoomId) (txnId : Str)
      (calls : Bool → SendCall) (schedule : List Bool), Reachable env s →
        SentOnce (s.get .transactions (txnKey sender txnId))
          ((trace (sendsStep env sender room txnId calls) (sendsStart Bool s) schedule).filterMap
            storedEvent)
          (run (sendsStep env sender room txnId calls) (sendsStart Bool s) schedule).phase := by
  intro h
  have hreachable : Reachable shortEnv
      (run (step shortEnv) Store.empty [.createRoom alice none none fun _ => 0]) := ⟨_, rfl⟩
  have honce := (h shortEnv _ alice mintedRoom "1" twoSends
    ([true, false] ++ List.replicate 12 true ++ List.replicate 12 false) hreachable).once
  revert honce
  decide +kernel

end GaussMatrix.Svc
