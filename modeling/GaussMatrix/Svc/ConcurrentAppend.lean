import GaussMatrix.Library.Interleave
import GaussMatrix.Svc.CurrentState
import GaussMatrix.Svc.StreamOrder

/-!
# Concurrent appends

An append counts the stream and writes at that position later, and the locks of the rooms do not keep
appends of different rooms apart.  An append whose count is out of date when it writes takes the
position of another.
-/

namespace GaussMatrix.Svc

open Library Util Api StateRes RoomService

/-! ## The store operations of an append -/

/-- Where a writer's append stands: what it put last, or the position it counted. -/
inductive AppendPhase
  | idle
  | stored (p : Pdu)
  | slotted (p : Pdu)
  | counted (p : Pdu) (seq : Nat)
  deriving DecidableEq

/-- A writer of a room: the events it has still to append, one after the other under the room's lock,
and the append under way. -/
structure Writer where
  queue : List Pdu
  phase : AppendPhase
  deriving DecidableEq

/-- One store operation of a writer. -/
def appendStep (s : Data) (w : Writer) : Data × Writer :=
  match w.phase, w.queue with
  | .idle, [] => (s, w)
  | .idle, p :: queue =>
      (s.put .events (timelineKey p) (.pdu p),
        ⟨queue, if p.stateTuple.isSome then .stored p else .slotted p⟩)
  | .stored p, queue =>
      match p.stateTuple with
      | some (kind, key) =>
          (s.put .roomState (stateKey p.roomId kind key) (.text p.eventId.asStr),
            ⟨queue, .slotted p⟩)
      | none => (s, ⟨queue, .slotted p⟩)
  | .slotted p, queue => (s, ⟨queue, .counted p (streamLen s)⟩)
  | .counted p seq, queue =>
      (s.put .eventStream (streamKey seq) (.text (streamEntry p)), ⟨queue, .idle⟩)

/-- The store operations of a writer on its own. -/
def appendAlone (n : Nat) (s : Data) (w : Writer) : Data × Writer :=
  (fun x => appendStep x.1 x.2)^[n] (s, w)

/-- On its own a writer's operations are those of `append`. -/
theorem appendAlone_eq (s : Data) (p : Pdu) (queue : List Pdu) :
    appendAlone (if p.stateTuple.isSome then 4 else 3) s ⟨p :: queue, .idle⟩ =
      (append s p, ⟨queue, .idle⟩) := by
  cases htuple : p.stateTuple with
  | none => simp [appendAlone, appendStep, append, htuple, streamLen]
  | some tuple => simp [appendAlone, appendStep, append, htuple, streamLen]

/-- The event of the append under way. -/
def AppendPhase.event : AppendPhase → Option Pdu
  | idle => none
  | stored p => some p
  | slotted p => some p
  | counted p _ => some p

namespace Writer

/-- The events that are not in the stream yet. -/
def pending (w : Writer) : List Pdu := w.phase.event.toList ++ w.queue

/-- The event that the next operation stores. -/
def starting (w : Writer) : Option Pdu :=
  match w.phase, w.queue with
  | .idle, p :: _ => some p
  | _, _ => none

/-- The event that the next operation puts into the stream, and the position. -/
def streaming (w : Writer) : Option (Pdu × Nat) :=
  match w.phase with
  | .counted p seq => some (p, seq)
  | _ => none

end Writer

section

variable (s : Data) (w : Writer)

/-- An operation takes no event from a writer but the one it puts into the stream. -/
theorem appendStep_pending :
    (w.streaming.map Prod.fst).toList ++ (appendStep s w).2.pending = w.pending := by
  obtain ⟨queue, phase⟩ := w
  cases phase with
  | idle =>
      cases queue with
      | nil => rfl
      | cons p queue =>
          simp only [Writer.pending, Writer.streaming, appendStep]
          cases p.stateTuple.isSome <;> rfl
  | stored p =>
      simp only [Writer.pending, Writer.streaming, appendStep]
      cases p.stateTuple <;> rfl
  | slotted p => rfl
  | counted p seq => rfl

theorem appendStep_events : (appendStep s w).1 .events =
    match w.starting with
    | some p => (s .events).insert (timelineKey p) (.pdu p)
    | none => s .events := by
  obtain ⟨queue, phase⟩ := w
  cases phase with
  | idle => cases queue <;> rfl
  | stored p =>
      simp only [Writer.starting, appendStep]
      cases p.stateTuple <;> rfl
  | slotted p => rfl
  | counted p seq => rfl

theorem appendStep_eventStream : (appendStep s w).1 .eventStream =
    match w.streaming with
    | some (p, seq) => (s .eventStream).insert (streamKey seq) (.text (streamEntry p))
    | none => s .eventStream := by
  obtain ⟨queue, phase⟩ := w
  cases phase with
  | idle => cases queue <;> rfl
  | stored p =>
      simp only [Writer.streaming, appendStep]
      cases p.stateTuple <;> rfl
  | slotted p => rfl
  | counted p seq => rfl

variable {s w} {p : Pdu} {seq : Nat}

/-- The event under way after an operation was under way before it or is the one it stores. -/
theorem event_appendStep (h : (appendStep s w).2.phase.event = some p) :
    w.starting = some p ∨ w.starting = none ∧ w.phase.event = some p := by
  obtain ⟨queue, phase⟩ := w
  cases phase with
  | idle =>
      cases queue with
      | nil => exact absurd h (by simp [appendStep, AppendPhase.event])
      | cons q queue =>
          left
          rw [← h]
          simp only [Writer.starting, appendStep]
          cases q.stateTuple.isSome <;> rfl
  | stored q =>
      right
      refine ⟨rfl, ?_⟩
      rw [← h]
      simp only [appendStep]
      cases q.stateTuple <;> rfl
  | slotted q => exact .inr ⟨rfl, h⟩
  | counted q seq => exact absurd h (by simp [appendStep, AppendPhase.event])

/-- A position is counted from the stream as it is. -/
theorem streaming_appendStep (h : (appendStep s w).2.streaming = some (p, seq)) :
    seq = streamLen s ∧ w.streaming = none := by
  obtain ⟨queue, phase⟩ := w
  cases phase with
  | idle =>
      cases queue with
      | nil => exact absurd h (by simp [appendStep, Writer.streaming])
      | cons q queue =>
          simp only [appendStep] at h
          cases hq : q.stateTuple.isSome <;> simp [hq, Writer.streaming] at h
  | stored q =>
      simp only [appendStep] at h
      cases hq : q.stateTuple <;> simp [hq, Writer.streaming] at h
  | slotted q =>
      obtain ⟨-, rfl⟩ := Prod.mk.inj (Option.some.inj h)
      exact ⟨rfl, rfl⟩
  | counted q seq => exact absurd h (by simp [appendStep, Writer.streaming])

end

/-! ## Interleaved writers -/

/-- One store operation of the writer of a room. -/
def writersStep : Threads RoomId Data Writer → RoomId → Threads RoomId Data Writer :=
  Threads.step fun _ => appendStep

/-- The writers before their first operations: each has the events of its room. -/
def writersStart (events : List Pdu) : Threads RoomId Data Writer :=
  ⟨Store.empty, fun room => ⟨events.filter (·.roomId = room), .idle⟩⟩

/-- The event that a step puts into the stream, and the position. -/
def streamPut (x : Threads RoomId Data Writer × RoomId) : Option (Pdu × Nat) :=
  (x.1.phase x.2).streaming

/-- The events in the order of their stream puts. -/
def completed (steps : List (Threads RoomId Data Writer × RoomId)) : List Pdu :=
  steps.filterMap fun x => (streamPut x).map Prod.fst

/-- The stream is as long at a stream put as it was counted. -/
def CountStands (x : Threads RoomId Data Writer × RoomId) : Prop :=
  ∀ put ∈ streamPut x, put.2 = streamLen x.1.shared

/-- Each event has a stream position of its own, and a reader from the start gets each event once. -/
structure StreamedOnce (s : Data) (events : List Pdu) : Prop where
  len : streamLen s = events.length
  positions : ((List.range events.length).map fun seq => s.get .eventStream (streamKey seq)).Perm
    (events.map fun p => some (.text (streamEntry p)))
  delivered : (eventsSince s 0).Perm events

section

variable {s : Data} {p : Pdu} {seq : Nat} {events done : List Pdu}
  {c : Threads RoomId Data Writer} {room : RoomId}

/-- Overwriting a position of a dense stream leaves its length, and the next position extends it. -/
theorem dense_putStream (h : Dense s) (hseq : seq ≤ streamLen s) (entry : Record) :
    Dense (s.put .eventStream (streamKey seq) entry) ∧
      streamLen (s.put .eventStream (streamKey seq) entry) =
        if seq = streamLen s then streamLen s + 1 else streamLen s := by
  have hget : ∀ i, ((s.put .eventStream (streamKey seq) entry) .eventStream).get (streamKey i) =
      if i = seq then some entry else (s .eventStream).get (streamKey i) := by
    intro i
    rw [Store.put_self]
    by_cases hi : i = seq
    · rw [hi, SortedMap.get_insert_self, if_pos rfl]
    · rw [SortedMap.get_insert_ne _ fun heq => hi (streamKey_injective heq), if_neg hi]
  have hlen : streamLen (s.put .eventStream (streamKey seq) entry) =
      if seq = streamLen s then streamLen s + 1 else streamLen s := by
    rw [streamLen, Store.count, Store.put_self]
    split
    · rename_i heq
      have hfree : (s .eventStream).get (streamKey seq) = none := by
        rw [← Option.not_isSome_iff_eq_none, h]
        omega
      exact SortedMap.size_insert_of_get_none _ hfree _
    · rename_i hne
      have hsome : ((s .eventStream).get (streamKey seq)).isSome := (h seq).mpr (by omega)
      exact SortedMap.size_insert_of_get_some _ hsome _
  refine ⟨fun i => ?_, hlen⟩
  rw [hget, hlen]
  by_cases hi : i = seq
  · rw [if_pos hi, hi]
    split
    · simp; omega
    · simp; omega
  · rw [if_neg hi, h]
    split
    · omega
    · omega

theorem dense_of_eventStream {t : Data} (h : s .eventStream = t .eventStream) (ht : Dense t) :
    Dense s := by
  unfold RoomService.Dense streamLen Store.count
  rw [h]
  exact ht

/-- What an operation does to the length of the stream. -/
theorem stream_appendStep {w : Writer} (h : Dense s)
    (hseq : ∀ p seq, w.streaming = some (p, seq) → seq ≤ streamLen s) :
    Dense (appendStep s w).1 ∧ streamLen (appendStep s w).1 =
      if w.streaming.map Prod.snd = some (streamLen s) then streamLen s + 1 else streamLen s := by
  have hstream := appendStep_eventStream s w
  cases hw : w.streaming with
  | none =>
      rw [hw] at hstream
      refine ⟨dense_of_eventStream hstream h, ?_⟩
      rw [if_neg (by simp), streamLen, streamLen, Store.count, Store.count, hstream]
  | some put =>
      obtain ⟨p, seq⟩ := put
      rw [hw] at hstream
      have hput : (appendStep s w).1 .eventStream =
          (s.put .eventStream (streamKey seq) (.text (streamEntry p))) .eventStream := by
        rw [hstream, Store.put_self]
      obtain ⟨hdense, hlen⟩ := dense_putStream h (hseq p seq hw) (.text (streamEntry p))
      refine ⟨dense_of_eventStream hput hdense, ?_⟩
      rw [streamLen, Store.count, hput, ← Store.count, ← streamLen, hlen]
      simp

/-! ## What holds along a schedule -/

/-- The appends completed, under way and still to come are those of the events, room by room, and what
is stored are events put so far. -/
structure WritersInv (events done : List Pdu) (c : Threads RoomId Data Writer) : Prop where
  dense : Dense c.shared
  keyed : Keyed c.shared
  taken : ∀ room p seq, (c.phase room).streaming = some (p, seq) → seq ≤ streamLen c.shared
  queue : ∀ room, done.filter (·.roomId = room) ++ (c.phase room).pending =
    events.filter (·.roomId = room)
  stored : ∀ p, Stored c.shared p → p ∈ events
  kept : IdsDetermine events → (∀ p ∈ events, sep ∉ p.roomId.asStr) →
    (∀ p ∈ done, Stored c.shared p) ∧
      ∀ room, ∀ p ∈ (c.phase room).phase.event, Stored c.shared p

theorem writersInv_start : WritersInv events [] (writersStart events) where
  dense := dense_empty
  keyed := keyed_empty
  taken := fun _ _ _ h => absurd h (by simp [writersStart, Writer.streaming])
  queue := fun _ => rfl
  stored := fun _ h => absurd h (by simp [Stored, writersStart, Store.empty])
  kept := fun _ _ => ⟨by simp, fun _ _ h => absurd h (by simp [writersStart, AppendPhase.event])⟩

theorem mem_filter_room {l : List Pdu} : p ∈ l.filter (·.roomId = room) ↔ p ∈ l ∧ p.roomId = room := by
  rw [List.mem_filter, decide_eq_true_eq]

theorem mem_of_starting {w : Writer} (hp : w.starting = some p) : p ∈ w.pending := by
  obtain ⟨queue, phase⟩ := w
  cases phase with
  | idle =>
      cases queue with
      | nil => exact absurd hp (by simp [Writer.starting])
      | cons q queue =>
          obtain rfl := Option.some.inj hp
          exact List.mem_append_right _ List.mem_cons_self
  | stored q => exact absurd hp (by simp [Writer.starting])
  | slotted q => exact absurd hp (by simp [Writer.starting])
  | counted q seq => exact absurd hp (by simp [Writer.starting])

theorem event_of_streaming {w : Writer} (hp : w.streaming = some (p, seq)) :
    w.phase.event = some p ∧ w.starting = none := by
  obtain ⟨queue, phase⟩ := w
  cases phase with
  | idle => exact absurd hp (by simp [Writer.streaming])
  | stored q => exact absurd hp (by simp [Writer.streaming])
  | slotted q => exact absurd hp (by simp [Writer.streaming])
  | counted q seq =>
      obtain ⟨rfl, rfl⟩ := Prod.mk.inj (Option.some.inj hp)
      exact ⟨rfl, rfl⟩

/-- What is stored after an operation. -/
theorem stored_appendStep {w : Writer} : Stored (appendStep s w).1 p ↔
    w.starting = some p ∨ Stored s p ∧ ∀ q, w.starting = some q → timelineKey p ≠ timelineKey q := by
  have hevents := appendStep_events s w
  cases hw : w.starting with
  | none =>
      rw [hw] at hevents
      simp [Stored, hevents]
  | some q =>
      rw [hw] at hevents
      have hstored : Stored (appendStep s w).1 p ↔ Stored (append s q) p := by
        rw [Stored, Stored, hevents, append_events]
      rw [hstored, stored_append_iff]
      simp [eq_comm]

theorem keyed_appendStep {w : Writer} (h : Keyed s) : Keyed (appendStep s w).1 := by
  have hevents := appendStep_events s w
  unfold Keyed
  rw [hevents]
  cases w.starting with
  | none => exact h
  | some q =>
      have happend := h.append q
      unfold Keyed at happend
      rw [append_events] at happend
      exact happend

namespace WritersInv

/-- An event of a writer is one of its room. -/
theorem mem_of_pending (h : WritersInv events done c) (hp : p ∈ (c.phase room).pending) :
    p ∈ events ∧ p.roomId = room := by
  rw [← mem_filter_room, ← h.queue]
  exact List.mem_append_right _ hp

theorem mem_of_done (h : WritersInv events done c) (hp : p ∈ done) : p ∈ events := by
  have hmem : p ∈ events.filter (·.roomId = p.roomId) := by
    rw [← h.queue]
    exact List.mem_append_left _ (mem_filter_room.mpr ⟨hp, rfl⟩)
  exact (mem_filter_room.mp hmem).1

/-- An operation of any writer keeps the invariant. -/
theorem step (h : WritersInv events done c) (room : RoomId) :
    WritersInv events (done ++ ((streamPut (c, room)).map Prod.fst).toList)
      (writersStep c room) := by
  have hstream := stream_appendStep h.dense (h.taken room)
  refine ⟨hstream.1, keyed_appendStep h.keyed, ?_, ?_, ?_, ?_⟩
  · intro other p seq hput
    have hlen : streamLen c.shared ≤ streamLen (writersStep c room).shared := by
      show streamLen c.shared ≤ streamLen (appendStep c.shared (c.phase room)).1
      rw [hstream.2]
      split
      · omega
      · omega
    by_cases hother : other = room
    · subst hother
      rw [writersStep, Threads.step_phase_self] at hput
      have hcount := (streaming_appendStep hput).1
      omega
    · rw [writersStep, Threads.step_phase_of_ne hother] at hput
      have hcount := h.taken other p seq hput
      omega
  · intro other
    rw [List.filter_append, List.append_assoc]
    by_cases hother : other = room
    · subst hother
      -- the event put into the stream, if any, is one of this room
      have hfilter : ((streamPut (c, other)).map Prod.fst).toList.filter (·.roomId = other) =
          ((streamPut (c, other)).map Prod.fst).toList := by
        rw [List.filter_eq_self]
        intro p hp
        have hpending : p ∈ (c.phase other).pending := by
          rw [← appendStep_pending c.shared (c.phase other)]
          exact List.mem_append_left _ hp
        exact decide_eq_true (h.mem_of_pending hpending).2
      rw [hfilter, writersStep, Threads.step_phase_self, ← h.queue other]
      exact congrArg _ (appendStep_pending c.shared (c.phase other))
    · have hfilter : ((streamPut (c, room)).map Prod.fst).toList.filter (·.roomId = other) = [] := by
        rw [List.filter_eq_nil_iff]
        intro p hp hroom
        have hpending : p ∈ (c.phase room).pending := by
          rw [← appendStep_pending c.shared (c.phase room)]
          exact List.mem_append_left _ hp
        exact hother ((of_decide_eq_true hroom).symm.trans (h.mem_of_pending hpending).2)
      rw [hfilter, List.nil_append, writersStep, Threads.step_phase_of_ne hother, h.queue]
  · intro p hp
    rcases stored_appendStep.mp hp with hstart | ⟨hp, -⟩
    · exact (h.mem_of_pending (mem_of_starting hstart)).1
    · exact h.stored p hp
  · intro hids hsep
    obtain ⟨hdone, hway⟩ := h.kept hids hsep
    -- an event stored over another would be another event of that room and id
    have hkeep : ∀ p ∈ events, Stored c.shared p → Stored (writersStep c room).shared p := by
      intro p hp hst
      refine stored_appendStep.mpr ?_
      by_cases hstart : (c.phase room).starting = some p
      · exact .inl hstart
      · refine .inr ⟨hst, fun q hq hkey => hstart ?_⟩
        have hmem := (h.mem_of_pending (mem_of_starting hq)).1
        obtain ⟨hroom, hid⟩ := eventId_of_timelineKey_eq (hsep p hp) (hsep q hmem) hkey
        rw [hq, hids p hp q hmem hroom hid]
    constructor
    · intro p hp
      rcases List.mem_append.mp hp with hp | hp
      · exact hkeep p (h.mem_of_done hp) (hdone p hp)
      · obtain ⟨⟨q, seq⟩, hput, rfl⟩ := Option.map_eq_some_iff.mp (Option.mem_toList.mp hp)
        have hevent := (event_of_streaming hput).1
        have hmem : q ∈ (c.phase room).pending :=
          List.mem_append_left _ (Option.mem_toList.mpr hevent)
        exact hkeep q (h.mem_of_pending hmem).1 (hway room q hevent)
    · intro other p hp
      by_cases hother : other = room
      · subst hother
        rw [writersStep, Threads.step_phase_self] at hp
        rcases event_appendStep hp with hstart | ⟨-, hevent⟩
        · exact stored_appendStep.mpr (.inl hstart)
        · have hmem : p ∈ (c.phase other).pending :=
            List.mem_append_left _ (Option.mem_toList.mpr hevent)
          exact hkeep p (h.mem_of_pending hmem).1 (hway other p hevent)
      · rw [writersStep, Threads.step_phase_of_ne hother] at hp
        have hmem : p ∈ (c.phase other).pending :=
          List.mem_append_left _ (Option.mem_toList.mpr hp)
        exact hkeep p (h.mem_of_pending hmem).1 (hway other p hp)

end WritersInv

theorem completed_append (steps : List (Threads RoomId Data Writer × RoomId))
    (x : Threads RoomId Data Writer × RoomId) :
    completed (steps ++ [x]) = completed steps ++ ((streamPut x).map Prod.fst).toList := by
  rw [completed, completed, List.filterMap_append]
  cases h : (streamPut x).map Prod.fst <;> simp [h]

theorem writersInv_run (events : List Pdu) (schedule : List RoomId) :
    WritersInv events (completed (trace writersStep (writersStart events) schedule))
      (run writersStep (writersStart events) schedule) := by
  induction schedule using List.reverseRecOn with
  | nil => exact writersInv_start
  | append_singleton schedule room ih =>
      rw [trace_append, run_append]
      simp only [trace, run_cons, run_nil]
      rw [completed_append]
      exact ih.step room

/-- The stream is no longer than the events put into it, and as long only if every count stood; then
each event is at the position of its put. -/
structure StreamInv (stands : Prop) (done : List Pdu) (s : Data) : Prop where
  len : streamLen s ≤ done.length
  full : streamLen s = done.length ↔ stands
  entries : stands → ∀ k p, done[k]? = some p →
    (s .eventStream).get (streamKey k) = some (.text (streamEntry p))

theorem StreamInv.step {stands : Prop} (h : StreamInv stands done c.shared)
    (hinv : WritersInv events done c) (room : RoomId) :
    StreamInv (stands ∧ CountStands (c, room))
      (done ++ ((streamPut (c, room)).map Prod.fst).toList) (writersStep c room).shared := by
  have hlen := (stream_appendStep hinv.dense (hinv.taken room)).2
  have hstream := appendStep_eventStream c.shared (c.phase room)
  change streamLen (writersStep c room).shared = _ at hlen
  change (writersStep c room).shared .eventStream = _ at hstream
  cases hput : (c.phase room).streaming with
  | none =>
      -- the step writes nothing to the stream
      have hstands : CountStands (c, room) := by
        intro put hmem
        rw [streamPut, hput] at hmem
        exact absurd hmem (by simp)
      rw [hput] at hlen hstream
      simp only [streamPut, hput, Option.map_none, Option.toList_none, List.append_nil,
        hstands, and_true]
      have hsame : streamLen (writersStep c room).shared = streamLen c.shared := by
        rw [hlen, if_neg (by simp)]
      refine ⟨hsame ▸ h.len, hsame ▸ h.full, fun hst k p hk => ?_⟩
      rw [hstream]
      exact h.entries hst k p hk
  | some put =>
      -- a put at the count adds an entry, and one below it takes the place of another
      obtain ⟨p, seq⟩ := put
      have hstands : CountStands (c, room) ↔ seq = streamLen c.shared := by
        simp [CountStands, streamPut, hput]
      have hseq := hinv.taken room p seq hput
      have hle := h.len
      have hfull := h.full
      rw [hput] at hlen hstream
      simp only [Option.map_some, Option.some.injEq] at hlen
      simp only [streamPut, hput, Option.map_some, Option.toList_some, hstands]
      refine ⟨?_, ?_, ?_⟩
      · rw [List.length_append, List.length_singleton, hlen]
        split
        · omega
        · omega
      · rw [List.length_append, List.length_singleton, hlen, ← hfull]
        split
        · omega
        · omega
      · rintro ⟨hst, rfl⟩ k q hk
        have hend := hfull.mpr hst
        rw [hstream]
        by_cases hk' : k = streamLen c.shared
        · subst hk'
          rw [hend, List.getElem?_append_right le_rfl, Nat.sub_self] at hk
          obtain rfl := Option.some.inj hk
          exact SortedMap.get_insert_self ..
        · have hlt : k < done.length := by
            have hbound := (List.getElem?_eq_some_iff.mp hk).1
            rw [List.length_append, List.length_singleton] at hbound
            omega
          rw [List.getElem?_append_left hlt] at hk
          rw [SortedMap.get_insert_ne _ fun heq => hk' (streamKey_injective heq)]
          exact h.entries hst k q hk

theorem streamInv_run (events : List Pdu) (schedule : List RoomId) :
    StreamInv (∀ x ∈ trace writersStep (writersStart events) schedule, CountStands x)
      (completed (trace writersStep (writersStart events) schedule))
      (run writersStep (writersStart events) schedule).shared := by
  induction schedule using List.reverseRecOn with
  | nil => exact ⟨le_rfl, by simp [trace, completed]; rfl, by simp [trace, completed]⟩
  | append_singleton schedule room ih =>
      rw [trace_append, run_append]
      simp only [trace, run_cons, run_nil, List.forall_mem_append, List.forall_mem_singleton]
      rw [completed_append]
      exact ih.step (writersInv_run events schedule) room

/-! ## What the stream delivers -/

/-- A partial map that permutes a list and never lowers a weight keeps every weight. -/
theorem weight_eq_of_perm_filterMap {α : Type} {l : List α} {f : α → Option α} {weight : α → Nat}
    (hperm : (l.filterMap f).Perm l) (hle : ∀ a ∈ l, ∀ b, f a = some b → weight a ≤ weight b) :
    ∀ a ∈ l, ∃ b, f a = some b ∧ weight a = weight b := by
  have hall : ∀ a ∈ l, (f a).isSome := List.filterMap_length_eq_length.mp hperm.length_eq
  have hmap : l.filterMap f = l.map fun a => (f a).getD a := by
    rw [← List.filterMap_eq_map]
    refine List.filterMap_congr fun a ha => ?_
    obtain ⟨b, hb⟩ := Option.isSome_iff_exists.mp (hall a ha)
    rw [Function.comp_apply, hb, Option.getD_some]
  have hsum : (l.map fun a => weight ((f a).getD a)).sum = (l.map weight).sum := by
    rw [← (hperm.map weight).sum_eq, hmap, List.map_map]
    rfl
  intro a ha
  obtain ⟨b, hb⟩ := Option.isSome_iff_exists.mp (hall a ha)
  refine ⟨b, hb, ?_⟩
  by_contra hne
  have hle' : ∀ x ∈ l, weight x ≤ weight ((f x).getD x) := by
    intro x hx
    obtain ⟨y, hy⟩ := Option.isSome_iff_exists.mp (hall x hx)
    rw [hy]
    exact hle x hx y hy
  have hlt : weight a < weight ((f a).getD a) := by
    rw [hb]
    exact lt_of_le_of_ne (hle a ha b hb) hne
  exact absurd hsum (List.sum_lt_sum _ _ hle' ⟨a, ha, hlt⟩).ne'

/-- What a reader from the start gets, when the positions hold the entries of the events. -/
theorem eventsSince_perm_of_positions (h : RoomService.Dense s)
    (hlen : streamLen s = events.length)
    (hpositions : ((List.range events.length).map
      fun seq => s.get .eventStream (streamKey seq)).Perm
        (events.map fun p => some (.text (streamEntry p)))) :
    (eventsSince s 0).Perm
      (events.filterMap fun p => resolveEntry s (.text (streamEntry p))) := by
  have hall : (List.range (streamLen s)).filter (0 ≤ ·) = List.range events.length := by
    rw [hlen, List.filter_eq_self]
    simp
  have hread : (List.range events.length).filterMap (streamEvent s) =
      ((List.range events.length).map fun seq => s.get .eventStream (streamKey seq)).filterMap
        fun entry => entry.bind (resolveEntry s) := by
    rw [List.filterMap_map]
    rfl
  have hresolve : (events.map fun p => some (Record.text (streamEntry p))).filterMap
      (fun entry => entry.bind (resolveEntry s)) =
        events.filterMap fun p => resolveEntry s (.text (streamEntry p)) := by
    rw [List.filterMap_map]
    rfl
  refine (h.eventsSince_perm 0).trans ?_
  rw [hall, hread, ← hresolve]
  exact hpositions.filterMap _

namespace WritersInv

/-- When every writer is done, what was completed is all the events. -/
theorem done_perm (h : WritersInv events done c)
    (hdone : ∀ room, c.phase room = ⟨[], .idle⟩) : done.Perm events := by
  rw [List.perm_iff_count]
  intro p
  have hqueue := h.queue p.roomId
  rw [hdone] at hqueue
  have hroom : done.filter (·.roomId = p.roomId) = events.filter (·.roomId = p.roomId) := by
    rw [← hqueue]
    exact (List.append_nil _).symm
  have hcount := congrArg (List.count p) hroom
  rw [List.count_filter (by simp), List.count_filter (by simp)] at hcount
  exact hcount

/-- What was completed is what the stream holds, when every count stood. -/
theorem streamed {stands : Prop} (h : WritersInv events done c)
    (hstream : StreamInv stands done c.shared) (hdone : ∀ room, c.phase room = ⟨[], .idle⟩)
    (hstands : stands) (hsep : ∀ p ∈ events, sep ∉ p.roomId.asStr) (hids : IdsDetermine events) :
    Streamed done c.shared where
  keyed := h.keyed
  dense := h.dense
  len := hstream.full.mpr hstands
  entries := hstream.entries hstands
  stored := by
    intro p
    constructor
    · intro hp
      exact (h.done_perm hdone).mem_iff.mpr (h.stored p hp)
    · exact (h.kept hids hsep).1 p

end WritersInv

end

/-- Appends of different rooms, however they interleave, lose nothing exactly when the stream is as long
at each put as it was counted, no room id has a separator, and an id has one event in its room. -/
theorem streamedOnce_iff (events : List Pdu) (schedule : List RoomId)
    (hdone : ∀ room, (run writersStep (writersStart events) schedule).phase room = ⟨[], .idle⟩) :
    StreamedOnce (run writersStep (writersStart events) schedule).shared events ↔
      (∀ x ∈ trace writersStep (writersStart events) schedule, CountStands x) ∧
        (∀ p ∈ events, sep ∉ p.roomId.asStr) ∧ IdsDetermine events := by
  have hinv := writersInv_run events schedule
  have hstream := streamInv_run events schedule
  have hperm := hinv.done_perm hdone
  constructor
  · intro ⟨hlen, hpositions, hdelivered⟩
    have hstands := hstream.full.mp (by rw [hlen, hperm.length_eq])
    have hresolve := (eventsSince_perm_of_positions hinv.dense hlen hpositions).symm.trans hdelivered
    -- entries lead to events of ids no shorter, and together to all events
    have hweights := weight_eq_of_perm_filterMap hresolve
      (fun p _ q hq => (length_le_of_resolveEntry hq).1)
    have hsep : ∀ p ∈ events, sep ∉ p.roomId.asStr := by
      intro p hp
      obtain ⟨q, hq, hlen⟩ := hweights p hp
      exact (length_le_of_resolveEntry hq).2 hlen
    refine ⟨hstands, hsep, fun p hp q hq hroom hid => ?_⟩
    have hself : ∀ x ∈ events,
        resolveEntry (run writersStep (writersStart events) schedule).shared
          (.text (streamEntry x)) = some x := by
      intro x hx
      obtain ⟨y, hy, hyx⟩ := List.mem_filterMap.mp (hresolve.mem_iff.mpr hx)
      obtain ⟨hroom, hid⟩ := eq_of_resolveEntry hinv.keyed (hsep y hy) (hsep x hx) hyx
      rw [streamEntry, hroom, hid]
      exact hyx
    have hentry : streamEntry p = streamEntry q := by
      rw [streamEntry, streamEntry, hroom, hid]
    have hp := hself p hp
    rw [hentry, hself q hq] at hp
    exact (Option.some.inj hp).symm
  · rintro ⟨hstands, hsep, hids⟩
    have hstreamed := hinv.streamed hstream hdone hstands hsep hids
    refine ⟨?_, ?_, ?_⟩
    · rw [hstreamed.len, hperm.length_eq]
    · refine List.Perm.trans (List.Perm.of_eq ?_) (hperm.map _)
      refine List.ext_getElem (by simp [hperm.length_eq]) fun k hk hk' => ?_
      rw [List.getElem_map, List.getElem_map, List.getElem_range]
      rw [List.length_map] at hk'
      exact hstreamed.entries k _ (List.getElem?_eq_getElem hk')
    · exact (hstreamed.eventsSince_perm (fun p hp => hsep p (hperm.mem_iff.mp hp))
        (hids.of_subset fun p hp => hperm.mem_iff.mp hp)).trans hperm

namespace SampleRun

/-- A message of another room. -/
def elsewhere : Pdu := { otherMessage with roomId := ⟨"!s:x", valid_secondRoom⟩ }

/-- Writers of the two rooms are done when both are. -/
theorem writers_done (schedule : List RoomId)
    (hroom : (run writersStep (writersStart [message, elsewhere]) schedule).phase room = ⟨[], .idle⟩)
    (hother : (run writersStep (writersStart [message, elsewhere]) schedule).phase
      elsewhere.roomId = ⟨[], .idle⟩) (r : RoomId) :
    (run writersStep (writersStart [message, elsewhere]) schedule).phase r = ⟨[], .idle⟩ := by
  by_cases hr : r = room
  · rw [hr, hroom]
  by_cases hr' : r = elsewhere.roomId
  · rw [hr', hother]
  -- a writer with nothing to append stays idle
  refine Threads.phase_run_of_stays (fun _ => rfl) ?_ schedule
  have hnone : [message, elsewhere].filter (·.roomId = r) = [] := by
    rw [List.filter_eq_nil_iff]
    intro p hp hpr
    have hpr := of_decide_eq_true hpr
    rcases List.mem_cons.mp hp with rfl | hp
    · exact hr hpr.symm
    · obtain rfl := List.mem_singleton.mp hp
      exact hr' hpr.symm
  exact congrArg (Writer.mk · .idle) hnone

end SampleRun

open SampleRun in
/-- Appends of two rooms, one after the other, lose nothing. -/
theorem streamedOnce_sample :
    StreamedOnce (run writersStep (writersStart [message, elsewhere])
      (List.replicate 3 room ++ List.replicate 3 elsewhere.roomId)).shared
        [message, elsewhere] := by
  have hdone := writers_done (List.replicate 3 room ++ List.replicate 3 elsewhere.roomId)
    (by decide +kernel) (by decide +kernel)
  refine (streamedOnce_iff _ _ hdone).mpr ⟨?_, ?_, ?_⟩
  · unfold CountStands
    decide +kernel
  · decide +kernel
  · decide +kernel

open SampleRun in
/-- Two rooms count the stream before either writes, and the second append takes the position of the
first. -/
theorem interleaved_append_loses :
    ¬ ∀ (events : List Pdu) (schedule : List RoomId),
      (∀ room, (run writersStep (writersStart events) schedule).phase room = ⟨[], .idle⟩) →
        (∀ p ∈ events, sep ∉ p.roomId.asStr) → IdsDetermine events →
          StreamedOnce (run writersStep (writersStart events) schedule).shared events := by
  intro h
  have hdone := writers_done [room, elsewhere.roomId, room, elsewhere.roomId, room,
    elsewhere.roomId] (by decide +kernel) (by decide +kernel)
  have hlen := (h _ _ hdone (by decide +kernel) (by decide +kernel)).len
  revert hlen
  decide +kernel

end GaussMatrix.Svc
