import GaussMatrix.Library.Interleave
import GaussMatrix.Svc.Tip

/-!
# The linear DAG of a room

A call looks its transaction up before it takes the room's lock, and does the rest, from reading the
tip to its last write, under the lock.  Under every interleaving of such calls the timeline of a new
room grows at its end, one deeper at a time.
-/

namespace GaussMatrix.Svc

open Library Util Api Api.Events StateRes RoomService Fed

/-! ## Linear timelines -/

/-- The link of an event after `ps`, which itself is linked onto `prevEvents`. -/
def lastLink (prevEvents : List EventId) (ps : List Pdu) : List EventId :=
  match ps.getLast? with
  | some tip => [tip.eventId]
  | none => prevEvents

theorem lastLink_cons (prevEvents : List EventId) (p : Pdu) (ps : List Pdu) :
    lastLink prevEvents (p :: ps) = lastLink [p.eventId] ps := by
  rw [lastLink, lastLink, List.getLast?_cons]
  cases ps.getLast? with
  | none => rfl
  | some tip => rfl

@[simp] theorem lastLink_concat (prevEvents : List EventId) (ps : List Pdu) (p : Pdu) :
    lastLink prevEvents (ps ++ [p]) = [p.eventId] := by
  rw [lastLink, List.getLast?_concat]

theorem LinkedFrom.concat {depth : Nat} {prevEvents : List EventId} {ps : List Pdu} {q : Pdu}
    (h : LinkedFrom depth prevEvents ps) (hdepth : q.depth.toNat = depth + ps.length + 1)
    (hprev : q.prevEvents = lastLink prevEvents ps) :
    LinkedFrom depth prevEvents (ps ++ [q]) := by
  induction ps generalizing depth prevEvents with
  | nil => exact ⟨hdepth, hprev, trivial⟩
  | cons p ps ih =>
      obtain ⟨hp, hlink, hrest⟩ := h
      rw [lastLink_cons] at hprev
      rw [List.length_cons] at hdepth
      exact ⟨hp, hlink, ih hrest (by omega) hprev⟩

/-- The depth of the last event of a linked list. -/
theorem LinkedFrom.depth_getLast {depth : Nat} {prevEvents : List EventId} {ps : List Pdu}
    {tip : Pdu} (h : LinkedFrom depth prevEvents ps) (htip : ps.getLast? = some tip) :
    tip.depth.toNat = depth + ps.length := by
  induction ps generalizing depth prevEvents with
  | nil => simp at htip
  | cons p ps ih =>
      obtain ⟨hp, -, hrest⟩ := h
      rw [List.length_cons]
      cases hps : ps.getLast? with
      | none =>
          obtain rfl := List.getLast?_eq_none_iff.mp hps
          obtain rfl := Option.some.inj htip
          exact hp
      | some tip' =>
          rw [List.getLast?_cons, hps, Option.getD_some] at htip
          obtain rfl := Option.some.inj htip
          have hdepth := ih hrest hps
          omega

/-- The room's timeline is its own, is linked from depth zero, and is no longer than the stream. -/
structure Linear (room : RoomId) (s : Data) : Prop where
  keyed : Keyed s
  dense : Dense s
  own : OwnTimeline s room
  linked : LinkedFrom 0 [] (timeline s room)
  length_le : (timeline s room).length ≤ streamLen s

section

variable {env : Env} {room : RoomId} {s t : Data} {q : Pdu}

theorem RoomService.SameRooms.linear (h : SameRooms s t) (ht : Linear room t) : Linear room s where
  keyed := h.keyed ht.keyed
  dense := h.dense ht.dense
  own := h.ownTimeline ht.own
  linked := by
    rw [h.timeline]
    exact ht.linked
  length_le := by
    rw [h.timeline, h.streamLen]
    exact ht.length_le

/-- An event of the room that is one deeper than its timeline is long goes to its end. -/
theorem Linear.timeline_append (h : Linear room s) (hroom : q.roomId = room)
    (hdepth : q.depth.toNat = (timeline s room).length + 1) :
    timeline (append s q) room = timeline s room ++ [q] := by
  refine timeline_append_of_last h.keyed hroom fun tip htip => ?_
  have hlast := h.linked.depth_getLast htip
  have hown := h.own tip (List.mem_of_getLast? htip)
  exact timelineKey_lt_of_depth_lt (hown.trans hroom.symm) (by omega)

/-- A timeline stays linear when the event also names the last one before it. -/
theorem Linear.append (h : Linear room s) (hroom : q.roomId = room)
    (hdepth : q.depth.toNat = (timeline s room).length + 1)
    (hprev : q.prevEvents = lastLink [] (timeline s room)) : Linear room (append s q) where
  keyed := h.keyed.append q
  dense := h.dense.append q
  own := by
    intro p hp
    rw [h.timeline_append hroom hdepth, List.mem_append, List.mem_singleton] at hp
    rcases hp with hp | rfl
    · exact h.own p hp
    · exact hroom
  linked := by
    rw [h.timeline_append hroom hdepth]
    exact h.linked.concat (by omega) hprev
  length_le := by
    have hle := h.length_le
    rw [h.timeline_append hroom hdepth, streamLen_append h.dense, List.length_append,
      List.length_singleton]
    omega

/-- A list linked onto a linear timeline goes to its end. -/
theorem Linear.foldl_append {ps : List Pdu} (h : Linear room s) (hrooms : ∀ p ∈ ps, p.roomId = room)
    (hps : LinkedFrom (timeline s room).length (lastLink [] (timeline s room)) ps) :
    timeline (ps.foldl RoomService.append s) room = timeline s room ++ ps ∧
      Linear room (ps.foldl RoomService.append s) := by
  induction ps generalizing s with
  | nil => exact ⟨(List.append_nil _).symm, h⟩
  | cons p ps ih =>
      obtain ⟨hdepth, hprev, hrest⟩ := hps
      obtain ⟨hp, hrooms⟩ := List.forall_mem_cons.mp hrooms
      have htimeline := h.timeline_append hp hdepth
      obtain ⟨hend, hlinear⟩ := ih (h.append hp hdepth hprev) hrooms (by
        rw [htimeline, List.length_append, List.length_singleton, lastLink_concat]
        exact hrest)
      refine ⟨?_, hlinear⟩
      rw [List.foldl_cons, hend, htimeline, List.append_assoc]
      rfl

/-- The link after the tip of a linear timeline, below the greatest depth. -/
theorem Linear.tipLink (h : Linear room s) (hlen : streamLen s + 1 < 2 ^ 64) {depth : UInt64}
    {prevEvents : List EventId} (hlink : tipLink env s room = some (depth, prevEvents)) :
    depth.toNat = (timeline s room).length + 1 ∧ prevEvents = lastLink [] (timeline s room) := by
  have hle := h.length_le
  rw [Svc.tipLink] at hlink
  rw [lastLink]
  cases htip : (timeline s room).getLast? with
  | none =>
      rw [htip] at hlink
      obtain ⟨rfl, rfl⟩ := Prod.mk.inj (Option.some.inj hlink)
      rw [List.getLast?_eq_none_iff.mp htip]
      exact ⟨rfl, rfl⟩
  | some tip =>
      have hdepth := h.linked.depth_getLast htip
      simp only [htip, Option.map_eq_some_iff, Prod.mk.injEq] at hlink
      obtain ⟨depth, hnext, rfl, rfl⟩ := hlink
      rw [nextDepth, if_neg (by omega)] at hnext
      obtain rfl := Option.some.inj hnext
      rw [toNat_add_one _ (by omega)]
      exact ⟨by omega, rfl⟩

end

/-! ## Calls on one room -/

/-- A local call on a room, with its clock reading. -/
inductive LocalCall
  | changeMembership (actor target : UserId) (membership : Str) (now : UInt64)
  | sendMessage (sender : UserId) (eventType txnId content : Str) (now : UInt64)

/-- Where a call stands: before its first step, past a lookup that found no transaction, or back with
its result. -/
inductive CallPhase
  | start
  | unrecorded
  | returned (result : Option Str)
  deriving DecidableEq

/-- What `sendMessage` does under the room's lock. -/
def sendLocked (env : Env) (s : Data) (sender : UserId) (room : RoomId)
    (eventType txnId content : Str) (now : UInt64) : Option Str × Data :=
  match (messageEvent env s sender room eventType content now).bind (authorized env s) with
  | none => (none, s)
  | some p =>
      (some p.eventId.asStr,
        (append s p).put .transactions (txnKey sender txnId) (.text p.eventId.asStr))

/-- One atomic step of a call: the transaction lookup, or all that happens under the lock. -/
def callStep (env : Env) (room : RoomId) (call : LocalCall) (s : Data) (phase : CallPhase) :
    Data × CallPhase :=
  match phase, call with
  | .start, .changeMembership actor target membership now =>
      let r := changeMembership env s actor room target membership now
      (r.2, .returned r.1)
  | .start, .sendMessage sender _ txnId _ _ =>
      match s.get .transactions (txnKey sender txnId) with
      | some existing => (s, .returned existing.asText)
      | none => (s, .unrecorded)
  | .unrecorded, .sendMessage sender eventType txnId content now =>
      let r := sendLocked env s sender room eventType txnId content now
      (r.2, .returned r.1)
  | phase, _ => (s, phase)

/-- The event that a step of a call appends. -/
def lockedEvent (env : Env) (room : RoomId) (call : LocalCall) (s : Data) (phase : CallPhase) :
    Option Pdu :=
  match phase, call with
  | .start, .changeMembership actor target membership now =>
      (membershipEvent env s actor room target membership now).bind (authorized env s)
  | .unrecorded, .sendMessage sender eventType _ content now =>
      (messageEvent env s sender room eventType content now).bind (authorized env s)
  | _, _ => none

section

variable {env : Env} {room : RoomId} {call : LocalCall} {s : Data} {phase : CallPhase} {q : Pdu}

/-- A message call on its own is the two steps of `sendMessage`. -/
theorem callStep_sendMessage (sender : UserId) (eventType txnId content : Str) (now : UInt64) :
    let call := LocalCall.sendMessage sender eventType txnId content now
    let lookup := callStep env room call s .start
    let result := sendMessage env s sender room eventType txnId content now
    callStep env room call lookup.1 lookup.2 = (result.2, .returned result.1) := by
  simp only [callStep, sendMessage]
  cases s.get .transactions (txnKey sender txnId) with
  | some existing => rfl
  | none => rfl

/-- The event of a step is one of the room, linked onto its tip. -/
theorem lockedEvent_link (h : lockedEvent env room call s phase = some q) :
    q.roomId = room ∧ tipLink env s room = some (q.depth, q.prevEvents) := by
  unfold lockedEvent at h
  split at h
  · obtain ⟨p, hp, hauth⟩ := Option.bind_eq_some_iff.mp h
    obtain ⟨rfl, -⟩ := authorized_eq_some_iff.mp hauth
    exact ⟨(membershipEvent_fields hp).1, membershipEvent_link hp⟩
  · obtain ⟨p, hp, hauth⟩ := Option.bind_eq_some_iff.mp h
    obtain ⟨rfl, -⟩ := authorized_eq_some_iff.mp hauth
    exact ⟨(messageEvent_fields hp).1, messageEvent_link hp⟩
  · exact nomatch h

/-- A step with an event appends it and returns its id. -/
theorem callStep_of_event (h : lockedEvent env room call s phase = some q) :
    SameRooms (callStep env room call s phase).1 (append s q) ∧
      (callStep env room call s phase).2 = .returned (some q.eventId.asStr) := by
  unfold lockedEvent at h
  split at h
  · simp only [callStep, changeMembership, h]
    exact ⟨.refl _, trivial⟩
  · simp only [callStep, sendLocked, h]
    exact ⟨SameRooms.put .transactions (by decide) _ _ _, trivial⟩
  · cases h

/-- A step without an event changes nothing. -/
theorem callStep_of_no_event (h : lockedEvent env room call s phase = none) :
    (callStep env room call s phase).1 = s := by
  unfold lockedEvent at h
  unfold callStep
  split
  · simp only [changeMembership, h]
  · split
    · rfl
    · rfl
  · simp only [sendLocked, h]
  · rfl

variable (env room call phase) in
/-- A step never shortens the stream, and adds one entry for its event. -/
theorem streamLen_callStep (h : Dense s) :
    Dense (callStep env room call s phase).1 ∧
      streamLen (callStep env room call s phase).1 =
        streamLen s + (lockedEvent env room call s phase).toList.length := by
  cases hevent : lockedEvent env room call s phase with
  | none =>
      rw [callStep_of_no_event hevent]
      exact ⟨h, rfl⟩
  | some q =>
      obtain ⟨hsame, -⟩ := callStep_of_event hevent
      rw [hsame.streamLen, streamLen_append h]
      exact ⟨hsame.dense (h.append q), rfl⟩

/-- A step puts its event at the end of a linear timeline. -/
theorem Linear.callStep (h : Linear room s)
    (hlen : streamLen (callStep env room call s phase).1 < 2 ^ 64) :
    timeline (callStep env room call s phase).1 room =
        timeline s room ++ (lockedEvent env room call s phase).toList ∧
      Linear room (callStep env room call s phase).1 := by
  have hstream := (streamLen_callStep env room call phase h.dense).2
  cases hevent : lockedEvent env room call s phase with
  | none =>
      rw [callStep_of_no_event hevent]
      exact ⟨(List.append_nil _).symm, h⟩
  | some q =>
      obtain ⟨hsame, -⟩ := callStep_of_event hevent
      obtain ⟨hroom, hlink⟩ := lockedEvent_link hevent
      rw [hstream, hevent] at hlen
      obtain ⟨hdepth, hprev⟩ := h.tipLink hlen hlink
      rw [hsame.timeline, h.timeline_append hroom hdepth]
      exact ⟨rfl, hsame.linear (h.append hroom hdepth hprev)⟩

end

/-! ## Interleavings -/

section

variable {ι : Type} [DecidableEq ι] {env : Env} {room : RoomId} {calls : ι → LocalCall}
  {c : Threads ι Data CallPhase} {schedule : List ι}

/-- One step of one of the calls. -/
def callsStep (env : Env) (room : RoomId) (calls : ι → LocalCall) :
    Threads ι Data CallPhase → ι → Threads ι Data CallPhase :=
  Threads.step fun i => callStep env room (calls i)

/-- The calls before their first steps. -/
def callsStart (s : Data) : Threads ι Data CallPhase := ⟨s, fun _ => .start⟩

/-- The events that the steps of a schedule append, in order. -/
def lockedEvents (env : Env) (room : RoomId) (calls : ι → LocalCall)
    (c : Threads ι Data CallPhase) (schedule : List ι) : List Pdu :=
  (trace (callsStep env room calls) c schedule).flatMap fun x =>
    (lockedEvent env room (calls x.2) x.1.shared (x.1.phase x.2)).toList

theorem lockedEvents_cons (i : ι) :
    lockedEvents env room calls c (i :: schedule) =
      (lockedEvent env room (calls i) c.shared (c.phase i)).toList ++
        lockedEvents env room calls (callsStep env room calls c i) schedule :=
  List.flatMap_cons

variable (env room calls schedule) in
theorem streamLen_le_run (h : Dense c.shared) :
    streamLen c.shared ≤ streamLen (run (callsStep env room calls) c schedule).shared := by
  induction schedule generalizing c with
  | nil => exact le_rfl
  | cons i schedule ih =>
      obtain ⟨hdense, hlen⟩ := streamLen_callStep env room (calls i) (c.phase i) h
      have hstep : streamLen c.shared ≤ streamLen (callsStep env room calls c i).shared := by
        rw [callsStep, Threads.step_shared, hlen]
        omega
      exact hstep.trans (ih hdense)

/-- Over a schedule a linear timeline grows by the events of its steps. -/
theorem Linear.run (h : Linear room c.shared)
    (hlen : streamLen (run (callsStep env room calls) c schedule).shared < 2 ^ 64) :
    timeline (Library.run (callsStep env room calls) c schedule).shared room =
        timeline c.shared room ++ lockedEvents env room calls c schedule ∧
      Linear room (Library.run (callsStep env room calls) c schedule).shared := by
  induction schedule generalizing c with
  | nil => exact ⟨(List.append_nil _).symm, h⟩
  | cons i schedule ih =>
      have hdense := (streamLen_callStep env room (calls i) (c.phase i) h.dense).1
      have hle : streamLen (callsStep env room calls c i).shared ≤
          streamLen (Library.run (callsStep env room calls) c (i :: schedule)).shared :=
        streamLen_le_run env room calls schedule hdense
      have hnext : timeline (callsStep env room calls c i).shared room =
            timeline c.shared room ++
              (lockedEvent env room (calls i) c.shared (c.phase i)).toList ∧
          Linear room (callsStep env room calls c i).shared :=
        h.callStep (hle.trans_lt hlen)
      obtain ⟨hend, hlast⟩ := ih hnext.2 hlen
      refine ⟨?_, hlast⟩
      rw [run_cons, hend, hnext.1, lockedEvents_cons, List.append_assoc]

/-- A refused call changed nothing in any of its steps. -/
theorem shared_eq_of_refused {x : Threads ι Data CallPhase × ι}
    (hx : x ∈ trace (callsStep env room calls) c schedule)
    (hrefused : (run (callsStep env room calls) c schedule).phase x.2 = .returned none) :
    (callsStep env room calls x.1 x.2).shared = x.1.shared := by
  cases hevent : lockedEvent env room (calls x.2) x.1.shared (x.1.phase x.2) with
  | none => exact callStep_of_no_event hevent
  | some q =>
      -- a call that appended has returned the id, and keeps that result
      obtain ⟨before, after, rfl, hbefore⟩ := exists_prefix_of_mem_trace hx
      have hreturned : (callsStep env room calls x.1 x.2).phase x.2 =
          .returned (some q.eventId.asStr) := by
        rw [callsStep, Threads.step_phase_self]
        exact (callStep_of_event hevent).2
      have hend : (run (callsStep env room calls) (callsStep env room calls x.1 x.2) after).phase
          x.2 = .returned (some q.eventId.asStr) :=
        Threads.phase_run_of_stays (fun _ => rfl) hreturned after
      rw [run_append, run_cons, ← hbefore] at hrefused
      exact absurd (hend.symm.trans hrefused) (by simp)

end

/-- From the creation of a fresh room on, every interleaving of local calls on it extends its timeline
at the end: the initial events, then the events of the calls in the order of their appends, with
depths from one up and each linked to the one before.  A refused call changes nothing. -/
theorem local_calls_linear {ι : Type} [DecidableEq ι] (env : Env) (s : Data)
    (hs : Reachable env s) (creator : UserId) (name topic : Option Str) (now : Nat → UInt64)
    (room : RoomId) (hmade : (createRoom env s creator name topic now).1 = some room)
    (hfresh : timeline s room = []) (calls : ι → LocalCall) (schedule : List ι) :
    let start := callsStart (createRoom env s creator name topic now).2
    let final := run (callsStep env room calls) start schedule
    streamLen final.shared < 2 ^ 64 →
      timeline final.shared room = createdEvents env s creator name topic now ++
        lockedEvents env room calls start schedule ∧
      LinkedFrom 0 [] (timeline final.shared room) ∧
      ∀ x ∈ trace (callsStep env room calls) start schedule,
        final.phase x.2 = .returned none → (callsStep env room calls x.1 x.2).shared = x.1.shared := by
  intro start final hlen
  have hempty : Linear room s := by
    refine ⟨hs.keyed, hs.dense, ?_, ?_, ?_⟩
    · intro p hp
      rw [hfresh] at hp
      exact absurd hp (by simp)
    · rw [hfresh]
      trivial
    · rw [hfresh]
      exact Nat.zero_le _
  have hcreated : timeline start.shared room = createdEvents env s creator name topic now ∧
      Linear room start.shared := by
    have hrooms : ∀ p ∈ createdEvents env s creator name topic now, p.roomId = room :=
      fun p hp => roomId_of_mem_createdEvents (mintRoomId_of_createRoom hmade) hp
    have hfold := hempty.foldl_append hrooms (by rw [hfresh]; exact linkedFrom_createdEvents)
    rw [hfresh, ← createRoom_data] at hfold
    exact hfold
  obtain ⟨hend, hlinear⟩ := hcreated.2.run hlen
  rw [hcreated.1] at hend
  exact ⟨hend, hlinear.linked, fun x hx hrefused => shared_eq_of_refused hx hrefused⟩

namespace SampleRun

/-- Two messages of alice under one transaction id, and a join of bob, which nothing allows. -/
def threeCalls : Fin 3 → LocalCall
  | 0 => .sendMessage alice "m.room.message" "1" (singleField "body" "x") 0
  | 1 => .sendMessage alice "m.room.message" "1" (singleField "body" "y") 0
  | 2 => .changeMembership bob bob "join" 0

/-- The three calls before their first steps, in a new room. -/
def threeStart : Threads (Fin 3) Data CallPhase :=
  callsStart (createRoom shortEnv Store.empty alice none none fun _ => 0).2

end SampleRun

open SampleRun in
/-- Two messages that both found no transaction are appended, and a join between them is refused. -/
theorem local_calls_linear_sample :
    timeline (run (callsStep shortEnv mintedRoom threeCalls) threeStart [0, 1, 2, 0, 1]).shared
        mintedRoom =
      createdEvents shortEnv Store.empty alice none none (fun _ => 0) ++
        lockedEvents shortEnv mintedRoom threeCalls threeStart [0, 1, 2, 0, 1] := by
  have hmade : (createRoom shortEnv Store.empty alice none none fun _ => 0).1 = some mintedRoom := by
    decide +kernel
  have hlen : streamLen
      (run (callsStep shortEnv mintedRoom threeCalls) threeStart [0, 1, 2, 0, 1]).shared = 5 := by
    decide +kernel
  have hlt : streamLen (run (callsStep shortEnv mintedRoom threeCalls) threeStart
      [0, 1, 2, 0, 1]).shared < 2 ^ 64 := by
    rw [hlen]
    decide
  exact (local_calls_linear shortEnv Store.empty ⟨[], rfl⟩ alice none none (fun _ => 0)
    mintedRoom hmade rfl threeCalls [0, 1, 2, 0, 1] hlt).1

end GaussMatrix.Svc
