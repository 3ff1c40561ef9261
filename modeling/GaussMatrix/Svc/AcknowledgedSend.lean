import GaussMatrix.Svc.History

/-!
# Acknowledged sends

The reply to a send is the id of the event it appended, or the one that an earlier send of the same
user under the same transaction id got.  The table of transactions does not know rooms, so the earlier
send may have gone to another one.
-/

namespace GaussMatrix.Svc

open Library Util Api Api.Events StateRes RoomService Fed

section

variable {env : Env} {s : Data}

/-! ## The table of transactions -/

theorem receiveTransaction_transactions (txn : Json) :
    (receiveTransaction env s txn).2 .transactions = s .transactions := by
  have hedus : ∀ (edus : List Edu) (s : Data),
      edus.foldl receiveEdu s .transactions = s .transactions := by
    intro edus
    induction edus with
    | nil => exact fun _ => rfl
    | cons edu edus ih =>
        intro s
        rw [List.foldl_cons, ih, receiveEdu_of_ne (by decide)]
  show (transactionEdus txn).foldl receiveEdu _ .transactions = _
  rw [hedus, run_receivePdu_data, foldl_append_of_ne (by decide)]
  rfl

/-- What a send does: it replies from the table, refuses, or appends an event and records its id. -/
theorem sendMessage_cases (env : Env) (s : Data) (sender : UserId) (room : RoomId)
    (eventType txnId content : Str) (now : UInt64) :
    (∃ existing, s.get .transactions (txnKey sender txnId) = some existing ∧
      sendMessage env s sender room eventType txnId content now = (existing.asText, s)) ∨
    s.get .transactions (txnKey sender txnId) = none ∧
      (sendMessage env s sender room eventType txnId content now = (none, s) ∨
        ∃ p, messageEvent env s sender room eventType content now = some p ∧
          sendMessage env s sender room eventType txnId content now =
            (some p.eventId.asStr,
              (append s p).put .transactions (txnKey sender txnId) (.text p.eventId.asStr))) := by
  unfold sendMessage
  cases hrecord : s.get .transactions (txnKey sender txnId) with
  | some existing => exact .inl ⟨existing, rfl, rfl⟩
  | none =>
      apply Or.inr
      apply And.intro rfl
      cases hevent : (messageEvent env s sender room eventType content now).bind
          (authorized env s) with
      | none => exact .inl rfl
      | some p =>
          obtain ⟨q, hq, hauth⟩ := Option.bind_eq_some_iff.mp hevent
          obtain ⟨rfl, -⟩ := authorized_eq_some_iff.mp hauth
          exact .inr ⟨_, hq, rfl⟩

/-- The operation is a send whose reply is recorded under the key. -/
def RecordsReply (env : Env) (s : Data) (key id : Str) (op : Op) : Prop :=
  ∃ sender room eventType txnId content now,
    op = .sendMessage sender room eventType txnId content now ∧ txnKey sender txnId = key ∧
      (sendMessage env s sender room eventType txnId content now).1 = some id

/-- A new record of the table is the reply of the send that wrote it. -/
theorem recordsReply_of_step {key : Str} {record : Record} {op : Op}
    (hbefore : s.get .transactions key ≠ some record)
    (hafter : (step env s op).get .transactions key = some record) :
    ∃ id, record = .text id ∧ RecordsReply env s key id op := by
  have hunchanged : (step env s op) .transactions ≠ s .transactions := by
    intro h
    rw [Store.get, h] at hafter
    exact hbefore hafter
  cases op with
  | createRoom creator name topic now =>
      exact absurd (createRoom_of_ne (by decide) env s creator name topic now) hunchanged
  | changeMembership actor room target membership now =>
      have hframe : (changeMembership env s actor room target membership now).2 .transactions =
          s .transactions := by
        rw [changeMembership]
        split
        · rfl
        · rename_i p _
          have hnot : Cf.transactions ≠ .events ∧ Cf.transactions ≠ .roomState ∧
              Cf.transactions ≠ .eventStream := by decide
          exact append_of_ne hnot s p
      exact absurd hframe hunchanged
  | receiveTransaction txn => exact absurd (receiveTransaction_transactions txn) hunchanged
  | sendMessage sender room eventType txnId content now =>
      rcases sendMessage_cases env s sender room eventType txnId content now with
        ⟨existing, -, hcall⟩ | ⟨-, hcall | ⟨p, -, hcall⟩⟩
      · exact absurd (by rw [step, hcall]) hunchanged
      · exact absurd (by rw [step, hcall]) hunchanged
      · rw [step, hcall, Store.get_put] at hafter
        by_cases hkey : key = txnKey sender txnId
        · rw [if_pos hkey] at hafter
          exact ⟨_, (Option.some.inj hafter).symm, sender, room, eventType, txnId, content, now, rfl,
            hkey.symm, by rw [hcall]⟩
        · have hframe : append s p .transactions = s .transactions := append_of_ne (by decide) s p
          rw [if_neg hkey, Store.get, hframe] at hafter
          exact absurd hafter hbefore

/-- Every record of the table after a run is the reply of a send of the run. -/
theorem recordsReply_of_get {ops : List Op} {key : Str} {record : Record}
    (h : (run (step env) Store.empty ops).get .transactions key = some record) :
    ∃ id, record = .text id ∧ ∃ x ∈ trace (step env) Store.empty ops, RecordsReply env x.1 key id x.2 := by
  by_contra hno
  push Not at hno
  -- no step of the run writes the record, so it is never in the table
  have hkeep : ∀ x ∈ trace (step env) Store.empty ops, x.1.get .transactions key ≠ some record →
      (step env x.1 x.2).get .transactions key ≠ some record := by
    intro x hx hbefore hafter
    obtain ⟨id, rfl, hreply⟩ := recordsReply_of_step hbefore hafter
    exact hno id rfl x hx hreply
  have hempty : (Store.empty : Data).get .transactions key ≠ some record := nofun
  exact (holds_along_trace (P := fun t : Data => t.get .transactions key ≠ some record) hempty
    hkeep).2 h

/-- A send that appends an event puts it in the timeline of its room. -/
theorem mem_timeline_of_messageEvent (hs : Keyed s) {sender : UserId} {room : RoomId}
    {eventType content : Str} {now : UInt64} {p : Pdu}
    (h : messageEvent env s sender room eventType content now = some p) (key : Str) (record : Record) :
    p ∈ timeline ((append s p).put .transactions key record) room := by
  have hsame : SameRooms ((append s p).put .transactions key record) (append s p) :=
    .put .transactions (by decide) _ key record
  rw [hsame.timeline, mem_timeline_append hs]
  have hroom : p.roomId = room := (messageEvent_fields h).1
  constructor
  · exact .inl rfl
  · rw [startsWith_iff, ← hroom]
    exact ⟨_, by rw [timelineKey, roomPrefix, List.append_assoc]; rfl⟩

end

/-! ## Acknowledged sends -/

/-- A send comes from a user whose id has no separator. -/
def PlainSender : Op → Prop
  | .sendMessage sender _ _ _ _ _ => sep ∉ sender.asStr
  | _ => True

/-- After an acknowledged send the event is in the timeline of its room, with the sender, the type and
the content sent, unless the reply is that of an earlier send of the run by the same user under the
same transaction id. -/
theorem acknowledged_send_in_timeline (env : Env) (ops : List Op) (sender : UserId) (room : RoomId)
    (eventType txnId content : Str) (now : UInt64) (id : Str) (hops : ∀ op ∈ ops, PlainSender op)
    (hsender : sep ∉ sender.asStr)
    (hid : (sendMessage env (run (step env) Store.empty ops) sender room eventType txnId content
      now).1 = some id) :
    (∃ p ∈ timeline (sendMessage env (run (step env) Store.empty ops) sender room eventType txnId
        content now).2 room,
      p.eventId.asStr = id ∧ p.sender = sender ∧ p.kind = eventType ∧ p.contentJson = content) ∨
    ∃ t room' eventType' content' now',
      (t, .sendMessage sender room' eventType' txnId content' now') ∈
        trace (step env) Store.empty ops ∧
      (sendMessage env t sender room' eventType' txnId content' now').1 = some id := by
  rcases sendMessage_cases env (run (step env) Store.empty ops) sender room eventType txnId content now
    with ⟨existing, hrecord, hcall⟩ | ⟨-, hcall | ⟨p, hevent, hcall⟩⟩
  · -- the reply comes from the table
    apply Or.inr
    rw [hcall] at hid
    obtain ⟨id', rfl, ⟨t, op⟩, hmem, sender', room', eventType', txnId', content', now', rfl, hkey,
      hreply⟩ := recordsReply_of_get hrecord
    obtain rfl : id' = id := Option.some.inj hid
    have hplain : sep ∉ sender'.asStr := hops _ (mem_of_mem_trace hmem)
    obtain ⟨hname, rfl⟩ := append_sep_inj hplain hsender hkey
    obtain rfl : sender' = sender := UserId.ext hname
    exact ⟨t, room', eventType', content', now', hmem, hreply⟩
  · rw [hcall] at hid
    cases hid
  · -- the event is new
    apply Or.inl
    rw [hcall] at hid ⊢
    obtain rfl : p.eventId.asStr = id := Option.some.inj hid
    have hkeyed : Keyed (run (step env) Store.empty ops) := Reachable.keyed ⟨ops, rfl⟩
    obtain ⟨-, hsender, hkind, -⟩ := messageEvent_fields hevent
    exact ⟨p, mem_timeline_of_messageEvent hkeyed hevent _ _, rfl, hsender, hkind,
      messageEvent_contentJson hevent⟩

namespace SampleSendTwice

open SampleRun

/-- The room that the server mints second. -/
def secondRoom : RoomId := ⟨"!0000000000000003:x", by decide⟩

def twoRooms : List Op :=
  [.createRoom alice none none fun _ => 0, .createRoom alice none none fun _ => 0]

def send (room : RoomId) : Op := .sendMessage alice room "m.room.message" "1" "\x7b\x7d" 0

/-- The same call after a run. -/
abbrev sendAfter (ops : List Op) (room : RoomId) : Option Str × Data :=
  sendMessage shortEnv (run (step shortEnv) Store.empty ops) alice room "m.room.message" "1"
    "\x7b\x7d" 0

end SampleSendTwice

open SampleRun SampleSendTwice in
/-- The message that Alice sends into the first of her rooms is there. -/
theorem acknowledged_send_sample :
    ∃ id, ∃ p ∈ timeline (sendAfter twoRooms mintedRoom).2 mintedRoom, p.eventId.asStr = id := by
  have hsome : (sendAfter twoRooms mintedRoom).1.isSome := by decide +kernel
  obtain ⟨id, hid⟩ := Option.isSome_iff_exists.mp hsome
  have hplain : ∀ op ∈ twoRooms, PlainSender op := by simp [twoRooms, PlainSender]
  rcases acknowledged_send_in_timeline shortEnv twoRooms alice mintedRoom _ _ _ 0 id hplain
    (by decide) hid with ⟨p, hp, hpid, -⟩ | ⟨t, room', eventType', content', now', hmem, -⟩
  · exact ⟨id, p, hp, hpid⟩
  · have hop := mem_of_mem_trace hmem
    simp [twoRooms] at hop

open SampleRun SampleSendTwice in
/-- Alice sends into her second room under the transaction id that she used in the first: she gets the
id of the event in the first room, and nothing is appended to the second. -/
theorem repeated_transaction_not_in_room :
    ¬ ∀ (env : Env) (ops : List Op) (sender : UserId) (room : RoomId)
        (eventType txnId content : Str) (now : UInt64) (id : Str),
      (∀ op ∈ ops, PlainSender op) → sep ∉ sender.asStr → sep ∉ room.asStr → sep ∉ txnId →
      (sendMessage env (run (step env) Store.empty ops) sender room eventType txnId content now).1 =
        some id →
      (∃ p ∈ timeline (sendMessage env (run (step env) Store.empty ops) sender room eventType txnId
          content now).2 room,
        p.eventId.asStr = id ∧ p.sender = sender ∧ p.kind = eventType ∧ p.contentJson = content) ∨
      ∃ t eventType' content' now',
        (t, .sendMessage sender room eventType' txnId content' now') ∈
          trace (step env) Store.empty ops ∧
        (sendMessage env t sender room eventType' txnId content' now').1.isSome := by
  intro h
  have hplain : ∀ op ∈ twoRooms ++ [send mintedRoom], PlainSender op := by
    have halice : sep ∉ alice.asStr := by decide
    simp [twoRooms, send, PlainSender, halice]
  have hsome : (sendAfter (twoRooms ++ [send mintedRoom]) secondRoom).1.isSome := by
    decide +kernel
  obtain ⟨id, hid⟩ := Option.isSome_iff_exists.mp hsome
  have hnone : ∀ p ∈ timeline (sendAfter (twoRooms ++ [send mintedRoom]) secondRoom).2 secondRoom,
      p.kind ≠ "m.room.message".toList := by
    decide +kernel
  have hcases := h shortEnv (twoRooms ++ [send mintedRoom]) alice secondRoom "m.room.message".toList
    "1".toList "\x7b\x7d".toList 0 id hplain (by decide) (by decide) (by decide) hid
  cases hcases with
  | inl hthere =>
      obtain ⟨p, hp, -, -, hkind, -⟩ := hthere
      exact hnone p hp hkind
  | inr hearlier =>
      obtain ⟨t, eventType', content', now', hmem, _⟩ := hearlier
      have hop : Op.sendMessage alice secondRoom eventType' "1".toList content' now' ∈
          twoRooms ++ [send mintedRoom] := mem_of_mem_trace hmem
      have hother : secondRoom ≠ mintedRoom := by decide
      simp [twoRooms, send, hother] at hop

end GaussMatrix.Svc
