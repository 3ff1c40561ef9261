import GaussMatrix.Fed.Delivery
import GaussMatrix.Http.Ingress
import GaussMatrix.Svc.IncrementalSync

/-!
# Sending an event, and delivering it

The handler of a send parses the body on its own, and takes it when it is an object.  Inside a
transaction the same content stands three levels deeper, its numbers are written back from doubles,
and the depth of the event passes through one.
-/

namespace GaussMatrix.Http

open Library Util Api StateRes Svc Fed RoomService

namespace MatrixError

def forbidden (error : String) : MatrixError := new "M_FORBIDDEN" error

end MatrixError

/-! ## The handler -/

def eventIdBody (eventId : Str) : Str := (Json.object [("event_id".toList, .string eventId)]).write

/-- Send a message event for the authenticated user. -/
def serveSend (env : Env) (s : Data) (m : RouteMatch) (user : Option UserId) (body : Option Str)
    (now : UInt64) : Response × Data :=
  match user with
  | none => (.error 401 (.unknownToken "unrecognized access token"), s)
  | some sender =>
      match m.param "roomId", m.param "eventType", m.param "txnId" with
      | some roomId, some eventType, some txnId =>
          match RoomId.parse roomId with
          | none => (.error 400 (.new "M_INVALID_PARAM" "invalid room id"), s)
          | some room =>
              match Json.parse (body.getD []) with
              | .ok (.object _) =>
                  match sendMessage env s sender room eventType txnId (body.getD []) now with
                  | (some eventId, s') => (.jsonOk (eventIdBody eventId), s')
                  | (none, s') =>
                      (.error 403 (.forbidden "not permitted to send in this room"), s')
              | .ok _ => (.error 400 (.new "M_BAD_JSON" "content must be an object"), s)
              | .error _ => (.error 400 (.new "M_NOT_JSON" "content is not JSON"), s)
      | _, _, _ => (missingParameter, s)

/-- The event that a send appends: its body is an object, its transaction id is new, and the auth
rules accept the event. -/
def sentEvent (env : Env) (s : Data) (m : RouteMatch) (user : Option UserId) (body : Option Str)
    (now : UInt64) : Option Pdu := do
  let sender ← user
  let roomId ← m.param "roomId"
  let eventType ← m.param "eventType"
  let txnId ← m.param "txnId"
  let room ← RoomId.parse roomId
  let _ ← (Json.parse (body.getD [])).toOption.bind Json.asObject
  if s.get .transactions (txnKey sender txnId) = none then
    (messageEvent env s sender room eventType (body.getD []) now).bind (authorized env s)
  else none

/-- Some call of the handler accepted the event and appended it. -/
def Sent (env : Env) (p : Pdu) : Prop := ∃ s m user body now, sentEvent env s m user body now = some p

section

variable {env : Env} {s : Data} {m : RouteMatch} {user : Option UserId} {body : Option Str}
  {now : UInt64}

/-- What is behind an event sent. -/
theorem sentEvent_cases {p : Pdu} (h : sentEvent env s m user body now = some p) :
    ∃ sender roomId eventType txnId room fields, user = some sender ∧
      m.param "roomId" = some roomId ∧ m.param "eventType" = some eventType ∧
      m.param "txnId" = some txnId ∧ RoomId.parse roomId = some room ∧
      Json.parse (body.getD []) = .ok (.object fields) ∧
      s.get .transactions (txnKey sender txnId) = none ∧
      (messageEvent env s sender room eventType (body.getD []) now).bind (authorized env s) =
        some p := by
  rw [sentEvent] at h
  simp only [Option.bind_eq_bind, Option.bind_eq_some_iff] at h
  obtain ⟨sender, hsender, roomId, hroomId, eventType, htype, txnId, htxn, room, hroom, fields,
    ⟨value, hvalue, hfields⟩, hsend⟩ := h
  have hparse : Json.parse (body.getD []) = .ok (.object fields) := by
    have hobj : value = .object fields := by
      cases value <;> cases hfields
      rfl
    rw [← hobj]
    generalize Json.parse (body.getD []) = parsed at *
    cases parsed with
    | error err => cases hvalue
    | ok v => exact congrArg Except.ok (Option.some.inj hvalue)
  split at hsend
  · rename_i hnew
    exact ⟨sender, roomId, eventType, txnId, room, fields, hsender, hroomId, htype, htxn, hroom,
      hparse, hnew, hsend⟩
  · cases hsend

/-- A send that appends an event answers with its id, and records the transaction. -/
theorem serveSend_of_event {p : Pdu} (h : sentEvent env s m user body now = some p) :
    ∃ sender txnId, user = some sender ∧ m.param "txnId" = some txnId ∧
      serveSend env s m user body now = (.jsonOk (eventIdBody p.eventId.asStr),
        (append s p).put .transactions (txnKey sender txnId) (.text p.eventId.asStr)) := by
  obtain ⟨sender, roomId, eventType, txnId, room, fields, hsender, hroomId, htype, htxn, hroom,
    hparse, hnew, hsend⟩ := sentEvent_cases h
  have hcall : sendMessage env s sender room eventType txnId (body.getD []) now =
      (some p.eventId.asStr,
        (append s p).put .transactions (txnKey sender txnId) (.text p.eventId.asStr)) := by
    simp only [sendMessage, hnew, hsend]
  have hanswer : serveSend env s m user body now = (.jsonOk (eventIdBody p.eventId.asStr),
      (append s p).put .transactions (txnKey sender txnId) (.text p.eventId.asStr)) := by
    simp only [serveSend, hsender, hroomId, htype, htxn, hroom, hparse, hcall]
  exact ⟨sender, txnId, hsender, htxn, hanswer⟩

/-- A send that appends no event leaves the data as they were. -/
theorem serveSend_of_no_event (h : sentEvent env s m user body now = none) :
    (serveSend env s m user body now).2 = s := by
  rw [sentEvent] at h
  unfold serveSend
  split
  · rfl
  · rename_i sender
    split
    · rename_i roomId eventType txnId hroomId htype htxn
      split
      · rfl
      · rename_i room hroom
        split
        · rename_i fields hparse
          have hcall : (sendMessage env s sender room eventType txnId (body.getD []) now).2 = s := by
            rw [hroomId, htype, htxn] at h
            simp only [Option.bind_eq_bind, Option.bind_some, hroom, hparse, Except.toOption,
              Json.asObject] at h
            rw [sendMessage]
            split
            · rfl
            · rename_i hnew
              rw [if_pos hnew] at h
              rw [h]
          split
          · rename_i heq
            rw [heq] at hcall
            exact hcall
          · rename_i heq
            rw [heq] at hcall
            exact hcall
        · rfl
        · rfl
    · rfl

/-- An event sent carries the body, and the body parses. -/
theorem parse_of_sentEvent {p : Pdu} (h : sentEvent env s m user body now = some p) :
    p.contentJson = body.getD [] ∧ ∃ fields, Json.parse p.contentJson = .ok (.object fields) := by
  obtain ⟨sender, roomId, eventType, txnId, room, fields, hsender, hroomId, htype, htxn, hroom,
    hparse, hnew, hsend⟩ := sentEvent_cases h
  have hcontent : p.contentJson = body.getD [] := by
    obtain ⟨q, hq, hauth⟩ := Option.bind_eq_some_iff.mp hsend
    have hpq : q = p := by
      rw [authorized] at hauth
      split at hauth
      · exact Option.some.inj hauth
      · cases hauth
    rw [← hpq]
    exact messageEvent_contentJson hq
  rw [hcontent]
  exact ⟨rfl, fields, hparse⟩

end

/-! ## Delivery -/

/-- The content of an event fits inside a transaction, its numbers are finite, and a double holds
its depth. -/
def Deliverable (p : Pdu) : Prop :=
  (embedded p.contentJson).nesting ≤ deepestContent ∧ (embedded p.contentJson).Finite ∧
    (F64.Representable (p.depth.toNat * F64.unitsPerOne) ∨ p.depth.toNat = 2 ^ 64 - 1)

/-- An event sent is the same on the other side of a transaction it fits in exactly when it is
deliverable. -/
theorem sameEvent_iff_of_sent {env : Env} {p : Pdu} (hsent : Sent env p)
    (hfits : (embedded p.contentJson).nesting ≤ deepestContent) :
    SameEvent p (deliveredPdu p) ↔ Deliverable p := by
  obtain ⟨s, m, user, body, now, hevent⟩ := hsent
  obtain ⟨-, fields, hparse⟩ := parse_of_sentEvent hevent
  have hembedded : embedded p.contentJson = .object fields := by
    rw [embedded, hparse]
    rfl
  rw [sameEvent_delivered_iff hparse, Deliverable, and_iff_right hfits, hembedded]
  exact and_comm

/-- A transaction of events sent is read with every event the same exactly when each is deliverable
and the content of each ephemeral unit fits. -/
theorem sent_events_delivered_iff (env : Env) (t : Transaction) (hsent : ∀ p ∈ t.pdus, Sent env p) :
    (∃ t', receiveText (t.toJson env.sha256).write = some t' ∧
        List.Forall₂ SameEvent t.pdus t'.pdus) ↔
      (∀ p ∈ t.pdus, Deliverable p) ∧
        ∀ e ∈ t.edus, (embedded e.contentJson).nesting ≤ deepestContent := by
  have hsame : List.Forall₂ SameEvent t.pdus (delivered t).pdus ↔
      ∀ p ∈ t.pdus, SameEvent p (deliveredPdu p) := by
    show List.Forall₂ SameEvent t.pdus (t.pdus.map deliveredPdu) ↔ _
    rw [List.forall₂_map_right_iff, List.forall₂_same]
  constructor
  · intro ⟨t', hread, hall⟩
    obtain ⟨⟨hpdus, hedus⟩, rfl⟩ := receiveText_eq_some_iff.mp hread
    have hall := hsame.mp hall
    exact ⟨fun p hp => (sameEvent_iff_of_sent (hsent p hp) (hpdus p hp)).mp (hall p hp), hedus⟩
  · intro ⟨hpdus, hedus⟩
    have hfits : ∀ p ∈ t.pdus, (embedded p.contentJson).nesting ≤ deepestContent := by
      intro p hp
      exact (hpdus p hp).1
    have hread : receiveText (t.toJson env.sha256).write = some (delivered t) :=
      receiveText_eq_some_iff.mpr ⟨⟨hfits, hedus⟩, rfl⟩
    have hall : List.Forall₂ SameEvent t.pdus (delivered t).pdus := by
      apply hsame.mpr
      intro p hp
      exact (sameEvent_iff_of_sent (hsent p hp) (hfits p hp)).mpr (hpdus p hp)
    exact ⟨delivered t, hread, hall⟩

namespace SampleSends

open Svc.SampleRun

/-- Alice has created a room. -/
def alicesRoom : Data := run (step summingEnv) Store.empty [.createRoom alice none none fun _ => 0]

/-- The parameters of a send into it. -/
def sendMatch : RouteMatch where
  endpoint := .cs .put "/_matrix/client/v3/rooms/{roomId}/send/{eventType}/{txnId}".toList
  params := SortedMap.empty.insertAll
    [("roomId".toList, mintedRoom.asStr), ("eventType".toList, "m.room.message".toList),
      ("txnId".toList, "1".toList)]

def sentBy (body : Str) : Option Pdu :=
  sentEvent summingEnv alicesRoom sendMatch (some alice) (some body) 0

def carrying (p : Option Pdu) : Transaction := ⟨"x".toList, 0, p.toList, []⟩

/-- An object that is nested one level deeper than a transaction can carry. -/
def deepBody : Str :=
  "\x7b\"a\":".toList ++ List.replicate 126 '[' ++ List.replicate 126 ']' ++ ['\x7d']

end SampleSends

open SampleSends Svc.SampleRun in
/-- A message is delivered. -/
theorem sent_message_delivered :
    ∃ p t', sentBy "\x7b\"body\":\"x\"\x7d".toList = some p ∧
      receiveText ((carrying (some p)).toJson summingEnv.sha256).write = some t' ∧
        List.Forall₂ SameEvent [p] t'.pdus := by
  have hsome : (sentBy "\x7b\"body\":\"x\"\x7d".toList).map (fun p => p.depth) = some 4 := by
    decide +kernel
  obtain ⟨p, hp, hdepth⟩ := Option.map_eq_some_iff.mp hsome
  have hcontent := (parse_of_sentEvent hp).1
  have hfits : (embedded "\x7b\"body\":\"x\"\x7d".toList).nesting ≤ deepestContent := by decide +kernel
  have hfinite : (embedded "\x7b\"body\":\"x\"\x7d".toList).Finite := by
    unfold Json.Finite
    decide +kernel
  have hholds : F64.Representable ((4 : UInt64).toNat * F64.unitsPerOne) := by decide +kernel
  have hdeliverable : Deliverable p := by
    rw [Deliverable, hcontent, hdepth]
    exact ⟨hfits, hfinite, Or.inl hholds⟩
  have hread := (sent_events_delivered_iff summingEnv (carrying (some p)) (by
    intro q hq
    obtain rfl := List.mem_singleton.mp hq
    exact ⟨_, _, _, _, _, hp⟩)).mpr (by
      constructor
      · intro q hq
        obtain rfl := List.mem_singleton.mp hq
        exact hdeliverable
      · exact fun _ h => absurd h List.not_mem_nil)
  obtain ⟨t', hread, hsame⟩ := hread
  exact ⟨p, t', hp, hread, hsame⟩

open SampleSends Svc.SampleRun in
/-- A message that is accepted and appended, and that makes its transaction unreadable. -/
theorem deep_message_not_delivered :
    ∃ p, sentBy deepBody = some p ∧
      (serveSend summingEnv alicesRoom sendMatch (some alice) (some deepBody) 0).1.status = 200 ∧
      receiveText ((carrying (some p)).toJson summingEnv.sha256).write = none := by
  have hsome : (sentBy deepBody).isSome := by decide +kernel
  obtain ⟨p, hp⟩ := Option.isSome_iff_exists.mp hsome
  obtain ⟨sender, txnId, -, -, hserve⟩ := serveSend_of_event hp
  have hdeep : ¬ (embedded deepBody).nesting ≤ deepestContent := by decide +kernel
  have hunread : receiveText ((carrying (some p)).toJson summingEnv.sha256).write = none := by
    rw [Option.eq_none_iff_forall_ne_some]
    intro t' hread
    have hfits := (receiveText_eq_some_iff.mp hread).1.1 p (List.mem_singleton_self p)
    rw [(parse_of_sentEvent hp).1] at hfits
    exact hdeep hfits
  refine ⟨p, hp, ?_, hunread⟩
  rw [hserve]
  rfl

end GaussMatrix.Http
