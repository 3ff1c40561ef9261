import GaussMatrix.Api.JsonObject
import GaussMatrix.Http.SendEvent
import GaussMatrix.Svc.Ephemeral

/-!
# Setting presence and posting receipts

The two handlers take a presence, a status and an event id as they come, from the body and from the
path, whatever characters they have.  So the separator reaches the store, and what is read back
depends on it.
-/

namespace GaussMatrix.Http

open Library Util Api Api.Events StateRes Svc Fed RoomService

/-! ## The handlers -/

/-- Record the caller's read receipt at an event; receipts of other types are accepted and not
stored. -/
def serveReceipt (s : Data) (m : RouteMatch) (user : Option UserId) (now : UInt64) :
    Response × Data :=
  match user with
  | none => (.error 401 (.unknownToken "unrecognized access token"), s)
  | some caller =>
      match m.param "roomId", m.param "receiptType", m.param "eventId" with
      | some roomId, some receiptType, some eventId =>
          match RoomId.parse roomId with
          | none => (.error 400 (.new "M_INVALID_PARAM" "invalid room id"), s)
          | some room =>
              if receiptType ≠ "m.read" then (.jsonOk "\x7b\x7d", s)
              else
                match setReadReceipt s caller room eventId now with
                | (true, s') => (.jsonOk "\x7b\x7d", s')
                | (false, s') =>
                    (.error 403 (.forbidden "not permitted to post a receipt in this room"), s')
      | _, _, _ => (missingParameter, s)

/-- Set the caller's own presence.  The server always records it, so that the handler's last refusal
never happens. -/
def serveSetPresence (s : Data) (m : RouteMatch) (user : Option UserId) (body : Option Str) :
    Response × Data :=
  match user with
  | none => (.error 401 (.unknownToken "unrecognized access token"), s)
  | some caller =>
      match m.param "userId" with
      | none => (missingParameter, s)
      | some userId =>
          if userId ≠ caller.asStr then
            (.error 403 (.forbidden "cannot set another user's presence"), s)
          else
            match Json.parse (body.getD []) with
            | .ok (.object fields) =>
                match ((Json.object fields).get "presence").bind Json.asStr with
                | none => (.error 400 (.new "M_BAD_JSON" "missing string `presence`"), s)
                | some presence =>
                    let statusMsg := ((Json.object fields).get "status_msg").bind Json.asStr
                    (.jsonOk "\x7b\x7d", setPresence s caller presence statusMsg)
            | _ => (.error 400 (.new "M_BAD_JSON" "body must be an object"), s)

/-- The body that asks for a presence and a status. -/
def presenceBody (presence : Str) (statusMsg : Option Str) : Json :=
  .ofFields (("presence".toList, .string presence) ::
    (statusMsg.map fun status => ("status_msg".toList, .string status)).toList)

/-! ## What reaches the store -/

section

variable {s : Data} {m : RouteMatch} {user : UserId} {room : RoomId} {now : UInt64}
  {presence eventId : Str} {statusMsg : Option Str}

theorem presenceBody_keys (presence : Str) (statusMsg : Option Str) :
    ((("presence".toList, Json.string presence) ::
      (statusMsg.map fun status => ("status_msg".toList, Json.string status)).toList).map
        Prod.fst).Nodup := by
  cases statusMsg with
  | none => exact List.nodup_singleton _
  | some status =>
      show ["presence".toList, "status_msg".toList].Nodup
      decide

/-- The body is read as it was written. -/
theorem parse_presenceBody (presence : Str) (statusMsg : Option Str) :
    Json.parse (presenceBody presence statusMsg).write =
      .ok (presenceBody presence statusMsg).written := by
  have hordered : Json.Ordered (presenceBody presence statusMsg) := by
    apply Json.ordered_ofFields
    cases statusMsg <;> simp [Json.Ordered, Json.everywhere, Json.keysAscend]
  have hnesting : (presenceBody presence statusMsg).nesting ≤ maxDepth := by
    apply (Json.nesting_ofFields_le_iff (presenceBody_keys presence statusMsg)).mpr
    cases statusMsg <;> simp [Json.nesting, maxDepth]
  rw [Json.parse_write hordered, if_pos hnesting]

theorem get_presenceBody (presence : Str) (statusMsg : Option Str) :
    ((presenceBody presence statusMsg).written.get "presence".toList).bind Json.asStr =
        some presence ∧
      ((presenceBody presence statusMsg).written.get "status_msg".toList).bind Json.asStr =
        statusMsg := by
  rw [Json.get_written, Json.get_written, presenceBody,
    Json.get_ofFields (presenceBody_keys presence statusMsg),
    Json.get_ofFields (presenceBody_keys presence statusMsg)]
  cases statusMsg with
  | none => exact ⟨rfl, rfl⟩
  | some status => exact ⟨rfl, rfl⟩

/-- Every presence and status reaches the store. -/
theorem serveSetPresence_body (hparam : m.param "userId" = some user.asStr) :
    serveSetPresence s m (some user) (some (presenceBody presence statusMsg).write) =
      (.jsonOk "\x7b\x7d", setPresence s user presence statusMsg) := by
  obtain ⟨fields, hfields⟩ : ∃ fields, (presenceBody presence statusMsg).written = .object fields :=
    ⟨_, rfl⟩
  obtain ⟨hpresence, hstatus⟩ := get_presenceBody presence statusMsg
  rw [hfields] at hpresence hstatus
  simp only [serveSetPresence, hparam, ne_eq, not_true_eq_false, if_false, Option.getD_some,
    parse_presenceBody, hfields, hpresence, hstatus]

/-- Every event id of a joined caller reaches the store. -/
theorem serveReceipt_joined (hroom : m.param "roomId" = some room.asStr)
    (htype : m.param "receiptType" = some "m.read".toList)
    (hevent : m.param "eventId" = some eventId)
    (hjoined : isJoined s room user = true) :
    serveReceipt s m (some user) now =
      (.jsonOk "\x7b\x7d", (setReadReceipt s user room eventId now).2) := by
  have hset : setReadReceipt s user room eventId now =
      (true, (setReadReceipt s user room eventId now).2) := by
    rw [setReadReceipt, if_pos hjoined]
  simp only [serveReceipt, hroom, htype, hevent, RoomId.parse_asStr, ne_eq, not_true_eq_false,
    if_false]
  rw [hset]

end

/-! ## Reading back -/

/-- A presence and a receipt that were set read back throughout the calls after them. -/
def ReadsBack (env : Env) (s : Data) (user : UserId) (room : RoomId) (presence : Str)
    (statusMsg : Option Str) (eventId : Str) (now : UInt64) (ops : List EphemeralOp) : Prop :=
  Throughout (ephemeralStep env) (setPresence s user presence statusMsg) ops
      (PresenceReads user presence statusMsg) ∧
    Throughout (ephemeralStep env) (setReadReceipt s user room eventId now).2 ops
      (ReceiptReads user room eventId)

/-- While the user sets no other presence, what was set reads back exactly when the presence and the
event have no separator, and no receipt for another event is posted under the same key. -/
theorem ephemeral_state_reads_back_iff (env : Env) (s : Data) (user : UserId) (room : RoomId)
    (presence : Str) (statusMsg : Option Str) (eventId : Str) (now : UInt64)
    (ops : List EphemeralOp) (hreturned : (setReadReceipt s user room eventId now).1 = true)
    (hops : ∀ op ∈ ops, ∀ presence statusMsg,
      op ≠ .server (.setPresence user presence statusMsg)) :
    ReadsBack env s user room presence statusMsg eventId now ops ↔
      sep ∉ presence ∧ sep ∉ eventId ∧
        KeyKept env (setReadReceipt s user room eventId now).2 ops room user eventId := by
  have hjoined : isJoined s room user = true := by
    rw [setReadReceipt] at hreturned
    split at hreturned
    · assumption
    · cases hreturned
  rw [ReadsBack, presence_throughout_iff hops, receipt_throughout_iff hjoined]

namespace SampleStatus

open Svc.SampleRun

/-- Alice is joined. -/
def joined : Data := run append Store.empty [create, aliceJoin]

/-- Another user's presence. -/
def bobOnline : EphemeralOp := .server (.setPresence ⟨"@b:x", valid_bob⟩ "online" none)

/-- The path of Alice's status. -/
def ownStatus : RouteMatch where
  endpoint := ⟨.put, "/_matrix/client/v3/presence/{userId}/status", .accessToken⟩
  params := SortedMap.empty.insert "userId".toList alice.asStr

/-- A presence with the separator, as JSON escapes it. -/
def splitStatus : Str := "\x7b\"presence\":\"a\\u001fb\"\x7d"

end SampleStatus

open SampleStatus Svc.SampleRun in
theorem ephemeral_state_reads_back_sample :
    ReadsBack env joined alice room "online" none "$a" 5 [bobOnline] ↔
      sep ∉ "online".toList ∧ sep ∉ "$a".toList ∧
        KeyKept env (setReadReceipt joined alice room "$a" 5).2 [bobOnline] room alice "$a" :=
  ephemeral_state_reads_back_iff env joined alice room "online" none "$a" 5 [bobOnline]
    (by decide +kernel) (by
      intro op hop presence statusMsg
      rw [List.mem_singleton.mp hop]
      intro hsame
      injection hsame with hsame
      injection hsame with huser
      exact absurd (congrArg UserId.asStr huser) (by decide))

open SampleStatus Svc.SampleRun in
/-- The presence is accepted, and another one is read. -/
theorem split_presence_not_read :
    (serveSetPresence joined ownStatus (some alice) (some splitStatus)).1 = .jsonOk "\x7b\x7d" ∧
      ¬ PresenceReads alice ("a".toList ++ sep :: "b".toList) none
        (serveSetPresence joined ownStatus (some alice) (some splitStatus)).2 := by
  constructor
  · decide +kernel
  · intro h
    have hread : ((presenceFor (serveSetPresence joined ownStatus (some alice)
        (some splitStatus)).2 alice).map fun x => x.presence) = some "a".toList := by
      decide +kernel
    rw [PresenceReads] at h
    rw [h] at hread
    exact absurd hread (by decide)

end GaussMatrix.Http
