import GaussMatrix.Svc.Timeline

/-!
# The history of a run

A run of operations is a sequence of appends, each for a reason that the operation checked in the
data before it.  What every append keeps, the run keeps.
-/

namespace GaussMatrix.Svc

open Library Util Api Api.Events StateRes RoomService Fed

section

variable {env : Env} {s : Data} {op : Op} {ops : List Op} {x : Data × Pdu} {room : RoomId} {p : Pdu}

/-- The appends of a run: the data before each, and its event. -/
def runAppends (env : Env) (s : Data) (ops : List Op) : List (Data × Pdu) :=
  (trace (step env) s ops).flatMap fun x => appends env x.1 x.2

theorem runAppends_cons :
    runAppends env s (op :: ops) = appends env s op ++ runAppends env (step env s op) ops :=
  List.flatMap_cons

theorem runAppends_append (env : Env) (s : Data) (ops later : List Op) :
    runAppends env s (ops ++ later) =
      runAppends env s ops ++ runAppends env (run (step env) s ops) later := by
  rw [runAppends, trace_append, List.flatMap_append]
  rfl

/-! ## The reason of an append -/

/-- What an operation on `s` checked before the append `x`. -/
def AppendedBy (env : Env) (s : Data) (x : Data × Pdu) : Op → Prop
  | .createRoom creator name topic now => x.2 ∈ createdEvents env s creator name topic now
  | .changeMembership actor room target membership now =>
      membershipEvent env x.1 actor room target membership now = some x.2 ∧
        checkAuth env.verifyB64 x.2 (currentStatePdus x.1 x.2.roomId) = .ok ()
  | .sendMessage sender room eventType _ content now =>
      messageEvent env x.1 sender room eventType content now = some x.2 ∧
        checkAuth env.verifyB64 x.2 (currentStatePdus x.1 x.2.roomId) = .ok ()
  | .receiveTransaction txn =>
      ∃ r, r.data = x.1 ∧ (r, x.2) ∈ receiveSteps env s txn ∧ Accepted env (r, x.2)

theorem authorized_eq_some_iff {q : Pdu} : authorized env s q = some p ↔
    q = p ∧ checkAuth env.verifyB64 p (currentStatePdus s p.roomId) = .ok () := by
  unfold authorized
  constructor
  · intro h
    split at h
    · rename_i hok
      obtain rfl := Option.some.inj h
      exact ⟨rfl, hok⟩
    · exact absurd h (by simp)
  · rintro ⟨rfl, hok⟩
    simp only [hok]

/-- The one append of an event that was built and authorized. -/
theorem mem_trace_authorized {q : Option Pdu}
    (hx : x ∈ trace append s (q.bind (authorized env s)).toList) :
    x.1 = s ∧ q = some x.2 ∧
      checkAuth env.verifyB64 x.2 (currentStatePdus s x.2.roomId) = .ok () := by
  cases hp : q.bind (authorized env s) with
  | none => simp [hp, trace] at hx
  | some p =>
      obtain ⟨q', rfl, hq⟩ := Option.bind_eq_some_iff.mp hp
      obtain ⟨rfl, hok⟩ := authorized_eq_some_iff.mp hq
      simp only [hp, Option.toList_some, trace, List.mem_singleton] at hx
      subst hx
      exact ⟨rfl, rfl, hok⟩

/-- The appends of a transaction under way are its accepted steps. -/
theorem trace_append_accepted (r : Receipt) (pdus : List Pdu) :
    trace append r.data
        (((trace (receivePdu env) r pdus).filter (Accepted env)).map Prod.snd) =
      ((trace (receivePdu env) r pdus).filter (Accepted env)).map fun x => (x.1.data, x.2) := by
  induction pdus generalizing r with
  | nil => rfl
  | cons p pdus ih =>
      have hdata := receivePdu_data env r p
      rw [trace, List.filter_cons]
      by_cases hok : Accepted env (r, p)
      · rw [if_pos hok] at hdata
        rw [if_pos (by simpa using hok), List.map_cons, List.map_cons, trace, ← hdata, ih]
      · rw [if_neg hok] at hdata
        rw [if_neg (by simpa using hok), ← hdata, ih]

theorem appends_receiveTransaction (env : Env) (s : Data) (txn : Json) :
    appends env s (.receiveTransaction txn) =
      ((receiveSteps env s txn).filter (Accepted env)).map fun x => (x.1.data, x.2) :=
  trace_append_accepted (Receipt.start s (transactionPdus txn)) (transactionPdus txn)

/-- Every append of an operation has its reason. -/
theorem appendedBy_of_mem_appends (hx : x ∈ appends env s op) : AppendedBy env s x op := by
  cases op with
  | createRoom creator name topic now =>
      have hmem : x.2 ∈ appended env s (.createRoom creator name topic now) := mem_of_mem_trace hx
      exact hmem
  | changeMembership actor room target membership now =>
      obtain ⟨hdata, hq, hok⟩ := mem_trace_authorized hx
      rw [← hdata] at hq hok
      exact ⟨hq, hok⟩
  | sendMessage sender room eventType txnId content now =>
      simp only [appends, appended] at hx
      split at hx
      · simp [trace] at hx
      · obtain ⟨hdata, hq, hok⟩ := mem_trace_authorized hx
        rw [← hdata] at hq hok
        exact ⟨hq, hok⟩
  | receiveTransaction txn =>
      rw [appends_receiveTransaction] at hx
      obtain ⟨⟨r, q⟩, hmem, rfl⟩ := List.mem_map.mp hx
      obtain ⟨hmem, hok⟩ := List.mem_filter.mp hmem
      exact ⟨r, rfl, hmem, of_decide_eq_true hok⟩

/-- Every append of a run has its reason in the operation it belongs to. -/
theorem appendedBy_of_mem_runAppends (hx : x ∈ runAppends env s ops) :
    ∃ t op, (t, op) ∈ trace (step env) s ops ∧ AppendedBy env t x op := by
  obtain ⟨⟨t, op⟩, hmem, hx⟩ := List.mem_flatMap.mp hx
  exact ⟨t, op, hmem, appendedBy_of_mem_appends hx⟩

/-- The steps of the transactions of a run. -/
def runReceipts (env : Env) (s : Data) (ops : List Op) : List (Receipt × Pdu) :=
  (trace (step env) s ops).flatMap fun x =>
    match x.2 with
    | .receiveTransaction txn => receiveSteps env x.1 txn
    | _ => []

theorem mem_runReceipts {t : Data} {txn : Json} {y : Receipt × Pdu}
    (h : (t, .receiveTransaction txn) ∈ trace (step env) s ops)
    (hy : y ∈ receiveSteps env t txn) : y ∈ runReceipts env s ops :=
  List.mem_flatMap.mpr ⟨_, h, hy⟩

theorem mem_runAppends_of_receipt {y : Receipt × Pdu} (hy : y ∈ runReceipts env s ops)
    (hok : Accepted env y) : (y.1.data, y.2) ∈ runAppends env s ops := by
  obtain ⟨⟨t, op⟩, hmem, hy⟩ := List.mem_flatMap.mp hy
  refine List.mem_flatMap.mpr ⟨(t, op), hmem, ?_⟩
  cases op with
  | receiveTransaction txn =>
      rw [appends_receiveTransaction]
      exact List.mem_map.mpr ⟨y, List.mem_filter.mpr ⟨hy, decide_eq_true hok⟩, rfl⟩
  | createRoom creator name topic now => simp at hy
  | changeMembership actor room target membership now => simp at hy
  | sendMessage sender room eventType txnId content now => simp at hy

theorem withReferenceId_eq_some {q : Pdu} (h : withReferenceId env p = some q) :
    ∃ id, q = { p with eventId := id } := by
  obtain ⟨id, -, rfl⟩ := Option.map_eq_some_iff.mp h
  exact ⟨id, rfl⟩

/-- What a membership event built by the server is. -/
theorem membershipEvent_fields {actor target : UserId} {membership : Str} {now : UInt64}
    (h : membershipEvent env s actor room target membership now = some p) :
    p.roomId = room ∧ p.sender = actor ∧ p.kind = roomMember ∧
      p.stateKey = some target.asStr := by
  obtain ⟨⟨depth, prev⟩, -, hp⟩ := Option.bind_eq_some_iff.mp h
  obtain ⟨id, rfl⟩ := withReferenceId_eq_some hp
  exact ⟨rfl, rfl, rfl, rfl⟩

/-- What a message event built by the server is. -/
theorem messageEvent_fields {sender : UserId} {eventType content : Str} {now : UInt64}
    (h : messageEvent env s sender room eventType content now = some p) :
    p.roomId = room ∧ p.sender = sender ∧ p.kind = eventType ∧ p.stateKey = none := by
  obtain ⟨⟨depth, prev⟩, -, hp⟩ := Option.bind_eq_some_iff.mp h
  obtain ⟨id, rfl⟩ := withReferenceId_eq_some hp
  exact ⟨rfl, rfl, rfl, rfl⟩

theorem messageEvent_contentJson {sender : UserId} {eventType content : Str} {now : UInt64}
    (h : messageEvent env s sender room eventType content now = some p) : p.contentJson = content := by
  obtain ⟨⟨depth, prev⟩, -, hp⟩ := Option.bind_eq_some_iff.mp h
  obtain ⟨id, rfl⟩ := withReferenceId_eq_some hp
  rfl

/-! ## Invariants of runs -/

/-- A property of the room history that each append of a run keeps holds before each of the appends
and at the end. -/
theorem holds_along_run (env : Env) (ops : List Op) {P : Data → Prop}
    (hsame : ∀ t u, SameRooms t u → P u → P t) (hs : P s)
    (happ : ∀ x ∈ runAppends env s ops, P x.1 → P (append x.1 x.2)) :
    (∀ x ∈ runAppends env s ops, P x.1) ∧ P (run (step env) s ops) := by
  induction ops generalizing s with
  | nil => exact ⟨by simp [runAppends, trace], hs⟩
  | cons op ops ih =>
      rw [runAppends_cons, List.forall_mem_append] at happ
      obtain ⟨hbefore, hend⟩ := holds_along_trace hs happ.1
      have hstep : P (step env s op) := hsame _ _ (step_sameRooms env s op) hend
      obtain ⟨hrest, hlast⟩ := ih hstep happ.2
      rw [runAppends_cons, List.forall_mem_append]
      exact ⟨⟨hbefore, hrest⟩, hlast⟩

theorem RoomService.SameRooms.keyed {t : Data} (h : SameRooms s t) (ht : Keyed t) : Keyed s := by
  unfold Keyed
  rw [h.events]
  exact ht

theorem RoomService.Keyed.along_run (h : Keyed s) (env : Env) (ops : List Op) :
    (∀ x ∈ runAppends env s ops, Keyed x.1) ∧ Keyed (run (step env) s ops) :=
  holds_along_run env ops (fun _ _ hsame ht => hsame.keyed ht) h fun x _ ht => ht.append x.2

theorem Reachable.keyed (h : Reachable env s) : Keyed s := by
  obtain ⟨ops, rfl⟩ := h
  exact (keyed_empty.along_run env ops).2

/-! ## Lookups over a run -/

/-- What a lookup returned it returns at the end of a run that does not take the event's place. -/
theorem pdu_run (h : Keyed s) {id : EventId} (hp : pdu s room id = some p)
    (hops : ∀ x ∈ runAppends env s ops, ¬ ShadowsAt room p x.2) :
    pdu (run (step env) s ops) room id = some p := by
  obtain ⟨-, rfl⟩ := mem_timeline_of_pdu hp
  have hP := holds_along_run env ops
    (P := fun t => Keyed t ∧ pdu t room p.eventId = some p)
    (fun t u hsame hu => ⟨hsame.keyed hu.1, by rw [hsame.pdu]; exact hu.2⟩) ⟨h, hp⟩
    (fun x hx ht => ⟨ht.1.append x.2, (pdu_append_iff ht.1 ht.2).mpr (hops x hx)⟩)
  exact hP.2.2

/-- The event takes the place of some event that a lookup returns. -/
def Shadows (s : Data) (q : Pdu) : Prop :=
  ∃ room p, pdu s room p.eventId = some p ∧ ShadowsAt room p q

/-- An append keeps all lookups exactly when its event takes no event's place. -/
theorem append_keeps_lookups_iff (h : Keyed s) (q : Pdu) :
    (∀ room id p, pdu s room id = some p → pdu (append s q) room id = some p) ↔
      ¬ Shadows s q := by
  constructor
  · rintro hkeeps ⟨room, p, hp, hshadow⟩
    exact (pdu_append_iff h hp).mp (hkeeps room p.eventId p hp) hshadow
  · intro hno room id p hp
    obtain ⟨-, rfl⟩ := mem_timeline_of_pdu hp
    exact (pdu_append_iff h hp).mpr fun hshadow => hno ⟨room, p, hp, hshadow⟩

/-- Appends that take no event's place keep all lookups over a run. -/
theorem run_keeps_lookups (h : Keyed s) (hops : ∀ x ∈ runAppends env s ops, ¬ Shadows x.1 x.2)
    {id : EventId} (hp : pdu s room id = some p) :
    pdu (run (step env) s ops) room id = some p := by
  have hP := holds_along_run env ops
    (P := fun t => Keyed t ∧ pdu t room id = some p)
    (fun t u hsame hu => ⟨hsame.keyed hu.1, by rw [hsame.pdu]; exact hu.2⟩) ⟨h, hp⟩
    (fun x hx ht => ⟨ht.1.append x.2,
      (append_keeps_lookups_iff ht.1 x.2).mpr (hops x hx) room id p ht.2⟩)
  exact hP.2.2

/-- An event whose id and key no stored event has takes no event's place. -/
theorem not_shadows_of_fresh {q : Pdu}
    (h : ∀ p ∈ (s.scan .events).filterMap (fun e => e.2.decode),
      q.eventId ≠ p.eventId ∧ timelineKey q ≠ timelineKey p) : ¬ Shadows s q := by
  rintro ⟨room, p, hp, -, -, hshadow⟩
  obtain ⟨hmem, -⟩ := mem_timeline_of_pdu hp
  obtain ⟨e, he, hdec⟩ := List.mem_filterMap.mp hmem
  obtain ⟨hid, hkey⟩ := h p (List.mem_filterMap.mpr ⟨e, List.mem_of_mem_filter he, hdec⟩)
  rcases hshadow with hshadow | ⟨hshadow, -⟩
  · exact hkey hshadow
  · exact hid hshadow

end

/-! ## A sample room -/

namespace SampleRun

/-- An environment whose digest is the identity and whose signatures never verify. -/
def env : Env where
  sha256 := id
  verifyB64 := fun _ _ _ => false
  roomHash := fun _ n _ => UInt64.ofNat n
  serverName := "x"
  overflowChecks := true

/-- An environment whose digests are one byte long. -/
def shortEnv : Env := { env with sha256 := fun bytes => [UInt8.ofNat bytes.length] }

def alice : UserId := ⟨"@a:x", valid_alice⟩
def bob : UserId := ⟨"@b:x", valid_bob⟩
def room : RoomId := ⟨"!r:x", valid_room⟩

/-- The room that the server mints first. -/
def mintedRoom : RoomId := ⟨"!0000000000000000:x", valid_mintedRoom⟩

/-- An event id of one letter. -/
def eventId (c : Char) : EventId := ⟨['$', c], isEventId_singleton c⟩

/-- An event of the room. -/
def event (c : Char) (sender : UserId) (kind : Str) (stateKey : Option Str) (depth : UInt64)
    (authEvents : List EventId) (content : Str) : Pdu where
  eventId := eventId c
  roomId := room
  sender := sender
  kind := kind
  stateKey := stateKey
  originServerTs := 0
  depth := depth
  prevEvents := []
  authEvents := authEvents
  contentJson := content

/-- The JSON that a peer sends for an event. -/
def eventJson (p : Pdu) : Json :=
  Json.ofFields (p.unhashed ++ [Json.field "event_id" (.string p.eventId.asStr)])

/-- A transaction. -/
def transaction (pdus : List Pdu) : Json :=
  Json.ofFields
    [Json.field "origin" (.string "x".toList),
      Json.field "origin_server_ts" (.number (F64.ofNat 0)),
      Json.field "pdus" (.array (pdus.map eventJson))]

/-- The delivery of a transaction. -/
def deliver (pdus : List Pdu) : Op := .receiveTransaction (transaction pdus)

def create : Pdu := event 'c' alice roomCreate (some []) 1 [] (singleField "creator" "@a:x")
def aliceJoin : Pdu := event 'a' alice roomMember (some "@a:x") 2 [] memberJoinContent
def message : Pdu := event 'm' alice "m.room.message" none 3 [] (singleField "body" "x")
def otherMessage : Pdu := event 'm' alice "m.room.message" none 1 [] (singleField "body" "y")

end SampleRun

/-! ## Stored events -/

/-- An append of a run keeps all lookups exactly when its event takes no event's place.  In a run of
such appends what a lookup returned it always returns, and a slot that names the same event means
the same event. -/
theorem stored_events_immutable (env : Env) (s : Data) (hs : Reachable env s) (ops : List Op) :
    (∀ x ∈ runAppends env s ops,
      (∀ room id p, pdu x.1 room id = some p → pdu (append x.1 x.2) room id = some p) ↔
        ¬ Shadows x.1 x.2) ∧
    ((∀ x ∈ runAppends env s ops, ¬ Shadows x.1 x.2) →
      (∀ room id p, pdu s room id = some p → pdu (run (step env) s ops) room id = some p) ∧
      ∀ room kind key p, stateEventPdu s room kind key = some p →
        stateEvent (run (step env) s ops) room kind key = stateEvent s room kind key →
        stateEventPdu (run (step env) s ops) room kind key = some p) := by
  refine ⟨fun x hx => append_keeps_lookups_iff ((hs.keyed.along_run env ops).1 x hx) x.2,
    fun hops => ⟨fun room id p hp => run_keeps_lookups hs.keyed hops hp, ?_⟩⟩
  intro room kind key p hp hslot
  obtain ⟨id, hid, hp⟩ := Option.bind_eq_some_iff.mp hp
  rw [stateEventPdu, hslot, hid, Option.bind_some]
  exact run_keeps_lookups hs.keyed hops hp

open SampleRun in
/-- A later message of its own id leaves the lookups of the room as they were. -/
theorem stored_events_immutable_sample :
    pdu (run (step env) (run (step env) Store.empty [deliver [create, aliceJoin]])
      [deliver [message]]) room (eventId 'a') = some aliceJoin := by
  have hno : ∀ x ∈ runAppends env (run (step env) Store.empty [deliver [create, aliceJoin]])
      [deliver [message]], ¬ Shadows x.1 x.2 := by
    have hfresh : ∀ x ∈ runAppends env (run (step env) Store.empty [deliver [create, aliceJoin]])
        [deliver [message]], ∀ p ∈ (x.1.scan .events).filterMap (fun e => e.2.decode),
          x.2.eventId ≠ p.eventId ∧ timelineKey x.2 ≠ timelineKey p := by
      decide +kernel
    exact fun x hx => not_shadows_of_fresh (hfresh x hx)
  have hbefore : pdu (run (step env) Store.empty [deliver [create, aliceJoin]]) room
      (eventId 'a') = some aliceJoin := by
    decide +kernel
  exact ((stored_events_immutable env _ ⟨_, rfl⟩ [deliver [message]]).2 hno).1 room
    (eventId 'a') aliceJoin hbefore

open SampleRun in
/-- A second event under the id of a stored one, at a smaller depth, replaces it in lookups. -/
theorem stored_event_replaced :
    ¬ ∀ (env : Env) (ops later : List Op) (room : RoomId) (id : EventId) (p : Pdu),
      pdu (run (step env) Store.empty ops) room id = some p →
        pdu (run (step env) Store.empty (ops ++ later)) room id = some p := by
  intro h
  have hbefore : pdu (run (step env) Store.empty [deliver [create, aliceJoin, message]]) room
      (eventId 'm') = some message := by
    decide +kernel
  have hafter := h env [deliver [create, aliceJoin, message]] [deliver [otherMessage]] room
    (eventId 'm') message hbefore
  revert hafter
  decide +kernel

end GaussMatrix.Svc
