import GaussMatrix.Library.SortByKey
import GaussMatrix.Svc.Server

/-!
# Timelines and lookups

Every stored event sits under its own timeline key, so a room's timeline is sorted by those keys and
a lookup by id returns the stored event of that id with the least key.  From this follows what one
append can do to the lookups that came before it.
-/

namespace GaussMatrix.Svc

open Library Util Api StateRes

namespace RoomService

variable {s t : Data} {room : RoomId} {id : EventId} {p q : Pdu}

/-- The three families that hold room history are the same. -/
structure SameRooms (s t : Data) : Prop where
  events : s .events = t .events
  roomState : s .roomState = t .roomState
  eventStream : s .eventStream = t .eventStream

theorem SameRooms.refl (s : Data) : SameRooms s s := ⟨rfl, rfl, rfl⟩

theorem SameRooms.trans {u : Data} (h : SameRooms s t) (h' : SameRooms t u) : SameRooms s u :=
  ⟨h.events.trans h'.events, h.roomState.trans h'.roomState, h.eventStream.trans h'.eventStream⟩

theorem SameRooms.symm (h : SameRooms s t) : SameRooms t s :=
  ⟨h.events.symm, h.roomState.symm, h.eventStream.symm⟩

theorem SameRooms.put (cf : Cf) (hcf : cf ≠ .events ∧ cf ≠ .roomState ∧ cf ≠ .eventStream)
    (s : Data) (key : Str) (value : Record) : SameRooms (s.put cf key value) s :=
  ⟨s.put_of_ne hcf.1.symm key value, s.put_of_ne hcf.2.1.symm key value,
    s.put_of_ne hcf.2.2.symm key value⟩

theorem SameRooms.timeline (h : SameRooms s t) (room : RoomId) :
    timeline s room = RoomService.timeline t room := by
  simp only [RoomService.timeline, Store.scan, h.events]

theorem SameRooms.pdu (h : SameRooms s t) (room : RoomId) :
    pdu s room = RoomService.pdu t room := by
  funext id
  simp only [RoomService.pdu, h.timeline]

theorem SameRooms.currentState (h : SameRooms s t) (room : RoomId) :
    currentState s room = RoomService.currentState t room := by
  simp only [RoomService.currentState, Store.scan, h.roomState]

theorem SameRooms.currentStatePdus (h : SameRooms s t) (room : RoomId) :
    currentStatePdus s room = RoomService.currentStatePdus t room := by
  simp only [RoomService.currentStatePdus, h.pdu, h.currentState]

theorem SameRooms.stateEvent (h : SameRooms s t) (room : RoomId) (kind key : Str) :
    stateEvent s room kind key = RoomService.stateEvent t room kind key := by
  simp only [RoomService.stateEvent, Store.get, h.roomState]

/-! ## What an append writes -/

@[simp] theorem append_events (s : Data) (p : Pdu) :
    append s p .events = (s .events).insert (timelineKey p) (.pdu p) := by
  unfold append
  cases p.stateTuple with
  | none => rfl
  | some slot => rfl

@[simp] theorem append_roomState (s : Data) (p : Pdu) :
    append s p .roomState =
      match p.stateTuple with
      | some (kind, key) =>
          (s .roomState).insert (stateKey p.roomId kind key) (.text p.eventId.asStr)
      | none => s .roomState := by
  unfold append
  cases p.stateTuple with
  | none => rfl
  | some slot => rfl

@[simp] theorem append_eventStream (s : Data) (p : Pdu) :
    append s p .eventStream =
      (s .eventStream).insert (streamKey (streamLen s)) (.text (streamEntry p)) := by
  unfold append
  cases p.stateTuple with
  | none => rfl
  | some slot => rfl

/-- An append writes to three families. -/
theorem append_of_ne {cf : Cf} (hcf : cf ≠ .events ∧ cf ≠ .roomState ∧ cf ≠ .eventStream) (s : Data)
    (p : Pdu) : append s p cf = s cf := by
  rw [append, Store.put_of_ne _ hcf.2.2]
  cases p.stateTuple with
  | none => exact Store.put_of_ne _ hcf.1 _ _
  | some tuple =>
      show Store.put _ _ _ _ cf = s cf
      rw [Store.put_of_ne _ hcf.2.1, Store.put_of_ne _ hcf.1]

theorem foldl_append_of_ne {cf : Cf} (hcf : cf ≠ .events ∧ cf ≠ .roomState ∧ cf ≠ .eventStream)
    (s : Data) (ps : List Pdu) : ps.foldl append s cf = s cf := by
  induction ps generalizing s with
  | nil => rfl
  | cons p ps ih => rw [List.foldl_cons, ih, append_of_ne hcf]

theorem SameRooms.append (h : SameRooms s t) (p : Pdu) :
    SameRooms (append s p) (RoomService.append t p) where
  events := by rw [append_events, append_events, h.events]
  roomState := by simp only [append_roomState, h.roomState]
  eventStream := by
    rw [append_eventStream, append_eventStream, streamLen, streamLen, Store.count, Store.count,
      h.eventStream]

theorem SameRooms.foldl_append (h : SameRooms s t) (ps : List Pdu) :
    SameRooms (ps.foldl RoomService.append s) (ps.foldl RoomService.append t) := by
  induction ps generalizing s t with
  | nil => exact h
  | cons p ps ih => exact ih (h.append p)

/-! ## Stored events -/

/-- The event is stored. -/
def Stored (s : Data) (p : Pdu) : Prop := (s .events).get (timelineKey p) = some (.pdu p)

/-- Everything in the events family is an event under its own timeline key. -/
def Keyed (s : Data) : Prop :=
  ∀ key value, (s .events).get key = some value → ∃ p, value = .pdu p ∧ timelineKey p = key

theorem keyed_empty : Keyed Store.empty := by
  intro key value h
  exact absurd h (by simp [Store.empty])

theorem Keyed.append (h : Keyed s) (p : Pdu) : Keyed (append s p) := by
  intro key value hget
  rw [append_events, SortedMap.get_insert] at hget
  split at hget
  · rename_i hkey
    exact ⟨p, (Option.some.inj hget).symm, hkey.symm⟩
  · exact h key value hget

theorem stored_append_iff : Stored (append s q) p ↔
    p = q ∨ Stored s p ∧ timelineKey p ≠ timelineKey q := by
  unfold Stored
  rw [append_events, SortedMap.get_insert]
  by_cases hkey : timelineKey p = timelineKey q
  · simp only [hkey, if_true, Option.some.injEq, Record.pdu.injEq, ne_eq, not_true_eq_false,
      and_false, or_false]
    exact eq_comm
  · have hne : p ≠ q := fun heq => hkey (heq ▸ rfl)
    simp [hkey, hne]

/-- A room's timeline holds the stored events whose key starts with the room's prefix. -/
theorem mem_timeline_iff (h : Keyed s) :
    p ∈ timeline s room ↔ Stored s p ∧ startsWith (roomPrefix room) (timelineKey p) = true := by
  simp only [timeline, List.mem_filterMap, List.mem_filter]
  constructor
  · rintro ⟨⟨key, value⟩, ⟨hmem, hpre⟩, hdec⟩
    obtain ⟨p', rfl, rfl⟩ := h key value (((s .events).mem_entries_iff _ _).mp hmem)
    obtain rfl := Option.some.inj hdec
    exact ⟨((s .events).mem_entries_iff _ _).mp hmem, hpre⟩
  · rintro ⟨hst, hpre⟩
    exact ⟨(timelineKey p, .pdu p), ⟨((s .events).mem_entries_iff _ _).mpr hst, hpre⟩, rfl⟩

theorem Keyed.key_eq (h : Keyed s) {e : Str × Record} (he : e ∈ s.scan .events)
    (hdec : e.2.decode = some p) : e.1 = timelineKey p := by
  obtain ⟨p', hval, hkey⟩ := h e.1 e.2 (((s .events).mem_entries_iff _ _).mp he)
  rw [hval] at hdec
  rw [← hkey, Option.some.inj hdec]

/-- A room's timeline is in strictly increasing order of its keys. -/
theorem pairwise_timeline (h : Keyed s) (room : RoomId) :
    (timeline s room).Pairwise (fun a b => timelineKey a < timelineKey b) := by
  have hsorted : ((s.scan .events).filter fun e => startsWith (roomPrefix room) e.1).Pairwise
      (fun a b => a.1 < b.1) := (s .events).sorted.filter _
  rw [timeline, List.pairwise_filterMap]
  refine hsorted.imp_of_mem fun he he' hlt p hp p' hp' => ?_
  rw [← h.key_eq (List.mem_of_mem_filter he) hp, ← h.key_eq (List.mem_of_mem_filter he') hp']
  exact hlt

/-- A lookup returns the event of the timeline with that id and the least key. -/
theorem pdu_eq_some_iff (h : Keyed s) :
    pdu s room id = some p ↔
      p ∈ timeline s room ∧ p.eventId = id ∧
        ∀ q ∈ timeline s room, q.eventId = id → timelineKey p ≤ timelineKey q := by
  rw [pdu, find?_eq_some_iff_of_pairwise (pairwise_timeline h room)]
  simp only [decide_eq_true_eq]

theorem mem_timeline_of_pdu (hp : pdu s room id = some p) :
    p ∈ timeline s room ∧ p.eventId = id := by
  refine ⟨List.mem_of_find?_eq_some hp, ?_⟩
  simpa using List.find?_some hp

theorem pdu_isSome_iff : (pdu s room id).isSome ↔ ∃ p ∈ timeline s room, p.eventId = id := by
  rw [pdu, List.find?_isSome]
  simp

/-! ## What an append does to lookups -/

theorem mem_timeline_append (h : Keyed s) :
    p ∈ timeline (append s q) room ↔
      (p = q ∨ p ∈ timeline s room ∧ timelineKey p ≠ timelineKey q) ∧
        startsWith (roomPrefix room) (timelineKey p) = true := by
  rw [mem_timeline_iff (h.append q), mem_timeline_iff h, stored_append_iff]
  tauto

/-- The appended event takes the place of `p` in the lookups of `room`: it is stored under the key of
`p`, or it has the id of `p` and a smaller key. -/
def ShadowsAt (room : RoomId) (p q : Pdu) : Prop :=
  q ≠ p ∧ startsWith (roomPrefix room) (timelineKey q) = true ∧
    (timelineKey q = timelineKey p ∨ q.eventId = p.eventId ∧ timelineKey q < timelineKey p)

instance (room : RoomId) (p q : Pdu) : Decidable (ShadowsAt room p q) :=
  inferInstanceAs (Decidable (_ ∧ _))

/-- A lookup that returned `p` returns it after an append exactly when the appended event does not
take its place. -/
theorem pdu_append_iff (h : Keyed s) (hp : pdu s room p.eventId = some p) :
    pdu (append s q) room p.eventId = some p ↔ ¬ ShadowsAt room p q := by
  obtain ⟨hmem, -, hmin⟩ := (pdu_eq_some_iff h).mp hp
  obtain ⟨-, hpre⟩ := (mem_timeline_iff h).mp hmem
  rw [pdu_eq_some_iff (h.append q)]
  constructor
  · rintro ⟨hmem', -, hmin'⟩ ⟨hne, hpreq, hkey | ⟨hid, hlt⟩⟩
    · rcases ((mem_timeline_append h).mp hmem').1 with heq | ⟨-, hkey'⟩
      · exact hne heq.symm
      · exact hkey' hkey.symm
    · have hq : q ∈ timeline (append s q) room :=
        (mem_timeline_append h).mpr ⟨.inl rfl, hpreq⟩
      exact absurd hlt (not_lt.mpr (hmin' q hq hid))
  · intro hshadow
    by_cases hpq : p = q
    · subst hpq
      refine ⟨(mem_timeline_append h).mpr ⟨.inl rfl, hpre⟩, rfl, fun x hx hid => ?_⟩
      rcases ((mem_timeline_append h).mp hx).1 with rfl | ⟨hx, -⟩
      · exact le_rfl
      · exact hmin x hx hid
    · have hkey : timelineKey p ≠ timelineKey q := fun heq =>
        hshadow ⟨Ne.symm hpq, heq ▸ hpre, .inl heq.symm⟩
      refine ⟨(mem_timeline_append h).mpr ⟨.inr ⟨hmem, hkey⟩, hpre⟩, rfl, fun x hx hid => ?_⟩
      obtain ⟨hx, hprex⟩ := (mem_timeline_append h).mp hx
      rcases hx with rfl | ⟨hx, -⟩
      · exact not_lt.mp fun hlt => hshadow ⟨Ne.symm hpq, hprex, .inr ⟨hid, hlt⟩⟩
      · exact hmin x hx hid

/-! ## Appended history -/

/-- The events of a new room, as far as they got an id. -/
def createdEvents (env : Env) (s : Data) (creator : UserId) (name topic : Option Str)
    (now : Nat → UInt64) : List Pdu :=
  match mintRoomId env s creator (now 0) with
  | none => []
  | some room => initialEvents env room creator now 0 [] (initialState creator name topic)

end RoomService

open RoomService Fed

/-- The steps of a transaction: what was received so far, and the next event. -/
def receiveSteps (env : Env) (s : Data) (txn : Json) : List (Receipt × Pdu) :=
  trace (receivePdu env) (Receipt.start s (transactionPdus txn)) (transactionPdus txn)

/-- Whether a step of a transaction accepts its event. -/
def Accepted (env : Env) (x : Receipt × Pdu) : Prop :=
  federationVerdict env x.1.data x.1.byId x.2 = .ok ()

instance (env : Env) (x : Receipt × Pdu) : Decidable (Accepted env x) :=
  inferInstanceAs (Decidable (_ = _))

/-- The events an operation appends, in order. -/
def appended (env : Env) (s : Data) : Op → List Pdu
  | .createRoom creator name topic now => createdEvents env s creator name topic now
  | .changeMembership actor room target membership now =>
      ((membershipEvent env s actor room target membership now).bind (authorized env s)).toList
  | .sendMessage sender room eventType txnId content now =>
      match s.get .transactions (txnKey sender txnId) with
      | some _ => []
      | none =>
          ((messageEvent env s sender room eventType content now).bind (authorized env s)).toList
  | .receiveTransaction txn =>
      ((receiveSteps env s txn).filter (Accepted env)).map Prod.snd

/-- The appends of an operation: the data before each, and its event. -/
def appends (env : Env) (s : Data) (op : Op) : List (Data × Pdu) := trace append s (appended env s op)

theorem receiveEdu_sameRooms (s : Data) (edu : Edu) : SameRooms (receiveEdu s edu) s := by
  unfold receiveEdu
  split
  · exact .refl s
  · split
    · exact .refl s
    · split
      · split
        · exact .refl s
        · exact SameRooms.put .deviceKeys (by decide) s _ _
      · exact .refl s

theorem receiveEdus_sameRooms (s : Data) (edus : List Edu) :
    SameRooms (edus.foldl receiveEdu s) s := by
  induction edus generalizing s with
  | nil => exact .refl s
  | cons edu edus ih => exact (ih _).trans (receiveEdu_sameRooms s edu)

theorem createRoom_of_ne {cf : Cf} (hcf : cf ≠ .events ∧ cf ≠ .roomState ∧ cf ≠ .eventStream)
    (env : Env) (s : Data) (creator : UserId) (name topic : Option Str) (now : Nat → UInt64) :
    (createRoom env s creator name topic now).2 cf = s cf := by
  unfold createRoom
  split
  · rfl
  · exact foldl_append_of_ne hcf s _

theorem receiveEdu_of_ne {cf : Cf} (hcf : cf ≠ .deviceKeys) (s : Data) (edu : Edu) :
    receiveEdu s edu cf = s cf := by
  generalize ht : receiveEdu s edu = t
  unfold receiveEdu at ht
  split at ht
  · rw [ht]
  · split at ht
    · rw [ht]
    · split at ht
      · split at ht
        · rw [ht]
        · rw [← ht]
          exact Store.put_of_ne _ hcf _ _
      · rw [ht]

theorem receivePdu_data (env : Env) (r : Receipt) (p : Pdu) :
    (receivePdu env r p).data = if Accepted env (r, p) then append r.data p else r.data := by
  simp only [receivePdu]
  split
  · rename_i hok
    exact (if_pos (show Accepted env (r, p) from hok)).symm
  · rename_i hrefused
    have hno : ¬ Accepted env (r, p) := fun hok => nomatch hok.symm.trans hrefused
    exact (if_neg hno).symm

/-- The data of a transaction under way is the appends of what was accepted. -/
theorem run_receivePdu_data (env : Env) (r : Receipt) (pdus : List Pdu) :
    (run (receivePdu env) r pdus).data =
      (((trace (receivePdu env) r pdus).filter (Accepted env)).map Prod.snd).foldl append
        r.data := by
  induction pdus generalizing r with
  | nil => rfl
  | cons p pdus ih =>
      rw [run_cons, ih, receivePdu_data, trace, List.filter_cons]
      by_cases hok : Accepted env (r, p)
      · rw [if_pos hok, if_pos (by simpa using hok), List.map_cons, List.foldl_cons]
      · rw [if_neg hok, if_neg (by simpa using hok)]

/-- An operation leaves the room history that the appends of its events make. -/
theorem step_sameRooms (env : Env) (s : Data) (op : Op) :
    SameRooms (step env s op) ((appended env s op).foldl append s) := by
  cases op with
  | createRoom creator name topic now =>
      simp only [step, createRoom, appended, createdEvents]
      cases mintRoomId env s creator (now 0) with
      | none => exact .refl s
      | some room => exact .refl _
  | changeMembership actor room target membership now =>
      simp only [step, changeMembership, appended]
      cases (membershipEvent env s actor room target membership now).bind (authorized env s) with
      | none => exact .refl s
      | some p => exact .refl _
  | sendMessage sender room eventType txnId content now =>
      simp only [step, sendMessage, appended]
      cases s.get .transactions (txnKey sender txnId) with
      | some existing => exact .refl s
      | none =>
          cases (messageEvent env s sender room eventType content now).bind (authorized env s) with
          | none => exact .refl s
          | some p => exact SameRooms.put .transactions (by decide) _ _ _
  | receiveTransaction txn =>
      simp only [step, receiveTransaction, appended, receiveSteps]
      refine (receiveEdus_sameRooms _ _).trans ?_
      rw [run_receivePdu_data]
      exact .refl _

end GaussMatrix.Svc
