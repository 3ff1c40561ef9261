import GaussMatrix.Svc.History

/-!
# The event stream

The stream is numbered by its own length, so every append adds one entry, also when the event is
stored already.  A delivery that accepts anything is therefore never absorbed.
-/

namespace GaussMatrix.Svc

open Library Util Api Api.Events StateRes RoomService Fed

/-! ## Positions -/

namespace RoomService

/-- The stream is filled exactly at the positions below its length. -/
def Dense (s : Data) : Prop :=
  ∀ i, ((s .eventStream).get (streamKey i)).isSome ↔ i < streamLen s

variable {s t : Data}

theorem dense_empty : Dense Store.empty := by
  intro i
  simp [Store.empty, streamLen, Store.count, SortedMap.size, SortedMap.empty, SortedMap.get]

theorem SameRooms.streamLen (h : SameRooms s t) : streamLen s = RoomService.streamLen t := by
  rw [RoomService.streamLen, RoomService.streamLen, Store.count, Store.count, h.eventStream]

theorem SameRooms.dense (h : SameRooms s t) (ht : Dense t) : Dense s := by
  unfold Dense
  rw [h.eventStream, h.streamLen]
  exact ht

theorem streamLen_append (h : Dense s) (p : Pdu) : streamLen (append s p) = streamLen s + 1 := by
  have hfree : (s .eventStream).get (streamKey (streamLen s)) = none := by
    rw [← Option.not_isSome_iff_eq_none, h]
    exact lt_irrefl _
  rw [streamLen, Store.count, append_eventStream, SortedMap.size_insert_of_get_none _ hfree]
  rfl

theorem Dense.append (h : Dense s) (p : Pdu) : Dense (append s p) := by
  intro i
  rw [streamLen_append h, append_eventStream, SortedMap.get_insert]
  by_cases hi : i = streamLen s
  · subst hi
    simp
  · have hkey : streamKey i ≠ streamKey (streamLen s) := fun heq =>
      hi (padDecimal_injective 20 heq)
    rw [if_neg hkey, h]
    omega

theorem streamLen_foldl_append (h : Dense s) (ps : List Pdu) :
    streamLen (ps.foldl RoomService.append s) = streamLen s + ps.length := by
  induction ps generalizing s with
  | nil => rfl
  | cons p ps ih =>
      rw [List.foldl_cons, ih (h.append p), streamLen_append h, List.length_cons]
      omega

end RoomService

theorem Reachable.dense {env : Env} {s : Data} (h : Reachable env s) : Dense s := by
  obtain ⟨ops, rfl⟩ := h
  exact (holds_along_run env ops (fun _ _ hsame hu => hsame.dense hu) dense_empty
    fun x _ ht => ht.append x.2).2

/-- An operation adds one stream entry for each event it appends. -/
theorem streamLen_step {s : Data} (h : Dense s) (env : Env) (op : Op) :
    streamLen (step env s op) = streamLen s + (appended env s op).length := by
  rw [(step_sameRooms env s op).streamLen, streamLen_foldl_append h]

/-! ## Deliveries that change nothing -/

/-- A delivery accepts no event exactly when none passes its verdict at the start of the delivery. -/
theorem no_accepted_iff {env : Env} (r : Receipt) (pdus : List Pdu) :
    (∀ x ∈ trace (receivePdu env) r pdus, ¬ Accepted env x) ↔
      ∀ p ∈ pdus, ¬ Accepted env (r, p) := by
  induction pdus generalizing r with
  | nil => simp [trace]
  | cons p pdus ih =>
      rw [trace, List.forall_mem_cons, List.forall_mem_cons, ih]
      refine and_congr_right fun hrefused => ?_
      -- a refused event only adds its acknowledgement, which no verdict reads
      have hsame : (receivePdu env r p).data = r.data ∧ (receivePdu env r p).byId = r.byId := by
        simp only [receivePdu]
        split
        · rename_i hok
          exact absurd hok hrefused
        · exact ⟨rfl, rfl⟩
      unfold Accepted
      simp only [hsame]

theorem appended_receiveTransaction_eq_nil_iff {env : Env} {s : Data} {txn : Json} :
    appended env s (.receiveTransaction txn) = [] ↔
      ∀ p ∈ transactionPdus txn,
        federationVerdict env s (knownEvents s (transactionPdus txn)) p ≠ .ok () := by
  simp only [appended, List.map_eq_nil_iff, List.filter_eq_nil_iff, decide_eq_true_eq]
  exact no_accepted_iff (Receipt.start s (transactionPdus txn)) (transactionPdus txn)

/-- Every room's timeline and current state and the event stream are the same. -/
structure SameHistory (s t : Data) : Prop where
  timeline : ∀ room, timeline s room = RoomService.timeline t room
  currentState : ∀ room, currentState s room = RoomService.currentState t room
  eventStream : s .eventStream = t .eventStream

theorem RoomService.SameRooms.history {s t : Data} (h : SameRooms s t) : SameHistory s t :=
  ⟨h.timeline, h.currentState, h.eventStream⟩

/-- A delivery after any run changes nothing exactly when every event of it is refused there, whether
or not the transaction was delivered before. -/
theorem redelivery_changes_nothing_iff (env : Env) (before later : List Op) (txn : Json) :
    let s := run (step env) Store.empty (before ++ .receiveTransaction txn :: later)
    SameHistory (step env s (.receiveTransaction txn)) s ↔
      ∀ p ∈ transactionPdus txn,
        federationVerdict env s (knownEvents s (transactionPdus txn)) p ≠ .ok () := by
  intro s
  have hs : Reachable env s := ⟨_, rfl⟩
  rw [← appended_receiveTransaction_eq_nil_iff]
  constructor
  · intro h
    have hlen := streamLen_step hs.dense env (.receiveTransaction txn)
    rw [streamLen, Store.count, h.eventStream] at hlen
    have hlen : streamLen s =
        streamLen s + (appended env s (.receiveTransaction txn)).length := hlen
    rw [← List.length_eq_zero_iff]
    omega
  · intro h
    have hsame := step_sameRooms env s (.receiveTransaction txn)
    rw [h] at hsame
    exact hsame.history

open SampleRun in
/-- A delivery of a room and its first message is accepted, and its retry appends the message
again. -/
theorem redelivery_appends_again :
    ¬ ∀ (env : Env) (before later : List Op) (txn : Json),
      (∀ x ∈ receiveSteps env (run (step env) Store.empty before) txn, Accepted env x) →
        let s := run (step env) Store.empty (before ++ .receiveTransaction txn :: later)
        SameHistory (step env s (.receiveTransaction txn)) s := by
  intro h
  have hall : ∀ x ∈ receiveSteps env (run (step env) Store.empty [])
      (transaction [create, aliceJoin, message]), Accepted env x := by
    decide +kernel
  have hsame := (h env [] [] (transaction [create, aliceJoin, message]) hall).eventStream
  revert hsame
  decide +kernel

end GaussMatrix.Svc
