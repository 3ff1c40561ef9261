import GaussMatrix.Svc.CoPresence
import GaussMatrix.Svc.ServerKeys

/-!
# Presence, receipts and typing

A presence and a receipt are stored with a separator after their first part, and read back up to the
first separator; a receipt is stored under a room id and a user id joined the same way.  What is read
is what was set where the first part has no separator, until another pair that joins to the same key
is set.
-/

namespace GaussMatrix.Svc

open Library Util Api Api.Events StateRes RoomService Fed

/-! ## The calls -/

/-- The key of a user in a room. -/
def receiptKey (room : RoomId) (user : UserId) : Str := room.asStr ++ sep :: user.asStr

/-- The longest that a typing notification is honoured, in milliseconds. -/
def maxTypingMs : UInt64 := 30000

/-- Mark a user as typing until the time is over, or as not typing; whether the user is joined, and
the data. -/
def setTyping (s : Data) (user : UserId) (room : RoomId) (typing : Bool) (timeoutMs now : UInt64) :
    Bool × Data :=
  if isJoined s room user then
    if typing then
      let expiry := now.toNat + (min timeoutMs maxTypingMs).toNat
      (true, s.put .typing (receiptKey room user) (.text (decimal expiry)))
    else (true, s.delete .typing (receiptKey room user))
  else (false, s)

/-- Record what a user has read up to; whether the user is joined, and the data. -/
def setReadReceipt (s : Data) (user : UserId) (room : RoomId) (eventId : Str) (now : UInt64) :
    Bool × Data :=
  if isJoined s room user then
    (true, s.put .receipts (receiptKey room user) (.text (eventId ++ sep :: decimal now.toNat)))
  else (false, s)

/-- A call that writes room history or presence, a receipt, or a typing notification. -/
inductive EphemeralOp
  | server (op : ServerOp)
  | setReadReceipt (user : UserId) (room : RoomId) (eventId : Str) (now : UInt64)
  | setTyping (user : UserId) (room : RoomId) (typing : Bool) (timeoutMs now : UInt64)

/-- The data after a call. -/
def ephemeralStep (env : Env) (s : Data) : EphemeralOp → Data
  | .server op => serverStep env s op
  | .setReadReceipt user room eventId now => (setReadReceipt s user room eventId now).2
  | .setTyping user room typing timeoutMs now => (setTyping s user room typing timeoutMs now).2

/-! ## What is read -/

/-- The events that the receipts of a room report for a user. -/
def reportedEvents (s : Data) (room : RoomId) (user : UserId) : List Str :=
  ((readReceipts s room).filter fun receipt => receipt.user = user).map ReadReceipt.eventId

/-- The presence reads as it was set. -/
def PresenceReads (user : UserId) (presence : Str) (statusMsg : Option Str) (s : Data) : Prop :=
  presenceFor s user =
    some ⟨user, presence, if statusMsg.getD [] = [] then none else statusMsg⟩

/-- The receipts of the room report the one event for the user. -/
def ReceiptReads (user : UserId) (room : RoomId) (eventId : Str) (s : Data) : Prop :=
  reportedEvents s room user = [eventId]

/-- The receipt that a call writes: its key, and the event. -/
def receiptWritten (s : Data) : EphemeralOp → Option (Str × Str)
  | .setReadReceipt user room eventId _ =>
      if isJoined s room user then some (receiptKey room user, eventId) else none
  | _ => none

/-- No call of the run writes another event under the key of the user in the room. -/
def KeyKept (env : Env) (s : Data) (ops : List EphemeralOp) (room : RoomId) (user : UserId)
    (eventId : Str) : Prop :=
  ∀ x ∈ trace (ephemeralStep env) s ops, ∀ w ∈ receiptWritten x.1 x.2,
    w.1 = receiptKey room user → w.2 = eventId

section

variable {env : Env} {s : Data} {ops : List EphemeralOp} {op : EphemeralOp} {user : UserId}
  {room : RoomId} {presence eventId : Str} {statusMsg : Option Str} {now : UInt64}

/-! ## Families that a call leaves alone -/

/-- A call that writes room history leaves the other families alone. -/
theorem step_of_ne {cf : Cf} (hrooms : cf ≠ .events ∧ cf ≠ .roomState ∧ cf ≠ .eventStream)
    (htxn : cf ≠ .transactions) (hkeys : cf ≠ .deviceKeys) (s : Data) (op : Op) :
    step env s op cf = s cf := by
  cases op with
  | createRoom creator name topic now => exact createRoom_of_ne hrooms env s creator name topic now
  | changeMembership actor room target membership now =>
      simp only [step, changeMembership]
      split
      · rfl
      · exact append_of_ne hrooms s _
  | sendMessage sender room eventType txnId content now =>
      simp only [step, sendMessage]
      split
      · rfl
      · split
        · rfl
        · exact (Store.put_of_ne _ htxn _ _).trans (append_of_ne hrooms s _)
  | receiveTransaction txn =>
      have hedus : ∀ (edus : List Edu) (t : Data), edus.foldl receiveEdu t cf = t cf := by
        intro edus
        induction edus with
        | nil => exact fun _ => rfl
        | cons edu edus ih => exact fun t => (ih _).trans (receiveEdu_of_ne hkeys t edu)
      simp only [step, receiveTransaction]
      rw [hedus, run_receivePdu_data]
      exact foldl_append_of_ne hrooms s _

theorem setTyping_of_ne {cf : Cf} (hcf : cf ≠ .typing) (s : Data) (user : UserId) (room : RoomId)
    (typing : Bool) (timeoutMs now : UInt64) :
    (setTyping s user room typing timeoutMs now).2 cf = s cf := by
  unfold setTyping
  split
  · split
    · exact Store.put_of_ne _ hcf _ _
    · exact if_neg hcf
  · rfl

theorem setReadReceipt_of_ne {cf : Cf} (hcf : cf ≠ .receipts) (s : Data) (user : UserId)
    (room : RoomId) (eventId : Str) (now : UInt64) :
    (setReadReceipt s user room eventId now).2 cf = s cf := by
  unfold setReadReceipt
  split
  · exact Store.put_of_ne _ hcf _ _
  · rfl

/-! ## Presence -/

/-- Presence that was just set reads back up to its first separator. -/
theorem presenceReads_setPresence_iff :
    PresenceReads user presence statusMsg (setPresence s user presence statusMsg) ↔
      sep ∉ presence := by
  have hget : (setPresence s user presence statusMsg).get .presence user.asStr =
      some (.text (presence ++ sep :: statusMsg.getD [])) := by
    rw [setPresence, Store.get_put, if_pos rfl]
  rw [PresenceReads, presenceFor, hget]
  by_cases hsep : sep ∈ presence
  · -- the part up to the first separator is shorter
    obtain ⟨first, rest, hpresence, hfirst⟩ := List.eq_append_cons_of_mem hsep
    have hsplit : splitOnce sep (presence ++ sep :: statusMsg.getD []) =
        some (first, rest ++ sep :: statusMsg.getD []) := by
      rw [hpresence, List.append_assoc, List.cons_append]
      exact splitOnce_append hfirst _
    apply iff_of_false _ (not_not.mpr hsep)
    intro h
    simp only [Record.asText, Option.bind_some, hsplit, Option.getD_some, Option.bind_eq_bind,
      Option.pure_def, Option.some.injEq, PresenceUpdate.mk.injEq] at h
    rw [← h.2.1] at hsep
    exact hfirst hsep
  · apply iff_of_true _ hsep
    have hstatus : (if statusMsg.getD [] = [] then none else some (statusMsg.getD [])) =
        if statusMsg.getD [] = [] then none else statusMsg := by
      cases statusMsg <;> rfl
    simp only [Record.asText, Option.bind_some, splitOnce_append hsep, Option.getD_some,
      Option.bind_eq_bind, Option.pure_def, hstatus]

/-- A call that does not set the user's presence leaves it. -/
theorem presenceFor_step
    (hop : ∀ presence statusMsg, op ≠ .server (.setPresence user presence statusMsg)) :
    presenceFor (ephemeralStep env s op) user = presenceFor s user := by
  have hget : (ephemeralStep env s op).get .presence user.asStr = s.get .presence user.asStr := by
    cases op with
    | server op =>
        cases op with
        | room op =>
            show (step env s op .presence).get _ = _
            rw [step_of_ne (by decide) (by decide) (by decide)]
            rfl
        | setPresence other presence statusMsg =>
            have hne : user.asStr ≠ other.asStr := by
              intro hsame
              rw [UserId.ext hsame] at hop
              exact hop presence statusMsg rfl
            show (setPresence s other presence statusMsg).get .presence user.asStr = _
            rw [setPresence, Store.get_put, if_neg hne]
    | setReadReceipt other room eventId now =>
        show ((setReadReceipt s other room eventId now).2 .presence).get _ = _
        rw [setReadReceipt_of_ne (by decide)]
        rfl
    | setTyping other room typing timeoutMs now =>
        show ((setTyping s other room typing timeoutMs now).2 .presence).get _ = _
        rw [setTyping_of_ne (by decide)]
        rfl
  rw [presenceFor, hget]
  rfl

/-! ## Receipts -/

/-- The event of a stored receipt. -/
def receiptEvent (value : Record) : Option Str := do
  let (eventId, ts) ← value.asText.bind (splitOnce sep)
  let _ ← parseU64 ts
  return eventId

/-- The event of a receipt reads back, unless it has the separator. -/
theorem receiptEvent_text (eventId : Str) (now : UInt64) :
    receiptEvent (.text (eventId ++ sep :: decimal now.toNat)) =
      if sep ∈ eventId then none else some eventId := by
  by_cases hsep : sep ∈ eventId
  · -- what follows the first separator has another one, so it is no number
    obtain ⟨first, rest, hevent, hfirst⟩ := List.eq_append_cons_of_mem hsep
    have hsplit : splitOnce sep (eventId ++ sep :: decimal now.toNat) =
        some (first, rest ++ sep :: decimal now.toNat) := by
      rw [hevent, List.append_assoc, List.cons_append]
      exact splitOnce_append hfirst _
    rw [if_pos hsep, receiptEvent]
    simp only [Record.asText, Option.bind_some, hsplit, Option.bind_eq_bind]
    rw [parseU64_eq_none (by simp)]
    rfl
  · rw [if_neg hsep, receiptEvent]
    simp only [Record.asText, Option.bind_some, splitOnce_append hsep, Option.bind_eq_bind,
      parseU64_decimal now.toNat_lt]
    rfl

/-- Of the entries of a map, a function that has something for one key only is that of the value
under the key. -/
theorem filterMap_entries_of_key {α β γ : Type} [LinearOrder α] (m : SortedMap α β) {k : α}
    {f : α × β → Option γ} (hf : ∀ e c, f e = some c → e.1 = k) :
    m.entries.filterMap f = ((m.get k).bind fun v => f (k, v)).toList := by
  have hnone : ∀ l : List (α × β), k ∉ l.map Prod.fst → l.filterMap f = [] := by
    intro l hl
    rw [List.filterMap_eq_nil_iff]
    intro e he
    rw [Option.eq_none_iff_forall_ne_some]
    intro c hc
    exact hl (List.mem_map.mpr ⟨e, he, hf e c hc⟩)
  cases hget : m.get k with
  | none =>
      apply hnone
      intro hk
      obtain ⟨v, hv⟩ := (m.mem_keys_iff k).mp hk
      exact nomatch hget.symm.trans hv
  | some v =>
      obtain ⟨before, after, hentries⟩ := List.append_of_mem ((m.mem_entries_iff k v).mpr hget)
      -- the other entries have other keys
      have hkeys := m.nodup_keys
      rw [SortedMap.keys, hentries, List.map_append, List.map_cons,
        List.nodup_append'] at hkeys
      have hbefore : k ∉ before.map Prod.fst :=
        fun hk => hkeys.2.2 hk List.mem_cons_self
      have hafter : k ∉ after.map Prod.fst := (List.nodup_cons.mp hkeys.2.1).1
      rw [hentries, List.filterMap_append, List.filterMap_cons, hnone before hbefore,
        hnone after hafter, Option.bind_some, List.nil_append]
      cases f (k, v) <;> rfl

/-- The receipt of an entry of the family, if it is one of the room. -/
def receiptOf (room : RoomId) (e : Str × Record) : Option ReadReceipt := do
  let user ← (stripPrefix (roomPrefix room) e.1).bind UserId.parse
  let (eventId, ts) ← e.2.asText.bind (splitOnce sep)
  let ts ← parseU64 ts
  return ⟨user, eventId, ts⟩

/-- The event of an entry's receipt, if it is one of the user in the room. -/
def eventOf (room : RoomId) (user : UserId) (e : Str × Record) : Option Str :=
  ((receiptOf room e).filter fun receipt => receipt.user = user).map ReadReceipt.eventId

/-- A receipt of the user is stored under the user's key. -/
theorem key_of_eventOf {e : Str × Record} {c : Str} (h : eventOf room user e = some c) :
    e.1 = receiptKey room user := by
  obtain ⟨receipt, hreceipt, -⟩ := Option.map_eq_some_iff.mp h
  obtain ⟨hreceipt, huser⟩ := Option.filter_eq_some_iff.mp hreceipt
  obtain ⟨other, hother, hrest⟩ := Option.bind_eq_some_iff.mp hreceipt
  obtain ⟨⟨event, ts⟩, -, hrest⟩ := Option.bind_eq_some_iff.mp hrest
  obtain ⟨ts', -, hrest⟩ := Option.bind_eq_some_iff.mp hrest
  obtain ⟨text, htext, hparse⟩ := Option.bind_eq_some_iff.mp hother
  have hsame : other = user := by
    rw [← of_decide_eq_true huser, ← Option.some.inj hrest]
  rw [stripPrefix_eq_some_iff.mp htext, ← UserId.asStr_of_parse hparse, hsame, roomPrefix,
    List.append_assoc]
  rfl

theorem eventOf_receiptKey (room : RoomId) (user : UserId) (value : Record) :
    eventOf room user (receiptKey room user, value) = receiptEvent value := by
  have huser : (stripPrefix (roomPrefix room) (receiptKey room user)).bind UserId.parse =
      some user := by
    rw [stripPrefix_eq_some_iff.mpr (show receiptKey room user = roomPrefix room ++ user.asStr by
      rw [roomPrefix, List.append_assoc]
      rfl), Option.bind_some, UserId.parse_asStr]
  unfold eventOf receiptOf receiptEvent
  rw [huser]
  simp only [Option.bind_eq_bind, Option.bind_some]
  cases value.asText.bind (splitOnce sep) with
  | none => rfl
  | some parts =>
      simp only [Option.bind_some]
      cases parseU64 parts.2 with
      | none => rfl
      | some ts => simp

/-- The receipts of a room report for a user what is stored under the key of the two. -/
theorem reportedEvents_eq (s : Data) (room : RoomId) (user : UserId) :
    reportedEvents s room user =
      ((s.get .receipts (receiptKey room user)).bind receiptEvent).toList := by
  have hperm : (reportedEvents s room user).Perm
      ((s .receipts).entries.filterMap (eventOf room user)) := by
    have hsorted : (readReceipts s room).Perm ((s .receipts).entries.filterMap (receiptOf room)) :=
      perm_sortByKey _
    have hfiltered := (hsorted.filter fun receipt => receipt.user = user).map ReadReceipt.eventId
    rw [List.filter_filterMap, List.map_filterMap] at hfiltered
    exact hfiltered
  rw [filterMap_entries_of_key (s .receipts) fun _ _ => key_of_eventOf] at hperm
  simp only [eventOf_receiptKey] at hperm
  rw [← Store.get] at hperm
  cases hread : (s.get .receipts (receiptKey room user)).bind receiptEvent with
  | none =>
      rw [hread] at hperm
      exact List.perm_nil.mp hperm
  | some eventId =>
      rw [hread] at hperm
      exact List.perm_singleton.mp hperm

theorem reportedEvents_setReadReceipt (hjoined : isJoined s room user = true) (eventId : Str)
    (now : UInt64) : reportedEvents (setReadReceipt s user room eventId now).2 room user =
      if sep ∈ eventId then [] else [eventId] := by
  have hset : (setReadReceipt s user room eventId now).2 =
      s.put .receipts (receiptKey room user) (.text (eventId ++ sep :: decimal now.toNat)) := by
    rw [setReadReceipt, if_pos hjoined]
  rw [reportedEvents_eq, hset, Store.get_put, if_pos rfl, Option.bind_some, receiptEvent_text]
  split <;> rfl

/-- A call changes what is reported for a user when it writes a receipt under the user's key. -/
theorem reportedEvents_step (env : Env) (s : Data) (op : EphemeralOp) (room : RoomId)
    (user : UserId) : reportedEvents (ephemeralStep env s op) room user =
      match receiptWritten s op with
      | some w =>
          if w.1 = receiptKey room user then (if sep ∈ w.2 then [] else [w.2])
          else reportedEvents s room user
      | none => reportedEvents s room user := by
  -- only the receipts family is read
  have hsame : ∀ t : Data, t .receipts = s .receipts →
      reportedEvents t room user = reportedEvents s room user := by
    intro t ht
    rw [reportedEvents_eq, reportedEvents_eq, Store.get, Store.get, ht]
  cases op with
  | server op =>
      apply hsame
      cases op with
      | room op => exact step_of_ne (by decide) (by decide) (by decide) s op
      | setPresence other presence statusMsg =>
          have hne : Cf.receipts ≠ Cf.presence := by decide
          exact Store.put_of_ne s hne other.asStr (.text (presence ++ sep :: statusMsg.getD []))
  | setTyping other room' typing timeoutMs now =>
      exact hsame _ (setTyping_of_ne (by decide) s other room' typing timeoutMs now)
  | setReadReceipt other room' eventId now =>
      show reportedEvents (setReadReceipt s other room' eventId now).2 room user = _
      rw [receiptWritten]
      by_cases hjoined : isJoined s room' other = true
      · have hset : (setReadReceipt s other room' eventId now).2 =
            s.put .receipts (receiptKey room' other)
              (.text (eventId ++ sep :: decimal now.toNat)) := by
          rw [setReadReceipt, if_pos hjoined]
        rw [if_pos hjoined, hset, reportedEvents_eq, Store.get_put]
        by_cases hkey : receiptKey room' other = receiptKey room user
        · simp only [hkey, if_true, Option.bind_some, receiptEvent_text]
          split <;> rfl
        · simp only [if_neg hkey, if_neg (Ne.symm hkey)]
          rw [← reportedEvents_eq]
      · rw [if_neg hjoined, setReadReceipt, if_neg hjoined]

/-! ## Runs -/

/-- What was set is read throughout a run without such a call exactly when it has no separator. -/
theorem presence_throughout_iff
    (hops : ∀ op ∈ ops, ∀ presence statusMsg, op ≠ .server (.setPresence user presence statusMsg)) :
    Throughout (ephemeralStep env) (setPresence s user presence statusMsg) ops
      (PresenceReads user presence statusMsg) ↔ sep ∉ presence := by
  constructor
  · intro h
    exact presenceReads_setPresence_iff.mp h.first
  · intro hsep
    apply throughout_of_steps (presenceReads_setPresence_iff.mpr hsep)
    intro x hx hread
    rw [PresenceReads, presenceFor_step (hops x.2 (mem_of_mem_trace hx))]
    exact hread

/-- What was set is reported throughout a run exactly when the event has no separator and no call
writes another event under the key. -/
theorem receipt_throughout_iff (hjoined : isJoined s room user = true) :
    Throughout (ephemeralStep env) (setReadReceipt s user room eventId now).2 ops
      (ReceiptReads user room eventId) ↔
        sep ∉ eventId ∧ KeyKept env (setReadReceipt s user room eventId now).2 ops room user
          eventId := by
  have hfirst := reportedEvents_setReadReceipt hjoined eventId now
  constructor
  · intro h
    constructor
    · intro hsep
      have hread := h.first
      rw [ReceiptReads, hfirst, if_pos hsep] at hread
      exact nomatch hread
    · intro x hx w hw hkey
      have hread := (h.of_mem_trace hx).2
      rw [ReceiptReads, reportedEvents_step, Option.mem_def.mp hw] at hread
      simp only [if_pos hkey] at hread
      split at hread
      · exact nomatch hread
      · exact (List.cons.inj hread).1
  · intro ⟨hsep, hkept⟩
    apply throughout_of_steps
    · rw [ReceiptReads, hfirst, if_neg hsep]
    · intro x hx hread
      rw [ReceiptReads, reportedEvents_step]
      cases hw : receiptWritten x.1 x.2 with
      | none => exact hread
      | some w =>
          by_cases hkey : w.1 = receiptKey room user
          · simp only [if_pos hkey]
            rw [hkept x hx w hw hkey, if_neg hsep]
          · simp only [if_neg hkey]
            exact hread

end

end GaussMatrix.Svc
