import GaussMatrix.Svc.CurrentState
import GaussMatrix.Svc.History
import GaussMatrix.Svc.Stream

/-!
# The tip of a room

A local call links its event onto the last event of the room's timeline, one deeper.  The depth is a
`u64` that a peer may have chosen, so the successor exists only below the greatest one; where it
exists the event becomes the new tip.
-/

namespace GaussMatrix.Svc

open Library Util Api Api.Events StateRes RoomService Fed

namespace RoomService

variable {s : Data} {room : RoomId} {p q : Pdu}

theorem startsWith_timelineKey_self (q : Pdu) :
    startsWith (roomPrefix q.roomId) (timelineKey q) = true :=
  startsWith_iff.mpr ⟨padDecimal 20 q.depth.toNat ++ sep :: q.eventId.asStr, by
    rw [roomPrefix, timelineKey, List.append_assoc]
    rfl⟩

theorem depth_lt_pow (d : UInt64) : d.toNat < 10 ^ 20 := by
  have hlt : d.toNat < 2 ^ 64 := d.toNat_lt
  omega

/-- The events of a room are stored in the order of their depths. -/
theorem timelineKey_lt_of_depth_lt (hroom : p.roomId = q.roomId)
    (hdepth : p.depth.toNat < q.depth.toNat) : timelineKey p < timelineKey q := by
  have hpad : padDecimal 20 p.depth.toNat < padDecimal 20 q.depth.toNat :=
    (padDecimal_lt_iff (by decide) (depth_lt_pow _) (depth_lt_pow _)).mpr hdepth
  have hlen : (padDecimal 20 p.depth.toNat).length = (padDecimal 20 q.depth.toNat).length := by
    rw [length_padDecimal (by decide) (depth_lt_pow _),
      length_padDecimal (by decide) (depth_lt_pow _)]
  have hrest := append_lt_append_of_lt hlen hpad (sep :: p.eventId.asStr) (sep :: q.eventId.asStr)
  rw [timelineKey, timelineKey, hroom]
  apply List.append_left_lt
  rw [List.cons_lt_cons_iff]
  exact .inr ⟨rfl, hrest⟩

/-- The tip has the greatest key of the timeline. -/
theorem exists_tip_ge (hs : Keyed s) (hp : p ∈ timeline s room) :
    ∃ tip, (timeline s room).getLast? = some tip ∧ timelineKey p ≤ timelineKey tip := by
  have hlast := List.getLast?_eq_some_getLast (List.ne_nil_of_mem hp)
  have hmax := (getLast?_eq_some_iff_of_pairwise (pairwise_timeline hs room)).mp hlast
  exact ⟨_, hlast, hmax.2 p hp⟩

/-- An appended event is the new tip unless the old one sorts after it. -/
theorem getLast?_timeline_append_iff (hs : Keyed s) (hq : q.roomId = room) :
    (timeline (append s q) room).getLast? = some q ↔
      ∀ tip ∈ (timeline s room).getLast?, timelineKey tip ≤ timelineKey q := by
  have hpre : startsWith (roomPrefix room) (timelineKey q) = true :=
    hq ▸ startsWith_timelineKey_self q
  have hmemq : q ∈ timeline (append s q) room := (mem_timeline_append hs).mpr ⟨.inl rfl, hpre⟩
  rw [getLast?_eq_some_iff_of_pairwise (pairwise_timeline (hs.append q) room)]
  constructor
  · rintro ⟨-, hmax⟩ tip htip
    have hmem : tip ∈ timeline s room := List.mem_of_getLast? htip
    by_cases hkey : timelineKey tip = timelineKey q
    · exact hkey.le
    · have hprefix := ((mem_timeline_iff hs).mp hmem).2
      exact hmax tip ((mem_timeline_append hs).mpr ⟨.inr ⟨hmem, hkey⟩, hprefix⟩)
  · intro htip
    refine ⟨hmemq, fun x hx => ?_⟩
    rcases ((mem_timeline_append hs).mp hx).1 with rfl | ⟨hx, -⟩
    · exact le_rfl
    · obtain ⟨tip, hlast, hle⟩ := exists_tip_ge hs hx
      exact hle.trans (htip tip hlast)

/-- An event that sorts after the tip is put at the end of the timeline. -/
theorem timeline_append_of_last (hs : Keyed s) (hq : q.roomId = room)
    (htip : ∀ tip ∈ (timeline s room).getLast?, timelineKey tip < timelineKey q) :
    timeline (append s q) room = timeline s room ++ [q] := by
  have hlt : ∀ x ∈ timeline s room, timelineKey x < timelineKey q := by
    intro x hx
    obtain ⟨tip, hlast, hle⟩ := exists_tip_ge hs hx
    exact hle.trans_lt (htip tip hlast)
  have hsorted : (timeline s room ++ [q]).Pairwise (fun a b => timelineKey a < timelineKey b) := by
    rw [List.pairwise_append]
    refine ⟨pairwise_timeline hs room, List.pairwise_singleton _ _, fun x hx y hy => ?_⟩
    rw [List.mem_singleton.mp hy]
    exact hlt x hx
  refine eq_of_pairwise_of_mem_iff (pairwise_timeline (hs.append q) room) hsorted fun x => ?_
  rw [mem_timeline_append hs, List.mem_append, List.mem_singleton]
  constructor
  · rintro ⟨rfl | ⟨hx, -⟩, -⟩
    · exact .inr rfl
    · exact .inl hx
  · rintro (hx | rfl)
    · exact ⟨.inr ⟨hx, (hlt x hx).ne⟩, ((mem_timeline_iff hs).mp hx).2⟩
    · exact ⟨.inl rfl, hq ▸ startsWith_timelineKey_self x⟩

end RoomService

/-! ## Links after the tip -/

/-- The depth of a room's tip, zero in an empty timeline. -/
def tipDepth (s : Data) (room : RoomId) : Nat :=
  match (timeline s room).getLast? with
  | some tip => tip.depth.toNat
  | none => 0

/-- The room whose tip a call links an event onto; a repeated client transaction links none. -/
def Op.linksOnto (s : Data) : Op → Option RoomId
  | createRoom _ _ _ _ => none
  | changeMembership _ room _ _ _ => some room
  | sendMessage sender room _ txnId _ _ =>
      if (s.get .transactions (txnKey sender txnId)).isSome then none else some room
  | receiveTransaction _ => none

section

variable {env : Env} {s : Data} {room : RoomId} {op : Op} {p : Pdu}

theorem toNat_add_one (d : UInt64) (h : d.toNat + 1 < 2 ^ 64) : (d + 1).toNat = d.toNat + 1 := by
  rw [UInt64.toNat_add]
  exact Nat.mod_eq_of_lt h

/-- The depth after the tip is its successor exactly where that is a `u64`. -/
theorem tipLink_depth_iff :
    (∃ link, tipLink env s room = some link ∧ link.1.toNat = tipDepth s room + 1) ↔
      ∀ tip ∈ (timeline s room).getLast?, tip.depth.toNat + 1 < 2 ^ 64 := by
  rw [tipLink, tipDepth]
  cases (timeline s room).getLast? with
  | none => simp
  | some tip =>
      simp only [Option.mem_some, forall_eq']
      constructor
      · rintro ⟨link, -, hdepth⟩
        have hlt : link.1.toNat < 2 ^ 64 := link.1.toNat_lt
        omega
      · intro h
        have hne : ¬ (env.overflowChecks = true ∧ tip.depth.toNat + 1 = 2 ^ 64) := by omega
        rw [nextDepth, if_neg hne]
        exact ⟨_, rfl, toNat_add_one tip.depth h⟩

theorem membershipEvent_link {actor target : UserId} {membership : Str} {now : UInt64}
    (h : membershipEvent env s actor room target membership now = some p) :
    tipLink env s room = some (p.depth, p.prevEvents) := by
  obtain ⟨⟨depth, prev⟩, hlink, hp⟩ := Option.bind_eq_some_iff.mp h
  obtain ⟨id, rfl⟩ := withReferenceId_eq_some hp
  exact hlink

theorem messageEvent_link {sender : UserId} {eventType content : Str} {now : UInt64}
    (h : messageEvent env s sender room eventType content now = some p) :
    tipLink env s room = some (p.depth, p.prevEvents) := by
  obtain ⟨⟨depth, prev⟩, hlink, hp⟩ := Option.bind_eq_some_iff.mp h
  obtain ⟨id, rfl⟩ := withReferenceId_eq_some hp
  exact hlink

/-- What a linking call appends is one event of its room, linked onto the tip. -/
theorem appended_of_linksOnto (hop : op.linksOnto s = some room) (hp : p ∈ appended env s op) :
    appended env s op = [p] ∧ p.roomId = room ∧
      tipLink env s room = some (p.depth, p.prevEvents) := by
  cases op with
  | createRoom creator name topic now => cases hop
  | changeMembership actor room' target membership now =>
      obtain rfl := Option.some.inj hop
      have hbind := Option.mem_toList.mp hp
      obtain ⟨q, hq, hauth⟩ := Option.bind_eq_some_iff.mp hbind
      obtain ⟨rfl, -⟩ := authorized_eq_some_iff.mp hauth
      refine ⟨?_, (membershipEvent_fields hq).1, membershipEvent_link hq⟩
      rw [appended, hbind]
      rfl
  | sendMessage sender room' eventType txnId content now =>
      rw [Op.linksOnto] at hop
      rw [appended] at hp ⊢
      cases htxn : s.get .transactions (txnKey sender txnId) with
      | some existing => simp [htxn] at hop
      | none =>
          simp only [htxn, Option.isSome_none, Bool.false_eq_true, if_false, Option.some.injEq]
            at hop hp ⊢
          subst hop
          have hbind := Option.mem_toList.mp hp
          obtain ⟨q, hq, hauth⟩ := Option.bind_eq_some_iff.mp hbind
          obtain ⟨rfl, -⟩ := authorized_eq_some_iff.mp hauth
          refine ⟨?_, (messageEvent_fields hq).1, messageEvent_link hq⟩
          rw [hbind]
          rfl
  | receiveTransaction txn => cases hop

variable (env s room op) in
/-- The call's depth is the successor of the tip's, and what it appends is the room's new tip. -/
structure LinksAfterTip : Prop where
  depth : ∃ link, tipLink env s room = some link ∧ link.1.toNat = tipDepth s room + 1
  last : ∀ p ∈ appended env s op, (timeline (step env s op) room).getLast? = some p

variable (env s room op) in
/-- The tip is not at the greatest depth; and if it is another room's, whose id continues this room's
past a separator, it does not sort after the event appended. -/
def TipBelow : Prop :=
  ∀ tip ∈ (timeline s room).getLast?, tip.depth.toNat + 1 < 2 ^ 64 ∧
    (tip.roomId = room ∨ ∀ p ∈ appended env s op, timelineKey tip ≤ timelineKey p)

theorem linksAfterTip_iff (hs : Keyed s) (hop : op.linksOnto s = some room) :
    LinksAfterTip env s room op ↔ TipBelow env s room op := by
  -- what is appended comes last exactly when the tip sorts before it
  have hlast : ∀ p ∈ appended env s op,
      ((timeline (step env s op) room).getLast? = some p ↔
        ∀ tip ∈ (timeline s room).getLast?, timelineKey tip ≤ timelineKey p) := by
    intro p hp
    obtain ⟨happ, hroom, -⟩ := appended_of_linksOnto hop hp
    rw [(step_sameRooms env s op).timeline, happ]
    exact getLast?_timeline_append_iff hs hroom
  constructor
  · rintro ⟨hdepth, hends⟩ tip htip
    refine ⟨tipLink_depth_iff.mp hdepth tip htip, .inr fun p hp => ?_⟩
    exact (hlast p hp).mp (hends p hp) tip htip
  · intro h
    have hdepth : ∃ link, tipLink env s room = some link ∧ link.1.toNat = tipDepth s room + 1 :=
      tipLink_depth_iff.mpr fun tip htip => (h tip htip).1
    refine ⟨hdepth, fun p hp => (hlast p hp).mpr fun tip htip => ?_⟩
    rcases (h tip htip).2 with hown | hkey
    · obtain ⟨-, hroom, hlink⟩ := appended_of_linksOnto hop hp
      obtain ⟨link, hlink', hlt⟩ := hdepth
      obtain rfl := Option.some.inj (hlink.symm.trans hlink')
      have hdepth : p.depth.toNat = tip.depth.toNat + 1 := by
        rw [tipDepth, htip] at hlt
        exact hlt
      exact (timelineKey_lt_of_depth_lt (hown.trans hroom.symm) (by omega)).le
    · exact hkey p hp

end

/-! ## The events of a new room -/

/-- Depths that count up from `depth`, and each event linked to the one before. -/
def LinkedFrom : Nat → List EventId → List Pdu → Prop
  | _, _, [] => True
  | depth, prevEvents, p :: ps =>
      p.depth.toNat = depth + 1 ∧ p.prevEvents = prevEvents ∧ LinkedFrom (depth + 1) [p.eventId] ps

theorem LinkedFrom.depth_le {depth : Nat} {prevEvents : List EventId} {ps : List Pdu} {p : Pdu}
    (h : LinkedFrom depth prevEvents ps) (hp : p ∈ ps) : p.depth.toNat ≤ depth + ps.length := by
  induction ps generalizing depth prevEvents with
  | nil => simp at hp
  | cons q ps ih =>
      obtain ⟨hdepth, -, hrest⟩ := h
      rw [List.length_cons]
      rcases List.mem_cons.mp hp with rfl | hp
      · omega
      · have hle := ih hrest hp
        omega

section

variable {env : Env} {room : RoomId} {creator : UserId} {now : Nat → UInt64} {i : Nat}
  {prevEvents : List EventId} {contents : List (Str × Str × Str)}

theorem length_initialEvents_le :
    (initialEvents env room creator now i prevEvents contents).length ≤ contents.length := by
  induction contents generalizing i prevEvents with
  | nil => exact le_rfl
  | cons content contents ih =>
      simp only [initialEvents]
      split
      · exact Nat.zero_le _
      · exact Nat.succ_le_succ ih

theorem linkedFrom_initialEvents (h : i + contents.length < 2 ^ 64) :
    LinkedFrom i prevEvents (initialEvents env room creator now i prevEvents contents) := by
  induction contents generalizing i prevEvents with
  | nil => trivial
  | cons content contents ih =>
      rw [List.length_cons] at h
      simp only [initialEvents]
      split
      · trivial
      · rename_i p hp
        obtain ⟨id, rfl⟩ := withReferenceId_eq_some hp
        refine ⟨?_, rfl, ih (by omega)⟩
        rw [UInt64.toNat_ofNat']
        exact Nat.mod_eq_of_lt (by omega)

theorem roomId_of_mem_initialEvents {p : Pdu}
    (hp : p ∈ initialEvents env room creator now i prevEvents contents) : p.roomId = room := by
  induction contents generalizing i prevEvents with
  | nil => simp [initialEvents] at hp
  | cons content contents ih =>
      simp only [initialEvents] at hp
      split at hp
      · simp at hp
      · rename_i q hq
        rcases List.mem_cons.mp hp with rfl | hp
        · obtain ⟨id, rfl⟩ := withReferenceId_eq_some hq
          rfl
        · exact ih hp

end

theorem length_initialState_le (creator : UserId) (name topic : Option Str) :
    (initialState creator name topic).length ≤ 5 := by
  cases name <;> cases topic <;> simp [initialState]

section

variable {env : Env} {s : Data} {creator : UserId} {name topic : Option Str} {now : Nat → UInt64}
  {room : RoomId} {p : Pdu}

theorem linkedFrom_createdEvents : LinkedFrom 0 [] (createdEvents env s creator name topic now) := by
  have hlen := length_initialState_le creator name topic
  rw [createdEvents]
  split
  · trivial
  · exact linkedFrom_initialEvents (by omega)

theorem depth_le_of_mem_createdEvents (hp : p ∈ createdEvents env s creator name topic now) :
    p.depth.toNat ≤ 5 := by
  have hle := linkedFrom_createdEvents.depth_le hp
  have hlen := length_initialState_le creator name topic
  have hshort : (createdEvents env s creator name topic now).length ≤
      (initialState creator name topic).length := by
    rw [createdEvents]
    split
    · exact Nat.zero_le _
    · exact length_initialEvents_le
  omega

theorem createRoom_data : (createRoom env s creator name topic now).2 =
    (createdEvents env s creator name topic now).foldl append s := by
  rw [createRoom, createdEvents]
  cases mintRoomId env s creator (now 0) with
  | none => rfl
  | some room => rfl

theorem mintRoomId_of_createRoom (h : (createRoom env s creator name topic now).1 = some room) :
    mintRoomId env s creator (now 0) = some room := by
  rw [createRoom] at h
  cases hmint : mintRoomId env s creator (now 0) with
  | none =>
      rw [hmint] at h
      cases h
  | some room' =>
      simp only [hmint] at h
      split at h
      · exact h
      · cases h

theorem roomId_of_mem_createdEvents (hmint : mintRoomId env s creator (now 0) = some room)
    (hp : p ∈ createdEvents env s creator name topic now) : p.roomId = room := by
  simp only [createdEvents, hmint] at hp
  exact roomId_of_mem_initialEvents hp

end

/-! ## Depths over a run -/

section

variable {env : Env} {room : RoomId} {bound : Nat}

/-- The room's timeline is its own, and no depth in it is above the bound by more than the stream is
long. -/
structure DepthsBelow (room : RoomId) (bound : Nat) (s : Data) : Prop where
  keyed : Keyed s
  dense : Dense s
  own : OwnTimeline s room
  depth : ∀ p ∈ timeline s room, p.depth.toNat ≤ bound + streamLen s

theorem depthsBelow_empty (room : RoomId) (bound : Nat) : DepthsBelow room bound Store.empty where
  keyed := keyed_empty
  dense := dense_empty
  own := ownTimeline_empty room
  depth := by
    intro p hp
    exact absurd hp (by simp [RoomService.timeline, Store.scan, Store.empty, SortedMap.empty])

theorem RoomService.SameRooms.depthsBelow {s t : Data} (h : SameRooms s t)
    (ht : DepthsBelow room bound t) : DepthsBelow room bound s where
  keyed := h.keyed ht.keyed
  dense := h.dense ht.dense
  own := h.ownTimeline ht.own
  depth := by
    rw [h.timeline, h.streamLen]
    exact ht.depth

theorem DepthsBelow.append {s : Data} {q : Pdu} (h : DepthsBelow room bound s)
    (hroom : sep ∉ room.asStr) (hq : sep ∉ q.roomId.asStr)
    (hdepth : q.roomId = room → q.depth.toNat ≤ bound + streamLen s + 1) :
    DepthsBelow room bound (append s q) where
  keyed := h.keyed.append q
  dense := h.dense.append q
  own := h.own.append h.keyed (startsWith_timelineKey_iff hroom hq).mp
  depth := by
    intro p hp
    rw [streamLen_append h.dense]
    obtain ⟨rfl | ⟨hp, -⟩, hpre⟩ := (mem_timeline_append h.keyed).mp hp
    · exact hdepth ((startsWith_timelineKey_iff hroom hq).mp hpre)
    · have hle := h.depth p hp
      omega

theorem DepthsBelow.tipDepth_le {s : Data} (h : DepthsBelow room bound s) :
    tipDepth s room ≤ bound + streamLen s := by
  rw [tipDepth]
  cases htip : (timeline s room).getLast? with
  | none => exact Nat.zero_le _
  | some tip => exact h.depth tip (List.mem_of_getLast? htip)

/-- A linked event is at most one deeper than the tip. -/
theorem depth_le_of_tipLink {s : Data} {depth : UInt64} {prevEvents : List EventId}
    (h : tipLink env s room = some (depth, prevEvents)) :
    depth.toNat ≤ tipDepth s room + 1 := by
  rw [tipLink] at h
  rw [tipDepth]
  cases htip : (timeline s room).getLast? with
  | none =>
      simp only [htip, Option.some.injEq, Prod.mk.injEq] at h
      obtain ⟨rfl, -⟩ := h
      exact le_rfl
  | some tip =>
      simp only [htip, Option.map_eq_some_iff, Prod.mk.injEq] at h
      obtain ⟨depth, hnext, rfl, -⟩ := h
      rw [nextDepth] at hnext
      split at hnext
      · exact nomatch hnext
      · obtain rfl := Option.some.inj hnext
        rw [UInt64.toNat_add]
        exact Nat.mod_le _ _

/-- Over a run whose accepted federated events of the room have bounded depths, depths stay bounded by
the number of events appended. -/
theorem depthsBelow_run {ops : List Op} (hroom : sep ∉ room.asStr)
    (hrooms : ∀ x ∈ runAppends env Store.empty ops, sep ∉ x.2.roomId.asStr)
    (hdepth : ∀ y ∈ runReceipts env Store.empty ops, Accepted env y → y.2.roomId = room →
      y.2.depth.toNat ≤ bound) :
    DepthsBelow room (bound + 5) (run (step env) Store.empty ops) := by
  refine (holds_along_run env ops (fun _ _ hsame ht => hsame.depthsBelow ht)
    (depthsBelow_empty room (bound + 5)) fun x hx hbelow => ?_).2
  refine hbelow.append hroom (hrooms x hx) fun hown => ?_
  obtain ⟨t, op, hmem, hadd⟩ := appendedBy_of_mem_runAppends hx
  have htip := hbelow.tipDepth_le
  cases op with
  | createRoom creator name topic now =>
      have hle := depth_le_of_mem_createdEvents hadd
      omega
  | changeMembership actor room' target membership now =>
      obtain rfl := (membershipEvent_fields hadd.1).1.symm.trans hown
      have hle := depth_le_of_tipLink (membershipEvent_link hadd.1)
      omega
  | sendMessage sender room' eventType txnId content now =>
      obtain rfl := (messageEvent_fields hadd.1).1.symm.trans hown
      have hle := depth_le_of_tipLink (messageEvent_link hadd.1)
      omega
  | receiveTransaction txn =>
      obtain ⟨r, -, hstep, hok⟩ := hadd
      have hle := hdepth (r, x.2) (mem_runReceipts hmem hstep) hok hown
      have hle : x.2.depth.toNat ≤ bound := hle
      omega

end

/-- In every state a run reaches, a call links after the tip exactly when the tip is below the
greatest depth (and sorts before the event, if it is another room's).  Where the accepted federated
events of a room have depths up to a bound, every call on the room does, until the bound and the
number of events appended come to `2 ^ 64`. -/
theorem calls_link_after_tip_iff (env : Env) (ops : List Op) :
    (∀ x ∈ trace (step env) Store.empty ops, ∀ room, x.2.linksOnto x.1 = some room →
      (LinksAfterTip env x.1 room x.2 ↔ TipBelow env x.1 room x.2)) ∧
    ∀ room bound, sep ∉ room.asStr →
      (∀ x ∈ runAppends env Store.empty ops, sep ∉ x.2.roomId.asStr) →
      (∀ y ∈ runReceipts env Store.empty ops, Accepted env y → y.2.roomId = room →
        y.2.depth.toNat ≤ bound) →
      ∀ x ∈ trace (step env) Store.empty ops, x.2.linksOnto x.1 = some room →
        bound + 5 + streamLen x.1 + 1 < 2 ^ 64 → LinksAfterTip env x.1 room x.2 := by
  have hiff : ∀ x ∈ trace (step env) Store.empty ops, ∀ room, x.2.linksOnto x.1 = some room →
      (LinksAfterTip env x.1 room x.2 ↔ TipBelow env x.1 room x.2) := by
    intro x hx room hop
    obtain ⟨before, -, -, hbefore⟩ := exists_prefix_of_mem_trace hx
    have hreach : Reachable env x.1 := ⟨before, hbefore⟩
    exact linksAfterTip_iff hreach.keyed hop
  refine ⟨hiff, fun room bound hroom hrooms hdepth x hx hop hlen => ?_⟩
  rw [hiff x hx room hop]
  intro tip htip
  -- the run up to the call is one of the same kind
  obtain ⟨before, after, hops, hbefore⟩ := exists_prefix_of_mem_trace hx
  have hbelow : DepthsBelow room (bound + 5) x.1 := by
    rw [hbefore]
    refine depthsBelow_run hroom (fun y hy => hrooms y ?_) fun y hy => hdepth y ?_
    · rw [hops, runAppends_append]
      exact List.mem_append_left _ hy
    · rw [hops, runReceipts, trace_append, List.flatMap_append]
      exact List.mem_append_left _ hy
  have hmem : tip ∈ timeline x.1 room := List.mem_of_getLast? htip
  have hle := hbelow.depth tip hmem
  exact ⟨by omega, .inl (hbelow.own tip hmem)⟩

namespace SampleRun

/-- The environment in a build that does not check overflow. -/
def wrappingEnv : Env := { env with overflowChecks := false }

/-- A message at the greatest depth. -/
def deepest : Pdu :=
  event 'm' alice "m.room.message" none (UInt64.ofNat (2 ^ 64 - 1)) [] (singleField "body" "x")

/-- A message of alice. -/
def send : Op := .sendMessage alice room "m.room.message" "1" (singleField "body" "y") 0

end SampleRun

open SampleRun in
/-- After a delivery at ordinary depths a message goes to the end of the timeline. -/
theorem calls_link_after_tip_sample :
    ∃ x ∈ trace (step env) Store.empty [deliver [create, aliceJoin, message], send],
      x.2.linksOnto x.1 = some room ∧ LinksAfterTip env x.1 room x.2 := by
  obtain ⟨x, hmem, hop, hlen⟩ : ∃ x ∈ trace (step env) Store.empty
      [deliver [create, aliceJoin, message], send],
      x.2.linksOnto x.1 = some room ∧ streamLen x.1 = 3 := by
    refine ⟨_, List.mem_of_getLast? rfl, ?_⟩
    decide +kernel
  have hrooms : ∀ x ∈ runAppends env Store.empty [deliver [create, aliceJoin, message], send],
      sep ∉ x.2.roomId.asStr := by
    decide +kernel
  have hdepth : ∀ y ∈ runReceipts env Store.empty [deliver [create, aliceJoin, message], send],
      y.2.depth.toNat ≤ 3 := by
    decide +kernel
  exact ⟨x, hmem, hop, (calls_link_after_tip_iff env
    [deliver [create, aliceJoin, message], send]).2 room 3 (by decide) hrooms
    (fun y hy _ _ => hdepth y hy) x hmem hop (by omega)⟩

open SampleRun in
/-- After a delivery at the greatest depth the depth of the next message wraps to zero, and the message
goes to the front of the timeline. -/
theorem depth_wraps_after_deepest :
    ¬ ∀ (env : Env) (s : Data), Reachable env s → ∀ (op : Op) (room : RoomId),
      op.linksOnto s = some room → LinksAfterTip env s room op := by
  intro h
  have hop : send.linksOnto
      (run (step wrappingEnv) Store.empty [deliver [create, aliceJoin, deepest]]) = some room := by
    decide +kernel
  have hlinks := h wrappingEnv (run (step wrappingEnv) Store.empty
    [deliver [create, aliceJoin, deepest]]) ⟨_, rfl⟩ send room hop
  have hfront : ¬ ∀ p ∈ appended wrappingEnv
      (run (step wrappingEnv) Store.empty [deliver [create, aliceJoin, deepest]]) send,
      (timeline (run (step wrappingEnv) Store.empty
        [deliver [create, aliceJoin, deepest], send]) room).getLast? = some p := by
    decide +kernel
  exact hfront hlinks.last

end GaussMatrix.Svc
