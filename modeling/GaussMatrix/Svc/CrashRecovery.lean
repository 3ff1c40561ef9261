import GaussMatrix.Svc.Backends
import GaussMatrix.Svc.CurrentState

/-!
# The room service across crashes

An append writes the event before its slot and its place in the stream.  So whatever a crash cuts
off, what is found in the directory afterwards names no event that is missing, and every event whose
append was through is there.
-/

namespace GaussMatrix.Svc

open Library Util Api StateRes RoomService

/-! ## The order of the writes -/

/-- The family holds no room history. -/
def Beside (cf : Cf) : Prop := cf ≠ .events ∧ cf ≠ .roomState ∧ cf ≠ .eventStream

/-- An event may be written at any time, its slot and its stream entry once it is stored. -/
inductive Orderly (s : Data) : StoreWrite Record → Prop
  | event (p : Pdu) (room : sep ∉ p.roomId.asStr) :
      Orderly s ⟨.events, timelineKey p, some (.pdu p)⟩
  | slot (p : Pdu) (kind key : Str) (stored : Stored s p) :
      Orderly s ⟨.roomState, stateKey p.roomId kind key, some (.text p.eventId.asStr)⟩
  | entry (p : Pdu) (seq : Nat) (stored : Stored s p) :
      Orderly s ⟨.eventStream, streamKey seq, some (.text (streamEntry p))⟩
  | beside (w : StoreWrite Record) (other : Beside w.cf) : Orderly s w

/-- The store holds an event of the room and the id of this one. -/
def Kept (s : Data) (p : Pdu) : Prop :=
  ∃ q, Stored s q ∧ q.roomId = p.roomId ∧ q.eventId = p.eventId

/-- Slots and stream entries name events that are stored. -/
structure Linked (s : Data) : Prop where
  keyed : Keyed s
  rooms : ∀ p, Stored s p → sep ∉ p.roomId.asStr
  slots : ∀ key r, s.get .roomState key = some r →
    ∃ p kind k, Kept s p ∧ key = stateKey p.roomId kind k ∧ r = .text p.eventId.asStr
  stream : ∀ key r, s.get .eventStream key = some r →
    ∃ p seq, Kept s p ∧ key = streamKey seq ∧ r = .text (streamEntry p)

section Writes

variable {s : Data} {p q : Pdu} {w : StoreWrite Record}

theorem Kept.of_stored (h : Stored s p) : Kept s p := ⟨p, h, rfl, rfl⟩

theorem linked_empty : Linked Store.empty := by
  refine ⟨keyed_empty, fun p h => ?_, fun key r h => ?_, fun key r h => ?_⟩ <;> cases h

theorem stored_apply_iff :
    Stored (w.apply s) p ↔
      if w.cf = .events ∧ w.key = timelineKey p then w.value = some (.pdu p) else Stored s p := by
  have hget := StoreWrite.get_apply s .events (timelineKey p) (w := w)
  rw [Stored]
  show (w.apply s).get .events _ = _ ↔ _
  rw [hget]
  simp only [eq_comm (a := Cf.events), eq_comm (a := timelineKey p)]
  split <;> rfl

/-- An orderly write replaces an event by one of the same room and id. -/
theorem Kept.apply (h : Kept s p) (hs : Linked s) (hw : Orderly s w) : Kept (w.apply s) p := by
  obtain ⟨q, hq, hroom, hid⟩ := h
  by_cases hhit : w.cf = .events ∧ w.key = timelineKey q
  · cases hw with
    | event p' hp' =>
        obtain ⟨hr, hi⟩ := eventId_of_timelineKey_eq hp' (hs.rooms q hq) hhit.2
        refine ⟨p', ?_, hr.trans hroom, hi.trans hid⟩
        rw [stored_apply_iff, if_pos ⟨rfl, rfl⟩]
    | slot p' kind key => cases hhit.1
    | entry p' seq => cases hhit.1
    | beside _ hother => exact absurd hhit.1 hother.1
  · refine ⟨q, ?_, hroom, hid⟩
    rw [stored_apply_iff, if_neg hhit]
    exact hq

theorem Linked.apply (hs : Linked s) (hw : Orderly s w) : Linked (w.apply s) := by
  have hkept : ∀ {p}, Kept s p → Kept (w.apply s) p := fun h => h.apply hs hw
  constructor
  · intro key value hget
    replace hget : (w.apply s).get .events key = some value := hget
    rw [StoreWrite.get_apply] at hget
    split at hget
    · rename_i hhit
      cases hw with
      | event p hp => exact ⟨p, (Option.some.inj hget).symm, hhit.2.symm⟩
      | slot p kind k => cases hhit.1
      | entry p seq => cases hhit.1
      | beside _ hother => exact absurd hhit.1.symm hother.1
    · exact hs.keyed key value hget
  · intro p hp
    rw [stored_apply_iff] at hp
    split at hp
    · rename_i hhit
      cases hw with
      | event q hq =>
          obtain rfl := Record.pdu.inj (Option.some.inj hp)
          exact hq
      | slot q kind k => cases hhit.1
      | entry q seq => cases hhit.1
      | beside _ hother => exact absurd hhit.1 hother.1
    · exact hs.rooms p hp
  · intro key r hget
    rw [StoreWrite.get_apply] at hget
    split at hget
    · rename_i hhit
      cases hw with
      | event p hp => cases hhit.1
      | slot p kind k hp =>
          exact ⟨p, kind, k, hkept (.of_stored hp), hhit.2, (Option.some.inj hget).symm⟩
      | entry p seq => cases hhit.1
      | beside _ hother => exact absurd hhit.1.symm hother.2.1
    · obtain ⟨p, kind, k, hp, hkey, hr⟩ := hs.slots key r hget
      exact ⟨p, kind, k, hkept hp, hkey, hr⟩
  · intro key r hget
    rw [StoreWrite.get_apply] at hget
    split at hget
    · rename_i hhit
      cases hw with
      | event p hp => cases hhit.1
      | slot p kind k => cases hhit.1
      | entry p seq hp => exact ⟨p, seq, hkept (.of_stored hp), hhit.2, (Option.some.inj hget).symm⟩
      | beside _ hother => exact absurd hhit.1.symm hother.2.2
    · obtain ⟨p, seq, hp, hkey, hr⟩ := hs.stream key r hget
      exact ⟨p, seq, hkept hp, hkey, hr⟩

end Writes

/-! ## Runs cut anywhere -/

/-- Rooms whose ids have no separator, and other services that leave room history alone. -/
def StoreOp.Separate : StoreOp → Prop
  | append p => sep ∉ p.roomId.asStr
  | put cf _ _ => Beside cf
  | delete cf _ => Beside cf

/-- The event that an operation appends. -/
def StoreOp.appended : StoreOp → Option Pdu
  | append p => some p
  | put _ _ _ => none
  | delete _ _ => none

section Runs

variable {s : Data} {op : StoreOp} {ops : List StoreOp} {ws : List (StoreWrite Record)} {p : Pdu}

theorem Linked.run (hs : Linked s) (hws : Guarded StoreWrite.apply Orderly s ws) :
    Linked (run StoreWrite.apply s ws) :=
  hws.run_of_step (fun _ _ hs hw => hs.apply hw) hs

theorem Kept.run (hp : Kept s p) (hs : Linked s) (hws : Guarded StoreWrite.apply Orderly s ws) :
    Kept (run StoreWrite.apply s ws) p :=
  (hws.run_of_step (P := fun s => Linked s ∧ Kept s p)
    (fun _ _ h hw => ⟨h.1.apply hw, h.2.apply h.1 hw⟩) ⟨hs, hp⟩).2

theorem guarded_writes (hop : op.Separate) :
    Guarded StoreWrite.apply Orderly s (op.writes s) := by
  cases op with
  | append p =>
      -- from the first write on the event is stored, and the others are to other families
      have hstored : Stored (StoreWrite.apply s ⟨.events, timelineKey p, some (.pdu p)⟩) p := by
        rw [stored_apply_iff, if_pos ⟨rfl, rfl⟩]
      rw [StoreOp.writes, StoreOp.slotWrites]
      cases p.stateTuple with
      | none => exact ⟨.event p hop, .entry p _ hstored, trivial⟩
      | some tuple =>
          refine ⟨.event p hop, .slot p tuple.1 tuple.2 hstored, .entry p _ ?_, trivial⟩
          rw [stored_apply_iff, if_neg fun h => Cf.noConfusion h.1]
          exact hstored
  | put cf key text => exact ⟨.beside _ hop, trivial⟩
  | delete cf key => exact ⟨.beside _ hop, trivial⟩

theorem guarded_log (hops : ∀ op ∈ ops, op.Separate) :
    Guarded StoreWrite.apply Orderly s (StoreOp.log s ops) := by
  induction ops generalizing s with
  | nil => trivial
  | cons op ops ih =>
      obtain ⟨hop, hrest⟩ := List.forall_mem_cons.mp hops
      rw [StoreOp.log, Guarded.append, StoreOp.run_writes]
      exact ⟨guarded_writes hop, ih hrest⟩

theorem guarded_part (hops : ∀ op ∈ ops, op.Separate) (hws : ws <+: StoreOp.log s ops) :
    Guarded StoreWrite.apply Orderly s ws := by
  obtain ⟨later, hlater⟩ := hws
  have hall := guarded_log (s := s) hops
  rw [← hlater, Guarded.append] at hall
  exact hall.1

theorem log_front {done rest : List StoreOp} :
    StoreOp.log s done <+: StoreOp.log s (done ++ rest) := by
  rw [StoreOp.log_append]
  exact List.prefix_append _ _

/-- An event whose append is among the writes is kept by the writes behind it. -/
theorem kept_of_appended {done rest : List StoreOp} (hs : Linked s)
    (hops : ∀ op ∈ done ++ rest, op.Separate) (hws : ws <+: StoreOp.log s (done ++ rest))
    (hlen : (StoreOp.log s done).length ≤ ws.length)
    (hp : p ∈ done.filterMap StoreOp.appended) : Kept (run StoreWrite.apply s ws) p := by
  obtain ⟨op, hop, hevent⟩ := List.mem_filterMap.mp hp
  cases op with
  | append q =>
      obtain rfl := Option.some.inj hevent
      obtain ⟨before, after, rfl⟩ := List.append_of_mem hop
      have hsplit : before ++ .append q :: after = (before ++ [.append q]) ++ after := by simp
      rw [hsplit] at hlen hws hops
      have hfront : StoreOp.log s (before ++ [.append q]) <+: ws := by
        apply List.prefix_of_prefix_length_le (log_front.trans log_front) hws
        exact log_front.length_le.trans hlen
      have hguarded := guarded_part hops hws
      obtain ⟨later, rfl⟩ := hfront
      rw [Guarded.append] at hguarded
      have hstored : Stored (run StoreWrite.apply s (StoreOp.log s (before ++ [.append q]))) q := by
        rw [StoreOp.run_log, run_append]
        exact stored_append_iff.mpr (.inl rfl)
      rw [run_append]
      exact (Kept.of_stored hstored).run (hs.run hguarded.1) hguarded.2
  | put cf key text => cases hevent
  | delete cf key => cases hevent

end Runs

/-! ## What is found -/

/-- Every event that the room service names is there: those in slots, those in the current state of a
room, and those in the stream. -/
structure Intact {σ : Type} [Backend σ] (b : σ) : Prop where
  slots : ∀ room kind key id, sep ∉ room.asStr → Backed.stateEvent b room kind key = some id →
    (Backed.pdu b room id).isSome
  state : ∀ room, sep ∉ room.asStr →
    (Backed.currentStatePdus b room).length = (Backed.currentState b room).size
  stream : (Backed.eventsSince b 0).length = Backed.streamLen b

section Intact

variable {s : Data} {p : Pdu} {room : RoomId} {kind key : Str} {id : EventId}

theorem Kept.pdu_isSome (h : Kept s p) (hs : Linked s) : (pdu s p.roomId p.eventId).isSome := by
  obtain ⟨q, hq, hroom, hid⟩ := h
  rw [pdu_isSome_iff]
  refine ⟨q, (mem_timeline_iff hs.keyed).mpr ⟨hq, ?_⟩, hid⟩
  rw [← hroom, startsWith_timelineKey_iff (hs.rooms q hq) (hs.rooms q hq)]

theorem Linked.stateEvent_isSome (hs : Linked s) (hroom : sep ∉ room.asStr)
    (hid : stateEvent s room kind key = some id) : (pdu s room id).isSome := by
  rw [stateEvent, Option.bind_assoc] at hid
  obtain ⟨r, hget, hparse⟩ := Option.bind_eq_some_iff.mp hid
  obtain ⟨p, kind', key', hp, hkey, rfl⟩ := hs.slots _ r hget
  -- the key of a slot begins with its room
  have hsame : room = p.roomId := by
    obtain ⟨q, hq, hqroom, -⟩ := hp
    have hproom : sep ∉ p.roomId.asStr := hqroom ▸ hs.rooms q hq
    exact RoomId.ext (append_sep_inj hroom hproom hkey).1
  have hevent : EventId.parse p.eventId.asStr = some id := hparse
  rw [EventId.parse_asStr] at hevent
  obtain rfl := Option.some.inj hevent
  rw [hsame]
  exact hp.pdu_isSome hs

theorem Linked.resolveEntry_isSome (hs : Linked s) {e : Str × Record}
    (he : e ∈ s.scan .eventStream) :
    (∃ seq, e.1 = streamKey seq) ∧ (resolveEntry s e.2).isSome := by
  obtain ⟨p, seq, hp, hkey, hr⟩ := hs.stream e.1 e.2 ((SortedMap.mem_entries_iff _ _ _).mp he)
  have hfound := hp.pdu_isSome hs
  obtain ⟨q, hq, hqroom, -⟩ := hp
  have hroom : sep ∉ p.roomId.asStr := hqroom ▸ hs.rooms q hq
  refine ⟨⟨seq, hkey⟩, ?_⟩
  rw [hr]
  simp only [resolveEntry, Record.asText, streamEntry, splitOnce_append hroom, bind,
    Option.bind_some, RoomId.parse_asStr, EventId.parse_asStr]
  exact hfound

theorem intact_of_linked {σ : Type} [Backend σ] {b : σ} (h : Backed.Answers b s) (hs : Linked s) :
    Intact b := by
  constructor
  · intro room kind key id hroom hid
    rw [h.stateEvent] at hid
    rw [h.pdu]
    exact hs.stateEvent_isSome hroom hid
  · intro room hroom
    rw [h.currentStatePdus, h.currentState, currentStatePdus, stateEvents, SortedMap.size,
      ← List.length_map Prod.snd]
    apply List.filterMap_length_eq_length.mpr
    intro id hid
    obtain ⟨slotKey, hget⟩ := (SortedMap.mem_values_iff _ _).mp hid
    have hslot : (currentState s room).get (slot slotKey.1 slotKey.2) = some id := hget
    exact hs.stateEvent_isSome hroom (currentState_get_iff.mp hslot).2
  · rw [h.eventsSince, h.streamLen]
    show (eventsSince s 0).length = (s.scan .eventStream).length
    rw [eventsSince, List.filterMap_filter]
    apply List.filterMap_length_eq_length.mpr
    intro e he
    obtain ⟨⟨seq, hkey⟩, hfound⟩ := hs.resolveEntry_isSome he
    simp only [hkey, streamKey, parseDecimal_padDecimal, Nat.zero_le, decide_true, if_true]
    exact hfound

end Intact

/-! ## Lives of the services -/

section Lives

open FileStore

/-- The directories that lives of the services leave, from none at all, with the events whose appends
were through before a crash. -/
inductive Lived (limit : Nat) (readDir : ReadDir) : Root → List Pdu → Prop
  | fresh : Lived limit readDir .absent []
  | crash {root left : Root} {m : MemoryStore} {t : FileTree} {through : List Pdu}
      (done rest : List StoreOp) (life : Life) (before : Lived limit readDir root through)
      (opened : openStore readDir root = .ok (m, t))
      (services : ∀ op ∈ done ++ rest, op.Readable ∧ op.Separate) (named : life.Named limit)
      (calls : (life.completed ++ [life.interrupted]).map FileOp.write <+:
        StoreOp.logBacked m (done ++ rest))
      (finished : (StoreOp.logBacked m done).length ≤ life.completed.length)
      (crashed : life.crash limit readDir root = .ok left) :
      Lived limit readDir left (through ++ done.filterMap StoreOp.appended)

/-- What is opened at the root answers as records that are linked, and that keep these events. -/
structure Sane (readDir : ReadDir) (root : Root) (s : Data) (t : FileTree) (through : List Pdu) :
    Prop where
  opens : Opens Record.bytes readDir root s t
  typed : Typed s
  linked : Linked s
  kept : ∀ p ∈ through, Kept s p

variable {limit : Nat} {readDir : ReadDir} {root : Root} {through : List Pdu}

/-- The calls before a crash are those of a part of the writes. -/
theorem exists_writes {calls : List FileOp} {last : FileOp} {ws : List (StoreWrite Record)}
    (h : (calls ++ [last]).map FileOp.write <+: ws.map (StoreWrite.encode Record.bytes)) :
    ∃ front w, front ++ [w] <+: ws ∧
      calls.map FileOp.write = front.map (StoreWrite.encode Record.bytes) ∧
      last.write = w.encode Record.bytes := by
  rw [List.prefix_iff_eq_take, ← List.map_take, List.map_append] at h
  obtain ⟨front, back, hsplit, hfront, hback⟩ := List.map_eq_append_iff.mp h.symm
  obtain ⟨w, rfl, hw⟩ := List.map_eq_singleton_iff.mp hback
  exact ⟨front, w, hsplit ▸ List.take_prefix _ _, hfront.symm, hw.symm⟩

/-- What took effect of the writes of services leaves the records sane. -/
theorem Sane.cut {s : Data} {t t' : FileTree} {left : Root} {done rest : List StoreOp}
    {ws : List (StoreWrite Record)} (h : Sane readDir root s t through)
    (hservices : ∀ op ∈ done ++ rest, op.Readable ∧ op.Separate)
    (hws : ws <+: StoreOp.log s (done ++ rest)) (hlen : (StoreOp.log s done).length ≤ ws.length)
    (hopens : Opens Record.bytes readDir left (run StoreWrite.apply s ws) t') :
    Sane readDir left (run StoreWrite.apply s ws) t'
      (through ++ done.filterMap StoreOp.appended) := by
  have hseparate : ∀ op ∈ done ++ rest, op.Separate := fun op hop => (hservices op hop).2
  have hguarded := guarded_part hseparate hws
  refine ⟨hopens, ?_, h.linked.run hguarded, ?_⟩
  · apply h.typed.run
    intro w hw
    exact StoreOp.readable_log (fun op hop => (hservices op hop).1) s w (hws.subset hw)
  · intro p hp
    rcases List.mem_append.mp hp with hp | hp
    · exact (h.kept p hp).run h.linked hguarded
    · exact kept_of_appended h.linked hseparate hws hlen hp

theorem Lived.sane (hread : ∀ (ν : Type) (m : SortedMap Str ν), (readDir ν m).Perm m.entries)
    (h : Lived limit readDir root through) : ∃ s t, Sane readDir root s t through := by
  induction h with
  | fresh =>
      refine ⟨Store.empty, SortedMap.empty, opens_absent hread, typed_empty, linked_empty, ?_⟩
      exact fun p hp => absurd hp List.not_mem_nil
  | @crash root left m t through done rest life before opened services named calls finished crashed
      ih =>
      obtain ⟨s, t', hsane⟩ := ih
      obtain ⟨rfl, rfl⟩ := Prod.mk.inj (Except.ok.inj (opened.symm.trans hsane.opens.opened))
      have hlog := logBacked_eq (follows_memory hsane.opens.represents)
      rw [hlog] at calls
      rw [hlog, List.length_map] at finished
      obtain ⟨front, w, hfront, hcompleted, hinterrupted⟩ := exists_writes calls
      have hlen : (StoreOp.log s done).length ≤ front.length := by
        have hsame := congrArg List.length hcompleted
        rw [List.length_map, List.length_map] at hsame
        exact finished.trans_eq hsame
      obtain ⟨t', hcrash, hopens⟩ := hsane.opens.crash hread named hcompleted hinterrupted
      obtain rfl := Except.ok.inj (crashed.symm.trans hcrash)
      rcases hopens with hopens | hopens
      · exact ⟨_, t', hsane.cut services ((List.prefix_append _ _).trans hfront) hlen hopens⟩
      · refine ⟨_, t', hsane.cut services hfront ?_ hopens⟩
        rw [List.length_append]
        exact hlen.trans (Nat.le_add_right _ _)

/-- Whatever crashes came before, the directory opens, names no event that it has not, and has the
events whose appends were through; and the next crash leaves a directory again. -/
theorem services_survive_crashes
    (hread : ∀ (ν : Type) (m : SortedMap Str ν), (readDir ν m).Perm m.entries)
    (h : Lived limit readDir root through) :
    ∃ m t, openStore readDir root = .ok (m, t) ∧ Intact m ∧
      (∀ p ∈ through, ∃ q ∈ Backed.timeline m p.roomId, q.eventId = p.eventId) ∧
      ∀ life : Life, life.Named limit → ∃ left, life.crash limit readDir root = .ok (.folder left) := by
  obtain ⟨s, t, hsane⟩ := h.sane hread
  have hanswers := answers_of_represents hsane.opens.represents hsane.typed
  refine ⟨load readDir t, t, hsane.opens.opened, intact_of_linked hanswers hsane.linked, ?_, ?_⟩
  · intro p hp
    rw [hanswers.timeline]
    exact pdu_isSome_iff.mp ((hsane.kept p hp).pdu_isSome hsane.linked)
  · intro life hlife
    obtain ⟨left, hcrash, -⟩ := life.crash_sound hlife hsane.opens.opened hsane.opens.sound
    exact ⟨left, hcrash⟩

end Lives

/-- A crash while the text beside the first event is written. -/
def topicLife : FileStore.Life where
  completed := ((StoreOp.logBacked MemoryStore.empty topicRun).take 3).map wholeCall
  interrupted := .put Cf.typing.name "!r:g\u001f@a:g".toList [[0x39], [0x39]]
  count := 3

theorem separate_topicRun : ∀ op ∈ topicRun, op.Separate := by
  simp only [topicRun, List.forall_mem_cons, StoreOp.Separate, Beside]
  exact ⟨by decide, by decide, by decide, by decide, List.forall_mem_nil _⟩

theorem services_survive_crashes_topicLife :
    ∃ root m t, FileStore.openStore (fun _ m => m.entries) root = .ok (m, t) ∧ Intact m ∧
      ∀ p ∈ [Codec.topicEvent], ∃ q ∈ Backed.timeline m p.roomId, q.eventId = p.eventId := by
  have hread : ∀ (ν : Type) (m : SortedMap Str ν), m.entries.Perm m.entries :=
    fun _ _ => List.Perm.refl _
  have hnamed : topicLife.Named 255 := by
    constructor
    · rw [topicLife, List.forall_mem_map]
      intro w hw
      obtain ⟨hfamily, hkey, htemp⟩ := named_topicRun w (List.mem_of_mem_take hw)
      exact named_wholeCall hfamily hkey htemp
    · exact ⟨by decide, by decide, by decide⟩
  have hfresh : Lived 255 (fun _ m => m.entries) .absent [] := .fresh
  obtain ⟨-, -, -, -, -, hcrash⟩ := services_survive_crashes hread hfresh
  obtain ⟨left, hleft⟩ := hcrash topicLife hnamed
  have hlived : Lived 255 (fun _ m => m.entries) (.folder left) ([] ++ [Codec.topicEvent]) := by
    refine hfresh.crash [.append Codec.topicEvent] topicRun.tail topicLife rfl ?_ hnamed ?_ ?_ hleft
    · intro op hop
      refine ⟨readable_topicRun op hop, separate_topicRun op hop⟩
    · rw [List.map_append, topicLife, map_write_wholeCall]
      exact List.take_prefix 4 (StoreOp.logBacked MemoryStore.empty topicRun)
    · decide +kernel
  obtain ⟨m, t, hopen, hintact, hkept, -⟩ := services_survive_crashes hread hlived
  exact ⟨_, m, t, hopen, hintact, hkept⟩

end GaussMatrix.Svc
