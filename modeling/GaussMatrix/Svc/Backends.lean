import GaussMatrix.Store.Represent
import GaussMatrix.Svc.Codec
import GaussMatrix.Svc.Sync

/-!
# The room service on a backend

The room service writes its events encoded and its other values as text, and decodes what it reads.
On every backend it answers as the room service over decoded records, whatever text the other
services write beside it.
-/

namespace GaussMatrix.Svc

open Library Util Api StateRes

/-- The bytes that are stored of a value. -/
def Record.bytes : Record → Bytes
  | text s => utf8Bytes s
  | pdu p => Codec.encode p

/-! ## The service over bytes -/

namespace Backed

open RoomService (timelineKey stateKey roomPrefix streamKey streamEntry)

variable {σ : Type} [Backend σ]

def append (b : σ) (p : Pdu) : σ :=
  let b := Backend.put b Cf.events.name (timelineKey p) (Codec.encode p)
  let b := match p.stateTuple with
    | some (kind, key) =>
        Backend.put b Cf.roomState.name (stateKey p.roomId kind key) (utf8Bytes p.eventId.asStr)
    | none => b
  let seq := Backend.count b Cf.eventStream.name
  Backend.put b Cf.eventStream.name (streamKey seq) (utf8Bytes (streamEntry p))

def streamLen (b : σ) : Nat := Backend.count b Cf.eventStream.name

def timeline (b : σ) (room : RoomId) : List Pdu :=
  ((Backend.scan b Cf.events.name).filter fun e => startsWith (roomPrefix room) e.1).filterMap
    fun e => Codec.decode e.2

def stateEvent (b : σ) (room : RoomId) (kind key : Str) : Option EventId :=
  ((Backend.get b Cf.roomState.name (stateKey room kind key)).bind fromUtf8).bind EventId.parse

def pdu (b : σ) (room : RoomId) (id : EventId) : Option Pdu :=
  (timeline b room).find? fun p => p.eventId = id

def stateEventPdu (b : σ) (room : RoomId) (kind key : Str) : Option Pdu :=
  (stateEvent b room kind key).bind (pdu b room)

def stateEventContent (b : σ) (room : RoomId) (kind key : Str) : Option Str :=
  (stateEventPdu b room kind key).map fun p => p.contentJson

def eventsSince (b : σ) (since : Nat) : List Pdu :=
  ((Backend.scan b Cf.eventStream.name).filter fun e => match parseDecimal e.1 with
      | some seq => since ≤ seq
      | none => false).filterMap fun e => do
    let entry ← fromUtf8 e.2
    let (room, id) ← splitOnce sep entry
    let room ← RoomId.parse room
    let id ← EventId.parse id
    pdu b room id

def rooms (b : σ) : List RoomId :=
  ((Backend.scan b Cf.events.name).filterMap fun e =>
    (splitOnce sep e.1).bind fun parts => RoomId.parse parts.1).eraseDups

def stateSlotOf (room : RoomId) (e : Entry) : Option (StateKey × EventId) := do
  let rest ← stripPrefix (roomPrefix room) e.1
  let (kind, key) ← splitOnce sep rest
  let id ← (fromUtf8 e.2).bind EventId.parse
  return (slot kind key, id)

def currentState (b : σ) (room : RoomId) : StateMap :=
  SortedMap.empty.insertAll ((Backend.scan b Cf.roomState.name).filterMap (stateSlotOf room))

def currentStatePdus (b : σ) (room : RoomId) : List Pdu :=
  stateEvents (pdu b room) (currentState b room)

/-- The backend answers as the records do. -/
structure Answers (b : σ) (s : Data) : Prop where
  streamLen : streamLen b = RoomService.streamLen s
  timeline : timeline b = RoomService.timeline s
  pdu : pdu b = RoomService.pdu s
  stateEvent : stateEvent b = RoomService.stateEvent s
  stateEventPdu : stateEventPdu b = RoomService.stateEventPdu s
  stateEventContent : stateEventContent b = RoomService.stateEventContent s
  eventsSince : eventsSince b = RoomService.eventsSince s
  rooms : rooms b = RoomService.rooms s
  currentState : currentState b = RoomService.currentState s
  currentStatePdus : currentStatePdus b = RoomService.currentStatePdus s

end Backed

/-! ## Values that are read back -/

/-- Events stand in their own family, with lengths that the codec has room for; text stands in the
others. -/
def Record.Readable (cf : Cf) : Record → Prop
  | text _ => cf ≠ .events
  | pdu p => cf = .events ∧ Codec.Fits p

/-- Every value of the store is read back from its bytes. -/
def Typed (s : Data) : Prop := ∀ cf key r, s.get cf key = some r → r.Readable cf

section Typed

variable {s : Data} {cf : Cf} {r : Record} {w : StoreWrite Record}

theorem Record.Readable.decode (h : r.Readable .events) : Codec.decode r.bytes = r.decode := by
  cases r with
  | text t => exact absurd rfl h
  | pdu p => exact Codec.decode_eq_some_iff.mpr ⟨h.2, List.prefix_refl _⟩

theorem Record.Readable.asText (h : r.Readable cf) (hcf : cf ≠ .events) :
    fromUtf8 r.bytes = r.asText := by
  cases r with
  | text t => exact fromUtf8_utf8Bytes t
  | pdu p => exact absurd h.1 hcf

theorem typed_empty : Typed Store.empty := by
  intro cf key r hget
  cases hget

theorem Typed.apply (hs : Typed s) (hw : ∀ r ∈ w.value, r.Readable w.cf) : Typed (w.apply s) := by
  intro cf key r hget
  rw [StoreWrite.get_apply] at hget
  split at hget
  · rename_i hkey
    rw [hkey.1]
    exact hw r hget
  · exact hs cf key r hget

theorem Typed.run {ws : List (StoreWrite Record)} (hs : Typed s)
    (hws : ∀ w ∈ ws, ∀ r ∈ w.value, r.Readable w.cf) : Typed (run StoreWrite.apply s ws) := by
  induction ws generalizing s with
  | nil => exact hs
  | cons w ws ih =>
      obtain ⟨hw, hws⟩ := List.forall_mem_cons.mp hws
      exact ih (hs.apply hw) hws

theorem Typed.scan (hs : Typed s) {e : Str × Record} (he : e ∈ s.scan cf) : e.2.Readable cf :=
  hs cf e.1 e.2 ((SortedMap.mem_entries_iff _ _ _).mp he)

end Typed

/-! ## Reads -/

section Reads

open Backed

variable {σ : Type} [Backend σ] {b : σ} {s : Data}

theorem answers_of_represents (h : Represents Record.bytes b s) (hs : Typed s) : Answers b s := by
  have htext : ∀ {cf}, cf ≠ .events → ∀ e ∈ s.scan cf, fromUtf8 e.2.bytes = e.2.asText :=
    fun hcf e he => (hs.scan he).asText hcf
  have htimeline : timeline b = RoomService.timeline s := by
    funext room
    exact h.filterMap_filter_scan fun e he => (hs.scan he).decode
  have hpdu : pdu b = RoomService.pdu s := by
    funext room id
    rw [pdu, htimeline, RoomService.pdu]
  have hstateEvent : stateEvent b = RoomService.stateEvent s := by
    funext room kind key
    rw [stateEvent, h.get, RoomService.stateEvent, Option.bind_map]
    cases hget : s.get .roomState (RoomService.stateKey room kind key) with
    | none => rfl
    | some r =>
        rw [Option.bind_some, Option.bind_some, Function.comp_apply,
          (hs _ _ _ hget).asText (by decide)]
  have hstateEventPdu : stateEventPdu b = RoomService.stateEventPdu s := by
    funext room kind key
    rw [stateEventPdu, hstateEvent, hpdu, RoomService.stateEventPdu]
  have hcurrentState : currentState b = RoomService.currentState s := by
    funext room
    rw [currentState, RoomService.currentState]
    congr 1
    apply h.filterMap_scan
    intro e he
    rw [stateSlotOf, RoomService.stateSlotOf, htext (by decide) e he]
  constructor
  · exact h.count .eventStream
  · exact htimeline
  · exact hpdu
  · exact hstateEvent
  · exact hstateEventPdu
  · funext room kind key
    rw [stateEventContent, hstateEventPdu, RoomService.stateEventContent]
  · funext since
    -- the key decides which entries are read, the value what is read of them
    rw [eventsSince, RoomService.eventsSince, List.filterMap_filter, List.filterMap_filter]
    apply h.filterMap_scan
    intro e he
    rewrite [htext (by decide) e he, hpdu]
    rfl
  · rw [rooms, RoomService.rooms]
    congr 1
    exact h.filterMap_scan fun e _ => rfl
  · exact hcurrentState
  · funext room
    rw [currentStatePdus, hpdu, hcurrentState, RoomService.currentStatePdus]

end Reads

/-! ## Runs -/

/-- What the services do to the store: the room service appends, the others write text and delete. -/
inductive StoreOp
  | append (p : Pdu)
  | put (cf : Cf) (key text : Str)
  | delete (cf : Cf) (key : Str)

namespace StoreOp

def apply (s : Data) : StoreOp → Data
  | append p => RoomService.append s p
  | put cf key text => s.put cf key (.text text)
  | delete cf key => s.delete cf key

def applyBacked {σ : Type} [Backend σ] (b : σ) : StoreOp → σ
  | append p => Backed.append b p
  | put cf key text => Backend.put b cf.name key (utf8Bytes text)
  | delete cf key => Backend.delete b cf.name key

/-- The writes of an operation on the backend, in their order. -/
def writesBacked {σ : Type} [Backend σ] (b : σ) : StoreOp → List Write
  | append p =>
      let first := .put Cf.events.name (RoomService.timelineKey p) (Codec.encode p) ::
        match p.stateTuple with
        | some (kind, key) =>
            [.put Cf.roomState.name (RoomService.stateKey p.roomId kind key)
              (utf8Bytes p.eventId.asStr)]
        | none => []
      let seq := Backend.count (run Backend.write b first) Cf.eventStream.name
      first ++ [.put Cf.eventStream.name (RoomService.streamKey seq)
        (utf8Bytes (RoomService.streamEntry p))]
  | put cf key text => [.put cf.name key (utf8Bytes text)]
  | delete cf key => [.delete cf.name key]

/-- The writes of a run on the backend. -/
def logBacked {σ : Type} [Backend σ] : σ → List StoreOp → List Write
  | _, [] => []
  | b, op :: ops => op.writesBacked b ++ logBacked (op.applyBacked b) ops

/-- Events fit the codec, and the other services leave their family alone. -/
def Readable : StoreOp → Prop
  | append p => Codec.Fits p
  | put cf _ _ => cf ≠ .events
  | delete _ _ => True

/-- The slot that a state event fills. -/
def slotWrites (p : Pdu) : List (StoreWrite Record) :=
  match p.stateTuple with
  | some (kind, key) =>
      [⟨.roomState, RoomService.stateKey p.roomId kind key, some (.text p.eventId.asStr)⟩]
  | none => []

/-- The writes of an operation on the records. -/
def writes (s : Data) : StoreOp → List (StoreWrite Record)
  | append p =>
      ⟨.events, RoomService.timelineKey p, some (.pdu p)⟩ :: (slotWrites p ++
        [⟨.eventStream, RoomService.streamKey (s.count .eventStream),
          some (.text (RoomService.streamEntry p))⟩])
  | put cf key text => [⟨cf, key, some (.text text)⟩]
  | delete cf key => [⟨cf, key, none⟩]

/-- The writes of a run on the records. -/
def log : Data → List StoreOp → List (StoreWrite Record)
  | _, [] => []
  | s, op :: ops => op.writes s ++ log (op.apply s) ops

section

variable {s : Data} {op : StoreOp}

theorem run_writes (s : Data) (op : StoreOp) : run StoreWrite.apply s (op.writes s) = op.apply s := by
  cases op with
  | append p =>
      rw [writes, slotWrites, apply, RoomService.append]
      cases p.stateTuple with
      | none => rfl
      | some tuple => rfl
  | put cf key text => rfl
  | delete cf key => rfl

theorem run_log (s : Data) (ops : List StoreOp) :
    run StoreWrite.apply s (log s ops) = run apply s ops := by
  induction ops generalizing s with
  | nil => rfl
  | cons op ops ih => rw [log, run_append, run_writes, run_cons, ih]

theorem log_append (s : Data) (ops later : List StoreOp) :
    log s (ops ++ later) = log s ops ++ log (run apply s ops) later := by
  induction ops generalizing s with
  | nil => rfl
  | cons op ops ih => rw [List.cons_append, log, ih, log, List.append_assoc, run_cons]

theorem Readable.writes (h : op.Readable) : ∀ w ∈ op.writes s, ∀ r ∈ w.value, r.Readable w.cf := by
  cases op with
  | append p =>
      rw [StoreOp.writes, List.forall_mem_cons, List.forall_mem_append]
      refine ⟨fun r hr => ?_, fun w hw => ?_, ?_⟩
      · obtain rfl := Option.some.inj hr
        exact ⟨rfl, h⟩
      · rw [slotWrites] at hw
        split at hw
        · rw [List.mem_singleton] at hw
          subst hw
          intro r hr
          obtain rfl := Option.some.inj hr
          exact Cf.noConfusion
        · cases hw
      · rw [List.forall_mem_singleton]
        intro r hr
        obtain rfl := Option.some.inj hr
        exact Cf.noConfusion
  | put cf key text =>
      rw [StoreOp.writes, List.forall_mem_singleton]
      intro r hr
      obtain rfl := Option.some.inj hr
      exact h
  | delete cf key =>
      rw [StoreOp.writes, List.forall_mem_singleton]
      intro r hr
      cases hr

theorem readable_log {ops : List StoreOp} (h : ∀ op ∈ ops, op.Readable) (s : Data) :
    ∀ w ∈ log s ops, ∀ r ∈ w.value, r.Readable w.cf := by
  induction ops generalizing s with
  | nil =>
      intro w hw
      cases hw
  | cons op ops ih =>
      obtain ⟨hop, hops⟩ := List.forall_mem_cons.mp h
      rw [log, List.forall_mem_append]
      exact ⟨hop.writes, ih hops _⟩

end

end StoreOp

section Runs

variable {σ : Type} [Backend σ] {b : σ} {s : Data} {ops : List StoreOp}

theorem run_writesBacked (b : σ) (op : StoreOp) :
    run Backend.write b (op.writesBacked b) = op.applyBacked b := by
  cases op with
  | append p =>
      rw [StoreOp.writesBacked, StoreOp.applyBacked, Backed.append]
      cases p.stateTuple with
      | none => rfl
      | some tuple => rfl
  | put cf key text => rfl
  | delete cf key => rfl

theorem run_logBacked (b : σ) (ops : List StoreOp) :
    run Backend.write b (StoreOp.logBacked b ops) = run StoreOp.applyBacked b ops := by
  induction ops generalizing b with
  | nil => rfl
  | cons op ops ih => rw [StoreOp.logBacked, run_append, run_writesBacked, run_cons, ih]

/-- A backend that follows the records is written what they are. -/
theorem writesBacked_eq (h : Follows Record.bytes b s) (op : StoreOp) :
    op.writesBacked b = (op.writes s).map (StoreWrite.encode Record.bytes) := by
  cases op with
  | append p =>
      -- the position in the stream is read after the writes before, which do not move it
      have hcount := (h (⟨.events, RoomService.timelineKey p, some (.pdu p)⟩ ::
        StoreOp.slotWrites p)).count .eventStream
      rw [StoreOp.slotWrites] at hcount
      rw [StoreOp.writesBacked, StoreOp.writes, StoreOp.slotWrites]
      cases htuple : p.stateTuple with
      | none =>
          rw [htuple] at hcount
          exact congrArg (fun seq => [_, Write.put _ (RoomService.streamKey seq) _]) hcount
      | some tuple =>
          rw [htuple] at hcount
          exact congrArg (fun seq => [_, _, Write.put _ (RoomService.streamKey seq) _]) hcount
  | put cf key text => rfl
  | delete cf key => rfl

theorem follows_applyBacked (h : Follows Record.bytes b s) (op : StoreOp) :
    Follows Record.bytes (op.applyBacked b) (op.apply s) := by
  rw [← run_writesBacked, writesBacked_eq h, ← StoreOp.run_writes]
  exact h.run _

theorem logBacked_eq (h : Follows Record.bytes b s) (ops : List StoreOp) :
    StoreOp.logBacked b ops = (StoreOp.log s ops).map (StoreWrite.encode Record.bytes) := by
  induction ops generalizing b s with
  | nil => rfl
  | cons op ops ih =>
      rw [StoreOp.logBacked, StoreOp.log, writesBacked_eq h, ih (follows_applyBacked h op), List.map_append]

theorem typed_run (hs : Typed s) (hops : ∀ op ∈ ops, op.Readable) :
    Typed (run StoreOp.apply s ops) := by
  rw [← StoreOp.run_log]
  exact hs.run (StoreOp.readable_log hops _)

theorem answers_of_follows (h : Follows Record.bytes b Store.empty)
    (hops : ∀ op ∈ ops, op.Readable) :
    Backed.Answers (run StoreOp.applyBacked b ops) (run StoreOp.apply Store.empty ops) := by
  apply answers_of_represents _ (typed_run typed_empty hops)
  rw [← run_logBacked, logBacked_eq h, ← StoreOp.run_log]
  exact h _

/-- The file operations that make the writes of a run; the system may take each value in any parts. -/
structure FileRun (limit : Nat) (ops : List StoreOp) where
  calls : List FileStore.FileOp
  named : ∀ call ∈ calls, call.Named limit
  writes : calls.map FileStore.FileOp.write = StoreOp.logBacked MemoryStore.empty ops

/-- After every run of the services the room service answers alike over records, over the bytes in
memory, over the bytes of the database, and over the files when they are opened again. -/
theorem room_service_on_backends (hops : ∀ op ∈ ops, op.Readable) :
    Backed.Answers (run StoreOp.applyBacked MemoryStore.empty ops)
        (run StoreOp.apply Store.empty ops) ∧
      Backed.Answers (run StoreOp.applyBacked RocksStore.empty ops)
        (run StoreOp.apply Store.empty ops) ∧
      ∀ (limit : Nat) (readDir : FileStore.ReadDir) (files : FileRun limit ops),
        (∀ (ν : Type) (m : SortedMap Str ν), (readDir ν m).Perm m.entries) →
        ∃ t m, runSteps (files.calls.map (FileStore.FileOp.perform limit))
              (MemoryStore.empty, SortedMap.empty) =
            .ok (run StoreOp.applyBacked MemoryStore.empty ops, t) ∧
          FileStore.openStore readDir (.folder t) = .ok (m, t) ∧
          Backed.Answers m (run StoreOp.apply Store.empty ops) := by
  have hmemory : Follows Record.bytes MemoryStore.empty Store.empty :=
    follows_memory represents_empty
  refine ⟨answers_of_follows hmemory hops, answers_of_follows follows_rocks hops, ?_⟩
  intro limit readDir files hread
  have hwrites := files.writes.trans (logBacked_eq hmemory ops)
  obtain ⟨t, hrun, hopens⟩ := (opens_absent hread).perform hread files.named hwrites
  rw [load_empty hread, ← logBacked_eq hmemory, run_logBacked] at hrun
  refine ⟨t, FileStore.load readDir t, hrun, hopens.opened, ?_⟩
  rw [StoreOp.run_log] at hopens
  exact answers_of_represents hopens.represents (typed_run typed_empty hops)

end Runs

/-- The file operation of a write whose value is taken in one part. -/
def wholeCall : Write → FileStore.FileOp
  | .put cf key value => .put cf key [value]
  | .delete cf key => .delete cf key

theorem write_wholeCall (w : Write) : (wholeCall w).write = w := by
  cases w with
  | put cf key value => exact congrArg (Write.put cf key) (List.append_nil _)
  | delete cf key => rfl

theorem map_write_wholeCall (ws : List Write) :
    (ws.map wholeCall).map FileStore.FileOp.write = ws := by
  rw [List.map_map]
  exact (List.map_congr_left fun w _ => write_wholeCall w).trans (List.map_id ws)

theorem named_wholeCall {limit : Nat} {w : Write} (hfamily : FileStore.isName limit w.cf = true)
    (hkey : w.key ≠ []) (htemp : (utf8Bytes (FileStore.tempName w.key)).length ≤ limit) :
    (wholeCall w).Named limit := by
  cases w <;> exact ⟨hfamily, hkey, htemp⟩

/-- Two events of a room, and text of another service beside them. -/
def topicRun : List StoreOp :=
  [.append Codec.topicEvent, .put .typing "!r:g\u001f@a:g".toList "99".toList,
    .append { Codec.topicEvent with stateKey := none, depth := 8 },
    .delete .typing "!r:g\u001f@a:g".toList]

theorem readable_topicRun : ∀ op ∈ topicRun, op.Readable := by
  simp only [topicRun, List.forall_mem_cons, StoreOp.Readable]
  exact ⟨by decide, by decide, by decide, trivial, List.forall_mem_nil _⟩

theorem named_topicRun : ∀ w ∈ StoreOp.logBacked MemoryStore.empty topicRun,
    FileStore.isName 255 w.cf = true ∧ w.key ≠ [] ∧
      (utf8Bytes (FileStore.tempName w.key)).length ≤ 255 := by
  decide +kernel

def topicFiles : FileRun 255 topicRun where
  calls := (StoreOp.logBacked MemoryStore.empty topicRun).map wholeCall
  named := by
    rw [List.forall_mem_map]
    intro w hw
    obtain ⟨hfamily, hkey, htemp⟩ := named_topicRun w hw
    exact named_wholeCall hfamily hkey htemp
  writes := map_write_wholeCall _

theorem room_service_on_backends_topicRun :
    Backed.Answers (run StoreOp.applyBacked RocksStore.empty topicRun)
        (run StoreOp.apply Store.empty topicRun) ∧
      ∃ t m, FileStore.openStore (fun _ m => m.entries) (.folder t) = .ok (m, t) ∧
        Backed.Answers m (run StoreOp.apply Store.empty topicRun) := by
  obtain ⟨-, hrocks, hfiles⟩ := room_service_on_backends readable_topicRun
  obtain ⟨t, m, -, hopen, hm⟩ := hfiles 255 _ topicFiles fun _ _ => List.Perm.refl _
  exact ⟨hrocks, t, m, hopen, hm⟩

end GaussMatrix.Svc
