import GaussMatrix.Agent.Gateway
import GaussMatrix.Library.Prefixed

/-!
# Agent memory

The notes that agents keep, all in one flat family of the store: an agent, a room and a key are joined
with a separator into one string, and the notes of an agent for a room are read by prefix.
-/

namespace GaussMatrix.Agent

open Library Util Audit Obs

inductive MemoryError
  | roomNotPermitted (room : Str)
  | invalidKey
  deriving DecidableEq

/-- A note: the key it is stored under and its value. -/
structure MemoryItem where
  key : Str
  value : Str
  deriving DecidableEq

/-! ## The store -/

namespace Memory

/-- What the keys of the notes of an agent for a room start with. -/
def roomPrefix (agent : AgentId) (room : RoomId) : Str :=
  agent.asStr ++ sep :: (room.asStr ++ [sep])

def itemKey (agent : AgentId) (room : RoomId) (key : Str) : Str := roomPrefix agent room ++ key

def checkKey (key : Str) : Except MemoryError Unit := if sep ∈ key then .error .invalidKey else .ok ()

def store (s : Store Bytes) (agent : AgentId) (room : RoomId) (key value : Str) :
    Except MemoryError (Store Bytes) := do
  checkKey key
  return s.put .agentMemory (itemKey agent room key) (.utf8 value)

/-- Recall a single note by key. -/
def recallItem (s : Store Bytes) (agent : AgentId) (room : RoomId) (key : Str) : Option Str :=
  (s.get .agentMemory (itemKey agent room key)).bind Bytes.fromUtf8

/-- All notes of an agent for a room, in key order. -/
def recallAll (s : Store Bytes) (agent : AgentId) (room : RoomId) : List MemoryItem :=
  (s.scan .agentMemory).filterMap fun e =>
    (stripPrefix (roomPrefix agent room) e.1).bind fun key =>
      e.2.fromUtf8.map fun value => ⟨key, value⟩

def forget (s : Store Bytes) (agent : AgentId) (room : RoomId) (key : Str) : Store Bytes :=
  s.delete .agentMemory (itemKey agent room key)

end Memory

/-! ## The gateway -/

/-- What a call on the memory leaves and answers; no answer when it panics. -/
structure MemoryReply (α : Type) where
  gateway : Gateway
  answer : Option (Except MemoryError α)

namespace Gateway

variable {α : Type} (env : GatewayEnv) (g : Gateway)

/-- Write a line about a note. -/
def auditMemory (agent : AgentId) (line room item : Str) : Gateway :=
  { g with store := append env.digest g.store agent.asStr (line ++ ": ".toList ++ room ++ '/' :: item) }

/-- Count a call on the memory and answer. -/
def concludeMemory (op result : Str) (answer : Except MemoryError α) : MemoryReply α :=
  match g.metrics.incCounter env.overflowChecks "gm_agent_memory_ops_total"
      [("op".toList, op), ("result".toList, result)] with
  | none => ⟨g, none⟩
  | some metrics => ⟨{ g with metrics }, some answer⟩

/-- Refuse a call for a room outside the grant. -/
def denyMemory (grant : CapabilityGrant) (room : RoomId) (op item : Str) : MemoryReply α :=
  (g.auditMemory env grant.agent "memory_denied" room.asStr item).concludeMemory env op "denied"
    (.error (.roomNotPermitted room.asStr))

def remember (grant : CapabilityGrant) (room : RoomId) (key value : Str) : MemoryReply Unit :=
  if !grant.permitsRoom room then g.denyMemory env grant room "store" key
  else
    match Memory.store g.store grant.agent room key value with
    | .error e => ⟨g, some (.error e)⟩
    | .ok store =>
        (({ g with store } : Gateway).auditMemory env grant.agent "memory_stored" room.asStr
          key).concludeMemory env "store" "ok" (.ok ())

def recallItem (grant : CapabilityGrant) (room : RoomId) (key : Str) : MemoryReply (Option Str) :=
  if !grant.permitsRoom room then g.denyMemory env grant room "recall" key
  else
    (g.auditMemory env grant.agent "memory_recalled" room.asStr key).concludeMemory env "recall" "ok"
      (.ok (Memory.recallItem g.store grant.agent room key))

def recallAll (grant : CapabilityGrant) (room : RoomId) : MemoryReply (List MemoryItem) :=
  if !grant.permitsRoom room then g.denyMemory env grant room "recall_all" "*"
  else
    let items := Memory.recallAll g.store grant.agent room
    (g.auditMemory env grant.agent "memory_recalled" room.asStr
      ("* (".toList ++ decimal items.length ++ ")".toList)).concludeMemory env "recall_all" "ok"
      (.ok items)

def forget (grant : CapabilityGrant) (room : RoomId) (key : Str) : MemoryReply Unit :=
  if !grant.permitsRoom room then g.denyMemory env grant room "forget" key
  else
    (({ g with store := Memory.forget g.store grant.agent room key } : Gateway).auditMemory env
      grant.agent "memory_forgotten" room.asStr key).concludeMemory env "forget" "ok" (.ok ())

end Gateway

/-! ## Runs -/

/-- A call on the memory, under the grant of its agent. -/
inductive MemoryOp
  | remember (grant : CapabilityGrant) (room : RoomId) (key value : Str)
  | recallItem (grant : CapabilityGrant) (room : RoomId) (key : Str)
  | recallAll (grant : CapabilityGrant) (room : RoomId)
  | forget (grant : CapabilityGrant) (room : RoomId) (key : Str)

namespace MemoryOp

def agent : MemoryOp → AgentId
  | remember grant _ _ _ | recallItem grant _ _ | recallAll grant _ | forget grant _ _ => grant.agent

def room : MemoryOp → RoomId
  | remember _ room _ _ | recallItem _ room _ | recallAll _ room | forget _ room _ => room

/-- What an operation does to the notes: it sets one to a value, or removes one. -/
def effect : MemoryOp → Option (Str × Option Str)
  | remember grant room key value =>
      if grant.permitsRoom room ∧ sep ∉ key then some (key, some value) else none
  | forget grant room key => if grant.permitsRoom room then some (key, none) else none
  | recallItem _ _ _ => none
  | recallAll _ _ => none

end MemoryOp

def memoryStep (env : GatewayEnv) (g : Gateway) : MemoryOp → Gateway
  | .remember grant room key value => (g.remember env grant room key value).gateway
  | .recallItem grant room key => (g.recallItem env grant room key).gateway
  | .recallAll grant room => (g.recallAll env grant room).gateway
  | .forget grant room key => (g.forget env grant room key).gateway

/-- The gateway after a run of operations on an empty store. -/
def afterMemory (env : GatewayEnv) (ops : List MemoryOp) : Gateway :=
  run (memoryStep env) (Gateway.withStore Store.empty) ops

/-- The value that the agent's last note of the key for the room has, if it was not forgotten. -/
def remembered (ops : List MemoryOp) (agent : AgentId) (room : RoomId) (key : Str) : Option Str :=
  (ops.reverse.findSome? fun op =>
    op.effect.bind fun e =>
      if op.agent = agent ∧ op.room = room ∧ e.1 = key then some e.2 else none).join

/-- What the memory gives an agent for a room is what that agent remembered for that room. -/
structure OwnNotes (env : GatewayEnv) (ops : List MemoryOp) (g : Gateway) : Prop where
  items : ∀ (agent : AgentId) (room : RoomId) (key : Str),
    Memory.recallItem g.store agent room key = remembered ops agent room key
  all : ∀ (agent : AgentId) (room : RoomId),
    ((Memory.recallAll g.store agent room).map MemoryItem.key).Pairwise (· < ·) ∧
      ∀ item, item ∈ Memory.recallAll g.store agent room ↔
        remembered ops agent room item.key = some item.value
  /-- The answers of the gateway, where it does not panic. -/
  answers : ∀ (grant : CapabilityGrant) (room : RoomId) (key : Str),
    (∀ answer, (g.recallItem env grant room key).answer = some answer →
      answer = if grant.permitsRoom room then .ok (remembered ops grant.agent room key)
        else .error (.roomNotPermitted room.asStr)) ∧
    ∀ answer, (g.recallAll env grant room).answer = some answer →
      answer = if grant.permitsRoom room then .ok (Memory.recallAll g.store grant.agent room)
        else .error (.roomNotPermitted room.asStr)

/-- In every state of the run the memory gives each agent its own notes, and no operation changes what
another agent reads, or the same agent for another room. -/
def IsolatedNotes (env : GatewayEnv) (ops : List MemoryOp) : Prop :=
  (∀ before, before <+: ops → OwnNotes env before (afterMemory env before)) ∧
    ∀ before op, before ++ [op] <+: ops → ∀ (agent : AgentId) (room : RoomId),
      ¬ (op.agent = agent ∧ op.room = room) →
        (∀ key, Memory.recallItem (afterMemory env (before ++ [op])).store agent room key =
          Memory.recallItem (afterMemory env before).store agent room key) ∧
        Memory.recallAll (afterMemory env (before ++ [op])).store agent room =
          Memory.recallAll (afterMemory env before).store agent room

/-- No other agent, room and key give the string of the note. -/
def SoleItem (agent : AgentId) (room : RoomId) (key : Str) : Prop :=
  ∀ (agent' : AgentId) (room' : RoomId) (key' : Str),
    Memory.itemKey agent' room' key' = Memory.itemKey agent room key → agent' = agent ∧ room' = room

/-- A note that the operation stores can be read in one way. -/
def StoresSole (op : MemoryOp) : Prop :=
  ∀ key value, op.effect = some (key, some value) → SoleItem op.agent op.room key

section

variable {env : GatewayEnv} {g : Gateway} {s : Store Bytes} {ops : List MemoryOp} {agent : AgentId}
  {room : RoomId} {key : Str}

/-- Names without the separator can be read in one way. -/
theorem soleItem_of_plain (hagent : sep ∉ agent.asStr) (hroom : sep ∉ room.asStr) (hkey : sep ∉ key) :
    SoleItem agent room key := by
  intro agent' room' key' h
  have hcount := congrArg (List.count sep) h
  simp only [Memory.itemKey, Memory.roomPrefix, List.count_append, List.count_cons_self,
    List.count_eq_zero.mpr hagent, List.count_eq_zero.mpr hroom, List.count_eq_zero.mpr hkey]
    at hcount
  have hagent' : sep ∉ agent'.asStr := List.count_eq_zero.mp (by omega)
  have hroom' : sep ∉ room'.asStr := List.count_eq_zero.mp (by omega)
  simp only [Memory.itemKey, Memory.roomPrefix, List.append_assoc, List.cons_append] at h
  obtain ⟨hname, hrest⟩ := append_sep_inj hagent' hagent h
  exact ⟨UserId.ext hname, RoomId.ext (append_sep_inj hroom' hroom hrest).1⟩

/-! ## What an operation writes -/

@[simp] theorem auditMemory_notes (line item : Str) (roomId : Str) :
    (g.auditMemory env agent line roomId item).store .agentMemory = g.store .agentMemory := by
  have hne : Cf.agentMemory ≠ .auditLog := by decide
  simp only [Gateway.auditMemory, Audit.append]
  exact Store.put_of_ne g.store hne _ _

@[simp] theorem concludeMemory_store {α : Type} (op result : Str) (answer : Except MemoryError α) :
    (g.concludeMemory env op result answer).gateway.store = g.store := by
  unfold Gateway.concludeMemory
  split <;> rfl

@[simp] theorem denyMemory_notes {α : Type} (grant : CapabilityGrant) (op item : Str) :
    (g.denyMemory env grant room op item : MemoryReply α).gateway.store .agentMemory =
      g.store .agentMemory := by
  rw [Gateway.denyMemory, concludeMemory_store, auditMemory_notes]

/-- An operation changes the notes by its effect only. -/
theorem memoryStep_notes (env : GatewayEnv) (g : Gateway) (op : MemoryOp) :
    (memoryStep env g op).store .agentMemory =
      match op.effect with
      | none => g.store .agentMemory
      | some (key, some value) =>
          (g.store .agentMemory).insert (Memory.itemKey op.agent op.room key) (.utf8 value)
      | some (key, none) => (g.store .agentMemory).erase (Memory.itemKey op.agent op.room key) := by
  cases op with
  | remember grant room key value =>
      simp only [memoryStep, Gateway.remember, MemoryOp.effect]
      cases hroom : grant.permitsRoom room with
      | false => simp
      | true =>
          -- a key with the separator is refused
          by_cases hkey : sep ∈ key
          · simp [Memory.store, Memory.checkKey, hkey, bind, Except.bind]
          · have hstore : Memory.store g.store grant.agent room key value =
                .ok (g.store.put .agentMemory (Memory.itemKey grant.agent room key) (.utf8 value)) := by
              rw [Memory.store, Memory.checkKey, if_neg hkey]
              rfl
            simp only [hstore, hkey, not_false_eq_true, and_self, if_true, Bool.not_true,
              Bool.false_eq_true, if_false]
            rw [concludeMemory_store, auditMemory_notes]
            exact Store.put_self g.store .agentMemory (Memory.itemKey grant.agent room key) (.utf8 value)
  | recallItem grant room key =>
      simp only [memoryStep, Gateway.recallItem, MemoryOp.effect]
      split <;> simp
  | recallAll grant room =>
      simp only [memoryStep, Gateway.recallAll, MemoryOp.effect]
      split <;> simp
  | forget grant room key =>
      simp only [memoryStep, Gateway.forget, MemoryOp.effect]
      cases hroom : grant.permitsRoom room with
      | false => simp
      | true =>
          simp only [Bool.not_true, Bool.false_eq_true, if_false, if_true]
          rw [concludeMemory_store, auditMemory_notes]
          have hdelete : g.store.delete .agentMemory (Memory.itemKey grant.agent room key) .agentMemory =
              (g.store .agentMemory).erase (Memory.itemKey grant.agent room key) := if_pos rfl
          exact hdelete

theorem get_memoryStep (env : GatewayEnv) (g : Gateway) (op : MemoryOp) (string : Str) :
    (memoryStep env g op).store.get .agentMemory string =
      match op.effect with
      | none => g.store.get .agentMemory string
      | some (key, value) =>
          if string = Memory.itemKey op.agent op.room key then value.map .utf8
          else g.store.get .agentMemory string := by
  rw [Store.get, memoryStep_notes]
  cases op.effect with
  | none => rfl
  | some e =>
      obtain ⟨key, value | value⟩ := e
      · show ((g.store .agentMemory).erase _).get string = if _ then none else _
        by_cases h : string = Memory.itemKey op.agent op.room key
        · simp [h, SortedMap.get_erase]
        · simp [h, SortedMap.get_erase, Store.get]
      · show ((g.store .agentMemory).insert _ _).get string = if _ then some _ else _
        by_cases h : string = Memory.itemKey op.agent op.room key
        · simp [h]
        · rw [SortedMap.get_insert_ne _ h, if_neg h, Store.get]

/-! ## Reads -/

/-- The notes of an agent for a room, by key. -/
def notesUnder (s : Store Bytes) (agent : AgentId) (room : RoomId) : SortedMap Str Str :=
  ((s .agentMemory).under (Memory.roomPrefix agent room)).filterMapValues Bytes.fromUtf8

theorem get_notesUnder (s : Store Bytes) (agent : AgentId) (room : RoomId) (key : Str) :
    (notesUnder s agent room).get key = Memory.recallItem s agent room key := by
  rw [notesUnder, SortedMap.get_filterMapValues, SortedMap.get_under]
  rfl

theorem recallAll_eq (s : Store Bytes) (agent : AgentId) (room : RoomId) :
    Memory.recallAll s agent room = (notesUnder s agent room).entries.map fun e => ⟨e.1, e.2⟩ := by
  have hentries : (notesUnder s agent room).entries = ((s .agentMemory).entries.filterMap fun e =>
      (stripPrefix (Memory.roomPrefix agent room) e.1).map fun key => (key, e.2)).filterMap fun e =>
        e.2.fromUtf8.map (Prod.mk e.1) := rfl
  rw [hentries, List.filterMap_filterMap, List.map_filterMap, Memory.recallAll, Store.scan]
  congr
  funext e
  cases stripPrefix (Memory.roomPrefix agent room) e.1 with
  | none => rfl
  | some key => cases h : e.2.fromUtf8 <;> simp [h]

/-- Where single recalls agree, the recall of all notes does. -/
theorem recallAll_congr {t : Store Bytes}
    (h : ∀ key, Memory.recallItem s agent room key = Memory.recallItem t agent room key) :
    Memory.recallAll s agent room = Memory.recallAll t agent room := by
  have hnotes : notesUnder s agent room = notesUnder t agent room := by
    apply SortedMap.ext_get
    intro key
    rw [get_notesUnder, get_notesUnder, h]
  rw [recallAll_eq, recallAll_eq, hnotes]

theorem mem_recallAll {item : MemoryItem} : item ∈ Memory.recallAll s agent room ↔
    Memory.recallItem s agent room item.key = some item.value := by
  rw [recallAll_eq, List.mem_map, ← get_notesUnder, ← SortedMap.mem_entries_iff]
  constructor
  · intro ⟨e, he, heq⟩
    rw [← heq]
    exact he
  · exact fun h => ⟨_, h, rfl⟩

theorem remembered_concat (ops : List MemoryOp) (op : MemoryOp) (agent : AgentId) (room : RoomId)
    (key : Str) :
    remembered (ops ++ [op]) agent room key =
      match op.effect with
      | none => remembered ops agent room key
      | some (key', value) =>
          if op.agent = agent ∧ op.room = room ∧ key' = key then value
          else remembered ops agent room key := by
  rw [remembered, List.reverse_append, List.reverse_singleton, List.singleton_append,
    List.findSome?_cons]
  cases op.effect with
  | none => rfl
  | some e =>
      obtain ⟨key', value⟩ := e
      by_cases h : op.agent = agent ∧ op.room = room ∧ key' = key
      · simp only [Option.bind_some, if_pos h]
        rfl
      · simp only [Option.bind_some, if_neg h]
        rfl

/-! ## Isolation -/

/-- The store holds what was remembered, each note under its one reading. -/
structure NotesOf (ops : List MemoryOp) (s : Store Bytes) : Prop where
  notes : ∀ (agent : AgentId) (room : RoomId) (key : Str),
    s.get .agentMemory (Memory.itemKey agent room key) =
      (remembered ops agent room key).map .utf8
  sole : ∀ (agent : AgentId) (room : RoomId) (key : Str),
    (s.get .agentMemory (Memory.itemKey agent room key)).isSome → SoleItem agent room key

theorem notesOf_empty : NotesOf [] Store.empty where
  notes _ _ _ := rfl
  sole _ _ _ h := nomatch h

theorem afterMemory_concat (ops : List MemoryOp) (op : MemoryOp) :
    afterMemory env (ops ++ [op]) = memoryStep env (afterMemory env ops) op := run_append _ _ _

/-- An operation whose note can be read in one way keeps the correspondence. -/
theorem NotesOf.step (h : NotesOf ops g.store) {op : MemoryOp} (hop : StoresSole op) :
    NotesOf (ops ++ [op]) (memoryStep env g op).store := by
  cases heffect : op.effect with
  | none =>
      constructor
      · intro agent room key
        rw [get_memoryStep, remembered_concat, heffect]
        exact h.notes agent room key
      · intro agent room key hsome
        rw [get_memoryStep, heffect] at hsome
        exact h.sole agent room key hsome
  | some e =>
      obtain ⟨key', value⟩ := e
      -- a stored note with the string of the operation's is that note
      have hsame : ∀ (agent : AgentId) (room : RoomId) (key : Str),
          Memory.itemKey agent room key = Memory.itemKey op.agent op.room key' →
          (value.isSome ∨ (g.store.get .agentMemory (Memory.itemKey agent room key)).isSome) →
            op.agent = agent ∧ op.room = room ∧ key' = key := by
        intro agent room key hstring hnote
        have hnames : op.agent = agent ∧ op.room = room := by
          rcases hnote with hvalue | hstored
          · obtain ⟨v, rfl⟩ := Option.isSome_iff_exists.mp hvalue
            obtain ⟨hagent, hroom⟩ := hop key' v heffect agent room key hstring
            exact ⟨hagent.symm, hroom.symm⟩
          · exact h.sole agent room key hstored op.agent op.room key' hstring.symm
        rw [hnames.1, hnames.2] at hstring
        exact ⟨hnames.1, hnames.2, (List.append_cancel_left hstring).symm⟩
      constructor
      · intro agent room key
        rw [get_memoryStep, remembered_concat, heffect]
        show (if _ then value.map _ else g.store.get .agentMemory _) = Option.map _ (if _ then value else _)
        by_cases hown : op.agent = agent ∧ op.room = room ∧ key' = key
        · obtain ⟨rfl, rfl, rfl⟩ := hown
          simp
        · rw [if_neg hown, ← h.notes]
          split
          · rename_i hstring
            have hnone : ¬ (value.isSome ∨
                (g.store.get .agentMemory (Memory.itemKey agent room key)).isSome) :=
              fun hnote => hown (hsame agent room key hstring hnote)
            simp only [Option.isSome_iff_ne_none, ne_eq, not_or, not_not] at hnone
            rw [hnone.1, hnone.2]
            rfl
          · rfl
      · intro agent room key hsome
        rw [get_memoryStep, heffect] at hsome
        by_cases hstring : Memory.itemKey agent room key = Memory.itemKey op.agent op.room key'
        · simp only [if_pos hstring, Option.isSome_map] at hsome
          obtain ⟨v, rfl⟩ := Option.isSome_iff_exists.mp hsome
          obtain ⟨rfl, rfl, rfl⟩ := hsame agent room key hstring (.inl rfl)
          exact hop key' v heffect
        · simp only [if_neg hstring] at hsome
          exact h.sole agent room key hsome

theorem notesOf_run (hops : ∀ op ∈ ops, StoresSole op) : NotesOf ops (afterMemory env ops).store := by
  induction ops using List.reverseRecOn with
  | nil => exact notesOf_empty
  | append_singleton ops op ih =>
      rw [List.forall_mem_append] at hops
      rw [afterMemory_concat]
      exact (ih hops.1).step (hops.2 op (List.mem_singleton_self _))

theorem answer_of_conclude {α : Type} {op result : Str} {answer given : Except MemoryError α}
    (h : (g.concludeMemory env op result answer).answer = some given) : given = answer := by
  unfold Gateway.concludeMemory at h
  split at h
  · cases h
  · exact (Option.some.inj h).symm

/-- Where the store holds what was remembered, reads and answers are each agent's own notes. -/
theorem NotesOf.ownNotes (h : NotesOf ops g.store) : OwnNotes env ops g := by
  have hitems : ∀ (agent : AgentId) (room : RoomId) (key : Str),
      Memory.recallItem g.store agent room key = remembered ops agent room key := by
    intro agent room key
    rw [Memory.recallItem, h.notes]
    cases remembered ops agent room key <;> rfl
  constructor
  case items => exact hitems
  case all =>
    intro agent room
    constructor
    · rw [recallAll_eq, List.map_map]
      exact List.pairwise_map.mpr ((notesUnder g.store agent room).sorted.imp fun hlt => hlt)
    · intro item
      rw [mem_recallAll, hitems]
  case answers =>
    intro grant room key
    constructor
    · intro answer hanswer
      unfold Gateway.recallItem at hanswer
      cases hroom : grant.permitsRoom room with
      | false =>
          rw [hroom] at hanswer
          exact answer_of_conclude hanswer
      | true =>
          rw [hroom] at hanswer
          rw [answer_of_conclude hanswer, hitems]
          rfl
    · intro answer hanswer
      unfold Gateway.recallAll at hanswer
      cases hroom : grant.permitsRoom room with
      | false =>
          rw [hroom] at hanswer
          exact answer_of_conclude hanswer
      | true =>
          rw [hroom] at hanswer
          exact answer_of_conclude hanswer

/-- An operation with a note of two readings lets another reading be recalled that was never
remembered. -/
theorem not_ownNotes_of_two_readings (h : NotesOf ops (afterMemory env ops).store) {op : MemoryOp}
    (hop : ¬ StoresSole op) :
    ¬ OwnNotes env (ops ++ [op]) (afterMemory env (ops ++ [op])) := by
  intro hown
  unfold StoresSole SoleItem at hop
  push Not at hop
  obtain ⟨key, value, heffect, agent', room', key', hstring, hother⟩ := hop
  have hread := hown.items agent' room' key'
  have hnot : ¬ (op.agent = agent' ∧ op.room = room' ∧ key = key') :=
    fun hsame => hother hsame.1.symm hsame.2.1.symm
  rw [afterMemory_concat, Memory.recallItem, get_memoryStep, remembered_concat, heffect] at hread
  simp only [if_pos hstring, if_neg hnot] at hread
  -- so the other reading was remembered before, and the string has two readings already there
  have hold := h.notes agent' room' key'
  rw [← hread] at hold
  have hsole := h.sole agent' room' key' (by rw [hold]; rfl)
  obtain ⟨hagent, hroom⟩ := hsole op.agent op.room key hstring.symm
  exact hother hagent.symm hroom.symm

end

/-- The memory of a run is isolated exactly when every note that it stores can be read in one way. -/
theorem isolated_notes_iff (env : GatewayEnv) (ops : List MemoryOp) :
    IsolatedNotes env ops ↔ ∀ op ∈ ops, StoresSole op := by
  constructor
  · intro h
    -- the first note with two readings would be recalled under the other one
    have hfrom : ∀ before, before <+: ops → ∀ op ∈ before, StoresSole op := by
      intro before
      induction before using List.reverseRecOn with
      | nil => exact fun _ _ hop => absurd hop List.not_mem_nil
      | append_singleton before op ih =>
          intro hprefix
          have hbefore := ih ((List.prefix_append before [op]).trans hprefix)
          rw [List.forall_mem_append]
          refine ⟨hbefore, fun op' hop' => ?_⟩
          obtain rfl := List.mem_singleton.mp hop'
          by_contra hnot
          exact not_ownNotes_of_two_readings (notesOf_run hbefore) hnot (h.1 _ hprefix)
    exact hfrom ops List.prefix_rfl
  · intro h
    have hnotes : ∀ before, before <+: ops → NotesOf before (afterMemory env before).store :=
      fun before hprefix => notesOf_run fun op hop => h op (List.IsPrefix.subset hprefix hop)
    constructor
    · exact fun before hprefix => (hnotes before hprefix).ownNotes
    · intro before op hprefix agent room hother
      have hafter : OwnNotes env (before ++ [op]) (afterMemory env (before ++ [op])) :=
        (hnotes _ hprefix).ownNotes
      have hbefore : OwnNotes env before (afterMemory env before) :=
        (hnotes _ ((List.prefix_append before [op]).trans hprefix)).ownNotes
      have hitems : ∀ key, Memory.recallItem (afterMemory env (before ++ [op])).store agent room key =
          Memory.recallItem (afterMemory env before).store agent room key := by
        intro key
        rw [hafter.items, hbefore.items, remembered_concat]
        cases heffect : op.effect with
        | none => rfl
        | some e =>
            have hnot : ¬ (op.agent = agent ∧ op.room = room ∧ e.1 = key) :=
              fun hsame => hother ⟨hsame.1, hsame.2.1⟩
            simp only [if_neg hnot]
      exact ⟨hitems, recallAll_congr hitems⟩

namespace SampleNotes

def env : GatewayEnv where
  digest := fun _ _ prevHash => prevHash + 1
  clock := fun _ => 0
  overflowChecks := true

/-- An agent whose id goes on, after the id of another one, with a separator and the id of a room. -/
def longAgent : AgentId := ⟨"@a:x\x1f!q:y", by decide⟩
def shortAgent : AgentId := ⟨"@a:x", valid_alice⟩
def noteRoom : RoomId := ⟨"!r:x", valid_room⟩
def innerRoom : RoomId := ⟨"!q:y", by decide⟩

def grant (agent : AgentId) (room : RoomId) : CapabilityGrant where
  agent
  allowedTools := []
  accessibleRooms := [room]
  rateLimitPerMin := 0
  dailyCallLimit := 0
  dailyTokenBudget := 0
  defaultClass := .forbidden
  overrides := []

/-- The agent of the long id notes something for its room. -/
def noted : List MemoryOp := [.remember (grant longAgent noteRoom) noteRoom "k" "secret"]

end SampleNotes

open SampleNotes in
/-- The agent of the short id recalls, for the room inside the other id, the note of the other agent. -/
theorem note_read_by_another_agent :
    ¬ ∀ (env : GatewayEnv) (ops : List MemoryOp), IsolatedNotes env ops := by
  intro h
  have hread : Memory.recallItem (afterMemory env noted).store shortAgent innerRoom
      "!r:x\x1fk".toList = some "secret".toList := by
    decide +kernel
  have hnever : remembered noted shortAgent innerRoom "!r:x\x1fk".toList = none := by
    decide +kernel
  have hown := ((h env noted).1 noted List.prefix_rfl).items shortAgent innerRoom "!r:x\x1fk".toList
  rw [hread, hnever] at hown
  cases hown

end GaussMatrix.Agent
