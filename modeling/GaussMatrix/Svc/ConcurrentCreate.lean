import GaussMatrix.Svc.ConcurrentAppend
import GaussMatrix.Svc.LinearDag
import GaussMatrix.Svc.Sessions

/-!
# Concurrent room creation

A call hashes its room id from the creator, the count of stored events and the clock, all read before
the room has an event and under no lock.  Two calls get one id exactly when they read the same three.
-/

namespace GaussMatrix.Svc

open Library Util Api Api.Events StateRes RoomService

/-! ## The steps of a call -/

/-- A call of `create_room`. -/
structure CreateCall where
  creator : UserId
  name : Option Str
  topic : Option Str

/-- What a room id is hashed from. -/
structure MintSource where
  creator : Str
  count : Nat
  now : UInt64
  deriving DecidableEq

def MintSource.hash (env : Env) (source : MintSource) : UInt64 :=
  env.roomHash source.creator source.count source.now

/-- The room id of a hashed source. -/
def mintedId (env : Env) (source : MintSource) : Option RoomId :=
  RoomId.parse ('!' :: hex16 (source.hash env) ++ ':' :: env.serverName)

/-- Where a call stands: the count it read, or its room with the events it has appended so far. -/
inductive CreatePhase
  | ready
  | counted (count : Nat)
  | building (room : RoomId) (i : Nat) (prevEvents : List EventId)
  | appending (room : RoomId) (i : Nat) (p : Pdu) (w : Writer)
  | done (result : Option RoomId)
  deriving DecidableEq

/-- An event of a new room, before it has its id. -/
def initialEvent (room : RoomId) (creator : UserId) (now : UInt64) (i : Nat)
    (prevEvents : List EventId) (content : Str × Str × Str) : Pdu where
  eventId := placeholderEventId
  roomId := room
  sender := creator
  kind := content.1
  stateKey := some content.2.1
  originServerTs := now
  depth := UInt64.ofNat (i + 1)
  prevEvents
  authEvents := []
  contentJson := content.2.2

/-- One store operation or clock reading of a call. -/
def createNext (env : Env) (call : CreateCall) (now : UInt64) (s : Data) :
    CreatePhase → Data × CreatePhase
  | .ready => (s, .counted (s.count .events))
  | .counted count =>
      match mintedId env ⟨call.creator.asStr, count, now⟩ with
      | none => (s, .done none)
      | some room => (s, .building room 0 [])
  | .building room i prevEvents =>
      match (initialState call.creator call.name call.topic)[i]? with
      | none => (s, .done (some room))
      | some content =>
          match withReferenceId env (initialEvent room call.creator now i prevEvents content) with
          | none => (s, .done none)
          | some p => (s, .appending room i p ⟨[p], .idle⟩)
  | .appending room i p w =>
      let after := appendStep s w
      (after.1,
        if after.2 = ⟨[], .idle⟩ then .building room (i + 1) [p.eventId]
        else .appending room i p after.2)
  | .done result => (s, .done result)

/-! ## A call on its own -/

/-- The steps of a call on its own, with these clock readings. -/
def createAlone (env : Env) (call : CreateCall) (x : Data × CreatePhase) (readings : List UInt64) :
    Data × CreatePhase :=
  run (fun x now => createNext env call now x.1 x.2) x readings

section

variable {env : Env} {call : CreateCall}

@[simp] theorem createAlone_nil (x : Data × CreatePhase) : createAlone env call x [] = x := rfl

theorem createAlone_cons (x : Data × CreatePhase) (now : UInt64) (readings : List UInt64) :
    createAlone env call x (now :: readings) =
      createAlone env call (createNext env call now x.1 x.2) readings :=
  rfl

theorem createAlone_append (x : Data × CreatePhase) (readings later : List UInt64) :
    createAlone env call x (readings ++ later) =
      createAlone env call (createAlone env call x readings) later :=
  run_append x readings later

/-- A state event is appended in four operations. -/
theorem createAlone_appending {s : Data} {room : RoomId} {i : Nat} {p : Pdu}
    (hp : p.stateKey.isSome) (now : UInt64) :
    createAlone env call (s, .appending room i p ⟨[p], .idle⟩) [now, now, now, now] =
      (append s p, .building room (i + 1) [p.eventId]) := by
  have htuple : p.stateTuple.isSome := by simpa [Pdu.stateTuple] using hp
  obtain ⟨slot, hslot⟩ := Option.isSome_iff_exists.mp htuple
  simp [createAlone, run, createNext, appendStep, hslot, append, streamLen]

/-- From an event on, the steps append the events that are left. -/
theorem createAlone_building (env : Env) (room : RoomId) (now : Nat → UInt64)
    {left : List (Str × Str × Str)} {i : Nat} (hleft : (initialState call.creator call.name call.topic).drop i = left) (s : Data)
    (prevEvents : List EventId) :
    ∃ readings, createAlone env call (s, .building room i prevEvents) readings =
      ((initialEvents env room call.creator now i prevEvents left).foldl append s,
        .done (if (initialEvents env room call.creator now i prevEvents left).length = left.length
          then some room else none)) := by
  induction left generalizing i s prevEvents with
  | nil =>
      refine ⟨[0], ?_⟩
      have hend : (initialState call.creator call.name call.topic)[i]? = none :=
        List.getElem?_eq_none (List.drop_eq_nil_iff.mp hleft)
      simp [createAlone, createNext, hend, initialEvents]
  | cons content left ih =>
      have hget : (initialState call.creator call.name call.topic)[i]? = some content := by
        have hhead := congrArg List.head? hleft
        rwa [List.head?_drop] at hhead
      have hnext : (initialState call.creator call.name call.topic).drop (i + 1) = left := by
        have htail := congrArg List.tail hleft
        rwa [List.tail_drop] at htail
      obtain ⟨kind, key, text⟩ := content
      cases hp : withReferenceId env
          (initialEvent room call.creator (now (i + 1)) i prevEvents (kind, key, text)) with
      | none =>
          -- an event without an id ends the creation
          refine ⟨[now (i + 1)], ?_⟩
          have hevents : initialEvents env room call.creator now i prevEvents
              ((kind, key, text) :: left) = [] := by
            simp only [initialEvents]
            simp only [initialEvent] at hp
            rw [hp]
          simp [createAlone, createNext, hget, hp, hevents]
      | some p =>
          -- it is appended in four steps, and what is left follows on it
          obtain ⟨readings, hreadings⟩ := ih hnext (append s p) [p.eventId]
          refine ⟨now (i + 1) :: ([0, 0, 0, 0] ++ readings), ?_⟩
          have hevents : initialEvents env room call.creator now i prevEvents
              ((kind, key, text) :: left) =
                p :: initialEvents env room call.creator now (i + 1) [p.eventId] left := by
            simp only [initialEvents]
            simp only [initialEvent] at hp
            rw [hp]
          have hstate : p.stateKey.isSome := by
            obtain ⟨id, rfl⟩ := withReferenceId_eq_some hp
            rfl
          have hbuilt : createNext env call (now (i + 1)) s (.building room i prevEvents) =
              (s, .appending room i p ⟨[p], .idle⟩) := by
            simp only [createNext, hget, hp]
          rw [createAlone_cons, hbuilt, createAlone_append, createAlone_appending hstate, hreadings,
            hevents]
          simp only [List.foldl_cons, List.length_cons, Nat.add_right_cancel_iff]

/-- On its own a call does what `createRoom` does. -/
theorem createAlone_eq (s : Data) (now : Nat → UInt64) :
    ∃ readings, createAlone env call (s, .ready) readings =
      ((createRoom env s call.creator call.name call.topic now).2,
        .done (createRoom env s call.creator call.name call.topic now).1) := by
  have hmint : mintRoomId env s call.creator (now 0) =
      mintedId env ⟨call.creator.asStr, s.count .events, now 0⟩ := rfl
  cases hroom : mintedId env ⟨call.creator.asStr, s.count .events, now 0⟩ with
  | none =>
      refine ⟨[0, now 0], ?_⟩
      simp [createAlone, createNext, createRoom, hmint, hroom]
  | some room =>
      have hleft : (initialState call.creator call.name call.topic).drop 0 =
          initialState call.creator call.name call.topic := rfl
      obtain ⟨readings, hreadings⟩ := createAlone_building env room now hleft s []
      refine ⟨0 :: now 0 :: readings, ?_⟩
      have hstart : createNext env call (now 0) s (.counted (s.count .events)) =
          (s, .building room 0 []) := by
        simp only [createNext, hroom]
      rw [createAlone_cons, createAlone_cons]
      show createAlone env call (createNext env call (now 0) s (.counted (s.count .events))) readings
        = _
      rw [hstart, hreadings, createRoom, hmint, hroom]

end

/-! ## Interleaved calls -/

variable {ι : Type}

/-- One operation of a call, at a clock reading. -/
def createStep [DecidableEq ι] (env : Env) (calls : ι → CreateCall) (c : Threads ι Data CreatePhase)
    (x : ι × UInt64) : Threads ι Data CreatePhase :=
  Threads.step (fun i => createNext env (calls i) x.2) c x.1

/-- The calls before their first operations, on an empty store. -/
def createStart : Threads ι Data CreatePhase := ⟨Store.empty, fun _ => .ready⟩

/-- The call that mints its room id in a step, and what it hashes. -/
def minting (calls : ι → CreateCall) (x : Threads ι Data CreatePhase × (ι × UInt64)) :
    Option (ι × MintSource) :=
  match x.1.phase x.2.1 with
  | .counted count => some (x.2.1, ⟨(calls x.2.1).creator.asStr, count, x.2.2⟩)
  | _ => none

/-- The mints of a run, in order. -/
def mints [DecidableEq ι] (env : Env) (calls : ι → CreateCall) (schedule : List (ι × UInt64)) :
    List (ι × MintSource) :=
  (trace (createStep env calls) createStart schedule).filterMap (minting calls)

/-- What the mints of a run hash. -/
def mintSources [DecidableEq ι] (env : Env) (calls : ι → CreateCall) (schedule : List (ι × UInt64)) :
    List MintSource :=
  (mints env calls schedule).map Prod.snd

/-- No room's timeline has two create events. -/
def OneCreate (s : Data) : Prop :=
  ∀ room, ((timeline s room).filter fun p => p.kind = roomCreate).length ≤ 1

/-! ## Minted ids -/

theorem length_hex16 (n : UInt64) : (hex16 n).length = 16 := by
  have hlen : (Nat.toDigits 16 n.toNat).length ≤ 16 := by
    rw [Nat.length_toDigits_le_iff (by decide) (by decide)]
    exact n.toNat_lt
  rw [hex16, List.length_append, List.length_replicate]
  omega

theorem sep_not_mem_toDigits (n : Nat) : sep ∉ Nat.toDigits 16 n := by
  have hdigit : ∀ k < 16, sep ≠ Nat.digitChar k := by decide
  induction n using Nat.strong_induction_on with
  | h n ih =>
      rw [Nat.toDigits_eq_if (by decide)]
      split
      · rename_i hlt
        simpa using hdigit n hlt
      · rename_i hge
        rw [List.mem_append, List.mem_singleton, not_or]
        exact ⟨ih (n / 16) (by omega), hdigit (n % 16) (by omega)⟩

theorem sep_not_mem_hex16 (n : UInt64) : sep ∉ hex16 n := by
  rw [hex16, List.mem_append, not_or]
  refine ⟨fun h => ?_, sep_not_mem_toDigits _⟩
  exact absurd (List.eq_of_mem_replicate h) (by decide)

section

variable {env : Env} {source source' : MintSource} {room room' : RoomId}

theorem asStr_mintedId (h : mintedId env source = some room) :
    room.asStr = '!' :: hex16 (source.hash env) ++ ':' :: env.serverName :=
  RoomId.asStr_of_parse h

theorem hash_eq_of_mintedId (h : mintedId env source = some room)
    (h' : mintedId env source' = some room) : source.hash env = source'.hash env := by
  have heq := (asStr_mintedId h).symm.trans (asStr_mintedId h')
  exact hex16_injective (List.append_cancel_right (List.cons.inj heq).2)

/-- A room whose prefix the keys of two minted rooms have tells them apart: the hash is a part of the
prefix. -/
theorem eq_of_roomPrefix {rest rest' : Str} (h : mintedId env source = some room)
    (h' : mintedId env source' = some room') {outer : RoomId}
    (hpfx : roomPrefix outer <+: room.asStr ++ rest)
    (hpfx' : roomPrefix outer <+: room'.asStr ++ rest') : room = room' := by
  have hhead : ∀ {source : MintSource} {room : RoomId} {rest : Str},
      mintedId env source = some room → roomPrefix outer <+: room.asStr ++ rest →
        ('!' :: hex16 (source.hash env)) <+: roomPrefix outer := by
    intro source room rest hroom hpfx
    have hown : ('!' :: hex16 (source.hash env)) <+: room.asStr ++ rest := by
      rw [asStr_mintedId hroom, List.append_assoc]
      exact List.prefix_append _ _
    rcases List.prefix_or_prefix_of_prefix hown hpfx with hle | hle
    · exact hle
    · -- the prefix ends in a separator, which the hash does not have
      have hmem : sep ∈ '!' :: hex16 (source.hash env) :=
        hle.subset (by simp [roomPrefix])
      rcases List.mem_cons.mp hmem with heq | hmem
      · exact absurd heq (by decide)
      · exact absurd hmem (sep_not_mem_hex16 _)
  have hsame : '!' :: hex16 (source.hash env) = '!' :: hex16 (source'.hash env) := by
    rcases List.prefix_or_prefix_of_prefix (hhead h hpfx) (hhead h' hpfx') with hle | hle
    · exact hle.eq_of_length (by simp [length_hex16])
    · exact (hle.eq_of_length (by simp [length_hex16])).symm
  apply RoomId.ext
  rw [asStr_mintedId h, asStr_mintedId h', hsame]

end

/-! ## What the calls keep -/

section

variable {env : Env} {calls : ι → CreateCall} {h : List (ι × MintSource)} {s s' : Data} {i j : ι}
  {room : RoomId} {p : Pdu}

/-- The call has minted the room. -/
def Owns (env : Env) (h : List (ι × MintSource)) (i : ι) (room : RoomId) : Prop :=
  ∃ source, (i, source) ∈ h ∧ mintedId env source = some room

/-- No event of the room is stored. -/
def Unused (s : Data) (room : RoomId) : Prop := ∀ p, Stored s p → p.roomId ≠ room

/-- Different mints have different rooms. -/
def MintsApart (env : Env) (h : List (ι × MintSource)) : Prop :=
  ∀ x ∈ h, ∀ y ∈ h, ∀ room, mintedId env x.2 = some room → mintedId env y.2 = some room → x = y

/-- What a call knows of its room: it minted it, its first event is the create event, and until that
is stored the room is unused. -/
def PhaseInv (env : Env) (h : List (ι × MintSource)) (s : Data) (i : ι) : CreatePhase → Prop
  | .ready | .counted _ => True
  | .building room n _ => Owns env h i room ∧ (n = 0 → Unused s room)
  | .appending room n p w =>
      Owns env h i room ∧ p.roomId = room ∧ (n ≠ 0 → p.kind ≠ roomCreate) ∧
        (w = ⟨[p], .idle⟩ ∧ (n = 0 → Unused s room) ∨ w.queue = [] ∧ w.phase.event = some p)
  | .done result => ∀ room, result = some room → Owns env h i room

/-- The stored events are of minted rooms, and each room has one create event at most. -/
structure StoreInv (env : Env) (h : List (ι × MintSource)) (s : Data) : Prop where
  keyed : Keyed s
  owned : ∀ p, Stored s p → ∃ i, Owns env h i p.roomId
  single : ∀ p q, Stored s p → Stored s q → p.kind = roomCreate → q.kind = roomCreate →
    p.roomId = q.roomId → p = q

theorem Owns.mono {h' : List (ι × MintSource)} (hsub : h ⊆ h') (howns : Owns env h i room) :
    Owns env h' i room := by
  obtain ⟨source, hmem, hroom⟩ := howns
  exact ⟨source, hsub hmem, hroom⟩

theorem Owns.eq (hapart : MintsApart env h) (hi : Owns env h i room) (hj : Owns env h j room) :
    i = j := by
  obtain ⟨source, hmem, hroom⟩ := hi
  obtain ⟨source', hmem', hroom'⟩ := hj
  exact congrArg Prod.fst (hapart _ hmem _ hmem' room hroom hroom')

/-- Where the hashes of the sources differ the rooms do. -/
theorem mintsApart (hnodup : (h.map Prod.snd).Nodup)
    (hhash : ∀ a ∈ h.map Prod.snd, ∀ b ∈ h.map Prod.snd, a.hash env = b.hash env → a = b) :
    MintsApart env h := by
  intro x hx y hy room hroom hroom'
  have hsource : x.2 = y.2 := hhash _ (List.mem_map_of_mem hx) _ (List.mem_map_of_mem hy)
    (hash_eq_of_mintedId hroom hroom')
  exact List.inj_on_of_nodup_map hnodup hx hy hsource

/-- What another call stores is no event of this one's room. -/
theorem PhaseInv.of_stored {ph : CreatePhase} (hph : PhaseInv env h s i ph)
    (hnew : ∀ p, Stored s' p → Stored s p ∨ ∀ room, Owns env h i room → p.roomId ≠ room) :
    PhaseInv env h s' i ph := by
  have hunused : ∀ room, Owns env h i room → Unused s room → Unused s' room := by
    intro room howns hun p hp
    rcases hnew p hp with hold | hother
    · exact hun p hold
    · exact hother room howns
  cases ph with
  | ready => trivial
  | counted count => trivial
  | building room n prevEvents => exact ⟨hph.1, fun hn => hunused room hph.1 (hph.2 hn)⟩
  | appending room n p w =>
      obtain ⟨howns, hroom, hkind, hw⟩ := hph
      refine ⟨howns, hroom, hkind, hw.imp_left fun hw => ⟨hw.1, fun hn => ?_⟩⟩
      exact hunused room howns (hw.2 hn)
  | done result => exact hph

theorem PhaseInv.mono {h' : List (ι × MintSource)} (hsub : h ⊆ h') {ph : CreatePhase}
    (hph : PhaseInv env h s i ph) : PhaseInv env h' s i ph := by
  cases ph with
  | ready => trivial
  | counted count => trivial
  | building room n prevEvents => exact ⟨hph.1.mono hsub, hph.2⟩
  | appending room n p w => exact ⟨hph.1.mono hsub, hph.2⟩
  | done result => exact fun room hroom => (hph room hroom).mono hsub

theorem StoreInv.mono {h' : List (ι × MintSource)} (hsub : h ⊆ h') (hs : StoreInv env h s) :
    StoreInv env h' s where
  keyed := hs.keyed
  owned := fun p hp => (hs.owned p hp).imp fun _ howns => howns.mono hsub
  single := hs.single

/-- Every initial event but the first is no create event. -/
theorem kind_initialState {creator : UserId} {name topic : Option Str} {n : Nat}
    {content : Str × Str × Str} (hget : (initialState creator name topic)[n]? = some content)
    (hn : n ≠ 0) : content.1 ≠ roomCreate := by
  cases n with
  | zero => exact absurd rfl hn
  | succ n =>
      have hmem : content ∈ (initialState creator name topic).tail := by
        rw [← List.getElem?_tail] at hget
        exact List.mem_of_getElem? hget
      have hname : roomName ≠ roomCreate := by decide
      have htopic : roomTopic ≠ roomCreate := by decide
      have htail : ∀ content ∈ (initialState creator name topic).tail, content.1 ≠ roomCreate := by
        cases name <;> cases topic <;> simp [initialState, hname, htopic]
      exact htail content hmem

variable {c : Threads ι Data CreatePhase} {now : UInt64}

/-- What a step keeps of the calls and of the store they share. -/
structure CreateInv (env : Env) (h : List (ι × MintSource)) (c : Threads ι Data CreatePhase) :
    Prop where
  store : StoreInv env h c.shared
  phases : ∀ i, PhaseInv env h c.shared i (c.phase i)

theorem createInv_start (env : Env) : CreateInv env ([] : List (ι × MintSource)) createStart where
  store :=
    { keyed := keyed_empty
      owned := fun p hp => absurd hp (by simp [Stored, createStart, Store.empty])
      single := fun p _ hp => absurd hp (by simp [Stored, createStart, Store.empty]) }
  phases := fun _ => trivial

variable [DecidableEq ι]

/-- A step that stores nothing keeps the store, and with it what the other calls know. -/
theorem CreateInv.of_same (hc : CreateInv env h c) {h' : List (ι × MintSource)} (hsub : h ⊆ h')
    (hevents : (createStep env calls c (i, now)).shared .events = c.shared .events)
    (hown : PhaseInv env h' c.shared i ((createStep env calls c (i, now)).phase i)) :
    CreateInv env h' (createStep env calls c (i, now)) := by
  have hstored : ∀ p, Stored (createStep env calls c (i, now)).shared p ↔ Stored c.shared p := by
    intro p
    rw [Stored, hevents, Stored]
  refine ⟨⟨?_, ?_, ?_⟩, fun j => ?_⟩
  · intro key value hget
    rw [hevents] at hget
    exact hc.store.keyed key value hget
  · exact fun p hp => (hc.store.mono hsub).owned p ((hstored p).mp hp)
  · exact fun p q hp hq => hc.store.single p q ((hstored p).mp hp) ((hstored q).mp hq)
  · have hkeep : ∀ {ph}, PhaseInv env h' c.shared j ph →
        PhaseInv env h' (createStep env calls c (i, now)).shared j ph :=
      fun hph => hph.of_stored fun p hp => .inl ((hstored p).mp hp)
    by_cases hj : j = i
    · subst hj
      exact hkeep hown
    · rw [createStep, Threads.step_phase_of_ne hj]
      exact hkeep ((hc.phases j).mono hsub)

/-- A call stores an event of its room, the create event before any other. -/
theorem CreateInv.of_stores (hc : CreateInv env h c) (hapart : MintsApart env h) (howns : Owns env h i room)
    (hroom : p.roomId = room) (hfirst : p.kind = roomCreate → Unused c.shared room)
    (hevents : (createStep env calls c (i, now)).shared .events = append c.shared p .events)
    (hown : PhaseInv env h (createStep env calls c (i, now)).shared i
      ((createStep env calls c (i, now)).phase i)) :
    CreateInv env h (createStep env calls c (i, now)) := by
  have hstored : ∀ q, Stored (createStep env calls c (i, now)).shared q ↔
      q = p ∨ Stored c.shared q ∧ timelineKey q ≠ timelineKey p := by
    intro q
    rw [Stored, hevents]
    exact stored_append_iff
  refine ⟨⟨?_, ?_, ?_⟩, fun j => ?_⟩
  · intro key value hget
    rw [hevents] at hget
    exact hc.store.keyed.append p key value hget
  · intro q hq
    rcases (hstored q).mp hq with rfl | ⟨hold, -⟩
    · exact ⟨i, hroom ▸ howns⟩
    · exact hc.store.owned q hold
  · -- a create event of the room is stored while the room is unused
    have hnew : ∀ q, Stored c.shared q → p.kind = roomCreate → q.roomId ≠ p.roomId :=
      fun q hq hkind => hroom ▸ hfirst hkind q hq
    intro q r hq hr hqkind hrkind hsame
    rcases (hstored q).mp hq with rfl | ⟨hqold, -⟩
    · rcases (hstored r).mp hr with rfl | ⟨hrold, -⟩
      · rfl
      · exact absurd hsame.symm (hnew r hrold hqkind)
    · rcases (hstored r).mp hr with rfl | ⟨hrold, -⟩
      · exact absurd hsame (hnew q hqold hrkind)
      · exact hc.store.single q r hqold hrold hqkind hrkind hsame
  · by_cases hj : j = i
    · subst hj
      exact hown
    · rw [createStep, Threads.step_phase_of_ne hj]
      apply (hc.phases j).of_stored
      intro q hq
      rcases (hstored q).mp hq with rfl | ⟨hold, -⟩
      · right
        intro room' howns' hsame
        rw [hroom] at hsame
        subst hsame
        exact hj (howns'.eq hapart howns)
      · exact .inl hold

/-- A writer with nothing queued goes on with the event under way, or is finished. -/
theorem appendStep_of_started {w : Writer} (hqueue : w.queue = []) (hevent : w.phase.event = some p) :
    (appendStep s w).1 .events = s .events ∧
      ((appendStep s w).2 ≠ ⟨[], .idle⟩ →
        (appendStep s w).2.queue = [] ∧ (appendStep s w).2.phase.event = some p) := by
  obtain ⟨queue, phase⟩ := w
  simp only at hqueue hevent
  subst hqueue
  constructor
  · rw [appendStep_events]
    cases phase <;> rfl
  · intro hne
    cases phase with
    | idle => exact absurd hevent (by simp [AppendPhase.event])
    | stored q =>
        obtain rfl := Option.some.inj hevent
        simp only [appendStep]
        cases q.stateTuple <;> exact ⟨rfl, rfl⟩
    | slotted q => exact ⟨rfl, hevent⟩
    | counted q seq => exact absurd rfl hne

/-- A writer starts by storing its event. -/
theorem appendStep_of_ready :
    (appendStep s ⟨[p], .idle⟩).1 .events = append s p .events ∧
      (appendStep s ⟨[p], .idle⟩).2 ≠ ⟨[], .idle⟩ ∧
      (appendStep s ⟨[p], .idle⟩).2.queue = [] ∧
      (appendStep s ⟨[p], .idle⟩).2.phase.event = some p := by
  refine ⟨?_, ?_, rfl, ?_⟩
  · rw [appendStep_events, append_events]
    rfl
  · simp only [appendStep]
    cases p.stateTuple <;> simp
  · simp only [appendStep]
    cases p.stateTuple <;> rfl

/-- The invariant over one step; the history grows by what the step mints. -/
theorem CreateInv.step (hc : CreateInv env h c)
    (hnodup : ((h ++ (minting calls (c, (i, now))).toList).map Prod.snd).Nodup)
    (hapart : MintsApart env (h ++ (minting calls (c, (i, now))).toList)) :
    CreateInv env (h ++ (minting calls (c, (i, now))).toList) (createStep env calls c (i, now)) := by
  have hown := hc.phases i
  cases hphase : c.phase i with
  | ready =>
      have hmint : minting calls (c, (i, now)) = none := by simp only [minting, hphase]
      rw [hmint, Option.toList_none, List.append_nil]
      apply hc.of_same (List.Subset.refl h)
      · simp [createStep, hphase, createNext]
      · simp [createStep, hphase, createNext, PhaseInv]
  | counted count =>
      have hmint : minting calls (c, (i, now)) =
          some (i, ⟨(calls i).creator.asStr, count, now⟩) := by
        simp only [minting, hphase]
      rw [hmint, Option.toList_some] at hnodup hapart ⊢
      apply hc.of_same (List.subset_append_left h _)
      · simp only [createStep, Threads.step_shared, hphase, createNext]
        split <;> rfl
      · simp only [createStep, Threads.step_phase_self, hphase, createNext]
        cases hroom : mintedId env ⟨(calls i).creator.asStr, count, now⟩ with
        | none => exact fun room hroom => absurd hroom (by simp)
        | some room =>
            refine ⟨⟨_, List.mem_append_right h (List.mem_singleton_self _), hroom⟩, fun _ p hp hsame => ?_⟩
            -- a stored event of the room would have another mint of it behind it
            obtain ⟨j, source, hmem, hminted⟩ := hc.store.owned p hp
            rw [hsame] at hminted
            have heq := hapart _ (List.mem_append_left _ hmem) _
              (List.mem_append_right h (List.mem_singleton_self _)) room hminted hroom
            rw [heq] at hmem
            rw [List.map_append, List.nodup_append'] at hnodup
            exact hnodup.2.2 (List.mem_map_of_mem hmem) (by simp)
  | building room n prevEvents =>
      have hmint : minting calls (c, (i, now)) = none := by simp only [minting, hphase]
      rw [hmint, Option.toList_none, List.append_nil]
      rw [hphase] at hown
      apply hc.of_same (List.Subset.refl h)
      · simp only [createStep, Threads.step_shared, hphase, createNext]
        split
        · rfl
        · split <;> rfl
      · simp only [createStep, Threads.step_phase_self, hphase, createNext]
        cases hget : (initialState (calls i).creator (calls i).name (calls i).topic)[n]? with
        | none => exact fun room' hroom' => Option.some.inj hroom' ▸ hown.1
        | some content =>
            dsimp only
            cases hp : withReferenceId env
                (initialEvent room (calls i).creator now n prevEvents content) with
            | none => exact fun room' hroom' => absurd hroom' (by simp)
            | some p =>
                obtain ⟨id, rfl⟩ := withReferenceId_eq_some hp
                exact ⟨hown.1, rfl, fun hn => kind_initialState hget hn, .inl ⟨rfl, hown.2⟩⟩
  | appending room n p w =>
      have hmint : minting calls (c, (i, now)) = none := by simp only [minting, hphase]
      rw [hmint, Option.toList_none, List.append_nil] at hapart ⊢
      rw [hphase] at hown
      obtain ⟨howns, hroom, hkind, hw⟩ := hown
      rcases hw with ⟨rfl, hunused⟩ | ⟨hqueue, hevent⟩
      · obtain ⟨hevents, hne, hqueue, hevent⟩ := appendStep_of_ready (s := c.shared) (p := p)
        refine hc.of_stores hapart howns hroom (fun hcreate => ?_) ?_ ?_
        · by_cases hn : n = 0
          · exact hunused hn
          · exact absurd hcreate (hkind hn)
        · simpa [createStep, hphase, createNext] using hevents
        · simp only [createStep, Threads.step_phase_self, hphase, createNext, if_neg hne]
          exact ⟨howns, hroom, hkind, .inr ⟨hqueue, hevent⟩⟩
      · obtain ⟨hevents, hstarted⟩ := appendStep_of_started (s := c.shared) hqueue hevent
        apply hc.of_same (List.Subset.refl h)
        · simpa [createStep, hphase, createNext] using hevents
        · simp only [createStep, Threads.step_phase_self, hphase, createNext]
          split
          · exact ⟨howns, fun hzero => absurd hzero (by simp)⟩
          · rename_i hne
            exact ⟨howns, hroom, hkind, .inr (hstarted hne)⟩
  | done result =>
      have hmint : minting calls (c, (i, now)) = none := by simp only [minting, hphase]
      rw [hmint, Option.toList_none, List.append_nil]
      rw [hphase] at hown
      apply hc.of_same (List.Subset.refl h)
      · simp [createStep, hphase, createNext]
      · simpa [createStep, hphase, createNext] using hown

/-- The invariant over a run whose calls hash different things. -/
theorem createInv_run (schedule : List (ι × UInt64))
    (hhash : ∀ a ∈ mintSources env calls schedule, ∀ b ∈ mintSources env calls schedule,
      a.hash env = b.hash env → a = b)
    (hnodup : (mintSources env calls schedule).Nodup) :
    CreateInv env (mints env calls schedule)
      (run (createStep env calls) createStart schedule) := by
  suffices hrun : (mintSources env calls schedule).Nodup →
      (∀ a ∈ mintSources env calls schedule, ∀ b ∈ mintSources env calls schedule,
        a.hash env = b.hash env → a = b) →
      CreateInv env (mints env calls schedule)
        (run (createStep env calls) createStart schedule) from hrun hnodup hhash
  refine history_run (I := fun (h : List (ι × MintSource)) c => (h.map Prod.snd).Nodup →
    (∀ a ∈ h.map Prod.snd, ∀ b ∈ h.map Prod.snd, a.hash env = b.hash env → a = b) →
      CreateInv env h c) ?_ ?_
  · exact fun _ _ => createInv_start env
  · rintro ⟨c, i, now⟩ - h hc hnodup hhash
    have hsub : ∀ a ∈ h.map Prod.snd,
        a ∈ (h ++ (minting calls (c, (i, now))).toList).map Prod.snd := by
      intro a ha
      rw [List.map_append]
      exact List.mem_append_left _ ha
    have hbefore : (h.map Prod.snd).Nodup := by
      rw [List.map_append] at hnodup
      exact hnodup.of_append_left
    exact (hc hbefore fun a ha b hb => hhash a (hsub a ha) b (hsub b hb)).step hnodup
      (mintsApart hnodup hhash)

omit [DecidableEq ι] in
/-- Under the invariant every timeline has one create event at most. -/
theorem CreateInv.oneCreate (hc : CreateInv env h c) : OneCreate c.shared := by
  intro room
  have hsame : ∀ p ∈ (timeline c.shared room).filter (fun p => p.kind = roomCreate),
      ∀ q ∈ (timeline c.shared room).filter (fun p => p.kind = roomCreate), p = q := by
    intro p hp q hq
    obtain ⟨hp, hpkind⟩ := List.mem_filter.mp hp
    obtain ⟨hq, hqkind⟩ := List.mem_filter.mp hq
    obtain ⟨hp, hppfx⟩ := (mem_timeline_iff hc.store.keyed).mp hp
    obtain ⟨hq, hqpfx⟩ := (mem_timeline_iff hc.store.keyed).mp hq
    obtain ⟨i, source, -, hroom⟩ := hc.store.owned p hp
    obtain ⟨j, source', -, hroom'⟩ := hc.store.owned q hq
    have hrooms : p.roomId = q.roomId := by
      rw [startsWith_iff_isPrefix, timelineKey] at hppfx hqpfx
      exact eq_of_roomPrefix hroom hroom' hppfx hqpfx
    exact hc.store.single p q hp hq (by simpa using hpkind) (by simpa using hqkind) hrooms
  have hsorted := (pairwise_timeline hc.store.keyed room).filter fun p => p.kind = roomCreate
  -- two entries would be one event under two keys
  rcases hlist : (timeline c.shared room).filter (fun p => p.kind = roomCreate) with
    - | ⟨p, - | ⟨q, rest⟩⟩
  · rw [hlist]
    exact Nat.zero_le _
  · rw [hlist]
    exact le_rfl
  · rw [hlist] at hsame hsorted
    have hpq := hsame p (by simp) q (by simp)
    have hlt := (List.pairwise_cons.mp hsorted).1 q (by simp)
    rw [hpq] at hlt
    exact absurd hlt (lt_irrefl _)

end

/-- Where no two calls hash the same creator, event count and clock reading, no two calls return one
room id, and no room has two create events. -/
theorem concurrent_creates_distinct [DecidableEq ι] (env : Env) (calls : ι → CreateCall)
    (schedule : List (ι × UInt64))
    (hhash : ∀ a ∈ mintSources env calls schedule, ∀ b ∈ mintSources env calls schedule,
      a.hash env = b.hash env → a = b)
    (hdistinct : (mintSources env calls schedule).Nodup) :
    (∀ i j room, i ≠ j →
      (run (createStep env calls) createStart schedule).phase i = .done (some room) →
      (run (createStep env calls) createStart schedule).phase j ≠ .done (some room)) ∧
    OneCreate (run (createStep env calls) createStart schedule).shared := by
  have hc := createInv_run schedule hhash hdistinct
  refine ⟨fun i j room hij hi hj => ?_, hc.oneCreate⟩
  have hphase := hc.phases i
  have hphase' := hc.phases j
  rw [hi] at hphase
  rw [hj] at hphase'
  exact hij ((hphase room rfl).eq (mintsApart hdistinct hhash) (hphase' room rfl))

namespace SampleRun

/-- An environment that hashes the second letter of the creator, the count and the clock. -/
def hashingEnv : Env :=
  { env with roomHash := fun creator count now =>
      UInt64.ofNat (65536 * (creator.getD 1 'x').toNat + 256 * count) + now }

/-- Two calls of the same creator, or of two. -/
def creates (creator : UserId) : Bool → CreateCall
  | false => ⟨alice, none, none⟩
  | true => ⟨creator, none, none⟩

/-- Both calls count the events and read the clock, and then run to their ends. -/
def createSchedule : List (Bool × UInt64) :=
  [(false, 7), (true, 7), (false, 7), (true, 7)] ++ List.replicate 16 (false, 7) ++
    List.replicate 16 (true, 7)

end SampleRun

open SampleRun in
/-- Calls of Alice and of Bob at one moment make two rooms. -/
theorem concurrent_creates_distinct_sample :
    OneCreate (run (createStep hashingEnv (creates bob)) createStart createSchedule).shared := by
  have hhash : ∀ a ∈ mintSources hashingEnv (creates bob) createSchedule,
      ∀ b ∈ mintSources hashingEnv (creates bob) createSchedule,
        a.hash hashingEnv = b.hash hashingEnv → a = b := by
    decide +kernel
  have hdistinct : (mintSources hashingEnv (creates bob) createSchedule).Nodup := by
    decide +kernel
  exact (concurrent_creates_distinct hashingEnv (creates bob) createSchedule hhash hdistinct).2

open SampleRun in
/-- Two calls of Alice within one millisecond get one room id. -/
theorem concurrent_creates_share_room :
    ¬ ∀ (env : Env) (calls : Bool → CreateCall) (schedule : List (Bool × UInt64)),
      (schedule.map Prod.snd).Pairwise (· ≤ ·) →
      (∀ a ∈ mintSources env calls schedule, ∀ b ∈ mintSources env calls schedule,
        a.hash env = b.hash env → a = b) →
      ∀ i j room, i ≠ j →
        (run (createStep env calls) createStart schedule).phase i = .done (some room) →
        (run (createStep env calls) createStart schedule).phase j ≠ .done (some room) := by
  intro h
  have hclock : (createSchedule.map Prod.snd).Pairwise (· ≤ ·) := by decide
  have hhash : ∀ a ∈ mintSources hashingEnv (creates alice) createSchedule,
      ∀ b ∈ mintSources hashingEnv (creates alice) createSchedule,
        a.hash hashingEnv = b.hash hashingEnv → a = b := by
    decide +kernel
  have hsame : (run (createStep hashingEnv (creates alice)) createStart createSchedule).phase true =
      (run (createStep hashingEnv (creates alice)) createStart createSchedule).phase false := by
    decide +kernel
  have hdone : ∃ room ∈ mintedId hashingEnv ⟨alice.asStr, 0, 7⟩,
      (run (createStep hashingEnv (creates alice)) createStart createSchedule).phase false =
        .done (some room) := by
    decide +kernel
  obtain ⟨room, -, hroom⟩ := hdone
  exact h hashingEnv (creates alice) createSchedule hclock hhash false true room (by decide) hroom
    (hsame.trans hroom)

end GaussMatrix.Svc
