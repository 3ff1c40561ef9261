import GaussMatrix.Svc.CurrentState
import GaussMatrix.Svc.History

/-!
# The last write of a slot

The key of a slot joins the event type and the state key with a separator.  A scan splits it at the
first one, and a lookup joins what it is asked for, so the two agree with what was appended where
neither part has the separator, and only there.
-/

namespace GaussMatrix.Svc

open Library Util Api Api.Events StateRes RoomService Fed

/-- The id of the last of the events that fills a slot. -/
def lastWrite (ps : List Pdu) (slotKey : StateKey) : Option EventId :=
  (ps.reverse.find? fun p => stateSlot p = some slotKey).map Pdu.eventId

/-- The slots of the current state are the last writes. -/
def SlotsAreLastWrites (s : Data) (room : RoomId) (ps : List Pdu) : Prop :=
  ∀ slotKey, (currentState s room).get slotKey = lastWrite ps slotKey

/-- A lookup of a type and a state key agrees with the current state. -/
def LookupsAgree (s : Data) (room : RoomId) : Prop :=
  ∀ kind key, stateEvent s room kind key = (currentState s room).get (slot kind key)

/-- Neither part of a state event's slot has the separator. -/
def PlainSlot (p : Pdu) : Prop := ∀ tuple ∈ p.stateTuple, sep ∉ tuple.1 ∧ sep ∉ tuple.2

instance (p : Pdu) : Decidable (PlainSlot p) :=
  inferInstanceAs (Decidable (∀ tuple ∈ p.stateTuple, sep ∉ tuple.1 ∧ sep ∉ tuple.2))

section

variable {s : Data} {room : RoomId} {ps : List Pdu} {p q : Pdu} {kind key : Str}
  {slotKey : StateKey}

theorem lastWrite_concat (ps : List Pdu) (q : Pdu) (slotKey : StateKey) :
    lastWrite (ps ++ [q]) slotKey =
      if stateSlot q = some slotKey then some q.eventId else lastWrite ps slotKey := by
  rw [lastWrite, List.reverse_append, List.reverse_singleton, List.singleton_append,
    List.find?_cons]
  by_cases hslot : stateSlot q = some slotKey
  · simp [hslot]
  · simp [hslot, lastWrite]

theorem lastWrite_isSome (hp : p ∈ ps) (hslot : stateSlot p = some slotKey) :
    (lastWrite ps slotKey).isSome := by
  rw [lastWrite, Option.isSome_map, List.find?_isSome]
  exact ⟨p, List.mem_reverse.mpr hp, decide_eq_true hslot⟩

/-- A key that two plain parts are joined to is not the key of another slot. -/
theorem plain_parts_unique {kind' key' : Str} (hkind : sep ∉ kind) (hkey : sep ∉ key)
    (h : kind ++ sep :: key = kind' ++ sep :: key') : sep ∉ kind' := by
  -- there is one separator on the left
  have hcount := congrArg (List.count sep) h
  rw [List.count_append, List.count_append, List.count_cons_self, List.count_cons_self,
    List.count_eq_zero.mpr hkind, List.count_eq_zero.mpr hkey] at hcount
  apply List.count_eq_zero.mp
  omega

/-- An event of a plain slot is not found under a type with a separator. -/
theorem not_fillsKey_of_plain (hplain : PlainSlot q) (hroom : q.roomId = room)
    (hkind : sep ∈ kind) : ¬ FillsKey q (stateKey room kind key) := by
  intro hfills
  obtain ⟨kind', key', htuple, hsame⟩ := hfills.exists_tuple
  obtain ⟨hkind', hkey'⟩ := hplain (kind', key') htuple
  rw [hroom, ← roomPrefix_append, ← roomPrefix_append] at hsame
  exact plain_parts_unique hkind' hkey' (List.append_cancel_left hsame) hkind

theorem currentState_get_of_sep (hkind : sep ∈ kind) :
    (currentState s room).get (slot kind key) = none := by
  rw [Option.eq_none_iff_forall_ne_some]
  intro id hid
  exact (currentState_get_iff.mp hid).1 hkind

/-- Under a plain type the lookup and the scan agree. -/
theorem stateEvent_eq_get (hkind : sep ∉ kind) :
    stateEvent s room kind key = (currentState s room).get (slot kind key) := by
  apply Option.ext
  intro id
  rw [currentState_get_iff]
  exact (and_iff_right hkind).symm

/-- What a run of appends to a room leaves, where all slots are plain. -/
theorem lastWrites_run (hroom : ∀ p ∈ ps, p.roomId = room) (hplain : ∀ p ∈ ps, PlainSlot p) :
    SlotsAreLastWrites (run append Store.empty ps) room ps ∧
      LookupsAgree (run append Store.empty ps) room := by
  induction ps using List.reverseRecOn with
  | nil =>
      constructor
      · intro slotKey
        rfl
      · intro kind key
        rfl
  | append_singleton ps q ih =>
      rw [List.forall_mem_append, List.forall_mem_singleton] at hroom hplain
      obtain ⟨hslots, hlookups⟩ := ih hroom.1 hplain.1
      have hq : PlainKind q := fun tuple htuple => (hplain.2 tuple htuple).1
      rw [run_append]
      constructor
      · intro slotKey
        show (currentState (append (run append Store.empty ps) q) room).get slotKey = _
        rw [currentState_get_append_self hroom.2 hq, lastWrite_concat, hslots slotKey]
      · intro kind key
        by_cases hkind : sep ∈ kind
        · show stateEvent (append (run append Store.empty ps) q) room kind key = _
          rw [stateEvent_append_of_not_fills (not_fillsKey_of_plain hplain.2 hroom.2 hkind),
            hlookups kind key, currentState_get_of_sep hkind, currentState_get_of_sep hkind]
        · exact stateEvent_eq_get hkind

/-- A state event whose type has the separator is not under its slot, and one whose state key has it
is found under another pair too. -/
theorem plainSlot_of_lastWrites (hslots : SlotsAreLastWrites s room ps)
    (hlookups : LookupsAgree s room) (hp : p ∈ ps) : PlainSlot p := by
  rintro ⟨kind, key⟩ htuple
  have hslot : stateSlot p = some (slot kind key) := congrArg (Option.map toLex) htuple
  obtain ⟨id, hid⟩ := Option.isSome_iff_exists.mp (lastWrite_isSome hp hslot)
  rw [← hslots] at hid
  obtain ⟨hkind, hfound⟩ := currentState_get_iff.mp hid
  refine ⟨hkind, fun hkey => ?_⟩
  obtain ⟨first, rest, hkey⟩ : ∃ first rest, key = first ++ sep :: rest := List.append_of_mem hkey
  -- the same key of the state family, read as another type and state key
  have hsame : stateKey room (kind ++ sep :: first) rest = stateKey room kind key := by
    rw [← roomPrefix_append, ← roomPrefix_append, hkey, List.append_assoc, List.cons_append]
  have hother := hlookups (kind ++ sep :: first) rest
  rw [currentState_get_of_sep (by simp), stateEvent, hsame, ← stateEvent, hfound] at hother
  cases hother

end

/-- After events were appended to a room, its slots hold the last writes and lookups agree with them
exactly when no state event has the separator in its type or in its state key. -/
theorem current_state_last_write_iff (room : RoomId) (ps : List Pdu)
    (hroom : ∀ p ∈ ps, p.roomId = room) :
    (SlotsAreLastWrites (run append Store.empty ps) room ps ∧
      LookupsAgree (run append Store.empty ps) room) ↔ ∀ p ∈ ps, PlainSlot p := by
  constructor
  · intro ⟨hslots, hlookups⟩ p hp
    exact plainSlot_of_lastWrites hslots hlookups hp
  · exact lastWrites_run hroom

namespace SampleRun

/-- A state event whose type has the separator. -/
def splitTag : Pdu := event 't' alice ("m.tag".toList ++ [sep]) (some []) 3 [] (singleField "tag" "x")

end SampleRun

open SampleRun in
theorem current_state_last_write_sample :
    (SlotsAreLastWrites (run append Store.empty [create, aliceJoin]) room [create, aliceJoin] ∧
      LookupsAgree (run append Store.empty [create, aliceJoin]) room) ↔
        ∀ p ∈ [create, aliceJoin], PlainSlot p :=
  current_state_last_write_iff room [create, aliceJoin] (by decide)

open SampleRun in
/-- The slot of a type with the separator is not in the current state. -/
theorem split_tag_not_in_slot : ¬ ∀ (room : RoomId) (ps : List Pdu),
    (∀ p ∈ ps, p.roomId = room) → (ps.map Pdu.eventId).Nodup →
      SlotsAreLastWrites (run append Store.empty ps) room ps ∧
        LookupsAgree (run append Store.empty ps) room := by
  intro h
  obtain ⟨hslots, -⟩ := h room [splitTag] (by decide) (by decide)
  have hslot := hslots (slot ("m.tag".toList ++ [sep]) [])
  have hread : (currentState (run append Store.empty [splitTag]) room).get
      (slot ("m.tag".toList ++ [sep]) []) = none := by decide +kernel
  rw [hread] at hslot
  exact nomatch hslot

end GaussMatrix.Svc
