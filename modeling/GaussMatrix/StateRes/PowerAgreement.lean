import GaussMatrix.StateRes.Application

/-!
# Two readings of a user's power

The power ordering reads a user's level from the power-levels event under the empty state key; the
auth rules read it from the last event of the type, whatever its state key.  Both apply one rule to
the events they find, so they agree where those give the user the same level.
-/

namespace GaussMatrix.StateRes

open Library Util Api Api.Events

variable {pdus : PduMap} {base : StateMap} {kind : Str}

/-- The level of a user by a power-levels event, or by a create event where the levels do not
parse or are not there. -/
def levelUnder (levels create : Option Pdu) (user : Str) : Int :=
  match levels.bind Pdu.content with
  | some pl =>
      match ((pl.get "users").bind (·.get user)).bind Json.asI64 with
      | some level => level
      | none => ((pl.get "users_default").bind Json.asI64).getD 0
  | none => if create.bind creatorOf = some user then creatorPower else 0

/-- The event that a state has under a type and the empty state key. -/
def eventUnderEmptyKey (pdus : PduMap) (base : StateMap) (kind : Str) : Option Pdu :=
  (base.get (slot kind [])).bind pdus.get

/-- The event that a state has under a type and the greatest state key there is for it. -/
def eventUnderLastKey (pdus : PduMap) (base : StateMap) (kind : Str) : Option Pdu :=
  ((base.filter fun key _ => decide ((ofLex key).1 = kind)).values.getLast?).bind pdus.get

/-- Every event of the state is known. -/
def AllKnown (pdus : PduMap) (base : StateMap) : Prop :=
  ∀ key id, base.get key = some id → (pdus.get id).isSome = true

/-! ## What each of the two reads -/

theorem senderPower_eq (user : Str) (base : StateMap) (pdus : PduMap) :
    senderPower user base pdus = levelUnder (eventUnderEmptyKey pdus base roomPowerLevels)
      (eventUnderEmptyKey pdus base roomCreate) user := by
  unfold senderPower levelUnder eventUnderEmptyKey
  cases ((base.get (slot roomPowerLevels [])).bind pdus.get).bind Pdu.content with
  | none => rfl
  | some pl => rfl

theorem powerLevel_eq (user : Str) (state : List Pdu) :
    (AuthView.new state).powerLevel user =
      levelUnder (lastOfKind roomPowerLevels state) (lastOfKind roomCreate state) user := by
  rw [AuthView.new_eq]
  unfold AuthView.powerLevel AuthView.creator levelUnder
  cases (lastOfKind roomPowerLevels state).bind Pdu.content with
  | none => rfl
  | some pl => rfl

/-- The last of the values that a total lookup finds is the one that it finds last. -/
theorem getLast?_filterMap {α β : Type} {f : α → Option β} {l : List α}
    (h : ∀ a ∈ l, (f a).isSome = true) : (l.filterMap f).getLast? = l.getLast?.bind f := by
  induction l using List.reverseRecOn with
  | nil => rfl
  | append_singleton l a _ =>
      obtain ⟨b, hb⟩ := Option.isSome_iff_exists.mp
        (h a (List.mem_append_right l (List.mem_singleton_self a)))
      have hlast : [a].filterMap f = [b] := by
        rw [List.filterMap_cons_some hb, List.filterMap_nil]
      rw [List.filterMap_append, hlast, List.getLast?_concat, List.getLast?_concat,
        Option.bind_some, hb]

/-- The events of a type are those under the slots of the type. -/
theorem filter_kind_stateEvents (hknown : AllKnown pdus base) (hslots : WellSlotted pdus.get base)
    (kind : Str) : (stateEvents pdus.get base).filter (fun pdu => decide (pdu.kind = kind)) =
      (base.filter fun key _ => decide ((ofLex key).1 = kind)).values.filterMap pdus.get := by
  have hentries : ∀ entries : List (StateKey × EventId), (∀ e ∈ entries, e ∈ base.entries) →
      ((entries.map Prod.snd).filterMap pdus.get).filter (fun pdu => decide (pdu.kind = kind)) =
        ((entries.filter fun e => decide ((ofLex e.1).1 = kind)).map Prod.snd).filterMap
          pdus.get := by
    intro entries
    induction entries with
    | nil => exact fun _ => rfl
    | cons e entries ih =>
        intro hsub
        obtain ⟨he, hsub⟩ := List.forall_mem_cons.mp hsub
        have hget : base.get e.1 = some e.2 := (base.mem_entries_iff _ _).mp he
        obtain ⟨pdu, hpdu⟩ := Option.isSome_iff_exists.mp (hknown e.1 e.2 hget)
        have hslot : stateSlot pdu = some (slot (ofLex e.1).1 (ofLex e.1).2) :=
          hslots e.1 e.2 pdu hget hpdu
        have hkind : pdu.kind = (ofLex e.1).1 := (stateSlot_eq_some_iff.mp hslot).1
        rw [List.map_cons, List.filterMap_cons_some hpdu, List.filter_cons, List.filter_cons,
          hkind, ih hsub]
        split
        · rw [List.map_cons, List.filterMap_cons_some hpdu]
        · rfl
  exact hentries base.entries fun _ he => he

/-- Over known events in their own slots, the last event of a type is the one under its greatest
state key. -/
theorem lastOfKind_stateEvents (hknown : AllKnown pdus base) (hslots : WellSlotted pdus.get base)
    (kind : Str) : lastOfKind kind (stateEvents pdus.get base) =
      eventUnderLastKey pdus base kind := by
  rw [lastOfKind, filter_kind_stateEvents hknown hslots]
  apply getLast?_filterMap
  intro id hid
  obtain ⟨e, he, rfl⟩ := List.mem_map.mp hid
  exact hknown e.1 e.2 ((base.mem_entries_iff _ _).mp (List.mem_of_mem_filter he))

theorem get_filter_kind_of_soleKey (hsole : ∀ stateKey, (base.get (slot kind stateKey)).isSome =
    true → stateKey = []) (key : StateKey) :
    (base.filter fun key _ => decide ((ofLex key).1 = kind)).get key =
      if key = slot kind [] then base.get key else none := by
  obtain ⟨⟨kind', stateKey⟩, rfl⟩ := toLex.surjective key
  rw [SortedMap.get_filter]
  show (base.get (slot kind' stateKey)).filter (fun _ => decide (kind' = kind)) =
    if slot kind' stateKey = slot kind [] then base.get (slot kind' stateKey) else none
  by_cases hkind : kind' = kind
  · subst hkind
    cases hid : base.get (slot kind' stateKey) with
    | none => simp
    | some id =>
        have hempty := hsole stateKey (by rw [hid]; rfl)
        subst hempty
        rw [if_pos rfl]
        simp
  · have hne : slot kind' stateKey ≠ slot kind [] := fun h => hkind (slot_inj.mp h).1
    rw [if_neg hne]
    cases base.get (slot kind' stateKey) with
    | none => rfl
    | some id => simp [hkind]

/-- A type whose only state key is the empty one has its last event there. -/
theorem eventUnderLastKey_of_soleKey (hsole : ∀ stateKey, (base.get (slot kind stateKey)).isSome =
    true → stateKey = []) : eventUnderLastKey pdus base kind = eventUnderEmptyKey pdus base kind := by
  have hget := get_filter_kind_of_soleKey hsole
  -- the slots of the type are the empty map or the one entry under the empty state key
  have hfilter : base.filter (fun key _ => decide ((ofLex key).1 = kind)) =
      (base.get (slot kind [])).elim SortedMap.empty
        fun id => SortedMap.empty.insert (slot kind []) id := by
    apply SortedMap.ext_get
    intro key
    rw [hget]
    by_cases hkey : key = slot kind []
    · rw [if_pos hkey, hkey]
      cases base.get (slot kind []) with
      | none => rfl
      | some id => exact (SortedMap.get_insert_self _ _ _).symm
    · rw [if_neg hkey]
      cases base.get (slot kind []) with
      | none => rfl
      | some id => exact (SortedMap.get_insert_ne SortedMap.empty hkey id).symm
  rw [eventUnderLastKey, eventUnderEmptyKey, hfilter]
  cases base.get (slot kind []) with
  | none => rfl
  | some id => rfl

/-- Over known events in their own slots, the ordering and the rules give a user the same power
exactly when the events under the empty state key give the level that those under the greatest one
give; so always when the power levels and the creation have no other state key. -/
theorem powers_agree_iff (base : StateMap) (pdus : PduMap) (user : Str)
    (hknown : AllKnown pdus base) (hslots : WellSlotted pdus.get base) :
    (senderPower user base pdus = (AuthView.new (stateEvents pdus.get base)).powerLevel user ↔
      levelUnder (eventUnderEmptyKey pdus base roomPowerLevels)
          (eventUnderEmptyKey pdus base roomCreate) user =
        levelUnder (eventUnderLastKey pdus base roomPowerLevels)
          (eventUnderLastKey pdus base roomCreate) user) ∧
    ((∀ kind ∈ [roomPowerLevels, roomCreate], ∀ stateKey,
        (base.get (slot kind stateKey)).isSome = true → stateKey = []) →
      senderPower user base pdus = (AuthView.new (stateEvents pdus.get base)).powerLevel user) := by
  have hpower := senderPower_eq user base pdus
  have hlevel : (AuthView.new (stateEvents pdus.get base)).powerLevel user =
      levelUnder (eventUnderLastKey pdus base roomPowerLevels)
        (eventUnderLastKey pdus base roomCreate) user := by
    rw [powerLevel_eq, lastOfKind_stateEvents hknown hslots, lastOfKind_stateEvents hknown hslots]
  constructor
  · rw [hpower, hlevel]
  · intro hsole
    rw [hpower, hlevel, eventUnderLastKey_of_soleKey (hsole roomPowerLevels List.mem_cons_self),
      eventUnderLastKey_of_soleKey (hsole roomCreate (List.mem_cons_of_mem _ List.mem_cons_self))]

namespace SamplePowers

open Sample

/-- Power levels under a state key, with one powerful user. -/
def levels (c : Char) (stateKey user : Str) : Pdu :=
  stateEvent c alice roomPowerLevels stateKey 0
    (Json.object [("users".toList, .object [(user, .number (F64.ofNat 100))])]).write

/-- Alice's levels, and levels of Bob under another state key. -/
def twoLevels : List Pdu := [create, levels 'p' [] "@a:x", levels 'q' "z" "@b:x"]

instance (pdus : PduMap) (base : StateMap) : Decidable (AllKnown pdus base) :=
  decidable_of_iff (∀ e ∈ base.entries, (pdus.get e.2).isSome = true) (by
    unfold AllKnown
    simp only [← SortedMap.mem_entries_iff, Prod.forall])

end SamplePowers

open Sample SamplePowers in
/-- Before there are power levels, both give the creator the power of a creator. -/
theorem powers_agree_sample :
    senderPower "@a:x" (stateMap [create, aliceJoin]) events =
      (AuthView.new (stateEvents events.get (stateMap [create, aliceJoin]))).powerLevel "@a:x" :=
  (powers_agree_iff (stateMap [create, aliceJoin]) events "@a:x" (by decide +kernel)
    (by decide +kernel)).1.mpr (by decide +kernel)

open Sample SamplePowers in
/-- Alice has the power of her levels in the ordering, and none under the rules. -/
theorem powers_differ :
    AllKnown (pduMap twoLevels) (stateMap twoLevels) ∧
      WellSlotted (pduMap twoLevels).get (stateMap twoLevels) ∧
        senderPower "@a:x" (stateMap twoLevels) (pduMap twoLevels) = 100 ∧
          (AuthView.new (stateEvents (pduMap twoLevels).get (stateMap twoLevels))).powerLevel
            "@a:x" = 0 := by
  decide +kernel

end GaussMatrix.StateRes
