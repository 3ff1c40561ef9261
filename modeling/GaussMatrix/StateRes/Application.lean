import GaussMatrix.StateRes.OwnSlot
import GaussMatrix.StateRes.Partition

/-!
# Applying events under the rules

What one application step writes, what it keeps of the partial state, and what follows for both
passes of a resolution: which allowed events are dropped, and which bans are replaced.
-/

namespace GaussMatrix.StateRes

open Library Util Api Api.Events

variable {verifyB64 : VerifyB64} {pdus : PduMap} {state : StateMap} {id : EventId}

/-! ## One step -/

section Step

variable {event : Pdu} {key : StateKey} (hpdu : pdus.get id = some event)
  (hslot : stateSlot event = some key)

include hpdu hslot

theorem tryApply_accepted (h : hiddenVerdict verifyB64 pdus.get state event key = .ok ()) :
    tryApply verifyB64 pdus state id = state.insert key id := by
  change checkAuth verifyB64 event (stateEvents pdus.get (state.erase key)) = .ok () at h
  simp only [tryApply, hpdu, hslot, h]

theorem tryApply_refused (h : hiddenVerdict verifyB64 pdus.get state event key ≠ .ok ()) :
    tryApply verifyB64 pdus state id = state := by
  change checkAuth verifyB64 event (stateEvents pdus.get (state.erase key)) ≠ .ok () at h
  simp only [tryApply, hpdu, hslot]
  split
  · rename_i hok
    exact absurd hok h
  · rfl

/-- After the step the slot holds the event exactly when it was accepted or was there before. -/
theorem tryApply_get_eq_some_iff :
    (tryApply verifyB64 pdus state id).get key = some id ↔
      state.get key = some id ∨ hiddenVerdict verifyB64 pdus.get state event key = .ok () := by
  by_cases h : hiddenVerdict verifyB64 pdus.get state event key = .ok ()
  · simp [tryApply_accepted hpdu hslot h, h]
  · simp [tryApply_refused hpdu hslot h, h]

end Step

/-- A step changes a slot only for an accepted event of that slot. -/
theorem tryApply_get_of_ne {key : StateKey}
    (h : (tryApply verifyB64 pdus state id).get key ≠ state.get key) :
    ∃ event, pdus.get id = some event ∧ stateSlot event = some key ∧
      hiddenVerdict verifyB64 pdus.get state event key = .ok () := by
  cases hpdu : pdus.get id with
  | none => simp [tryApply, hpdu] at h
  | some event =>
      cases hslot : stateSlot event with
      | none => simp [tryApply, hpdu, hslot] at h
      | some key' =>
          by_cases hok : hiddenVerdict verifyB64 pdus.get state event key' = .ok ()
          · rw [tryApply_accepted hpdu hslot hok, SortedMap.get_insert] at h
            split at h
            · rename_i heq
              subst heq
              exact ⟨event, rfl, hslot, hok⟩
            · exact absurd rfl h
          · rw [tryApply_refused hpdu hslot hok] at h
            exact absurd rfl h

theorem WellSlotted.tryApply (h : WellSlotted pdus.get state) (id : EventId) :
    WellSlotted pdus.get (tryApply verifyB64 pdus state id) := by
  cases hpdu : pdus.get id with
  | none => simpa [StateRes.tryApply, hpdu] using h
  | some event =>
      cases hslot : stateSlot event with
      | none => simpa [StateRes.tryApply, hpdu, hslot] using h
      | some key =>
          by_cases hok : hiddenVerdict verifyB64 pdus.get state event key = .ok ()
          · rw [tryApply_accepted hpdu hslot hok]
            exact h.insert hpdu hslot
          · rw [tryApply_refused hpdu hslot hok]
            exact h

/-! ## Both passes -/

section Passes

variable {h : HashOrder} {states : List StateMap}

theorem mem_powerSteps {x : StateMap × EventId} (hx : x ∈ powerSteps verifyB64 h states pdus) :
    ∃ power, powerOrder h states pdus = some power ∧
      x ∈ trace (tryApply verifyB64 pdus) (separate states).1 power := by
  unfold powerSteps at hx
  split at hx
  · simp at hx
  · split at hx
    · simp at hx
    · exact ⟨_, ‹_›, hx⟩

theorem mem_otherSteps {x : StateMap × EventId} (hx : x ∈ otherSteps verifyB64 h states pdus) :
    ∃ power other, powerOrder h states pdus = some power ∧
      x ∈ trace (tryApply verifyB64 pdus)
        (run (tryApply verifyB64 pdus) (separate states).1 power) other := by
  unfold otherSteps at hx
  split at hx
  · simp at hx
  · split at hx
    · simp at hx
    · simp only at hx
      split at hx
      · simp at hx
      · exact ⟨_, _, ‹_›, hx⟩

/-- A property of the unconflicted state that every step keeps holds of each partial state. -/
theorem resolveSteps_of_step {P : StateMap → Prop} (hinit : P (separate states).1)
    (hstep : ∀ s i, P s → P (tryApply verifyB64 pdus s i)) :
    ∀ x ∈ resolveSteps verifyB64 h states pdus, P x.1 := by
  have htrace : ∀ s ids, P s → ∀ x ∈ trace (tryApply verifyB64 pdus) s ids, P x.1 := by
    rintro s ids hs ⟨t, i⟩ hx
    obtain ⟨before, after, -, rfl⟩ := exists_prefix_of_mem_trace hx
    exact run_of_step hstep hs before
  intro x hx
  rcases List.mem_append.mp hx with hx | hx
  · obtain ⟨power, -, hx⟩ := mem_powerSteps hx
    exact htrace _ _ hinit x hx
  · obtain ⟨power, other, -, hx⟩ := mem_otherSteps hx
    exact htrace _ _ (run_of_step hstep hinit power) x hx

theorem wellSlotted_separate (hw : ∀ s ∈ states, WellSlotted pdus.get s) :
    WellSlotted pdus.get (separate states).1 := by
  intro key id pdu hid hpdu
  obtain ⟨hne, hall⟩ := separate_fst_eq_some_iff.mp hid
  obtain ⟨s, hs⟩ := List.exists_mem_of_ne_nil states hne
  exact hw s hs key id pdu (hall s hs) hpdu

/-- From inputs whose events sit in their own slots, those of every partial state do. -/
theorem wellSlotted_resolveSteps (hw : ∀ s ∈ states, WellSlotted pdus.get s) :
    ∀ x ∈ resolveSteps verifyB64 h states pdus, WellSlotted pdus.get x.1 :=
  resolveSteps_of_step (wellSlotted_separate hw) (fun _ i hs => hs.tryApply i)

theorem resolve_eq_some {m : StateMap} (hc : (separate states).2.entries ≠ [])
    (hm : resolve verifyB64 h states pdus = some m) :
    ∃ power other, powerOrder h states pdus = some power ∧
      otherOrder h states pdus (run (tryApply verifyB64 pdus) (separate states).1 power) =
        some other ∧
      m = overlay (separate states).1 (run (tryApply verifyB64 pdus)
        (run (tryApply verifyB64 pdus) (separate states).1 power) other) := by
  simp only [resolve, if_neg hc, Option.bind_eq_bind, Option.bind_eq_some_iff] at hm
  obtain ⟨power, hpower, other, hother, hm⟩ := hm
  exact ⟨power, other, hpower, hother, (Option.some.inj hm).symm⟩

theorem powerSteps_eq {power : List EventId} (hc : (separate states).2.entries ≠ [])
    (hpower : powerOrder h states pdus = some power) :
    powerSteps verifyB64 h states pdus =
      trace (tryApply verifyB64 pdus) (separate states).1 power := by
  simp only [powerSteps, if_neg hc, hpower]

theorem otherSteps_eq {power other : List EventId} (hc : (separate states).2.entries ≠ [])
    (hpower : powerOrder h states pdus = some power)
    (hother : otherOrder h states pdus
      (run (tryApply verifyB64 pdus) (separate states).1 power) = some other) :
    otherSteps verifyB64 h states pdus =
      trace (tryApply verifyB64 pdus)
        (run (tryApply verifyB64 pdus) (separate states).1 power) other := by
  simp only [otherSteps, if_neg hc, hpower, hother]

end Passes

/-! ## A sample room -/

namespace Sample

def alice : UserId := ⟨"@a:x", valid_alice⟩
def bob : UserId := ⟨"@b:x", valid_bob⟩
def room : RoomId := ⟨"!r:x", valid_room⟩

/-- An event id of one letter. -/
def eventId (c : Char) : EventId := ⟨['$', c], isEventId_singleton c⟩

/-- A one-field object. -/
def content (field value : Str) : Str := (Json.object [(field, .string value)]).write

/-- A state event of the room that cites nothing. -/
def stateEvent (c : Char) (sender : UserId) (kind stateKey : Str) (ts : UInt64) (content : Str) :
    Pdu where
  eventId := eventId c
  roomId := room
  sender := sender
  kind := kind
  stateKey := some stateKey
  originServerTs := ts
  depth := 0
  prevEvents := []
  authEvents := []
  contentJson := content

def pduMap (events : List Pdu) : PduMap :=
  SortedMap.empty.insertAll (events.map fun event => (event.eventId, event))

def stateMap (events : List Pdu) : StateMap :=
  SortedMap.empty.insertAll
    (events.filterMap fun event => (stateSlot event).map fun key => (key, event.eventId))

def create : Pdu := stateEvent 'c' alice roomCreate [] 0 (content "creator" "@a:x")
def publicRule : Pdu := stateEvent 'r' alice roomJoinRules [] 0 (content "join_rule" "public")
def aliceJoin : Pdu := stateEvent 'a' alice roomMember "@a:x" 0 (content "membership" "join")
def bobBan : Pdu := stateEvent 'b' alice roomMember "@b:x" 1 (content "membership" "ban")
def bobInvite : Pdu := stateEvent 'i' alice roomMember "@b:x" 1 (content "membership" "invite")
def bobJoin : Pdu := stateEvent 'j' bob roomMember "@b:x" 2 (content "membership" "join")

/-- A public room, in one state with a ban of Bob and in the other with a join of his. -/
def banOrJoin : List StateMap :=
  [stateMap [create, publicRule, aliceJoin, bobBan],
    stateMap [create, publicRule, aliceJoin, bobJoin]]

/-- A room without join rules, in one state with an invite of Bob and in the other with his join. -/
def inviteOrJoin : List StateMap :=
  [stateMap [create, aliceJoin, bobInvite], stateMap [create, aliceJoin, bobJoin]]

def events : PduMap := pduMap [create, publicRule, aliceJoin, bobBan, bobInvite, bobJoin]

def noSignature : VerifyB64 := fun _ _ _ => false

end Sample

open Sample

/-! ## Allowed events -/

/-- The step writes the event it is offered if the whole partial state allows it. -/
def KeepsAllowed (verifyB64 : VerifyB64) (pdus : PduMap) (x : StateMap × EventId) : Prop :=
  ∀ event key, pdus.get x.2 = some event → stateSlot event = some key →
    fullVerdict verifyB64 pdus.get x.1 event = .ok () →
      (tryApply verifyB64 pdus x.1 x.2).get key = some x.2

/-- Each allowed event a resolution reaches is written into its slot exactly when it is there already
or is also allowed without what the slot holds; over inputs whose events sit in their own slots,
exactly when it is there already or its verdict does not rest on that slot. -/
theorem resolution_keeps_allowed_iff (verifyB64 : VerifyB64) (h : HashOrder)
    (states : List StateMap) (pdus : PduMap) :
    ((∀ x ∈ resolveSteps verifyB64 h states pdus, KeepsAllowed verifyB64 pdus x) ↔
      ∀ x ∈ resolveSteps verifyB64 h states pdus, ∀ event key,
        pdus.get x.2 = some event → stateSlot event = some key →
          fullVerdict verifyB64 pdus.get x.1 event = .ok () →
            x.1.get key = some x.2 ∨
              hiddenVerdict verifyB64 pdus.get x.1 event key = .ok ()) ∧
    ((∀ s ∈ states, WellSlotted pdus.get s) →
      ((∀ x ∈ resolveSteps verifyB64 h states pdus, KeepsAllowed verifyB64 pdus x) ↔
        ∀ x ∈ resolveSteps verifyB64 h states pdus, ∀ event key,
          pdus.get x.2 = some event → stateSlot event = some key →
            fullVerdict verifyB64 pdus.get x.1 event = .ok () →
              x.1.get key = some x.2 ∨ ¬ RestsOnOwnSlot pdus.get x.1 event key)) := by
  have hgeneral : ∀ x : StateMap × EventId, KeepsAllowed verifyB64 pdus x ↔
      ∀ event key, pdus.get x.2 = some event → stateSlot event = some key →
        fullVerdict verifyB64 pdus.get x.1 event = .ok () →
          x.1.get key = some x.2 ∨ hiddenVerdict verifyB64 pdus.get x.1 event key = .ok () := by
    intro x
    constructor
    · intro hk event key hpdu hslot hfull
      exact (tryApply_get_eq_some_iff hpdu hslot).mp (hk event key hpdu hslot hfull)
    · intro hk event key hpdu hslot hfull
      exact (tryApply_get_eq_some_iff hpdu hslot).mpr (hk event key hpdu hslot hfull)
  refine ⟨forall₂_congr fun x _ => hgeneral x, fun hw => forall₂_congr fun x hx => ?_⟩
  have hwx := wellSlotted_resolveSteps hw x hx
  rw [hgeneral x]
  refine forall₅_congr fun event key hpdu hslot hfull => ?_
  rw [← hiddenVerdict_ne_ok_iff hwx hslot hfull, not_not]

example : fullVerdict noSignature events.get (stateMap [create, aliceJoin, bobInvite]) bobJoin =
    .ok () := by
  decide +kernel

/-- Over the invite-or-join states, whose events sit in their own slots. -/
theorem resolution_keeps_allowed_sample :
    (∀ x ∈ resolveSteps noSignature .inserted inviteOrJoin events,
        KeepsAllowed noSignature events x) ↔
      ∀ x ∈ resolveSteps noSignature .inserted inviteOrJoin events, ∀ event key,
        events.get x.2 = some event → stateSlot event = some key →
          fullVerdict noSignature events.get x.1 event = .ok () →
            x.1.get key = some x.2 ∨ ¬ RestsOnOwnSlot events.get x.1 event key :=
  (resolution_keeps_allowed_iff noSignature .inserted inviteOrJoin events).2 (by decide +kernel)

/-- The join that accepts the invite is reached, allowed by the whole state, and dropped. -/
theorem resolution_drops_allowed_join :
    ¬ ∀ (verifyB64 : VerifyB64) (h : HashOrder) (states : List StateMap) (pdus : PduMap),
      ∀ x ∈ resolveSteps verifyB64 h states pdus, KeepsAllowed verifyB64 pdus x := by
  intro hall
  have hreached : (stateMap [create, aliceJoin, bobInvite], bobJoin.eventId) ∈
      resolveSteps noSignature .inserted inviteOrJoin events := by
    decide +kernel
  have hwritten := hall noSignature .inserted inviteOrJoin events _ hreached bobJoin
    (slot roomMember "@b:x") (by decide +kernel) (by decide +kernel) (by decide +kernel)
  revert hwritten
  decide +kernel

/-! ## Bans -/

/-- The user's member slot holds a ban that someone else sent. -/
def BannedByAnother (pdus : PduMap) (state : StateMap) (user : Str) : Prop :=
  ∃ id event, state.get (slot roomMember user) = some id ∧ pdus.get id = some event ∧
    event.contentStr "membership" = some "ban".toList ∧ event.sender.asStr ≠ user

/-- The step does not replace a ban of the user by an event that brings them in. -/
def KeepsBan (verifyB64 : VerifyB64) (pdus : PduMap) (user : Str) (x : StateMap × EventId) : Prop :=
  BannedByAnother pdus x.1 user → ∀ event, pdus.get x.2 = some event → BringsIn event user →
    (tryApply verifyB64 pdus x.1 x.2).get (slot roomMember user) =
      x.1.get (slot roomMember user)

/-- The membership that a state gives a user. -/
def membershipIn (pdus : PduMap) (state : StateMap) (user : Str) : Option Str :=
  ((state.get (slot roomMember user)).bind pdus.get).bind (·.contentStr "membership")

/-- The memberships of a user who is in the room or on the way in. -/
def IsIn (membership : Option Str) : Prop :=
  membership = some "join".toList ∨ membership = some "invite".toList ∨
    membership = some "knock".toList

/-- The step applies a ban of the user by someone else. -/
def AppliesBan (verifyB64 : VerifyB64) (pdus : PduMap) (user : Str) (x : StateMap × EventId) :
    Prop :=
  (tryApply verifyB64 pdus x.1 x.2).get (slot roomMember user) = some x.2 ∧
    BannedByAnother pdus (tryApply verifyB64 pdus x.1 x.2) user

/-- While the user is banned, no event that brings them in and no leave for them is allowed without
their member slot. -/
def BanGuard (verifyB64 : VerifyB64) (pdus : PduMap) (user : Str) (state : StateMap)
    (id : EventId) : Prop :=
  BannedByAnother pdus state user → ∀ event, pdus.get id = some event →
    event.kind = roomMember → event.stateKey = some user →
    (IsIn (event.contentStr "membership") ∨
      event.contentStr "membership" = some "leave".toList) →
    hiddenVerdict verifyB64 pdus.get state event (slot roomMember user) ≠ .ok ()

variable {user : Str}

theorem keepsBan_iff {x : StateMap × EventId} :
    KeepsBan verifyB64 pdus user x ↔
      (BannedByAnother pdus x.1 user → ∀ event, pdus.get x.2 = some event →
        BringsIn event user →
          hiddenVerdict verifyB64 pdus.get x.1 event (slot roomMember user) ≠ .ok ()) := by
  constructor
  · intro hk hban event hpdu hin hok
    have hslot : stateSlot event = some (slot roomMember user) :=
      stateSlot_eq_some_iff.mpr ⟨hin.1, hin.2.1⟩
    have hget := hk hban event hpdu hin
    rw [tryApply_accepted hpdu hslot hok, SortedMap.get_insert_self] at hget
    obtain ⟨id, ban, hid, hban, hm, -⟩ := hban
    obtain rfl := Option.some.inj (hget.trans hid)
    obtain rfl := Option.some.inj (hpdu.symm.trans hban)
    rcases hin.2.2 with h | h | h
    · exact absurd (hm.symm.trans h) (by decide)
    · exact absurd (hm.symm.trans h) (by decide)
    · exact absurd (hm.symm.trans h) (by decide)
  · intro hr hban event hpdu hin
    have hslot : stateSlot event = some (slot roomMember user) :=
      stateSlot_eq_some_iff.mpr ⟨hin.1, hin.2.1⟩
    rw [tryApply_refused hpdu hslot (hr hban event hpdu hin)]

/-- A guarded step keeps a banned user banned by someone else. -/
theorem bannedByAnother_step {s : StateMap} {i : EventId} (hban : BannedByAnother pdus s user)
    (hguard : BanGuard verifyB64 pdus user s i) :
    BannedByAnother pdus (tryApply verifyB64 pdus s i) user := by
  by_cases hget : (tryApply verifyB64 pdus s i).get (slot roomMember user) =
      s.get (slot roomMember user)
  · unfold BannedByAnother
    rw [hget]
    exact hban
  · obtain ⟨event, hpdu, hslot, hok⟩ := tryApply_get_of_ne hget
    obtain ⟨hkind, hkey⟩ := stateSlot_eq_some_iff.mp hslot
    have hverdict := ((checkAuthView_member hkind).mp hok).2
    have hguarded := hguard hban event hpdu hkind hkey
    obtain ⟨-, hm | hm | hm | hm | hm⟩ := membership_of_checkMemberAuth hverdict
    · exact absurd hok (hguarded (.inl (.inl hm)))
    · exact absurd hok (hguarded (.inl (.inr (.inl hm))))
    · exact absurd hok (hguarded (.inr hm))
    · -- an accepted ban comes from someone of more power than the target
      rw [checkMemberAuth_ban hkey hm] at hverdict
      refine ⟨i, event, ?_, hpdu, hm, fun hself => ?_⟩
      · rw [tryApply_accepted hpdu hslot hok, SortedMap.get_insert_self]
      · exact absurd (hself ▸ hverdict.2.2) (lt_irrefl _)
    · exact absurd hok (hguarded (.inl (.inr (.inr hm))))

/-- A ban applied among the power events is the membership of the user at the end, under the guard
and where the unconflicted state does not bring the user in. -/
theorem banned_of_guarded {h : HashOrder} {states : List StateMap} {m : StateMap}
    (hguard : ∀ x ∈ resolveSteps verifyB64 h states pdus, BanGuard verifyB64 pdus user x.1 x.2)
    (hover : ¬ IsIn (membershipIn pdus (separate states).1 user))
    (hm : resolve verifyB64 h states pdus = some m) {x : StateMap × EventId}
    (hx : x ∈ powerSteps verifyB64 h states pdus)
    (happly : AppliesBan verifyB64 pdus user x) : ¬ IsIn (membershipIn pdus m user) := by
  have hc : (separate states).2.entries ≠ [] := by
    intro hnil
    rw [powerSteps, if_pos hnil] at hx
    simp at hx
  obtain ⟨power, other, hpower, hother, rfl⟩ := resolve_eq_some hc hm
  have hpowerGuard : Guarded (tryApply verifyB64 pdus) (BanGuard verifyB64 pdus user)
      (separate states).1 power := by
    rw [guarded_iff_trace, ← powerSteps_eq hc hpower]
    exact fun y hy => hguard y (List.mem_append_left _ hy)
  have hotherGuard : Guarded (tryApply verifyB64 pdus) (BanGuard verifyB64 pdus user)
      (run (tryApply verifyB64 pdus) (separate states).1 power) other := by
    rw [guarded_iff_trace, ← otherSteps_eq hc hpower hother]
    exact fun y hy => hguard y (List.mem_append_right _ hy)
  rw [powerSteps_eq hc hpower] at hx
  -- the ban is applied at this step, and the guard keeps it to the end of both phases
  obtain ⟨before, after, rfl, hstart⟩ := exists_prefix_of_mem_trace hx
  obtain ⟨-, -, hafter⟩ := Guarded.append.mp hpowerGuard
  have hstep : ∀ s i, BannedByAnother pdus s user → BanGuard verifyB64 pdus user s i →
      BannedByAnother pdus (tryApply verifyB64 pdus s i) user :=
    fun _ _ => bannedByAnother_step
  have hbanPower : BannedByAnother pdus (run (tryApply verifyB64 pdus) (separate states).1
      (before ++ x.2 :: after)) user := by
    rw [run_append, run_cons, ← hstart]
    exact Guarded.run_of_step hstep happly.2 (hstart ▸ hafter)
  obtain ⟨id, ban, hid, hban, hmem, -⟩ := Guarded.run_of_step hstep hbanPower hotherGuard
  -- a value that was never in conflict is laid over the result
  cases hu : (separate states).1.get (slot roomMember user) with
  | none =>
      rw [membershipIn, overlay, SortedMap.get_insertAll_entries, hu, Option.none_or, hid,
        Option.bind_some, hban, Option.bind_some, hmem]
      rintro (h' | h' | h')
      · exact absurd h' (by decide)
      · exact absurd h' (by decide)
      · exact absurd h' (by decide)
  | some id' =>
      rw [membershipIn, hu] at hover
      rw [membershipIn, overlay, SortedMap.get_insertAll_entries, hu]
      exact hover

/-- A ban in the partial state is kept from joins, invites and knocks exactly when none of those a
resolution reaches is allowed without the user's member slot; over inputs whose events sit in their
own slots, exactly when none of them is admitted by the rest of the state.  Where moreover no leave
of the banned user is allowed and the unconflicted state does not bring the user in, a ban applied
among the power events is not undone by the resolution. -/
theorem resolution_keeps_bans_iff (verifyB64 : VerifyB64) (h : HashOrder)
    (states : List StateMap) (pdus : PduMap) (user : Str) :
    ((∀ x ∈ resolveSteps verifyB64 h states pdus, KeepsBan verifyB64 pdus user x) ↔
      ∀ x ∈ resolveSteps verifyB64 h states pdus, BannedByAnother pdus x.1 user →
        ∀ event, pdus.get x.2 = some event → BringsIn event user →
          hiddenVerdict verifyB64 pdus.get x.1 event (slot roomMember user) ≠ .ok ()) ∧
    ((∀ s ∈ states, WellSlotted pdus.get s) →
      ((∀ x ∈ resolveSteps verifyB64 h states pdus, KeepsBan verifyB64 pdus user x) ↔
        ∀ x ∈ resolveSteps verifyB64 h states pdus, BannedByAnother pdus x.1 user →
          ∀ event, pdus.get x.2 = some event → BringsIn event user →
            ¬ ((viewOf pdus.get x.1).create ≠ none ∧
              Admits verifyB64 event (viewOf pdus.get x.1) user))) ∧
    ((∀ x ∈ resolveSteps verifyB64 h states pdus, BanGuard verifyB64 pdus user x.1 x.2) →
      ¬ IsIn (membershipIn pdus (separate states).1 user) →
        (∀ x ∈ resolveSteps verifyB64 h states pdus, KeepsBan verifyB64 pdus user x) ∧
        ∀ m, resolve verifyB64 h states pdus = some m →
          (∃ x ∈ powerSteps verifyB64 h states pdus, AppliesBan verifyB64 pdus user x) →
            ¬ IsIn (membershipIn pdus m user)) := by
  refine ⟨forall₂_congr fun x _ => keepsBan_iff, fun hw => ?_, fun hguard hover => ⟨?_, ?_⟩⟩
  · refine forall₂_congr fun x hx => keepsBan_iff.trans ?_
    refine forall₄_congr fun _ event _ hin => ?_
    rw [ne_eq, hiddenVerdict_bringsIn (wellSlotted_resolveSteps hw x hx) hin]
  · intro x hx
    rw [keepsBan_iff]
    exact fun hban event hpdu hin =>
      hguard x hx hban event hpdu hin.1 hin.2.1 (.inl hin.2.2)
  · rintro m hm ⟨x, hx, happly⟩
    exact banned_of_guarded hguard hover hm hx happly

/-- Over the ban-or-join states, whose events sit in their own slots. -/
theorem resolution_keeps_bans_sample :
    (∀ x ∈ resolveSteps noSignature .inserted banOrJoin events,
        KeepsBan noSignature events "@b:x" x) ↔
      ∀ x ∈ resolveSteps noSignature .inserted banOrJoin events,
        BannedByAnother events x.1 "@b:x" → ∀ event, events.get x.2 = some event →
          BringsIn event "@b:x" →
            ¬ ((viewOf events.get x.1).create ≠ none ∧
              Admits noSignature event (viewOf events.get x.1) "@b:x") :=
  (resolution_keeps_bans_iff noSignature .inserted banOrJoin events "@b:x").2.1 (by decide +kernel)

/-- The banned user's join replaces the ban in a public room. -/
theorem resolution_replaces_ban :
    ¬ ∀ (verifyB64 : VerifyB64) (h : HashOrder) (states : List StateMap) (pdus : PduMap)
        (user : Str),
      (∀ x ∈ resolveSteps verifyB64 h states pdus, KeepsBan verifyB64 pdus user x) ∧
        ∀ m, resolve verifyB64 h states pdus = some m →
          (∃ x ∈ powerSteps verifyB64 h states pdus, AppliesBan verifyB64 pdus user x) →
            ¬ IsIn (membershipIn pdus m user) := by
  intro hall
  have hreached : (stateMap [create, publicRule, aliceJoin, bobBan], bobJoin.eventId) ∈
      resolveSteps noSignature .inserted banOrJoin events := by
    decide +kernel
  have hkept := (hall noSignature .inserted banOrJoin events "@b:x").1 _ hreached
    ⟨bobBan.eventId, bobBan, by decide +kernel, by decide +kernel, by decide +kernel,
      by decide +kernel⟩
    bobJoin (by decide +kernel) ⟨rfl, rfl, .inl (by decide +kernel)⟩
  revert hkept
  decide +kernel

end GaussMatrix.StateRes
