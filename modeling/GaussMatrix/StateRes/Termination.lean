import GaussMatrix.Library.Rounds
import GaussMatrix.StateRes.Ordering
import GaussMatrix.StateRes.PowerLevels

/-!
# When resolution returns

Four loops of resolution follow `auth_events`.  The walk to the auth chain remembers what it has
seen, the power ordering places one event a round, and the depth walk counts its rounds.  The
mainline walk has no guard: it ends unless the power levels it starts from run into a cycle.
-/

namespace GaussMatrix.StateRes

open Library Util Api Api.Events

/-! ## The loops -/

/-- The events reachable from `roots` over `auth_events`. -/
def authChainLoop (roots : List EventId) (byId : PduMap) : Rounds (List EventId) :=
  Rounds.visited (authParents byId) roots

/-- One round of the power ordering: place the first of the events that are ready. -/
def placeNext (events : List EventId) (pdus : PduMap) (base : StateMap) (order : List EventId) :
    Option (List EventId) :=
  if order.length < events.length then
    (sortByKey (powerKey base pdus) (readyEvents events pdus order)).head?.map (order ++ [·])
  else none

def powerOrderLoop (events : List EventId) (pdus : PduMap) (base : StateMap) :
    Rounds (List EventId) :=
  Rounds.loop (placeNext events pdus base) []

/-- The chain from `powerLevels` back through its ancestors. -/
def mainlineLoop (powerLevels : Option EventId) (pdus : PduMap) : Rounds (List EventId) :=
  Rounds.walk (powerLevelsAncestor pdus) powerLevels

/-- Where the walk to the mainline stands. -/
structure DepthWalk where
  cursor : Option EventId
  guard : Nat
  found : Option Nat

/-- One round of the walk to the mainline; it is left at a mainline event, past a root, and when it
has visited too many events. -/
def depthRound (position : SortedMap EventId Nat) (pdus : PduMap) (walk : DepthWalk) :
    Option DepthWalk :=
  if walk.found.isSome ∨ 10000 < walk.guard then none
  else
    walk.cursor.map fun id =>
      match position.get id with
      | some p => { walk with found := some p }
      | none => { walk with cursor := powerLevelsAncestor pdus id, guard := walk.guard + 1 }

def depthLoop (position : SortedMap EventId Nat) (pdus : PduMap) (start : EventId) :
    Rounds Nat := do
  let walk ← Rounds.loop (depthRound position pdus) ⟨some start, 0, none⟩
  return walk.found.getD 0

/-! ## Resolution with its loops -/

def authDifferenceLoops (h : HashOrder) (states : List StateMap) (pdus : PduMap) :
    Rounds (List EventId) := do
  let chains ← Rounds.each (fun s => authChainLoop s.values pdus) states
  let iterated := chains.zipIdx.map fun c => h.order (.chain c.2) c.1
  return h.order .difference
    (iterated.flatten.filter fun id => ¬ chains.all fun c => id ∈ c)

/-- The events by their depth along the mainline of `powerLevels`, each event's depth walked to. -/
def mainlineSortLoops (events : List EventId) (powerLevels : Option EventId) (pdus : PduMap) :
    Rounds (List EventId) := do
  let line ← mainlineLoop powerLevels pdus
  let position := mainlinePosition line
  let keyed ← Rounds.each (fun e => do
    let depth ← depthLoop position pdus e
    let ts := ((pdus.get e).map fun p => p.originServerTs.toNat).getD 0
    return ((toLex (depth, toLex (ts, e)) : MainlineKey), e)) events
  return (sortByKey Prod.fst keyed).map Prod.snd

/-- `resolve`, its four kinds of loops run as loops. -/
def resolveLoops (verifyB64 : VerifyB64) (h : HashOrder) (states : List StateMap) (pdus : PduMap) :
    Rounds StateMap := do
  let (unconflicted, conflicted) := separate states
  if conflicted.entries = [] then
    return unconflicted
  let difference ← authDifferenceLoops h states pdus
  let full := h.order .full (conflicted.values.flatten ++ difference)
  let power := full.filter (isPowerId pdus)
  let other := full.filter fun id => ¬ isPowerId pdus id
  let sorted ← powerOrderLoop power pdus unconflicted
  let resolved := run (tryApply verifyB64 pdus) unconflicted sorted
  let sorted ← mainlineSortLoops other (resolved.get (slot roomPowerLevels [])) pdus
  let resolved := run (tryApply verifyB64 pdus) resolved sorted
  return overlay unconflicted resolved

/-! ## The loops that always end -/

section

variable {pdus : PduMap} {base : StateMap} {events : List EventId}

theorem returns_authChainLoop {roots ids : List EventId} :
    (authChainLoop roots pdus).Returns ids ↔ authChain roots pdus = ids := by
  have hfuel : roots.length + (pdus.keys.map fun a => (authParents pdus a).length).sum <
      roots.length + (pdus.values.map fun pdu => pdu.authEvents.length).sum + 1 := by
    rw [length_authParents_keys]
    omega
  exact Rounds.returns_visited pdus.nodup_keys (fun _ => authParents_of_not_mem) hfuel

/-- The walk ends on every map, also on one with cycles or missing events, and what it returns is what
the roots reach over the citations of the events that the map has. -/
theorem auth_chain_reachable (roots : List EventId) (byId : PduMap) :
    ∃ ids, (∀ ids', (authChainLoop roots byId).Returns ids' ↔ ids' = ids) ∧
      ∀ id, id ∈ ids ↔ ∃ root ∈ roots, Relation.ReflTransGen
        (fun a b => ∃ pdu, byId.get a = some pdu ∧ b ∈ pdu.authEvents) root id := by
  have hedge : ∀ a b, b ∈ authParents byId a ↔
      ∃ pdu, byId.get a = some pdu ∧ b ∈ pdu.authEvents := by
    intro a b
    unfold authParents
    cases byId.get a with
    | none => simp
    | some pdu => simp
  apply Exists.intro (authChain roots byId)
  constructor
  · intro ids'
    rw [returns_authChainLoop]
    exact eq_comm
  · intro id
    rw [mem_authChain_iff]
    simp only [hedge]

theorem returns_authDifferenceLoops {h : HashOrder} {states : List StateMap} {ids : List EventId} :
    (authDifferenceLoops h states pdus).Returns ids ↔ authDifference h states pdus = ids := by
  have hchains : ∀ chains,
      (Rounds.each (fun s : StateMap => authChainLoop s.values pdus) states).Returns chains ↔
        states.map (fun s => authChain s.values pdus) = chains :=
    fun _ => Rounds.returns_each (g := fun s : StateMap => authChain s.values pdus)
      (fun _ _ _ => returns_authChainLoop)
  simp only [authDifferenceLoops, Rounds.returns_bind, Rounds.returns_pure, hchains,
    exists_eq_left']
  rfl

/-- The loop places the events that are left. -/
theorem returns_loop_placeNext {n : Nat} {order order' : List EventId}
    (hn : order.length + n = events.length)
    (h : powerSortLoop events pdus base n order = some order') :
    (Rounds.loop (placeNext events pdus base) order).Returns order' := by
  induction n generalizing order with
  | zero =>
      have hdone : ¬ order.length < events.length := by omega
      rw [Rounds.returns_loop, placeNext, if_neg hdone]
      exact Option.some.inj h
  | succ n ih =>
      have hleft : order.length < events.length := by omega
      rw [Rounds.returns_loop, placeNext, if_pos hleft]
      rw [powerSortLoop] at h
      cases hc : (sortByKey (powerKey base pdus) (readyEvents events pdus order)).head? with
      | none => simp [hc] at h
      | some chosen =>
          rw [hc] at h
          have hlen : (order ++ [chosen]).length + n = events.length := by
            rw [List.length_append, List.length_singleton]
            omega
          exact ih hlen h

theorem returns_powerOrderLoop (hnd : events.Nodup) {order : List EventId} :
    (powerOrderLoop events pdus base).Returns order ↔
      reverseTopologicalPowerSort events pdus base = some order := by
  obtain ⟨order', horder, -⟩ := @reverseTopologicalPowerSort_total pdus base events hnd
  have hloop : (powerOrderLoop events pdus base).Returns order' :=
    returns_loop_placeNext (Nat.zero_add _) horder
  rw [horder, Option.some.injEq]
  constructor
  · exact fun h => hloop.unique h
  · rintro rfl
    exact hloop

/-- The depth walk visits one event a round, so it is left within its guard. -/
theorem returns_loop_depthRound {position : SortedMap EventId Nat} {n : Nat}
    {cursor : Option EventId} {guard : Nat} (hn : guard + n = mainlineGuard) :
    ∃ walk, (Rounds.loop (depthRound position pdus) ⟨cursor, guard, none⟩).Returns walk ∧
      walk.found.getD 0 = mainlineDepth position pdus n cursor := by
  -- `n` rounds are left before the guard ends the walk
  induction n generalizing cursor guard with
  | zero =>
      have hguard : 10000 < guard := by simp only [mainlineGuard] at hn; omega
      refine ⟨⟨cursor, guard, none⟩, ?_, ?_⟩
      · rw [Rounds.returns_loop, depthRound, if_pos (.inr hguard)]
      · cases cursor <;> rfl
  | succ n ih =>
      have hguard : ¬ 10000 < guard := by simp only [mainlineGuard] at hn; omega
      have hgo : ¬ ((none : Option Nat).isSome = true ∨ 10000 < guard) := by simp [hguard]
      cases cursor with
      | none =>
          refine ⟨⟨none, guard, none⟩, ?_, rfl⟩
          rw [Rounds.returns_loop, depthRound, if_neg hgo]
          rfl
      | some id =>
          cases hp : position.get id with
          | some p =>
              refine ⟨⟨some id, guard, some p⟩, ?_, by simp [mainlineDepth, hp]⟩
              rw [Rounds.returns_loop, depthRound, if_neg hgo]
              simp only [Option.map_some, hp]
              rw [Rounds.returns_loop, depthRound, if_pos (.inl rfl)]
          | none =>
              have hnext : guard + 1 + n = mainlineGuard := by omega
              obtain ⟨walk, hwalk, hfound⟩ :=
                @ih (powerLevelsAncestor pdus id) (guard + 1) hnext
              refine ⟨walk, ?_, by simpa only [mainlineDepth, hp] using hfound⟩
              rw [Rounds.returns_loop, depthRound, if_neg hgo]
              simp only [Option.map_some, hp]
              exact hwalk

theorem returns_depthLoop {position : SortedMap EventId Nat} {e : EventId} {depth : Nat} :
    (depthLoop position pdus e).Returns depth ↔
      mainlineDepth position pdus mainlineGuard (some e) = depth := by
  obtain ⟨walk, hwalk, hfound⟩ : ∃ walk,
      (Rounds.loop (depthRound position pdus) ⟨some e, 0, none⟩).Returns walk ∧
        walk.found.getD 0 = mainlineDepth position pdus mainlineGuard (some e) :=
    returns_loop_depthRound (Nat.zero_add mainlineGuard)
  simp only [depthLoop, Rounds.returns_bind, Rounds.returns_pure]
  rw [← hfound]
  constructor
  · rintro ⟨walk', hwalk', rfl⟩
    rw [hwalk.unique hwalk']
  · rintro rfl
    exact ⟨walk, hwalk, rfl⟩

/-! ## The loop that may not end -/

/-- No event that the walk from `powerLevels` meets is among its own power-levels ancestors. -/
def EndsInRoot (pdus : PduMap) (powerLevels : Option EventId) : Prop :=
  ¬ RunsIntoCycle (powerLevelsAncestor pdus) powerLevels

theorem returns_mainlineLoop {powerLevels : Option EventId} {line : List EventId} :
    (mainlineLoop powerLevels pdus).Returns line ↔ mainline powerLevels pdus = some line := by
  rw [mainlineLoop, Rounds.returns_walk]
  constructor
  · rintro ⟨n, hn⟩
    have hfound := follow_of_support pdus.keys (fun _ => powerLevelsAncestor_isSome) hn
    rwa [SortedMap.length_keys] at hfound
  · exact fun h => ⟨pdus.size + 1, h⟩

theorem mainline_terminates_iff {powerLevels : Option EventId} :
    (∃ line, mainline powerLevels pdus = some line) ↔ EndsInRoot pdus powerLevels := by
  rw [EndsInRoot, ← exists_follow_iff pdus.keys (fun _ => powerLevelsAncestor_isSome)]
  simp only [← returns_mainlineLoop, mainlineLoop, Rounds.returns_walk]
  exact exists_comm

theorem returns_mainlineSortLoops {powerLevels : Option EventId} {order : List EventId} :
    (mainlineSortLoops events powerLevels pdus).Returns order ↔
      mainlineSort events powerLevels pdus = some order := by
  have hkeyed : ∀ line keyed, (Rounds.each (fun e => do
      let depth ← depthLoop (mainlinePosition line) pdus e
      let ts := ((pdus.get e).map fun p => p.originServerTs.toNat).getD 0
      return ((toLex (depth, toLex (ts, e)) : MainlineKey), e)) events).Returns keyed ↔
      events.map (fun e => (mainlineKey (mainlinePosition line) pdus e, e)) = keyed := by
    intro line keyed
    apply Rounds.returns_each
    intro e _ k
    simp only [Rounds.returns_bind, Rounds.returns_pure, returns_depthLoop, exists_eq_left']
    rfl
  simp only [mainlineSortLoops, mainlineSort, Rounds.returns_bind, Rounds.returns_pure,
    returns_mainlineLoop, hkeyed, exists_eq_left', map_snd_sortByKey, Option.map_eq_some_iff]

/-! ## Resolution -/

variable {verifyB64 : VerifyB64} {h : HashOrder} {states : List StateMap}

/-- The state the power events leave. -/
def powerPass (verifyB64 : VerifyB64) (h : HashOrder) (states : List StateMap) (pdus : PduMap) :
    StateMap :=
  run (tryApply verifyB64 pdus) (separate states).1 ((powerOrder h states pdus).getD [])

theorem exists_powerOrder (h : HashOrder) (states : List StateMap) (pdus : PduMap) :
    ∃ order, powerOrder h states pdus = some order := by
  have hnd : ((fullConflicted h states pdus).filter (isPowerId pdus)).Nodup :=
    ((h.perm _ _).nodup_iff.mpr (List.nodup_dedup _)).filter _
  obtain ⟨order, horder, -⟩ := reverseTopologicalPowerSort_total hnd
  exact ⟨order, horder⟩

/-- Run as loops, resolution returns what `resolve` does, and where `resolve` has no result it does
not return. -/
theorem returns_resolveLoops {result : StateMap} :
    (resolveLoops verifyB64 h states pdus).Returns result ↔
      resolve verifyB64 h states pdus = some result := by
  have hnd : ((fullConflicted h states pdus).filter (isPowerId pdus)).Nodup :=
    ((h.perm _ _).nodup_iff.mpr (List.nodup_dedup _)).filter _
  simp only [resolveLoops, resolve]
  split
  · simp
  · simp only [Rounds.returns_bind, Rounds.returns_pure, returns_authDifferenceLoops,
      exists_eq_left']
    have hpower : ∀ order, (powerOrderLoop ((fullConflicted h states pdus).filter (isPowerId pdus))
        pdus (separate states).1).Returns order ↔ powerOrder h states pdus = some order :=
      fun _ => returns_powerOrderLoop hnd
    simp only [fullConflicted] at hpower
    simp only [hpower, returns_mainlineSortLoops]
    simp only [powerOrder, otherOrder, fullConflicted, bind, Option.bind_eq_some_iff, pure,
      Option.some.injEq]

theorem resolve_isSome_iff :
    (∃ result, resolve verifyB64 h states pdus = some result) ↔
      (separate states).2.entries = [] ∨
        EndsInRoot pdus ((powerPass verifyB64 h states pdus).get (slot roomPowerLevels [])) := by
  obtain ⟨order, horder⟩ := exists_powerOrder h states pdus
  rw [← mainline_terminates_iff, powerPass, horder]
  by_cases hconflict : (separate states).2.entries = []
  · simp [resolve, hconflict]
  · simp [resolve, hconflict, horder, otherOrder, mainlineSort, Option.bind_eq_some_iff]

/-- Resolution returns exactly when no slot is in conflict, or the mainline walk from the power
levels that the power events leave does not run into a cycle. -/
theorem resolve_terminates_iff (verifyB64 : VerifyB64) (h : HashOrder) (states : List StateMap)
    (pdus : PduMap) :
    (resolveLoops verifyB64 h states pdus).Terminates ↔
      (separate states).2.entries = [] ∨
        EndsInRoot pdus ((powerPass verifyB64 h states pdus).get (slot roomPowerLevels [])) := by
  simp only [Rounds.Terminates, returns_resolveLoops]
  exact resolve_isSome_iff

end

namespace Sample

/-- Power levels that cite themselves. -/
def ownAncestor : Pdu := { powerLevels 'p' alice [("@a:x", 100)] with authEvents := [eventId 'p'] }

/-- A room with these power levels, where one state lacks Alice's join. -/
def cyclicRoom : List StateMap := [stateMap [ownAncestor], stateMap [ownAncestor, aliceJoin]]

end Sample

open Sample

/-- The walk from power levels that cite themselves stays at them. -/
theorem self_citing_levels_never_resolve :
    ¬ ∀ (verifyB64 : VerifyB64) (h : HashOrder) (states : List StateMap) (pdus : PduMap),
      (resolveLoops verifyB64 h states pdus).Terminates := by
  intro h
  obtain ⟨result, hresult⟩ := h noSignature .inserted cyclicRoom (pduMap [ownAncestor, aliceJoin])
  have hnone : resolve noSignature .inserted cyclicRoom (pduMap [ownAncestor, aliceJoin]) = none := by
    decide +kernel
  rw [returns_resolveLoops, hnone] at hresult
  exact absurd hresult (by simp)

end GaussMatrix.StateRes
