import GaussMatrix.Library.Fallible
import GaussMatrix.StateRes.PowerSort
import GaussMatrix.StateRes.Termination

/-!
# Where the power ordering could panic

The ordering indexes a table of parents and the list of what is ready, and stops when it has placed as
many events as it was given. Here a missing entry and an empty list end it with a panic; neither
happens, whatever cites what.
-/

namespace GaussMatrix.StateRes

open Library Util Api

/-! ## The loop with its panics -/

inductive PowerSortPanic
  | missingParents
  | nothingReady
deriving DecidableEq

/-- The parents within the list, by event. -/
def parentsTable (events : List EventId) (pdus : PduMap) : SortedMap EventId (List EventId) :=
  SortedMap.empty.insertAll (events.map fun e => (e, parents events pdus e))

/-- An event is looked up only if it is not placed yet. -/
def isReady (table : SortedMap EventId (List EventId)) (placed : List EventId) (e : EventId) :
    Except PowerSortPanic Bool :=
  if e ∈ placed then .ok false
  else
    match table.get e with
    | some ps => .ok (ps.all (· ∈ placed))
    | none => .error .missingParents

def filterReady (table : SortedMap EventId (List EventId)) (placed : List EventId) :
    List EventId → Except PowerSortPanic (List EventId)
  | [] => .ok []
  | e :: rest => do
      let keep ← isReady table placed e
      let ready ← filterReady table placed rest
      return if keep then e :: ready else ready

/-- What has been placed, as a set and in order. -/
structure Placing where
  placed : List EventId
  order : List EventId
deriving DecidableEq

/-- Place the first of the events that are ready; in an auth cycle all that are left are. -/
def placeChosen (events : List EventId) (pdus : PduMap) (base : StateMap) (s : Placing) :
    Except PowerSortPanic Placing := do
  let ready ← filterReady (parentsTable events pdus) s.placed events
  let ready := if ready = [] then events.filter (· ∉ s.placed) else ready
  match (sortByKey (powerKey base pdus) ready).head? with
  | some chosen => return ⟨s.placed.insert chosen, s.order ++ [chosen]⟩
  | none => .error .nothingReady

/-- A round of the loop; it is left when the order is as long as the list, and at a panic. -/
def placeRound (events : List EventId) (pdus : PduMap) (base : StateMap) :
    Except PowerSortPanic Placing → Option (Except PowerSortPanic Placing)
  | .error _ => none
  | .ok s =>
      if s.order.length < events.length then some (placeChosen events pdus base s) else none

def powerSortPanicking (events : List EventId) (pdus : PduMap) (base : StateMap) :
    Rounds (Except PowerSortPanic (List EventId)) := do
  let final ← Rounds.loop (placeRound events pdus base) (.ok ⟨[], []⟩)
  return final.map Placing.order

/-! ## No panic -/

variable {events order : List EventId} {pdus : PduMap} {base : StateMap}

theorem get_parentsTable {e : EventId} (he : e ∈ events) :
    (parentsTable events pdus).get e = some (parents events pdus e) := by
  rw [parentsTable, SortedMap.get_insertAll_eq_some_iff]
  · exact List.mem_map_of_mem he
  · intro v₁ v₂ h₁ h₂
    obtain ⟨a, -, ha⟩ := List.mem_map.mp h₁
    obtain ⟨b, -, hb⟩ := List.mem_map.mp h₂
    obtain ⟨rfl, rfl⟩ := Prod.mk.inj ha
    obtain ⟨rfl, rfl⟩ := Prod.mk.inj hb
    rfl

/-- Every event that is asked about has an entry, so the filter comes through. -/
theorem filterReady_eq {placed l : List EventId} (hl : l ⊆ events) :
    filterReady (parentsTable events pdus) placed l =
      .ok (l.filter fun e => e ∉ placed ∧ (parents events pdus e).all (· ∈ placed)) := by
  induction l with
  | nil => rfl
  | cons e rest ih =>
      obtain ⟨he, hrest⟩ := List.cons_subset.mp hl
      have hready : isReady (parentsTable events pdus) placed e =
          .ok (decide (e ∉ placed ∧ (parents events pdus e).all (· ∈ placed) = true)) := by
        rw [isReady, get_parentsTable he]
        by_cases hp : e ∈ placed
        · rw [if_pos hp, decide_eq_false (fun h => h.1 hp)]
        · rw [if_neg hp]
          simp only [hp, not_false_eq_true, true_and, Bool.decide_eq_true]
      rw [filterReady, hready, ok_bind, ih hrest, ok_bind, List.filter_cons]
      rfl

/-- A round places the first event that is ready. -/
theorem placeChosen_eq {s : Placing} (hsame : ∀ e, e ∈ s.placed ↔ e ∈ s.order) {chosen : EventId}
    (hhead : (sortByKey (powerKey base pdus) (readyEvents events pdus s.order)).head? =
      some chosen) :
    placeChosen events pdus base s = .ok ⟨s.placed.insert chosen, s.order ++ [chosen]⟩ := by
  rw [placeChosen, filterReady_eq (List.Subset.refl _), ok_bind]
  simp only [readyEvents] at hhead
  simp only [hsame, hhead]
  rfl

/-- The loop places the events that are left. -/
theorem returns_loop_placeRound {n : Nat} {s : Placing} (hsame : ∀ e, e ∈ s.placed ↔ e ∈ s.order)
    (hn : s.order.length + n = events.length)
    (h : powerSortLoop events pdus base n s.order = some order) :
    ∃ placed, (Rounds.loop (placeRound events pdus base) (.ok s)).Returns (.ok ⟨placed, order⟩) := by
  -- on the rounds that are left, as many as events that are not placed
  induction n generalizing s with
  | zero =>
      have hdone : ¬ s.order.length < events.length := by omega
      have hs : (.ok s : Except PowerSortPanic Placing) = .ok ⟨s.placed, order⟩ := by
        rw [← Option.some.inj h]
      refine ⟨s.placed, ?_⟩
      rw [Rounds.returns_loop, placeRound, if_neg hdone]
      exact hs
  | succ n ih =>
      have hleft : s.order.length < events.length := by omega
      rw [powerSortLoop] at h
      cases hhead : (sortByKey (powerKey base pdus) (readyEvents events pdus s.order)).head? with
      | none =>
          -- the ordering without panics would have stopped short here
          rw [hhead] at h
          cases h
      | some chosen =>
          rw [hhead] at h
          have hsame' : ∀ e, e ∈ s.placed.insert chosen ↔ e ∈ s.order ++ [chosen] := by
            intro e
            rw [List.mem_insert_iff, hsame, List.mem_append, List.mem_singleton, or_comm]
          have hn' : (s.order ++ [chosen]).length + n = events.length := by
            rw [List.length_append, List.length_singleton]
            omega
          obtain ⟨placed, hloop⟩ := ih (s := ⟨s.placed.insert chosen, s.order ++ [chosen]⟩) hsame' hn' h
          refine ⟨placed, ?_⟩
          rw [Rounds.returns_loop, placeRound, if_pos hleft, placeChosen_eq hsame hhead]
          exact hloop

/-- On distinct events the ordering ends, without a panic and with each event once, whatever the
events cite and whether they are known; it is the ordering that resolution uses. -/
theorem power_sort_permutes (events : List EventId) (pdus : PduMap) (base : StateMap)
    (hnodup : events.Nodup) :
    ∃ order, (powerSortPanicking events pdus base).Returns (.ok order) ∧ order.Perm events ∧
      reverseTopologicalPowerSort events pdus base = some order := by
  obtain ⟨order, horder, hperm⟩ := @reverseTopologicalPowerSort_total pdus base events hnodup
  obtain ⟨placed, hloop⟩ := returns_loop_placeRound (s := ⟨[], []⟩) (fun _ => Iff.rfl)
    (Nat.zero_add _) horder
  refine ⟨order, ?_, hperm, horder⟩
  rw [powerSortPanicking, Rounds.returns_bind]
  exact ⟨_, hloop, Rounds.returns_pure.mpr rfl⟩

open Sample SamplePowerSort in
/-- `$a` cites itself and `$b`, `$b` cites `$a`, and `$x` is unknown. -/
theorem power_sort_permutes_cycle : ∃ order,
    (powerSortPanicking [eventId 'x', eventId 'b', eventId 'a']
      (pduMap [levels 'a' [eventId 'a', eventId 'b'] 5, levels 'b' [eventId 'a'] 6])
      SortedMap.empty).Returns (.ok order) ∧ eventId 'x' ∈ order := by
  obtain ⟨order, hreturns, hperm, -⟩ := power_sort_permutes [eventId 'x', eventId 'b', eventId 'a']
    (pduMap [levels 'a' [eventId 'a', eventId 'b'] 5, levels 'b' [eventId 'a'] 6]) SortedMap.empty
    (by decide +kernel)
  exact ⟨order, hreturns, hperm.mem_iff.mpr List.mem_cons_self⟩

end GaussMatrix.StateRes
