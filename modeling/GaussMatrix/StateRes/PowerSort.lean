import GaussMatrix.Library.Topological
import GaussMatrix.StateRes.Application
import GaussMatrix.StateRes.Ordering

/-!
# Power events after their ancestors

The power ordering looks at the citations between the events it is given.  Where nothing cites itself
through others it never falls back on an event whose parents are still to come, so each event stands
after all that it reaches through events of the list; what it reaches only through other events may
stand after it.
-/

namespace GaussMatrix.StateRes

open Library Util Api Api.Events

variable {events order : List EventId} {pdus : PduMap} {base : StateMap}

theorem mem_parents_iff {e a : EventId} :
    a ∈ parents events pdus e ↔ a ∈ authParents pdus e ∧ a ∈ events := by
  unfold parents authParents
  cases pdus.get e with
  | none => simp
  | some p => simp

/-- Without cycles in the citations there are none among the events of the list. -/
theorem acyclic_parents (hacyclic : ∀ e, ¬ Ancestor (authParents pdus) e e) (e : EventId) :
    ¬ Ancestor (parents events pdus) e e := by
  intro hself
  exact hacyclic e (hself.mono fun _ _ ha => (mem_parents_iff.mp ha).1)

/-- What is ready has its parents placed: the fall-back for cycles is not taken. -/
theorem parents_placed (hacyclic : ∀ e, ¬ Ancestor (authParents pdus) e e) {next : EventId}
    (hnext : next ∈ readyEvents events pdus order) : ∀ a ∈ parents events pdus next, a ∈ order := by
  obtain ⟨hevents, hnew⟩ := mem_readyEvents hnext
  have hleft : events.filter (fun e => decide (e ∉ order)) ≠ [] :=
    List.ne_nil_of_mem (List.mem_filter.mpr ⟨hevents, decide_eq_true hnew⟩)
  obtain ⟨b, hb, hparents⟩ := exists_without_parent hleft (acyclic_parents hacyclic)
  obtain ⟨hbEvents, hbNew⟩ := List.mem_filter.mp hb
  have hplaced : ∀ a ∈ parents events pdus b, a ∈ order := by
    intro a ha
    by_contra hmissing
    exact hparents a ha (List.mem_filter.mpr ⟨(mem_parents_iff.mp ha).2, decide_eq_true hmissing⟩)
  have hready : b ∈ events.filter
      fun e => e ∉ order ∧ (parents events pdus e).all (· ∈ order) := by
    refine List.mem_filter.mpr ⟨hbEvents, decide_eq_true ⟨of_decide_eq_true hbNew, ?_⟩⟩
    exact List.all_eq_true.mpr fun a ha => decide_eq_true (hplaced a ha)
  simp only [readyEvents, if_neg (List.ne_nil_of_mem hready)] at hnext
  have hall := (of_decide_eq_true (List.mem_filter.mp hnext).2).2
  exact fun a ha => of_decide_eq_true (List.all_eq_true.mp hall a ha)

/-- The loop goes on with an event whose parents are placed. -/
theorem powerSortLoop_parentsFirst (hacyclic : ∀ e, ¬ Ancestor (authParents pdus) e e) {n : Nat}
    {order' : List EventId} (hfirst : ParentsFirst (parents events pdus) order)
    (hloop : powerSortLoop events pdus base n order = some order') :
    ParentsFirst (parents events pdus) order' := by
  induction n generalizing order with
  | zero =>
      rw [← Option.some.inj hloop]
      exact hfirst
  | succ n ih =>
      rw [powerSortLoop] at hloop
      cases hhead : (sortByKey (powerKey base pdus) (readyEvents events pdus order)).head? with
      | none =>
          rw [hhead] at hloop
          cases hloop
      | some chosen =>
          rw [hhead] at hloop
          have hready : chosen ∈ readyEvents events pdus order :=
            mem_sortByKey.mp (List.mem_of_head? hhead)
          exact ih (hfirst.concat (parents_placed hacyclic hready)) hloop

/-- Where no event is its own auth ancestor, the power ordering lists each event once and after all
that it reaches by citations through events of the list. -/
theorem power_events_after_ancestors (events : List EventId) (pdus : PduMap) (base : StateMap)
    (hnodup : events.Nodup) (hacyclic : ∀ e, ¬ Ancestor (authParents pdus) e e) :
    ∃ order, reverseTopologicalPowerSort events pdus base = some order ∧ order.Perm events ∧
      ∀ a, ∀ b ∈ events, Ancestor (parents events pdus) b a → order.idxOf a < order.idxOf b := by
  obtain ⟨order, horder, hperm⟩ := @reverseTopologicalPowerSort_total pdus base events hnodup
  have hfirst : ParentsFirst (parents events pdus) order :=
    powerSortLoop_parentsFirst hacyclic parentsFirst_nil horder
  refine ⟨order, horder, hperm, fun a b hb hab => ?_⟩
  exact hfirst.idxOf_lt_of_ancestor (hperm.nodup_iff.mpr hnodup) (hperm.mem_iff.mpr hb) hab

namespace SamplePowerSort

open Sample

/-- Power levels of Alice that cite the given event. -/
def levels (c : Char) (cited : List EventId) (ts : UInt64) : Pdu :=
  { stateEvent c alice roomPowerLevels [] ts "{}".toList with authEvents := cited }

/-- `$b` cites `$c`, and `$c` cites `$a`; `$b` claims the earliest time. -/
def chain : PduMap :=
  pduMap [levels 'a' [] 5, levels 'c' [eventId 'a'] 6, levels 'b' [eventId 'c'] 1]

theorem cites_earlier : ∀ b, ∀ a ∈ authParents chain b,
    [eventId 'a', eventId 'c', eventId 'b'].idxOf a <
      [eventId 'a', eventId 'c', eventId 'b'].idxOf b := by
  intro b
  by_cases hb : b ∈ chain.keys
  · revert b
    decide +kernel
  · rw [authParents_of_not_mem hb]
    exact fun a ha => absurd ha List.not_mem_nil

end SamplePowerSort

open Sample SamplePowerSort in
/-- With the whole chain in the list, its last event comes last. -/
theorem power_events_after_ancestors_sample : ∃ order,
    reverseTopologicalPowerSort [eventId 'b', eventId 'c', eventId 'a'] chain SortedMap.empty =
        some order ∧
      order.idxOf (eventId 'a') < order.idxOf (eventId 'b') := by
  obtain ⟨order, horder, -, hbefore⟩ := power_events_after_ancestors
    [eventId 'b', eventId 'c', eventId 'a'] chain SortedMap.empty (by decide +kernel)
    (not_ancestor_self cites_earlier)
  refine ⟨order, horder, hbefore (eventId 'a') (eventId 'b') (by decide +kernel) ?_⟩
  have hlast : eventId 'c' ∈ parents [eventId 'b', eventId 'c', eventId 'a'] chain (eventId 'b') :=
    by decide +kernel
  have hfirst : eventId 'a' ∈ parents [eventId 'b', eventId 'c', eventId 'a'] chain (eventId 'c') :=
    by decide +kernel
  exact (Relation.TransGen.single hlast).tail hfirst

open Sample SamplePowerSort in
/-- Without the middle of the chain its last event is placed before its first. -/
theorem ancestor_placed_after :
    [eventId 'a', eventId 'b'].Nodup ∧ (∀ e, ¬ Ancestor (authParents chain) e e) ∧
      Ancestor (authParents chain) (eventId 'b') (eventId 'a') ∧
        reverseTopologicalPowerSort [eventId 'a', eventId 'b'] chain SortedMap.empty =
          some [eventId 'b', eventId 'a'] := by
  have hlast : eventId 'c' ∈ authParents chain (eventId 'b') := by decide +kernel
  have hfirst : eventId 'a' ∈ authParents chain (eventId 'c') := by decide +kernel
  exact ⟨by decide, not_ancestor_self cites_earlier,
    (Relation.TransGen.single hlast).tail hfirst, by decide +kernel⟩

end GaussMatrix.StateRes
