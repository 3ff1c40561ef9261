import GaussMatrix.StateRes.Partition

/-!
# The two orderings

Both orderings list the events they are given once each, and both depend on those events as a set:
every tie is broken by the event id, and what is ready next is a condition on the set placed so
far.
-/

namespace GaussMatrix.StateRes

open Library Util Api

variable {pdus : PduMap} {base : StateMap}

/-! ## Reverse-topological power ordering -/

theorem powerKey_injective (base : StateMap) (pdus : PduMap) :
    Function.Injective (powerKey base pdus) := by
  have hid : ∀ e, (ofLex (ofLex (powerKey base pdus e)).2).2 = e := by
    intro e
    unfold powerKey
    split
    · rfl
    · rfl
  intro a b h
  rw [← hid a, h, hid b]

theorem parents_congr {events events' : List EventId} (h : ∀ e, e ∈ events ↔ e ∈ events')
    (e : EventId) : parents events pdus e = parents events' pdus e := by
  unfold parents
  split
  · simp only [h]
  · rfl

theorem readyEvents_perm (pdus : PduMap) {events events' placed : List EventId}
    (h : events.Perm events') :
    (readyEvents events pdus placed).Perm (readyEvents events' pdus placed) := by
  have hparents : ∀ e, parents events pdus e = parents events' pdus e :=
    parents_congr (fun _ => h.mem_iff)
  simp only [readyEvents, hparents]
  have hready := h.filter fun e =>
    decide (e ∉ placed ∧ (parents events' pdus e).all (· ∈ placed) = true)
  split
  · rename_i hnil
    rw [hnil] at hready
    rw [if_pos (List.nil_perm.mp hready)]
    exact h.filter _
  · rename_i hne
    rw [if_neg (fun hnil => hne (List.perm_nil.mp (hready.trans (List.Perm.of_eq hnil))))]
    exact hready

theorem powerSortLoop_perm {events events' : List EventId} (h : events.Perm events') (n : Nat)
    (order : List EventId) :
    powerSortLoop events pdus base n order = powerSortLoop events' pdus base n order := by
  induction n generalizing order with
  | zero => rfl
  | succ n ih =>
      simp only [powerSortLoop, ih,
        sortByKey_eq_of_perm (powerKey_injective base pdus) (readyEvents_perm pdus h)]

/-- The power ordering depends on the set of its events. -/
theorem reverseTopologicalPowerSort_perm {events events' : List EventId}
    (h : events.Perm events') :
    reverseTopologicalPowerSort events pdus base =
      reverseTopologicalPowerSort events' pdus base := by
  rw [reverseTopologicalPowerSort, h.length_eq, powerSortLoop_perm h]
  rfl

theorem mem_readyEvents {events placed : List EventId} {e : EventId}
    (h : e ∈ readyEvents events pdus placed) : e ∈ events ∧ e ∉ placed := by
  simp only [readyEvents] at h
  split at h
  · exact ⟨List.mem_of_mem_filter h, by simpa using (List.mem_filter.mp h).2⟩
  · have hp := (List.mem_filter.mp h).2
    rw [decide_eq_true_eq] at hp
    exact ⟨List.mem_of_mem_filter h, hp.1⟩

theorem readyEvents_ne_nil (pdus : PduMap) {events placed : List EventId} {e : EventId}
    (he : e ∈ events) (hp : e ∉ placed) : readyEvents events pdus placed ≠ [] := by
  simp only [readyEvents]
  split
  · exact List.ne_nil_of_mem (List.mem_filter.mpr ⟨he, by simpa using hp⟩)
  · assumption

/-- While `n` events are left the loop places each of them once. -/
theorem powerSortLoop_total {events : List EventId} (hnd : events.Nodup) {n : Nat}
    {order : List EventId} (hsub : order ⊆ events) (hord : order.Nodup)
    (hn : order.length + n = events.length) :
    ∃ order', powerSortLoop events pdus base n order = some order' ∧ order'.Perm events := by
  induction n generalizing order with
  | zero =>
      exact ⟨order, rfl, (hord.subperm hsub).perm_of_length_le (by omega)⟩
  | succ n ih =>
      have hleft : ∃ e ∈ events, e ∉ order := by
        by_contra hall
        push Not at hall
        have hle := (hnd.subperm hall).length_le
        omega
      obtain ⟨e, he, hp⟩ := hleft
      have hperm : (sortByKey (powerKey base pdus) (readyEvents events pdus order)).Perm
          (readyEvents events pdus order) := perm_sortByKey _
      obtain ⟨chosen, rest, hsorted⟩ := List.exists_cons_of_ne_nil (fun hnil =>
        readyEvents_ne_nil pdus he hp (List.perm_nil.mp (hnil ▸ hperm.symm)))
      have hchosen : chosen ∈ readyEvents events pdus order :=
        hperm.mem_iff.mp (hsorted ▸ List.mem_cons_self)
      obtain ⟨hmem, hnew⟩ := mem_readyEvents hchosen
      rw [powerSortLoop, hsorted]
      refine ih (List.append_subset.mpr ⟨hsub, by simpa using hmem⟩) ?_ ?_
      · exact hord.append (List.nodup_singleton _) (by simpa using hnew)
      · rw [List.length_append, List.length_singleton]
        omega

/-- On distinct events the power ordering always returns, and lists each event once. -/
theorem reverseTopologicalPowerSort_total {events : List EventId} (hnd : events.Nodup) :
    ∃ order, reverseTopologicalPowerSort events pdus base = some order ∧ order.Perm events :=
  powerSortLoop_total hnd (List.nil_subset _) List.nodup_nil (by simp)

/-! ## Mainline ordering -/

theorem mainlineKey_injective (position : SortedMap EventId Nat) (pdus : PduMap) :
    Function.Injective (mainlineKey position pdus) := by
  intro a b h
  have hid : ∀ e, (ofLex (ofLex (mainlineKey position pdus e)).2).2 = e := fun _ => rfl
  rw [← hid a, h, hid b]

theorem powerLevelsAncestor_isSome {id : EventId} (h : (powerLevelsAncestor pdus id).isSome) :
    id ∈ pdus.keys := by
  rw [SortedMap.mem_keys_iff]
  cases hg : pdus.get id with
  | none => simp [powerLevelsAncestor, hg] at h
  | some p => exact ⟨p, rfl⟩

/-- A mainline that ends at all is found: `none` is only returned for a walk that never ends. -/
theorem mainline_eq_none_iff {powerLevels : Option EventId} :
    mainline powerLevels pdus = none ↔
      ∀ fuel, follow (powerLevelsAncestor pdus) fuel powerLevels = none := by
  constructor
  · intro h fuel
    by_contra hne
    obtain ⟨line, hline⟩ := Option.ne_none_iff_exists'.mp hne
    have hfound := follow_of_support pdus.keys (fun _ => powerLevelsAncestor_isSome) hline
    rw [SortedMap.length_keys] at hfound
    exact absurd (h.symm.trans hfound) (by simp)
  · exact fun h => h _

/-- The mainline ordering depends on the set of its events. -/
theorem mainlineSort_perm {events events' : List EventId} (h : events.Perm events')
    (powerLevels : Option EventId) :
    mainlineSort events powerLevels pdus = mainlineSort events' powerLevels pdus := by
  unfold mainlineSort
  congr 1
  funext line
  exact sortByKey_eq_of_perm (mainlineKey_injective _ _) h

theorem perm_of_mainlineSort {events order : List EventId} {powerLevels : Option EventId}
    (h : mainlineSort events powerLevels pdus = some order) : order.Perm events := by
  obtain ⟨line, _, rfl⟩ := Option.map_eq_some_iff.mp h
  exact perm_sortByKey events

end GaussMatrix.StateRes
