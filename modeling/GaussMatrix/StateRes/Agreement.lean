import GaussMatrix.StateRes.Ordering

/-!
# Agreement

Servers that hold the same state maps and the same events resolve to the same state, whatever order
the maps come in and whatever order their hash sets are iterated in.
-/

namespace GaussMatrix.StateRes

open Library Util Api

variable {states states' : List StateMap} {pdus : PduMap}

theorem HashOrder.mem_order (h : HashOrder) (site : HashSite) {ids : List EventId} {id : EventId} :
    id ∈ h.order site ids ↔ id ∈ ids := by
  rw [(h.perm site ids).mem_iff, List.mem_dedup]

theorem HashOrder.nodup_order (h : HashOrder) (site : HashSite) (ids : List EventId) :
    (h.order site ids).Nodup :=
  (h.perm site ids).nodup_iff.mpr ids.nodup_dedup

/-- The auth difference: in the chain of some input state but not of every one. -/
theorem mem_authDifference {h : HashOrder} {id : EventId} :
    id ∈ authDifference h states pdus ↔
      (∃ s ∈ states, id ∈ authChain s.values pdus) ∧
        ¬ ∀ s ∈ states, id ∈ authChain s.values pdus := by
  have hiterated : ∀ chains : List (List EventId),
      id ∈ (chains.zipIdx.map fun c => h.order (.chain c.2) c.1).flatten ↔
        ∃ c ∈ chains, id ∈ c := by
    intro chains
    simp only [List.mem_flatten, List.mem_map]
    constructor
    · rintro ⟨_, ⟨⟨c, i⟩, hc, rfl⟩, hid⟩
      exact ⟨c, List.fst_mem_of_mem_zipIdx hc, (h.mem_order _).mp hid⟩
    · rintro ⟨c, hc, hid⟩
      obtain ⟨i, hi, rfl⟩ := List.mem_iff_getElem.mp hc
      have hmem : (chains[i], i) ∈ chains.zipIdx := by
        rw [List.mk_mem_zipIdx_iff_getElem?, List.getElem?_eq_getElem hi]
      exact ⟨_, ⟨_, hmem, rfl⟩, (h.mem_order _).mpr hid⟩
  simp only [authDifference]
  rw [h.mem_order, List.mem_filter, hiterated]
  simp

theorem SameStates.mem_authDifference (hs : SameStates states states') {h h' : HashOrder}
    (id : EventId) :
    id ∈ authDifference h states pdus ↔ id ∈ authDifference h' states' pdus := by
  simp only [StateRes.mem_authDifference, hs _]

/-- The full conflicted set is the same set of events, listed in some order. -/
theorem SameStates.fullConflicted_perm (hs : SameStates states states') (h h' : HashOrder) :
    (fullConflicted h states pdus).Perm (fullConflicted h' states' pdus) := by
  unfold fullConflicted
  rw [List.perm_ext_iff_of_nodup (h.nodup_order _ _) (h'.nodup_order _ _)]
  intro id
  rw [h.mem_order, h'.mem_order, List.mem_append, List.mem_append,
    hs.mem_candidates, hs.mem_authDifference]

theorem SameStates.powerOrder (hs : SameStates states states') (h h' : HashOrder) :
    powerOrder h states pdus = StateRes.powerOrder h' states' pdus := by
  rw [StateRes.powerOrder, StateRes.powerOrder, hs.separate_fst]
  exact reverseTopologicalPowerSort_perm ((hs.fullConflicted_perm h h').filter _)

theorem SameStates.otherOrder (hs : SameStates states states') (h h' : HashOrder)
    (resolved : StateMap) :
    otherOrder h states pdus resolved = StateRes.otherOrder h' states' pdus resolved :=
  mainlineSort_perm ((hs.fullConflicted_perm h h').filter _) _

/-- Resolution depends on the set of its input states alone: two servers that hold the same states
and the same events agree, and either both return or neither does. -/
theorem resolve_same_states (verifyB64 : VerifyB64) {states states' : List StateMap}
    (pdus : PduMap) (hs : SameStates states states') (h h' : HashOrder) :
    resolve verifyB64 h states pdus = resolve verifyB64 h' states' pdus := by
  simp only [resolve, hs.separate_fst, hs.separate_snd_eq_nil, hs.powerOrder h h',
    hs.otherOrder h h']

/-- Two states that differ in one slot, swapped and repeated, under two iteration orders. -/
theorem resolve_same_states_swapped :
    let first : StateMap := SortedMap.empty.insert (slot "m.room.name" []) ⟨"$a", valid_event⟩
    let second : StateMap := SortedMap.empty.insert (slot "m.room.name" []) ⟨"$b", by decide⟩
    resolve (fun _ _ _ => false) .inserted [first, second] SortedMap.empty =
      resolve (fun _ _ _ => false) .reversed [second, first, second] SortedMap.empty :=
  resolve_same_states _ _ (fun s => by simp only [List.mem_cons, List.not_mem_nil]; tauto) _ _

end GaussMatrix.StateRes
