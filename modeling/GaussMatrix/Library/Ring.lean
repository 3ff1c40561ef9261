import GaussMatrix.Library.SortByKey
import GaussMatrix.Library.SortedMap

/-!
# Successors on a ring

The keys of an ordered map stand on a ring.  The successor of a point is the first key at or after
it, and past the last key the first of all; it is the least key in the order that starts at the point
and goes around.
-/

namespace GaussMatrix.Library

variable {α β : Type} [LinearOrder α]

/-- Starting at `p` and going around, `k` is met before `k'`. -/
def MetBefore (p k k' : α) : Prop := p ≤ k ∧ k' < p ∨ (p ≤ k ↔ p ≤ k') ∧ k < k'

theorem MetBefore.asymm {p k k' : α} (h : MetBefore p k k') : ¬ MetBefore p k' k := by
  intro h'
  rcases h with ⟨hk, hk'⟩ | ⟨hside, hlt⟩
  · rcases h' with ⟨hle, -⟩ | ⟨hside, -⟩
    · exact absurd hle (not_le.mpr hk')
    · exact absurd (hside.mpr hk) (not_le.mpr hk')
  · rcases h' with ⟨hle, hlt'⟩ | ⟨-, hlt'⟩
    · exact absurd (hside.mpr hle) (not_le.mpr hlt')
    · exact absurd hlt hlt'.asymm

namespace SortedMap

variable {m m' : SortedMap α β} {p k : α} {v : β}

/-- The first entry at or after a point, or the first entry. -/
def successor (m : SortedMap α β) (p : α) : Option (α × β) :=
  (m.entries.find? fun e => p ≤ e.1).or m.entries.head?

theorem head?_eq_some_iff : m.entries.head? = some (k, v) ↔
    m.get k = some v ∧ ∀ k' v', m.get k' = some v' → k ≤ k' := by
  have hfirst : m.entries.head? = m.entries.find? fun _ => true := by
    cases m.entries <;> rfl
  rw [hfirst, find?_eq_some_iff_of_pairwise m.sorted, mem_entries_iff]
  constructor
  · intro ⟨hget, _, hmin⟩
    refine ⟨hget, fun k' v' hget' => ?_⟩
    exact hmin (k', v') ((m.mem_entries_iff k' v').mpr hget') rfl
  · intro ⟨hget, hmin⟩
    refine ⟨hget, rfl, fun e he _ => ?_⟩
    exact hmin e.1 e.2 ((m.mem_entries_iff e.1 e.2).mp he)

/-- The successor is the entry met first. -/
theorem successor_eq_some_iff : m.successor p = some (k, v) ↔
    m.get k = some v ∧ ∀ k' v', m.get k' = some v' → ¬ MetBefore p k' k := by
  rw [successor, Option.or_eq_some_iff]
  have hfind := find?_eq_some_iff_of_pairwise m.sorted
    (p := fun e => decide (p ≤ e.1)) (a := (k, v))
  have hnone : (m.entries.find? fun e => decide (p ≤ e.1)) = none ↔
      ∀ k' v', m.get k' = some v' → k' < p := by
    rw [List.find?_eq_none]
    constructor
    · intro h k' v' hget
      have hmem := h (k', v') ((m.mem_entries_iff k' v').mpr hget)
      exact not_le.mp fun hle => hmem (decide_eq_true hle)
    · intro h e he hle
      have hlt := h e.1 e.2 ((m.mem_entries_iff e.1 e.2).mp he)
      exact absurd (of_decide_eq_true hle) (not_le.mpr hlt)
  rw [hfind, hnone, head?_eq_some_iff, mem_entries_iff, decide_eq_true_iff]
  constructor
  · -- the first at or after `p`, or the first of all where there is none
    rintro (⟨hget, hle, hmin⟩ | ⟨hbelow, hget, hmin⟩)
    · refine ⟨hget, fun k' v' hget' hmet => ?_⟩
      have hmem := (m.mem_entries_iff k' v').mpr hget'
      rcases hmet with ⟨-, hlt⟩ | ⟨hside, hlt⟩
      · exact absurd hle (not_le.mpr hlt)
      · have hk := hmin (k', v') hmem (decide_eq_true (hside.mpr hle))
        exact absurd hlt (not_lt.mpr hk)
    · refine ⟨hget, fun k' v' hget' hmet => ?_⟩
      rcases hmet with ⟨hle, -⟩ | ⟨-, hlt⟩
      · exact absurd hle (not_le.mpr (hbelow k' v' hget'))
      · exact absurd hlt (not_lt.mpr (hmin k' v' hget'))
  · intro ⟨hget, hmin⟩
    by_cases hle : p ≤ k
    · refine Or.inl ⟨hget, hle, fun e he hpe => ?_⟩
      have hnot := hmin e.1 e.2 ((m.mem_entries_iff e.1 e.2).mp he)
      have hpe := of_decide_eq_true hpe
      exact not_lt.mp fun hlt => hnot (Or.inr ⟨iff_of_true hpe hle, hlt⟩)
    · have hbelow : ∀ k' v', m.get k' = some v' → k' < p := by
        intro k' v' hget'
        have hnot := hmin k' v' hget'
        exact not_le.mp fun hpk => hnot (Or.inl ⟨hpk, not_le.mp hle⟩)
      refine Or.inr ⟨hbelow, hget, fun k' v' hget' => ?_⟩
      have hnot := hmin k' v' hget'
      have hside : p ≤ k' ↔ p ≤ k := iff_of_false (not_le.mpr (hbelow k' v' hget')) hle
      exact not_lt.mp fun hlt => hnot (Or.inr ⟨hside, hlt⟩)

theorem successor_eq_none_iff : m.successor p = none ↔ ∀ k, m.get k = none := by
  rw [successor, Option.or_eq_none_iff, List.head?_eq_none_iff, ← entries_eq_nil_iff]
  exact and_iff_right_of_imp fun h => by rw [h, List.find?_nil]

/-- A map with more keys has the same successor or one of the new entries. -/
theorem successor_of_more (hkeys : ∀ k v, m.get k = some v → ∃ v', m'.get k = some v')
    (h : m'.successor p = some (k, v)) (hold : m.get k = some v) :
    m.successor p = some (k, v) := by
  obtain ⟨-, hmin⟩ := successor_eq_some_iff.mp h
  refine successor_eq_some_iff.mpr ⟨hold, fun k' v' hget => ?_⟩
  obtain ⟨w, hw⟩ := hkeys k' v' hget
  exact hmin k' w hw

/-- A map with fewer entries has the same successor while its entry stays. -/
theorem successor_of_fewer (hless : ∀ k v, m'.get k = some v → m.get k = some v)
    (h : m.successor p = some (k, v)) (hstays : m'.get k = some v) :
    m'.successor p = some (k, v) := by
  obtain ⟨-, hmin⟩ := successor_eq_some_iff.mp h
  exact successor_eq_some_iff.mpr ⟨hstays, fun k' v' hget => hmin k' v' (hless k' v' hget)⟩

/-- After one value is stored under a list of keys. -/
theorem get_insertAll_const (m : SortedMap α β) (ks : List α) (v : β) (k : α) :
    (m.insertAll (ks.map fun k => (k, v))).get k = if k ∈ ks then some v else m.get k := by
  induction ks generalizing m with
  | nil => rfl
  | cons k' ks ih =>
      rw [List.map_cons, insertAll, List.foldl_cons, ← insertAll, ih, get_insert]
      by_cases hks : k ∈ ks
      · rw [if_pos hks, if_pos (List.mem_cons_of_mem k' hks)]
      · by_cases hk : k = k'
        · rw [if_neg hks, if_pos hk, if_pos (List.mem_cons.mpr (Or.inl hk))]
        · rw [if_neg hks, if_neg hk, if_neg (by simp [hk, hks])]

end SortedMap

end GaussMatrix.Library
