import GaussMatrix.StateRes.Resolve

/-!
# The conflict partition

A slot is unconflicted exactly when every input state has it with the same event; the candidates of
the conflicted slots are all the events the inputs put there.
-/

namespace GaussMatrix.StateRes

open Library Util Api

/-- The same set of state maps, in any order and with any repetition. -/
def SameStates (states states' : List StateMap) : Prop := ∀ s, s ∈ states ↔ s ∈ states'

theorem SameStates.symm {states states' : List StateMap} (h : SameStates states states') :
    SameStates states' states := fun s => (h s).symm

/-! ## Distinct events -/

theorem mem_distinctEvents {ev : EventId} {present : List EventId} :
    ev ∈ distinctEvents present ↔ ev ∈ present := by
  have hgen : ∀ distinct : List EventId,
      ev ∈ present.foldl (fun d e => if e ∈ d then d else d ++ [e]) distinct ↔
        ev ∈ distinct ∨ ev ∈ present := by
    induction present with
    | nil => simp
    | cons e es ih =>
        intro distinct
        rw [List.foldl_cons, ih, List.mem_cons]
        split
        · grind
        · grind
  rw [distinctEvents, hgen []]
  simp

theorem nodup_distinctEvents (present : List EventId) : (distinctEvents present).Nodup := by
  have hgen : ∀ distinct : List EventId, distinct.Nodup →
      (present.foldl (fun d e => if e ∈ d then d else d ++ [e]) distinct).Nodup := by
    induction present with
    | nil => exact fun _ h => h
    | cons e es ih =>
        intro distinct h
        rw [List.foldl_cons]
        apply ih
        split
        · exact h
        · rename_i he
          exact h.append (List.nodup_singleton e) (by simpa using he)
  exact hgen [] List.nodup_nil

theorem distinctEvents_eq_singleton {ev : EventId} {present : List EventId} :
    distinctEvents present = [ev] ↔ present ≠ [] ∧ ∀ e ∈ present, e = ev := by
  constructor
  · intro h
    have hmem : ∀ e, e ∈ present ↔ e = ev := by
      intro e
      rw [← mem_distinctEvents, h, List.mem_singleton]
    exact ⟨List.ne_nil_of_mem ((hmem ev).mpr rfl), fun e he => (hmem e).mp he⟩
  · rintro ⟨hne, hall⟩
    have hmem : ev ∈ present := by
      obtain ⟨e, he⟩ := List.exists_mem_of_ne_nil present hne
      exact hall e he ▸ he
    apply List.perm_singleton.mp
    rw [List.perm_ext_iff_of_nodup (nodup_distinctEvents _) (List.nodup_singleton _)]
    intro e
    rw [mem_distinctEvents, List.mem_singleton]
    exact ⟨hall e, fun h => h ▸ hmem⟩

/-! ## The slots -/

theorem mem_stateKeys {states : List StateMap} {key : StateKey} :
    key ∈ stateKeys states ↔ ∃ s ∈ states, ∃ ev, s.get key = some ev := by
  rw [stateKeys, SortedMap.mem_keys_insertAll]
  simp only [SortedMap.keys, SortedMap.empty, List.map_nil, List.not_mem_nil, false_or,
    ← SortedMap.mem_entries_iff]
  constructor
  · rintro ⟨u, hu⟩
    obtain ⟨s, hs, hu⟩ := List.mem_flatMap.mp hu
    obtain ⟨k, hk, he⟩ := List.mem_map.mp hu
    obtain ⟨e, he', rfl⟩ := List.mem_map.mp hk
    obtain ⟨rfl, -⟩ := Prod.mk.inj he
    exact ⟨s, hs, e.2, he'⟩
  · rintro ⟨s, hs, ev, hev⟩
    refine ⟨(), List.mem_flatMap.mpr ⟨s, hs, List.mem_map.mpr ⟨key, ?_, rfl⟩⟩⟩
    exact List.mem_map.mpr ⟨(key, ev), hev, rfl⟩

/-- The events that the states put into a slot. -/
def present (states : List StateMap) (key : StateKey) : List EventId :=
  states.filterMap (·.get key)

theorem mem_present {states : List StateMap} {key : StateKey} {ev : EventId} :
    ev ∈ present states key ↔ ∃ s ∈ states, s.get key = some ev := by
  rw [present, List.mem_filterMap]

/-- The event a slot has without conflict. -/
def agreed (states : List StateMap) (key : StateKey) : Option EventId :=
  match distinctEvents (present states key) with
  | [ev] => if (present states key).length = states.length then some ev else none
  | _ => none

theorem separateSlot_eq (states : List StateMap) (parts : StateMap × Conflicts) (key : StateKey) :
    separateSlot states parts key =
      match agreed states key with
      | some ev => (parts.1.insert key ev, parts.2)
      | none => (parts.1, parts.2.insert key (distinctEvents (present states key))) := by
  change (match distinctEvents (present states key) with
    | [ev] => if (present states key).length = states.length then _ else _
    | _ => _) = _
  unfold agreed
  split
  · rename_i ev hev
    split
    · rfl
    · rfl
  · rfl

theorem length_filterMap_eq_iff {α β : Type} (f : α → Option β) (l : List α) :
    (l.filterMap f).length = l.length ↔ ∀ a ∈ l, (f a).isSome := by
  induction l with
  | nil => simp
  | cons a l ih =>
      have hle : (l.filterMap f).length ≤ l.length := List.length_filterMap_le f l
      cases hf : f a with
      | none =>
          simp only [List.filterMap_cons, hf, List.length_cons, List.mem_cons, forall_eq_or_imp,
            Option.isSome_none, Bool.false_eq_true, false_and, iff_false]
          omega
      | some b => simp [hf, ih]

/-- A slot is unconflicted exactly when every input state has it with one and the same event. -/
theorem agreed_eq_some_iff {states : List StateMap} {key : StateKey} {ev : EventId} :
    agreed states key = some ev ↔ states ≠ [] ∧ ∀ s ∈ states, s.get key = some ev := by
  have hlen : (present states key).length = states.length ↔ ∀ s ∈ states, (s.get key).isSome :=
    length_filterMap_eq_iff _ states
  have hagreed : agreed states key = some ev ↔
      distinctEvents (present states key) = [ev] ∧
        (present states key).length = states.length := by
    unfold agreed
    split
    · rename_i e he
      simp only [Option.ite_none_right_eq_some, Option.some.injEq, List.cons.injEq, and_true, he]
      exact and_comm
    · rename_i hne
      simp only [reduceCtorEq, false_iff, not_and]
      exact fun h => absurd h (hne ev)
  rw [hagreed, distinctEvents_eq_singleton, hlen]
  constructor
  · rintro ⟨⟨hne, hall⟩, hsome⟩
    refine ⟨?_, fun s hs => ?_⟩
    · rintro rfl
      exact hne rfl
    · obtain ⟨e, he⟩ := Option.isSome_iff_exists.mp (hsome s hs)
      rw [he, hall e (mem_present.mpr ⟨s, hs, he⟩)]
  · rintro ⟨hne, hall⟩
    obtain ⟨s, hs⟩ := List.exists_mem_of_ne_nil states hne
    refine ⟨⟨List.ne_nil_of_mem (mem_present.mpr ⟨s, hs, hall s hs⟩), fun e he => ?_⟩, fun s hs => ?_⟩
    · obtain ⟨s', hs', he'⟩ := mem_present.mp he
      rw [hall s' hs'] at he'
      exact (Option.some.inj he').symm
    · rw [hall s hs]
      rfl

theorem foldl_separateSlot (states : List StateMap) (keys : List StateKey)
    (parts : StateMap × Conflicts) (key : StateKey) :
    (keys.foldl (separateSlot states) parts).1.get key =
        (if key ∈ keys then (agreed states key).or (parts.1.get key) else parts.1.get key) ∧
      (keys.foldl (separateSlot states) parts).2.get key =
        (if key ∈ keys ∧ agreed states key = none then
          some (distinctEvents (present states key)) else parts.2.get key) := by
  induction keys generalizing parts with
  | nil => simp
  | cons k ks ih =>
      rw [List.foldl_cons, (ih _).1, (ih _).2, separateSlot_eq]
      cases hk : agreed states k with
      | none =>
          by_cases heq : key = k
          · subst heq
            simp [hk]
          · simp [heq, SortedMap.get_insert_ne]
      | some ev =>
          by_cases heq : key = k
          · subst heq
            simp [hk]
          · simp [heq, SortedMap.get_insert_ne]

theorem separate_fst_get (states : List StateMap) (key : StateKey) :
    (separate states).1.get key = agreed states key := by
  rw [separate, (foldl_separateSlot states _ _ key).1]
  split
  · simp
  · rename_i h
    rw [SortedMap.get_empty]
    symm
    rw [Option.eq_none_iff_forall_ne_some]
    intro ev hev
    obtain ⟨hne, hall⟩ := agreed_eq_some_iff.mp hev
    obtain ⟨s, hs⟩ := List.exists_mem_of_ne_nil states hne
    exact h (mem_stateKeys.mpr ⟨s, hs, ev, hall s hs⟩)

theorem separate_snd_get (states : List StateMap) (key : StateKey) :
    (separate states).2.get key =
      if key ∈ stateKeys states ∧ agreed states key = none then
        some (distinctEvents (present states key)) else none := by
  rw [separate, (foldl_separateSlot states _ _ key).2, SortedMap.get_empty]

theorem separate_fst_eq_some_iff {states : List StateMap} {key : StateKey} {ev : EventId} :
    (separate states).1.get key = some ev ↔
      states ≠ [] ∧ ∀ s ∈ states, s.get key = some ev := by
  rw [separate_fst_get, agreed_eq_some_iff]

/-- Nothing is conflicted exactly when every slot of an input is unconflicted. -/
theorem separate_snd_eq_nil_iff {states : List StateMap} :
    (separate states).2.entries = [] ↔
      ∀ key ∈ stateKeys states, (separate states).1.get key ≠ none := by
  rw [SortedMap.entries_eq_nil_iff]
  simp only [separate_snd_get, separate_fst_get]
  grind

/-- The candidates are the events that some input puts into a conflicted slot. -/
theorem mem_candidates_iff {states : List StateMap} {ev : EventId} :
    ev ∈ (separate states).2.values.flatten ↔
      ∃ key, (separate states).1.get key = none ∧ ∃ s ∈ states, s.get key = some ev := by
  rw [List.mem_flatten]
  constructor
  · rintro ⟨l, hl, hev⟩
    obtain ⟨key, hkey⟩ := (SortedMap.mem_values_iff _ l).mp hl
    rw [separate_snd_get] at hkey
    split at hkey
    · rename_i hk
      obtain rfl := Option.some.inj hkey
      rw [mem_distinctEvents, mem_present] at hev
      exact ⟨key, by rw [separate_fst_get, hk.2], hev⟩
    · exact absurd hkey (by simp)
  · rintro ⟨key, hnone, s, hs, hev⟩
    have hagreed : agreed states key = none := (separate_fst_get states key).symm.trans hnone
    refine ⟨distinctEvents (present states key), ?_, ?_⟩
    · refine (SortedMap.mem_values_iff _ _).mpr ⟨key, ?_⟩
      rw [separate_snd_get, if_pos ⟨mem_stateKeys.mpr ⟨s, hs, ev, hev⟩, hagreed⟩]
    · exact mem_distinctEvents.mpr (mem_present.mpr ⟨s, hs, hev⟩)

/-! ## The same states -/

theorem SameStates.stateKeys {states states' : List StateMap} (h : SameStates states states')
    (key : StateKey) : key ∈ stateKeys states ↔ key ∈ StateRes.stateKeys states' := by
  simp only [mem_stateKeys, h _]

theorem SameStates.separate_fst {states states' : List StateMap} (h : SameStates states states') :
    (separate states).1 = (separate states').1 := by
  have hnil : states = [] ↔ states' = [] := by
    simp only [List.eq_nil_iff_forall_not_mem, h _]
  apply SortedMap.ext_get
  intro key
  apply Option.ext
  intro ev
  rw [separate_fst_eq_some_iff, separate_fst_eq_some_iff, ne_eq, hnil]
  simp only [h _]

theorem SameStates.separate_snd_eq_nil {states states' : List StateMap}
    (h : SameStates states states') :
    (separate states).2.entries = [] ↔ (separate states').2.entries = [] := by
  simp only [separate_snd_eq_nil_iff, h.stateKeys, h.separate_fst]

theorem SameStates.mem_candidates {states states' : List StateMap} (h : SameStates states states')
    (ev : EventId) :
    ev ∈ (separate states).2.values.flatten ↔ ev ∈ (separate states').2.values.flatten := by
  simp only [mem_candidates_iff, h.separate_fst, h _]

end GaussMatrix.StateRes
