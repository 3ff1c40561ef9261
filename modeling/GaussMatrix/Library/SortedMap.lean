import Mathlib

/-!
# Ordered maps as sorted association lists

A finite map over a linearly ordered key type, kept as its entries in strictly increasing key
order.  The order is a field of the structure, so two maps with the same lookups are equal and a
scan of the entries is the ordered iteration of the map.
-/

namespace GaussMatrix.Library

variable {α β γ : Type} [LinearOrder α]

/-! ## Entry lists -/

namespace SortedList

/-- Insert `k ↦ v` at its place in an entry list, replacing an entry with the same key. -/
def insert (k : α) (v : β) : List (α × β) → List (α × β)
  | [] => [(k, v)]
  | (k', v') :: rest =>
      if k < k' then (k, v) :: (k', v') :: rest
      else if k = k' then (k, v) :: rest
      else (k', v') :: insert k v rest

/-- Drop the entry with key `k`. -/
def erase (k : α) (l : List (α × β)) : List (α × β) :=
  l.filter (fun e => decide (e.1 ≠ k))

/-- Strictly increasing keys. -/
def Sorted (l : List (α × β)) : Prop :=
  l.Pairwise (fun a b => a.1 < b.1)

theorem mem_insert {k : α} {v : β} {e : α × β} {l : List (α × β)} (h : e ∈ insert k v l) :
    e = (k, v) ∨ e ∈ l := by
  induction l with
  | nil => simpa [insert] using h
  | cons hd tl ih =>
      obtain ⟨k', v'⟩ := hd
      simp only [insert] at h
      split at h
      · simpa using h
      · split at h
        · rcases List.mem_cons.mp h with h | h
          · exact .inl h
          · exact .inr (List.mem_cons_of_mem _ h)
        · rcases List.mem_cons.mp h with h | h
          · exact .inr (h ▸ List.mem_cons_self)
          · rcases ih h with h | h
            · exact .inl h
            · exact .inr (List.mem_cons_of_mem _ h)

theorem sorted_insert (k : α) (v : β) {l : List (α × β)} (hl : Sorted l) :
    Sorted (insert k v l) := by
  induction l with
  | nil => simp [insert, Sorted]
  | cons hd tl ih =>
      obtain ⟨k', v'⟩ := hd
      obtain ⟨hhd, htl⟩ := List.pairwise_cons.mp hl
      simp only [insert]
      split
      · rename_i hlt
        refine List.pairwise_cons.mpr ⟨fun e he => ?_, hl⟩
        rcases List.mem_cons.mp he with rfl | he
        · exact hlt
        · exact hlt.trans (hhd e he)
      · rename_i hge
        split
        · rename_i heq
          exact List.pairwise_cons.mpr ⟨fun e he => heq ▸ hhd e he, htl⟩
        · rename_i hne
          refine List.pairwise_cons.mpr ⟨fun e he => ?_, ih htl⟩
          rcases mem_insert he with rfl | he
          · exact lt_of_le_of_ne (not_lt.mp hge) (Ne.symm hne)
          · exact hhd e he

@[simp] theorem lookup_cons_self (k : α) (v : β) (l : List (α × β)) :
    List.lookup k ((k, v) :: l) = some v := by
  simp

theorem lookup_cons_ne {k k' : α} (h : k ≠ k') (v : β) (l : List (α × β)) :
    List.lookup k ((k', v) :: l) = l.lookup k := by
  have hb : (k == k') = false := by simpa using h
  rw [List.lookup_cons, hb]

theorem lookup_insert_self (k : α) (v : β) (l : List (α × β)) :
    (insert k v l).lookup k = some v := by
  induction l with
  | nil => simp [insert]
  | cons hd tl ih =>
      obtain ⟨k', v'⟩ := hd
      simp only [insert]
      split
      · simp
      · split
        · simp
        · rename_i hne
          rw [lookup_cons_ne hne, ih]

theorem lookup_insert_ne {k k' : α} (h : k' ≠ k) (v : β) (l : List (α × β)) :
    (insert k v l).lookup k' = l.lookup k' := by
  induction l with
  | nil => simp [insert, lookup_cons_ne h]
  | cons hd tl ih =>
      obtain ⟨k'', v''⟩ := hd
      simp only [insert]
      split
      · rw [lookup_cons_ne h]
      · split
        · rename_i heq
          subst heq
          rw [lookup_cons_ne h, lookup_cons_ne h]
        · by_cases hk : k' = k''
          · rw [hk, lookup_cons_self, lookup_cons_self]
          · rw [lookup_cons_ne hk, lookup_cons_ne hk, ih]

theorem lookup_eq_some_iff {l : List (α × β)} (hl : Sorted l) (k : α) (v : β) :
    l.lookup k = some v ↔ (k, v) ∈ l := by
  induction l with
  | nil => simp
  | cons hd tl ih =>
      obtain ⟨k', v'⟩ := hd
      obtain ⟨hhd, htl⟩ := List.pairwise_cons.mp hl
      by_cases hk : k = k'
      · subst hk
        rw [lookup_cons_self]
        constructor
        · intro h
          injection h with h
          exact h ▸ List.mem_cons_self
        · intro h
          rcases List.mem_cons.mp h with h | h
          · rw [(Prod.mk.inj h).2]
          · exact absurd (hhd _ h) (lt_irrefl _)
      · rw [lookup_cons_ne hk, ih htl]
        simp [hk]

/-- In an association list with one value for `k`, the lookup of `k` finds it. -/
theorem lookup_eq_some_iff_mem {δ : Type} [BEq δ] [LawfulBEq δ] {l : List (δ × β)} {k : δ}
    {v : β} (huniq : ∀ v₁ v₂, (k, v₁) ∈ l → (k, v₂) ∈ l → v₁ = v₂) :
    l.lookup k = some v ↔ (k, v) ∈ l := by
  have hmem : ∀ w, l.lookup k = some w → (k, w) ∈ l := by
    intro w hw
    obtain ⟨l₁, l₂, rfl, _⟩ := List.lookup_eq_some_iff.mp hw
    simp
  constructor
  · exact hmem v
  · intro hv
    cases hw : l.lookup k with
    | none => exact absurd (List.lookup_eq_none_iff.mp hw _ hv) (by simp)
    | some w => rw [huniq w v (hmem w hw) hv]

/-- Two sorted entry lists with the same lookups are the same list. -/
theorem eq_of_lookup_eq {l₁ l₂ : List (α × β)} (h₁ : Sorted l₁) (h₂ : Sorted l₂)
    (h : ∀ k, l₁.lookup k = l₂.lookup k) : l₁ = l₂ := by
  have hnd₁ : l₁.Nodup := h₁.imp (fun hab he => absurd (he ▸ hab) (lt_irrefl _))
  have hnd₂ : l₂.Nodup := h₂.imp (fun hab he => absurd (he ▸ hab) (lt_irrefl _))
  have hperm : l₁.Perm l₂ := by
    rw [List.perm_ext_iff_of_nodup hnd₁ hnd₂]
    rintro ⟨k, v⟩
    rw [← lookup_eq_some_iff h₁, ← lookup_eq_some_iff h₂, h]
  exact hperm.eq_of_pairwise (fun a b _ _ hab hba => absurd hab hba.asymm) h₁ h₂

end SortedList

/-! ## Maps -/

/-- A finite map: entries in strictly increasing key order. -/
structure SortedMap (α β : Type) [LinearOrder α] where
  entries : List (α × β)
  sorted : SortedList.Sorted entries

namespace SortedMap

instance [DecidableEq β] : DecidableEq (SortedMap α β) := fun m₁ m₂ =>
  decidable_of_iff (m₁.entries = m₂.entries) (by
    cases m₁
    cases m₂
    simp)

/-- The map with no entry. -/
def empty : SortedMap α β := ⟨[], List.Pairwise.nil⟩

instance : Inhabited (SortedMap α β) := ⟨empty⟩

/-- The value stored under `k`. -/
def get (m : SortedMap α β) (k : α) : Option β := m.entries.lookup k

/-- Store `v` under `k`. -/
def insert (m : SortedMap α β) (k : α) (v : β) : SortedMap α β :=
  ⟨SortedList.insert k v m.entries, SortedList.sorted_insert k v m.sorted⟩

/-- Keep the entries that satisfy `p`. -/
def filter (m : SortedMap α β) (p : α → β → Bool) : SortedMap α β :=
  ⟨m.entries.filter (fun e => p e.1 e.2), m.sorted.filter _⟩

/-- Keep the values that `f` has something for, as what it has. -/
def filterMapValues (m : SortedMap α β) (f : β → Option γ) : SortedMap α γ :=
  ⟨m.entries.filterMap fun e => (f e.2).map (Prod.mk e.1), by
    rw [SortedList.Sorted, List.pairwise_filterMap]
    refine m.sorted.imp fun hlt e he e' he' => ?_
    obtain ⟨v, -, rfl⟩ := Option.map_eq_some_iff.mp he
    obtain ⟨v', -, rfl⟩ := Option.map_eq_some_iff.mp he'
    exact hlt⟩

/-- Remove the entry of `k`. -/
def erase (m : SortedMap α β) (k : α) : SortedMap α β :=
  m.filter (fun k' _ => decide (k' ≠ k))

/-- The keys, in order. -/
def keys (m : SortedMap α β) : List α := m.entries.map Prod.fst

/-- The values, in key order. -/
def values (m : SortedMap α β) : List β := m.entries.map Prod.snd

/-- The number of entries. -/
def size (m : SortedMap α β) : Nat := m.entries.length

/-- Insert a list of entries from left to right, so a later entry replaces an earlier one. -/
def insertAll (m : SortedMap α β) (l : List (α × β)) : SortedMap α β :=
  l.foldl (fun m e => m.insert e.1 e.2) m

theorem mem_entries_iff (m : SortedMap α β) (k : α) (v : β) :
    (k, v) ∈ m.entries ↔ m.get k = some v :=
  (SortedList.lookup_eq_some_iff m.sorted k v).symm

theorem ext_get {m₁ m₂ : SortedMap α β} (h : ∀ k, m₁.get k = m₂.get k) : m₁ = m₂ := by
  cases m₁
  cases m₂
  congr
  exact SortedList.eq_of_lookup_eq ‹_› ‹_› h

theorem mem_values_iff (m : SortedMap α β) (v : β) : v ∈ m.values ↔ ∃ k, m.get k = some v := by
  simp [values, mem_entries_iff]

theorem mem_keys_iff (m : SortedMap α β) (k : α) : k ∈ m.keys ↔ ∃ v, m.get k = some v := by
  simp [keys, mem_entries_iff]

theorem length_keys (m : SortedMap α β) : m.keys.length = m.size :=
  List.length_map _

theorem nodup_keys (m : SortedMap α β) : m.keys.Nodup := by
  rw [keys, List.Nodup, List.pairwise_map]
  exact m.sorted.imp (fun h => h.ne)

@[simp] theorem get_empty (k : α) : (empty : SortedMap α β).get k = none := rfl

@[simp] theorem get_insert_self (m : SortedMap α β) (k : α) (v : β) :
    (m.insert k v).get k = some v :=
  SortedList.lookup_insert_self k v m.entries

theorem get_insert_ne (m : SortedMap α β) {k k' : α} (h : k' ≠ k) (v : β) :
    (m.insert k v).get k' = m.get k' :=
  SortedList.lookup_insert_ne h v m.entries

theorem get_insert (m : SortedMap α β) (k k' : α) (v : β) :
    (m.insert k v).get k' = if k' = k then some v else m.get k' := by
  split
  · rename_i h
    rw [h, get_insert_self]
  · rename_i h
    exact m.get_insert_ne h v

theorem get_filter (m : SortedMap α β) (p : α → β → Bool) (k : α) :
    (m.filter p).get k = (m.get k).filter (p k) := by
  have h : ∀ v, (m.filter p).get k = some v ↔ (m.get k).filter (p k) = some v := by
    intro v
    rw [← mem_entries_iff, Option.filter_eq_some_iff, ← mem_entries_iff]
    exact List.mem_filter
  exact Option.ext h

theorem get_filterMapValues (m : SortedMap α β) (f : β → Option γ) (k : α) :
    (m.filterMapValues f).get k = (m.get k).bind f := by
  apply Option.ext
  intro v
  rw [← mem_entries_iff, filterMapValues, List.mem_filterMap, Option.bind_eq_some_iff]
  constructor
  · rintro ⟨⟨k', w⟩, hmem, hw⟩
    obtain ⟨v', hv, heq⟩ := Option.map_eq_some_iff.mp hw
    obtain ⟨rfl, rfl⟩ := Prod.mk.inj heq
    exact ⟨w, (m.mem_entries_iff _ _).mp hmem, hv⟩
  · rintro ⟨w, hget, hv⟩
    exact ⟨(k, w), (m.mem_entries_iff _ _).mpr hget, by rw [hv, Option.map_some]⟩

theorem values_filterMapValues (m : SortedMap α β) (f : β → Option γ) :
    (m.filterMapValues f).values = m.values.filterMap f := by
  rw [values, values, filterMapValues, List.map_filterMap, List.filterMap_map]
  congr
  funext e
  rw [Option.map_map]
  exact Option.map_id'

theorem get_erase (m : SortedMap α β) (k k' : α) :
    (m.erase k).get k' = if k' = k then none else m.get k' := by
  rw [erase, get_filter]
  split
  · rename_i h
    cases m.get k' <;> simp [h]
  · rename_i h
    cases m.get k' <;> simp [h]

/-- Filtering commutes with insertion: an entry that fails the test is not there afterwards. -/
theorem filter_insert (m : SortedMap α β) (p : α → β → Bool) (k : α) (v : β) :
    (m.insert k v).filter p =
      if p k v then (m.filter p).insert k v else (m.filter p).erase k := by
  apply ext_get
  intro k'
  split
  · rename_i hp
    rw [get_filter, get_insert, get_insert, get_filter]
    split
    · rename_i h
      simp [h, hp]
    · rfl
  · rename_i hp
    rw [get_filter, get_insert, get_erase, get_filter]
    split
    · rename_i h
      simp [h, hp]
    · rfl

theorem erase_of_get_none (m : SortedMap α β) {k : α} (h : m.get k = none) : m.erase k = m := by
  apply ext_get
  intro k'
  rw [get_erase]
  split
  · rename_i hk
    rw [hk, h]
  · rfl

theorem filter_insert_of_rejected (m : SortedMap α β) {p : α → β → Bool} {k : α} {v : β}
    (h : ∀ w, p k w = false) : (m.insert k v).filter p = m.filter p := by
  rw [filter_insert, h v, if_neg Bool.false_ne_true]
  apply erase_of_get_none
  rw [get_filter, Option.filter_eq_none_iff]
  intro w _
  rw [h w]
  exact Bool.false_ne_true

theorem mem_keys_insert (m : SortedMap α β) (k k' : α) (v : β) :
    k' ∈ (m.insert k v).keys ↔ k' = k ∨ k' ∈ m.keys := by
  rw [mem_keys_iff, mem_keys_iff, get_insert]
  by_cases h : k' = k
  · simp [h]
  · simp [h]

theorem mem_keys_insertAll (m : SortedMap α β) (l : List (α × β)) (k : α) :
    k ∈ (m.insertAll l).keys ↔ k ∈ m.keys ∨ ∃ v, (k, v) ∈ l := by
  induction l generalizing m with
  | nil => simp [insertAll]
  | cons e l ih =>
      obtain ⟨k', v'⟩ := e
      rw [insertAll, List.foldl_cons, ← insertAll, ih, mem_keys_insert]
      simp only [List.mem_cons, Prod.mk.injEq]
      grind

/-- Entries that give a key one value are all found. -/
theorem get_insertAll_eq_some_iff {l : List (α × β)} {k : α} {v : β}
    (huniq : ∀ v₁ v₂, (k, v₁) ∈ l → (k, v₂) ∈ l → v₁ = v₂) :
    (empty.insertAll l).get k = some v ↔ (k, v) ∈ l := by
  have hgen : ∀ m : SortedMap α β, (m.insertAll l).get k = some v ↔
      (k, v) ∈ l ∨ (∀ w, (k, w) ∉ l) ∧ m.get k = some v := by
    induction l with
    | nil => simp [insertAll]
    | cons e l ih =>
        obtain ⟨k', v'⟩ := e
        intro m
        rw [insertAll, List.foldl_cons, ← insertAll, ih fun v₁ v₂ h₁ h₂ =>
          huniq v₁ v₂ (List.mem_cons_of_mem _ h₁) (List.mem_cons_of_mem _ h₂), get_insert]
        by_cases hk : k = k'
        · subst hk
          have hv : ∀ w, (k, w) ∈ l → w = v' := fun w hw =>
            huniq w v' (List.mem_cons_of_mem _ hw) List.mem_cons_self
          simp only [if_true, List.mem_cons, Prod.mk.injEq, true_and, Option.some.injEq]
          grind
        · simp only [hk, if_false, List.mem_cons, Prod.mk.injEq, false_and, false_or]
  rw [hgen]
  simp

example : (SortedMap.empty.insertAll [(2, 'b'), (1, 'a'), (2, 'c')]).entries = [(1, 'a'), (2, 'c')] := by
  decide +kernel

/-- The last entry of a key wins. -/
theorem get_insertAll_eq_find? (m : SortedMap α β) (l : List (α × β)) (k : α) :
    (m.insertAll l).get k = ((l.reverse.find? fun e => decide (e.1 = k)).map Prod.snd).or
      (m.get k) := by
  induction l generalizing m with
  | nil => rfl
  | cons e l ih =>
      obtain ⟨k', v⟩ := e
      rw [insertAll, List.foldl_cons, ← insertAll, ih, List.reverse_cons, List.find?_append,
        get_insert]
      cases l.reverse.find? fun e => decide (e.1 = k) with
      | some e => rfl
      | none =>
          by_cases hk : k = k'
          · simp [hk]
          · simp [hk, Ne.symm hk]

/-- A key after all others goes to the end. -/
theorem entries_insert_of_gt (m : SortedMap α β) {k : α} (h : ∀ e ∈ m.entries, e.1 < k) (v : β) :
    (m.insert k v).entries = m.entries ++ [(k, v)] := by
  have hgen : ∀ l : List (α × β), (∀ e ∈ l, e.1 < k) →
      SortedList.insert k v l = l ++ [(k, v)] := by
    intro l
    induction l with
    | nil => exact fun _ => rfl
    | cons e l ih =>
        intro hl
        obtain ⟨he, hl⟩ := List.forall_mem_cons.mp hl
        rw [SortedList.insert, if_neg he.not_gt, if_neg he.ne', ih hl, List.cons_append]
  exact hgen m.entries h

theorem size_insert_of_get_none (m : SortedMap α β) {k : α} (h : m.get k = none) (v : β) :
    (m.insert k v).size = m.size + 1 := by
  have hlookup : m.entries.lookup k = none := h
  have hgen : ∀ l : List (α × β), l.lookup k = none →
      (SortedList.insert k v l).length = l.length + 1 := by
    intro l
    induction l with
    | nil => intro _; rfl
    | cons e l ih =>
        obtain ⟨k', v'⟩ := e
        intro hl
        have hk : k ≠ k' := by
          rintro rfl
          rw [SortedList.lookup_cons_self] at hl
          exact absurd hl (by simp)
        rw [SortedList.lookup_cons_ne hk] at hl
        rw [SortedList.insert, if_neg hk]
        split
        · rfl
        · rw [List.length_cons, ih hl, List.length_cons]
  exact hgen m.entries hlookup

theorem size_insert_of_get_some (m : SortedMap α β) {k : α} (h : (m.get k).isSome) (v : β) :
    (m.insert k v).size = m.size := by
  have hperm : (m.insert k v).keys.Perm m.keys := by
    rw [List.perm_ext_iff_of_nodup (m.insert k v).nodup_keys m.nodup_keys]
    intro k'
    rw [mem_keys_insert]
    refine ⟨fun hk => ?_, .inr⟩
    rcases hk with rfl | hk
    · exact (m.mem_keys_iff k').mpr (Option.isSome_iff_exists.mp h)
    · exact hk
  rw [← length_keys, ← length_keys, hperm.length_eq]

theorem size_erase_of_get_some (m : SortedMap α β) {k : α} {v : β} (h : m.get k = some v) :
    (m.erase k).size + 1 = m.size := by
  have hback : (m.erase k).insert k v = m := by
    apply ext_get
    intro k'
    rw [get_insert, get_erase]
    by_cases hk : k' = k
    · rw [if_pos hk, hk, h]
    · rw [if_neg hk, if_neg hk]
  have hgone : (m.erase k).get k = none := by rw [get_erase, if_pos rfl]
  rw [← size_insert_of_get_none _ hgone v, hback]

theorem size_insert_le (m : SortedMap α β) (k : α) (v : β) : (m.insert k v).size ≤ m.size + 1 := by
  cases h : m.get k with
  | none => exact (m.size_insert_of_get_none h v).le
  | some w =>
      rw [m.size_insert_of_get_some (by rw [h]; rfl)]
      exact Nat.le_succ _

/-- Laying the entries of one map over another: the first map is asked first. -/
theorem get_insertAll_entries (m₁ m₂ : SortedMap α β) (k : α) :
    (m₂.insertAll m₁.entries).get k = (m₁.get k).or (m₂.get k) := by
  have hgen : ∀ (l : List (α × β)) (m : SortedMap α β), SortedList.Sorted l →
      (m.insertAll l).get k = (l.lookup k).or (m.get k) := by
    intro l
    induction l with
    | nil => intro m _; rfl
    | cons e l ih =>
        obtain ⟨k', v'⟩ := e
        intro m hl
        obtain ⟨hhd, htl⟩ := List.pairwise_cons.mp hl
        rw [insertAll, List.foldl_cons, ← insertAll, ih _ htl, get_insert]
        by_cases h : k = k'
        · subst h
          have hnone : l.lookup k = none := by
            rw [List.lookup_eq_none_iff]
            intro e he
            have hlt : k < e.1 := hhd e he
            simpa using hlt.ne
          simp [hnone]
        · rw [SortedList.lookup_cons_ne h, if_neg h]
  exact hgen m₁.entries m₂ m₁.sorted

theorem entries_eq_nil_iff (m : SortedMap α β) : m.entries = [] ↔ ∀ k, m.get k = none := by
  constructor
  · intro h k
    rw [get, h]
    rfl
  · intro h
    rw [List.eq_nil_iff_forall_not_mem]
    rintro ⟨k, v⟩ he
    rw [mem_entries_iff, h k] at he
    exact absurd he (by simp)

/-! ## Grouping -/

/-- The elements under each key, in their order. -/
def groupBy (key : β → α) (l : List β) : SortedMap α (List β) :=
  l.foldl (fun m v => m.insert (key v) ((m.get (key v)).getD [] ++ [v])) empty

/-- A group holds the elements of its key; no group is empty. -/
theorem get_groupBy {key : β → α} {l : List β} {k : α} {p : β → Bool}
    (hp : ∀ v, p v = true ↔ key v = k) :
    (groupBy key l).get k = if l.filter p = [] then none else some (l.filter p) := by
  induction l using List.reverseRecOn with
  | nil => rfl
  | append_singleton l v ih =>
      have hlast : groupBy key (l ++ [v]) = (groupBy key l).insert (key v)
          (((groupBy key l).get (key v)).getD [] ++ [v]) := by
        rw [groupBy, List.foldl_append]
        rfl
      rw [hlast, get_insert, List.filter_append]
      by_cases hv : k = key v
      · have hpv : p v = true := (hp v).mpr hv.symm
        have hne : l.filter p ++ [v] ≠ [] := by simp
        rw [if_pos hv, ← hv, ih, List.filter_cons_of_pos hpv, List.filter_nil, if_neg hne]
        by_cases hnil : l.filter p = []
        · rw [if_pos hnil, hnil]
          rfl
        · rw [if_neg hnil]
          rfl
      · have hpv : ¬ p v = true := fun h => hv ((hp v).mp h).symm
        rw [if_neg hv, List.filter_cons_of_neg hpv, List.filter_nil, List.append_nil]
        exact ih

end SortedMap

end GaussMatrix.Library
