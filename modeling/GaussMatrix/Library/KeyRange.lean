import GaussMatrix.Library.Prefixed

/-!
# Ranges of keys

The keys that share a prefix stand next to each other in an ordered map, in the order of what
follows the prefix.  A map keeps its order when its keys are encoded by a function that keeps theirs.
-/

namespace GaussMatrix.Library

/-! ## Prefixes in the order -/

section Prefix

variable {α : Type} [LinearOrder α] {pfx s t : List α}

theorem append_lt_append_iff : pfx ++ s < pfx ++ t ↔ s < t := by
  induction pfx with
  | nil => rfl
  | cons a pfx ih =>
      rw [List.cons_append, List.cons_append, List.cons_lt_cons_iff, ih]
      simp

theorem append_le_append_iff : pfx ++ s ≤ pfx ++ t ↔ s ≤ t := by
  rw [← not_lt, ← not_lt, append_lt_append_iff]

theorem le_append : pfx ≤ pfx ++ s := by
  rw [← not_lt]
  intro h
  have happend : pfx ++ s < pfx ++ [] := by
    rw [List.append_nil]
    exact h
  exact absurd (append_lt_append_iff.mp happend) (List.not_lt_nil s)

/-- What stands between a prefix and a key with it has it too. -/
theorem prefix_of_between (hlow : pfx ≤ s) (hhigh : s ≤ t) (ht : pfx <+: t) : pfx <+: s := by
  obtain ⟨rest, rfl⟩ := ht
  rw [← not_lt] at hlow hhigh
  induction pfx generalizing s with
  | nil => exact List.nil_prefix
  | cons a pfx ih =>
      cases s with
      | nil => exact absurd (List.nil_lt_cons a pfx) hlow
      | cons b s =>
          rw [List.cons_lt_cons_iff, not_or, not_and] at hlow
          rw [List.cons_append, List.cons_lt_cons_iff, not_or, not_and] at hhigh
          obtain rfl := le_antisymm (not_lt.mp hlow.1) (not_lt.mp hhigh.1)
          rw [List.cons_prefix_cons]
          exact ⟨rfl, ih (hlow.2 rfl) (hhigh.2 rfl)⟩

end Prefix

namespace SortedMap

variable {α γ β : Type} [LinearOrder α] [LinearOrder γ]

/-! ## Encoded keys -/

/-- The map with its keys encoded. -/
def mapKeys (f : α → γ) (hf : StrictMono f) (m : SortedMap α β) : SortedMap γ β :=
  ⟨m.entries.map fun e => (f e.1, e.2), by
    rw [SortedList.Sorted, List.pairwise_map]
    exact m.sorted.imp fun hlt => hf hlt⟩

section MapKeys

variable {f : α → γ} (hf : StrictMono f) (m : SortedMap α β)

theorem mem_mapKeys_iff (k : γ) (v : β) :
    (k, v) ∈ (m.mapKeys f hf).entries ↔ ∃ key, f key = k ∧ m.get key = some v := by
  rw [mapKeys, List.mem_map]
  constructor
  · rintro ⟨⟨key, value⟩, hmem, heq⟩
    obtain ⟨hkey, rfl⟩ := Prod.mk.inj heq
    exact ⟨key, hkey, (mem_entries_iff m key value).mp hmem⟩
  · rintro ⟨key, rfl, hget⟩
    exact ⟨(key, v), (mem_entries_iff m key v).mpr hget, rfl⟩

theorem get_mapKeys (k : α) : (m.mapKeys f hf).get (f k) = m.get k := by
  apply Option.ext
  intro v
  rw [← mem_entries_iff, mem_mapKeys_iff]
  constructor
  · rintro ⟨key, hkey, hget⟩
    rwa [← hf.injective hkey]
  · intro hget
    exact ⟨k, rfl, hget⟩

theorem get_mapKeys_of_not_range {k : γ} (h : ∀ key, f key ≠ k) :
    (m.mapKeys f hf).get k = none := by
  rw [Option.eq_none_iff_forall_ne_some]
  intro v hget
  rw [← mem_entries_iff, mem_mapKeys_iff] at hget
  obtain ⟨key, hkey, -⟩ := hget
  exact h key hkey

/-- Encoded maps are equal when they agree on the encoded keys and hold no other. -/
theorem eq_mapKeys {n : SortedMap γ β} (hrange : ∀ k, n.get k ≠ none → ∃ key, f key = k)
    (hget : ∀ key, n.get (f key) = m.get key) : n = m.mapKeys f hf := by
  apply ext_get
  intro k
  by_cases h : ∃ key, f key = k
  · obtain ⟨key, rfl⟩ := h
    rw [hget, get_mapKeys]
  · have hnone : n.get k = none := by
      by_contra hne
      exact h (hrange k hne)
    rw [hnone, get_mapKeys_of_not_range hf m fun key hkey => h ⟨key, hkey⟩]

theorem mapKeys_insert (k : α) (v : β) :
    (m.mapKeys f hf).insert (f k) v = (m.insert k v).mapKeys f hf := by
  apply eq_mapKeys
  · intro key hne
    rw [get_insert] at hne
    split at hne
    · rename_i heq
      exact ⟨k, heq.symm⟩
    · by_contra hrange
      exact hne (get_mapKeys_of_not_range hf m fun k' hk' => hrange ⟨k', hk'⟩)
  · intro key
    rw [get_insert, get_insert, get_mapKeys]
    simp only [hf.injective.eq_iff]

theorem mapKeys_erase (k : α) : (m.mapKeys f hf).erase (f k) = (m.erase k).mapKeys f hf := by
  apply eq_mapKeys
  · intro key hne
    rw [get_erase] at hne
    split at hne
    · exact absurd rfl hne
    · by_contra hrange
      exact hne (get_mapKeys_of_not_range hf m fun k' hk' => hrange ⟨k', hk'⟩)
  · intro key
    rw [get_erase, get_erase, get_mapKeys]
    simp only [hf.injective.eq_iff]

end MapKeys

/-! ## Iteration -/

/-- The entries from a key on, in order. -/
def iterFrom (m : SortedMap α β) (k : α) : List (α × β) := m.entries.filter fun e => k ≤ e.1

theorem iterFrom_mapKeys {f : α → γ} (hf : StrictMono f) (m : SortedMap α β) (k : α) :
    (m.mapKeys f hf).iterFrom (f k) = (m.iterFrom k).map fun e => (f e.1, e.2) := by
  rw [iterFrom, iterFrom, mapKeys, List.filter_map]
  congr 1
  apply List.filter_congr
  intro e _
  simp only [Function.comp_apply, hf.le_iff_le]

end SortedMap

end GaussMatrix.Library
