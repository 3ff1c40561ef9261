import GaussMatrix.Library.SortedMap
import GaussMatrix.Library.Text

/-!
# The part of a map under a prefix

The entries of a sorted map whose keys start with a prefix, under the rests of their keys.
-/

namespace GaussMatrix.Library

namespace SortedMap

variable {β : Type}

/-- The entries under a prefix, which their keys lose. -/
def under (pfx : Str) (m : SortedMap Str β) : SortedMap Str β :=
  ⟨m.entries.filterMap fun e => (stripPrefix pfx e.1).map fun key => (key, e.2), by
    rw [SortedList.Sorted, List.pairwise_filterMap]
    refine m.sorted.imp fun {e e'} hlt x hx x' hx' => ?_
    obtain ⟨key, hkey, rfl⟩ := Option.map_eq_some_iff.mp hx
    obtain ⟨key', hkey', rfl⟩ := Option.map_eq_some_iff.mp hx'
    rw [stripPrefix_eq_some_iff.mp hkey, stripPrefix_eq_some_iff.mp hkey'] at hlt
    -- keys with one prefix are ordered as their rests
    by_contra hnot
    rcases lt_or_eq_of_le (not_lt.mp hnot) with hgt | heq
    · have hgt : pfx ++ key' < pfx ++ key := List.append_left_lt hgt
      exact lt_asymm hlt hgt
    · have heq : key' = key := heq
      rw [heq] at hlt
      exact lt_irrefl _ hlt⟩

@[simp] theorem get_under (pfx : Str) (m : SortedMap Str β) (key : Str) :
    (m.under pfx).get key = m.get (pfx ++ key) := by
  apply Option.ext
  intro v
  rw [← mem_entries_iff, ← mem_entries_iff, under, List.mem_filterMap]
  constructor
  · intro ⟨e, he, hstrip⟩
    obtain ⟨key', hkey, heq⟩ := Option.map_eq_some_iff.mp hstrip
    obtain ⟨rfl, rfl⟩ := Prod.mk.inj heq
    rw [← stripPrefix_eq_some_iff.mp hkey]
    exact he
  · exact fun h => ⟨_, h, by rw [stripPrefix_append]; rfl⟩

end SortedMap

end GaussMatrix.Library
