import Mathlib

/-!
# Lists grouped by a key

The keys of a list in the order of their first appearance, and the parts of the list with each key.
-/

namespace GaussMatrix.Library

variable {α κ : Type} [DecidableEq κ] {key : α → κ} {keys : List κ} {l m : List α} {k : κ}

/-- The keys, each where it appears first. -/
def firstKeys (keys : List κ) : List κ :=
  keys.foldl (fun order k => if order.any (· = k) then order else order ++ [k]) []

theorem firstKeys_concat (keys : List κ) (k : κ) :
    firstKeys (keys ++ [k]) = if k ∈ firstKeys keys then firstKeys keys else firstKeys keys ++ [k] := by
  rw [firstKeys, List.foldl_append, ← firstKeys, List.foldl_cons, List.foldl_nil]
  simp

theorem nodup_firstKeys (keys : List κ) : (firstKeys keys).Nodup := by
  induction keys using List.reverseRecOn with
  | nil => exact List.nodup_nil
  | append_singleton keys k ih =>
      rw [firstKeys_concat]
      split
      · exact ih
      · rename_i hk
        exact List.nodup_append.mpr ⟨ih, List.nodup_singleton k, by
          intro a ha b hb
          rw [List.mem_singleton] at hb
          rintro rfl
          exact hk (hb ▸ ha)⟩

theorem mem_firstKeys : k ∈ firstKeys keys ↔ k ∈ keys := by
  induction keys using List.reverseRecOn with
  | nil => exact Iff.rfl
  | append_singleton keys k' ih =>
      rw [firstKeys_concat, List.mem_append, List.mem_singleton]
      split
      · rename_i hk'
        rw [ih]
        refine ⟨Or.inl, ?_⟩
        rintro (h | rfl)
        · exact h
        · exact ih.mp hk'
      · rw [List.mem_append, List.mem_singleton, ih]

-- What comes later in the list does not change the order of the keys so far.
theorem firstKeys_prefix (keys more : List κ) : firstKeys keys <+: firstKeys (keys ++ more) := by
  induction more using List.reverseRecOn with
  | nil => simp
  | append_singleton more k ih =>
      rw [← List.append_assoc, firstKeys_concat]
      split
      · exact ih
      · exact ih.trans (List.prefix_append _ _)

/-- The parts with each of some keys are, together, what has one of them. -/
theorem flatMap_filter_perm (h : keys.Nodup) (l : List α) :
    (keys.flatMap fun k => l.filter fun a => key a = k).Perm
      (l.filter fun a => key a ∈ keys) := by
  induction keys with
  | nil => simp
  | cons k keys ih =>
      obtain ⟨hk, hkeys⟩ := List.nodup_cons.mp h
      have hfirst : (l.filter fun a => key a ∈ k :: keys).filter (fun a => key a = k) =
          l.filter fun a => key a = k := by
        rw [List.filter_filter]
        apply List.filter_congr
        intro a _
        by_cases ha : key a = k <;> simp [ha]
      have hrest : (l.filter fun a => key a ∈ k :: keys).filter (fun a => !decide (key a = k)) =
          l.filter fun a => key a ∈ keys := by
        rw [List.filter_filter]
        apply List.filter_congr
        intro a _
        by_cases ha : key a = k
        · simp [ha, hk]
        · simp [ha]
      have hparts := List.filter_append_perm (fun a => decide (key a = k))
        (l.filter fun a => key a ∈ k :: keys)
      rw [hfirst, hrest] at hparts
      rw [List.flatMap_cons]
      exact ((ih hkeys).append_left _).trans hparts

/-- The parts of a list, by the first appearance of their keys, are the list in another order. -/
theorem flatMap_firstKeys_perm (key : α → κ) (l : List α) :
    ((firstKeys (l.map key)).flatMap fun k => l.filter fun a => key a = k).Perm l := by
  have hall : l.filter (fun a => key a ∈ firstKeys (l.map key)) = l := by
    rw [List.filter_eq_self]
    intro a ha
    simpa [mem_firstKeys] using ⟨a, ha, rfl⟩
  have hperm : ((firstKeys (l.map key)).flatMap fun k => l.filter fun a => key a = k).Perm
      (l.filter fun a => key a ∈ firstKeys (l.map key)) :=
    flatMap_filter_perm (nodup_firstKeys (l.map key)) l
  rwa [hall] at hperm

end GaussMatrix.Library
