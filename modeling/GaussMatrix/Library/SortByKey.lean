import Mathlib

/-!
# Stable sorting by a key

A list sorted by a key is stable on ties.  Where the key tells the elements apart there are none,
and the sorted list depends on the elements alone.
-/

namespace GaussMatrix.Library

variable {α κ : Type} [LinearOrder κ]

/-- The elements in increasing order of their key, ties in their input order. -/
def sortByKey (key : α → κ) (l : List α) : List α :=
  l.insertionSort (fun a b => key a ≤ key b)

variable {key : α → κ}

theorem perm_sortByKey (l : List α) : (sortByKey key l).Perm l :=
  List.perm_insertionSort _ l

@[simp] theorem mem_sortByKey {a : α} {l : List α} : a ∈ sortByKey key l ↔ a ∈ l :=
  List.mem_insertionSort _

theorem pairwise_sortByKey (l : List α) :
    (sortByKey key l).Pairwise (fun a b => key a ≤ key b) := by
  have htotal : Std.Total (fun a b : α => key a ≤ key b) := ⟨fun a b => le_total (key a) (key b)⟩
  have htrans : IsTrans α (fun a b => key a ≤ key b) := ⟨fun _ _ _ => le_trans⟩
  exact List.pairwise_insertionSort _ l

/-- No element that is cut off a sorted list has a smaller key than one that is kept. -/
theorem key_le_of_mem_take {l : List α} {n : Nat} {a b : α} (ha : a ∈ (sortByKey key l).take n)
    (hb : b ∈ l) (hcut : b ∉ (sortByKey key l).take n) : key a ≤ key b := by
  have hsorted : (sortByKey key l).Pairwise (fun a b => key a ≤ key b) := pairwise_sortByKey l
  rw [← List.take_append_drop n (sortByKey key l)] at hsorted
  have hmem : b ∈ (sortByKey key l).take n ++ (sortByKey key l).drop n := by
    rw [List.take_append_drop]
    exact mem_sortByKey.mpr hb
  have hrest : b ∈ (sortByKey key l).drop n := (List.mem_append.mp hmem).resolve_left hcut
  exact (List.pairwise_append.mp hsorted).2.2 a ha b hrest

/-- Sorting by keys that were computed beforehand. -/
theorem map_snd_sortByKey (l : List α) :
    (sortByKey Prod.fst (l.map fun a => (key a, a))).map Prod.snd = sortByKey key l := by
  have hsort : sortByKey Prod.fst (l.map fun a => (key a, a)) =
      (sortByKey key l).map fun a => (key a, a) :=
    (List.map_insertionSort _ _ (fun a => (key a, a)) l fun _ _ _ _ => Iff.rfl).symm
  rw [hsort, List.map_map]
  exact List.map_id _

/-- Under a key that tells elements apart, sorting forgets the order of the input. -/
theorem sortByKey_eq_of_perm (hkey : Function.Injective key) {l₁ l₂ : List α}
    (h : l₁.Perm l₂) : sortByKey key l₁ = sortByKey key l₂ := by
  have hperm : (sortByKey key l₁).Perm (sortByKey key l₂) :=
    ((perm_sortByKey l₁).trans h).trans (perm_sortByKey l₂).symm
  refine hperm.eq_of_pairwise ?_ (pairwise_sortByKey l₁) (pairwise_sortByKey l₂)
  intro a b _ _ hab hba
  exact hkey (le_antisymm hab hba)

/-- In a list of strictly increasing keys, a search finds the match of the least key. -/
theorem find?_eq_some_iff_of_pairwise {l : List α} (hl : l.Pairwise (fun a b => key a < key b))
    {p : α → Bool} {a : α} :
    l.find? p = some a ↔ a ∈ l ∧ p a = true ∧ ∀ b ∈ l, p b = true → key a ≤ key b := by
  induction l with
  | nil => simp
  | cons c l ih =>
      obtain ⟨hc, hl⟩ := List.pairwise_cons.mp hl
      rw [List.find?_cons]
      cases hp : p c with
      | true =>
          simp only [Option.some.injEq]
          constructor
          · rintro rfl
            refine ⟨List.mem_cons_self, hp, fun b hb _ => ?_⟩
            rcases List.mem_cons.mp hb with rfl | hb
            · exact le_rfl
            · exact (hc b hb).le
          · rintro ⟨ha, -, hmin⟩
            rcases List.mem_cons.mp ha with rfl | ha
            · rfl
            · exact absurd (hc a ha) (not_lt.mpr (hmin c List.mem_cons_self hp))
      | false =>
          rw [ih hl]
          constructor
          · rintro ⟨ha, hpa, hmin⟩
            refine ⟨List.mem_cons_of_mem _ ha, hpa, fun b hb hpb => ?_⟩
            rcases List.mem_cons.mp hb with rfl | hb
            · exact absurd (hp.symm.trans hpb) (by simp)
            · exact hmin b hb hpb
          · rintro ⟨ha, hpa, hmin⟩
            rcases List.mem_cons.mp ha with rfl | ha
            · exact absurd (hp.symm.trans hpa) (by simp)
            · exact ⟨ha, hpa, fun b hb => hmin b (List.mem_cons_of_mem _ hb)⟩

/-- A list of strictly increasing keys ends in the element of the greatest key. -/
theorem getLast?_eq_some_iff_of_pairwise {l : List α}
    (hl : l.Pairwise (fun a b => key a < key b)) {a : α} :
    l.getLast? = some a ↔ a ∈ l ∧ ∀ b ∈ l, key b ≤ key a := by
  constructor
  · intro h
    obtain ⟨front, rfl⟩ := List.getLast?_eq_some_iff.mp h
    refine ⟨by simp, fun b hb => ?_⟩
    rcases List.mem_append.mp hb with hb | hb
    · exact ((List.pairwise_append.mp hl).2.2 b hb a (by simp)).le
    · rw [List.mem_singleton.mp hb]
  · rintro ⟨ha, hmax⟩
    have hne : l ≠ [] := List.ne_nil_of_mem ha
    obtain ⟨front, hfront⟩ : ∃ front, l = front ++ [l.getLast hne] :=
      ⟨l.dropLast, (List.dropLast_append_getLast hne).symm⟩
    rw [hfront] at ha hl
    rcases List.mem_append.mp ha with ha | ha
    · have hlt := (List.pairwise_append.mp hl).2.2 a ha (l.getLast hne) (by simp)
      exact absurd hlt (not_lt.mpr (hmax _ (List.getLast_mem hne)))
    · rw [List.getLast?_eq_some_getLast hne, List.mem_singleton.mp ha]

/-- Two lists of strictly increasing keys with the same elements are the same list. -/
theorem eq_of_pairwise_of_mem_iff {l₁ l₂ : List α}
    (h₁ : l₁.Pairwise (fun a b => key a < key b)) (h₂ : l₂.Pairwise (fun a b => key a < key b))
    (hmem : ∀ a, a ∈ l₁ ↔ a ∈ l₂) : l₁ = l₂ := by
  have hnodup : ∀ l : List α, l.Pairwise (fun a b => key a < key b) → l.Nodup := by
    intro l hl
    refine hl.imp fun hlt heq => ?_
    exact absurd hlt (heq ▸ lt_irrefl _)
  have hperm : l₁.Perm l₂ :=
    (List.perm_ext_iff_of_nodup (hnodup l₁ h₁) (hnodup l₂ h₂)).mpr hmem
  exact hperm.eq_of_pairwise (fun a b _ _ hab hba => absurd hab hba.asymm) h₁ h₂

/-- Of equal elements only the first is kept. -/
theorem nodup_eraseDups {β : Type} [BEq β] [LawfulBEq β] (l : List β) : l.eraseDups.Nodup := by
  induction hn : l.length using Nat.strong_induction_on generalizing l with
  | _ n ih =>
      cases l with
      | nil => exact List.nodup_nil
      | cons b l =>
          have hshorter : (l.filter fun c => !(c == b)).length < n := by
            have hle := List.length_filter_le (fun c => !(c == b)) l
            rw [List.length_cons] at hn
            omega
          rw [List.eraseDups_cons, List.nodup_cons]
          constructor
          · rw [List.mem_eraseDups, List.mem_filter]
            intro hmem
            simp at hmem
          · exact ih _ hshorter _ rfl

end GaussMatrix.Library
