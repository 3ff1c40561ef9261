import GaussMatrix.Library.Text

/-!
# Texts of lines

Lines joined with line breaks, and records that each begin with a line of a certain form.
-/

namespace GaussMatrix.Library

theorem newline_not_mem_decimal (n : Nat) : '\n' ∉ decimal n :=
  fun h => absurd (isDigit_of_mem_decimal h) (by decide)

/-- The parts of joined texts are the parts of each, in order. -/
theorem splitOn_intercalate_parts (sep : Char) {texts : List Str} (h : texts ≠ []) :
    ([sep].intercalate texts).splitOn sep = texts.flatMap (List.splitOn sep) := by
  induction texts with
  | nil => exact absurd rfl h
  | cons t ts ih =>
      cases ts with
      | nil => rw [List.intercalate_singleton, List.flatMap_singleton]
      | cons u us =>
          rw [List.flatMap_cons, List.intercalate_cons_cons, List.append_assoc,
            List.singleton_append, List.splitOn_append_cons_self, ih (List.cons_ne_nil u us)]

/-- Two texts that are joined beforehand. -/
theorem intercalate_append_merge (sep : Str) (before : List Str) (a b : Str) (after : List Str) :
    sep.intercalate (before ++ (a ++ sep ++ b) :: after) =
      sep.intercalate (before ++ a :: b :: after) := by
  induction before with
  | nil =>
      cases after with
      | nil =>
          rw [List.nil_append, List.nil_append, List.intercalate_singleton,
            List.intercalate_cons_cons, List.intercalate_singleton]
      | cons c after =>
          simp only [List.nil_append, List.intercalate_cons_cons, List.append_assoc]
  | cons t before ih =>
      rw [List.cons_append, List.cons_append, List.intercalate_cons_of_ne_nil (by simp),
        List.intercalate_cons_of_ne_nil (by simp), ih]

/-- Text without a separator goes to the first of the parts. -/
theorem splitOn_append_of_not_mem {sep : Char} {a : Str} (h : sep ∉ a) (s : Str) :
    (a ++ s).splitOn sep = (s.splitOn sep).modifyHead (a ++ ·) := by
  induction a with
  | nil =>
      simp only [List.nil_append]
      cases s.splitOn sep <;> rfl
  | cons c cs ih =>
      obtain ⟨hc, hcs⟩ := List.ne_and_not_mem_of_not_mem_cons h
      rw [List.cons_append, List.splitOn_cons_eq_if_modifyHead, if_neg (by simp [Ne.symm hc]), ih hcs,
        List.modifyHead_modifyHead]
      rfl

/-- Lines that each end with a separator, and have none themselves. -/
theorem splitOn_terminated {sep : Char} {lines : List Str} (h : ∀ line ∈ lines, sep ∉ line) :
    (lines.flatMap fun line => line ++ [sep]).splitOn sep = lines ++ [[]] := by
  induction lines with
  | nil => rfl
  | cons line lines ih =>
      rw [List.forall_mem_cons] at h
      rw [List.flatMap_cons, List.append_assoc, List.singleton_append,
        List.splitOn_append_cons_self_of_not_mem h.1, ih h.2]
      rfl

/-! ## Records -/

section

variable {α : Type} (start : α → Bool)

/-- The lines before the first that starts a record, and the records: each its first line and the lines
up to the next. -/
def groups : List α → List α × List (α × List α)
  | [] => ([], [])
  | line :: lines =>
      if start line then ([], (line, (groups lines).1) :: (groups lines).2)
      else (line :: (groups lines).1, (groups lines).2)

variable {start} {line : α} {lines : List α}

theorem groups_append_of_none (h : ∀ line ∈ lines, start line = false) (rest : List α) :
    groups start (lines ++ rest) = (lines ++ (groups start rest).1, (groups start rest).2) := by
  induction lines with
  | nil => rfl
  | cons line lines ih =>
      rw [List.forall_mem_cons] at h
      rw [List.cons_append, groups, if_neg (by simp [h.1]), ih h.2]
      rfl

/-- Records whose first lines alone start one are read back. -/
theorem groups_flatMap {records : List (α × List α)} (hstart : ∀ r ∈ records, start r.1 = true)
    (hrest : ∀ r ∈ records, ∀ line ∈ r.2, start line = false) :
    groups start (records.flatMap fun r => r.1 :: r.2) = ([], records) := by
  induction records with
  | nil => rfl
  | cons r records ih =>
      rw [List.forall_mem_cons] at hstart hrest
      rw [List.flatMap_cons, List.cons_append, groups, if_pos hstart.1,
        groups_append_of_none hrest.1, ih hstart.2 hrest.2, List.append_nil]

theorem start_of_mem_groups {r : α × List α} (h : r ∈ (groups start lines).2) :
    start r.1 = true := by
  induction lines with
  | nil => cases h
  | cons line lines ih =>
      rw [groups] at h
      split at h
      · rename_i hstart
        rcases List.mem_cons.mp h with rfl | h
        · exact hstart
        · exact ih h
      · exact ih h

theorem length_groups (lines : List α) : (groups start lines).2.length = lines.countP start := by
  induction lines with
  | nil => rfl
  | cons line lines ih =>
      rw [groups, List.countP_cons]
      split <;> simp [*]

/-- Records are read back only where no line of theirs but the first starts one. -/
theorem countP_flatMap {records : List (α × List α)} (hstart : ∀ r ∈ records, start r.1 = true) :
    (records.flatMap fun r => r.1 :: r.2).countP start =
      records.length + (records.flatMap Prod.snd).countP start := by
  induction records with
  | nil => rfl
  | cons r records ih =>
      rw [List.forall_mem_cons] at hstart
      rw [List.flatMap_cons, List.flatMap_cons, List.countP_append, List.countP_append,
        List.countP_cons_of_pos hstart.1, ih hstart.2, List.length_cons]
      omega

end

end GaussMatrix.Library
