import GaussMatrix.Library.Text

/-!
# Finding a pattern in a text

The first occurrence of a pattern, and the words of a text between white space.
-/

namespace GaussMatrix.Library

/-- The text before the first occurrence of `pat`, and the text after it. -/
def splitFirst (pat : Str) : Str → Option (Str × Str)
  | [] => if pat = [] then some ([], []) else none
  | c :: cs =>
      match stripPrefix pat (c :: cs) with
      | some after => some ([], after)
      | none => (splitFirst pat cs).map fun parts => (c :: parts.1, parts.2)

/-- The text up to the first occurrence of `pat`, all of it if there is none. -/
def before (pat s : Str) : Str := ((splitFirst pat s).map Prod.fst).getD s

/-- The first word between white space. -/
def firstWord (s : Str) : Option Str :=
  let word := (trimStart s).takeWhile fun c => !isWhiteSpace c
  if word = [] then none else some word

section

variable {pat a b : Str} {c : Char}

/-- An occurrence of a pattern without `c` is on one side of `c`. -/
theorem infix_append_cons (hc : c ∉ pat) (h : pat <:+: a ++ c :: b) : pat <:+: a ∨ pat <:+: b := by
  rcases List.infix_append_iff.mp h with h | h | ⟨left, right, hpat, hleft, hright⟩
  · exact .inl h
  · rcases List.infix_cons_iff.mp h with h | h
    · cases pat with
      | nil => exact .inl List.nil_infix
      | cons p ps =>
          obtain rfl := (List.cons_prefix_cons.mp h).1
          exact absurd List.mem_cons_self hc
    · exact .inr h
  · cases right with
    | nil =>
        rw [List.append_nil] at hpat
        rw [hpat]
        exact .inl hleft.isInfix
    | cons r rs =>
        obtain rfl := (List.cons_prefix_cons.mp hright).1
        rw [hpat] at hc
        exact absurd (List.mem_append_right left List.mem_cons_self) hc

/-- A text is split at a pattern that does not occur earlier. -/
theorem splitFirst_append (hpat : pat ≠ []) (h : ¬ pat <:+: a ++ pat.dropLast) (b : Str) :
    splitFirst pat (a ++ (pat ++ b)) = some (a, b) := by
  have hlen : pat.length = pat.dropLast.length + 1 := by
    have hpos := List.length_pos_of_ne_nil hpat
    rw [List.length_dropLast]
    omega
  induction a with
  | nil =>
      cases pat with
      | nil => exact absurd rfl hpat
      | cons p ps =>
          rw [List.nil_append, List.cons_append, splitFirst, ← List.cons_append, stripPrefix_append]
  | cons c cs ih =>
      have hlater : ¬ pat <:+: cs ++ pat.dropLast := by
        intro hlater
        exact h (List.infix_cons hlater)
      rw [List.cons_append, splitFirst]
      cases hstrip : stripPrefix pat (c :: (cs ++ (pat ++ b))) with
      | some after =>
          -- an occurrence at the front would lie before the end of the one that is there
          have hfront : pat <+: c :: cs ++ (pat.dropLast ++ (pat.getLast hpat :: b)) := by
            refine ⟨after, ?_⟩
            rw [← stripPrefix_eq_some_iff.mp hstrip, List.cons_append, List.append_cons,
              ← List.append_assoc, List.dropLast_concat_getLast, List.append_assoc]
          have hshort : pat <+: c :: cs ++ pat.dropLast := by
            apply List.prefix_of_prefix_length_le hfront
            · rw [← List.append_assoc]
              exact List.prefix_append _ _
            · rw [List.length_append, List.length_cons, hlen]
              omega
          exact absurd hshort.isInfix h
      | none =>
          simp only [ih hlater, Option.map_some]

theorem before_append (hpat : pat ≠ []) (h : ¬ pat <:+: a ++ pat.dropLast) (b : Str) :
    before pat (a ++ (pat ++ b)) = a := by
  rw [before, splitFirst_append hpat h]
  rfl

/-- A word is read up to the white space after it. -/
theorem firstWord_append (ha : a ≠ []) (hword : ∀ d ∈ a, isWhiteSpace d = false)
    (hb : b = [] ∨ ∃ d rest, b = d :: rest ∧ isWhiteSpace d = true) :
    firstWord (a ++ b) = some a := by
  have htake : (a ++ b).takeWhile (fun c => !isWhiteSpace c) = a := by
    rw [List.takeWhile_append_of_pos]
    · rcases hb with rfl | ⟨d, rest, rfl, hd⟩
      · rw [List.takeWhile_nil, List.append_nil]
      · rw [List.takeWhile_cons_of_neg (by simp [hd]), List.append_nil]
    · intro d hd
      rw [hword d hd]
      rfl
  have htrim : trimStart (a ++ b) = a ++ b := by
    cases a with
    | nil => exact absurd rfl ha
    | cons d ds =>
        rw [trimStart, List.cons_append, List.dropWhile_cons_of_neg]
        rw [hword d List.mem_cons_self]
        exact Bool.false_ne_true
  simp only [firstWord, htrim, htake, if_neg ha]

end

/-! ## Fixed beginnings -/

/-- Neither text begins with the other. -/
def Apart (s t : Str) : Prop := ¬ s <+: t ∧ ¬ t <+: s

instance (s t : Str) : Decidable (Apart s t) := inferInstanceAs (Decidable (_ ∧ _))

theorem startsWith_of_apart {pfx fixed : Str} (h : Apart pfx fixed) (s : Str) :
    startsWith pfx (fixed ++ s) = false := by
  rw [Bool.eq_false_iff, Ne, startsWith_iff_isPrefix]
  intro hprefix
  rcases List.prefix_or_prefix_of_prefix hprefix (List.prefix_append fixed s) with hle | hle
  · exact h.1 hle
  · exact h.2 hle

theorem stripPrefix_of_apart {pfx fixed : Str} (h : Apart pfx fixed) (s : Str) :
    stripPrefix pfx (fixed ++ s) = none :=
  Option.isSome_eq_false_iff.mp (startsWith_of_apart h s) |> Option.isNone_iff_eq_none.mp

theorem startsWith_of_isPrefix {pfx fixed : Str} (h : pfx <+: fixed) (s : Str) :
    startsWith pfx (fixed ++ s) = true :=
  startsWith_iff_isPrefix.mpr (h.trans (List.prefix_append fixed s))

end GaussMatrix.Library
