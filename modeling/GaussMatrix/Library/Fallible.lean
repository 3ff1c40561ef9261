import Mathlib.Data.List.Forall2

/-!
# Steps that may fail

What is known when a sequence of steps, each of which may fail, came through.
-/

namespace GaussMatrix.Library

variable {ε α β : Type}

theorem ok_bind (a : α) (f : α → Except ε β) : (Except.ok a >>= f) = f a := rfl

theorem bind_eq_ok_iff {x : Except ε α} {f : α → Except ε β} {b : β} :
    (x >>= f) = .ok b ↔ ∃ a, x = .ok a ∧ f a = .ok b := by
  cases x with
  | error e => simp [bind, Except.bind]
  | ok a => simp [bind, Except.bind]

theorem toOption_eq_some_iff {x : Except ε α} {a : α} : x.toOption = some a ↔ x = .ok a := by
  cases x with
  | error e => simp [Except.toOption]
  | ok b => simp [Except.toOption]

/-- What is there, or an error for want of it. -/
theorem elim_error_eq_ok_iff {x : Option α} {e : ε} {a : α} :
    x.elim (.error e) .ok = (.ok a : Except ε α) ↔ x = some a := by
  cases x with
  | none => simp
  | some b => simp

/-- A step for each element comes through when every one does. -/
theorem mapM_eq_ok_iff {f : α → Except ε β} {as : List α} {bs : List β} :
    as.mapM f = .ok bs ↔ List.Forall₂ (fun a b => f a = .ok b) as bs := by
  induction as generalizing bs with
  | nil =>
      rw [List.forall₂_nil_left_iff]
      constructor
      · exact fun h => (Except.ok.inj h).symm
      · rintro rfl
        rfl
  | cons a as ih =>
      rw [List.mapM_cons, bind_eq_ok_iff, List.forall₂_cons_left_iff]
      constructor
      · rintro ⟨b, hb, h⟩
        obtain ⟨bs', hbs, h⟩ := bind_eq_ok_iff.mp h
        exact ⟨b, bs', hb, ih.mp hbs, (Except.ok.inj h).symm⟩
      · rintro ⟨b, bs', hb, hbs, rfl⟩
        exact ⟨b, hb, bind_eq_ok_iff.mpr ⟨bs', ih.mpr hbs, rfl⟩⟩

/-- What is related element by element is related to some element. -/
theorem exists_of_forall₂ {R : α → β → Prop} {as : List α} {bs : List β} {b : β}
    (h : List.Forall₂ R as bs) (hb : b ∈ bs) : ∃ a ∈ as, R a b := by
  induction h with
  | nil => cases hb
  | @cons a c as bs hac _ ih =>
      rcases List.mem_cons.mp hb with rfl | hb
      · exact ⟨a, List.mem_cons_self, hac⟩
      · obtain ⟨a', hmem, hR⟩ := ih hb
        exact ⟨a', List.mem_cons_of_mem _ hmem, hR⟩

/-- What came through came from some element. -/
theorem exists_of_mem_mapM {f : α → Except ε β} {as : List α} {bs : List β} {b : β}
    (h : as.mapM f = .ok bs) (hb : b ∈ bs) : ∃ a ∈ as, f a = .ok b := by
  obtain ⟨a, ha, hok⟩ := exists_of_forall₂ (mapM_eq_ok_iff.mp h) hb
  exact ⟨a, ha, hok⟩

end GaussMatrix.Library
