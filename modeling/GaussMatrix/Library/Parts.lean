import GaussMatrix.Library.Runs

/-!
# Parts of a run

Inputs of one kind that do not notice the others: what they give is what they give alone.
-/

namespace GaussMatrix.Library

variable {σ ι ο : Type} {step : σ → ι → σ} {out : σ → ι → ο} {mine : ι → Bool} {Agree : σ → σ → Prop}

/-- The relation is kept by both sides where the input is of the kind, and by the one side that has it
where it is not. -/
structure Unwinds (step : σ → ι → σ) (out : σ → ι → ο) (mine : ι → Bool) (Agree : σ → σ → Prop) :
    Prop where
  out_eq : ∀ {s t i}, Agree s t → mine i = true → out s i = out t i
  both : ∀ {s t i}, Agree s t → mine i = true → Agree (step s i) (step t i)
  one : ∀ {s t i}, Agree s t → mine i = false → Agree (step s i) t

theorem Unwinds.run_filter (h : Unwinds step out mine Agree) {s t : σ} (hst : Agree s t)
    (is : List ι) : Agree (run step s is) (run step t (is.filter mine)) := by
  induction is generalizing s t with
  | nil => exact hst
  | cons i is ih =>
      cases hi : mine i with
      | true =>
          rw [List.filter_cons_of_pos hi, run_cons, run_cons]
          exact ih (h.both hst hi)
      | false =>
          rw [List.filter_cons_of_neg (by simp [hi]), run_cons]
          exact ih (h.one hst hi)

theorem Unwinds.out_filter (h : Unwinds step out mine Agree) {s t : σ} (hst : Agree s t)
    (is : List ι) :
    ((trace step s is).filter fun x => mine x.2).map (fun x => out x.1 x.2) =
      (trace step t (is.filter mine)).map fun x => out x.1 x.2 := by
  induction is generalizing s t with
  | nil => rfl
  | cons i is ih =>
      cases hi : mine i with
      | true =>
          simp only [trace, List.filter_cons, hi, if_true, List.map_cons, h.out_eq hst hi]
          rw [ih (h.both hst hi)]
      | false =>
          simp only [trace, List.filter_cons, hi, Bool.false_eq_true, if_false]
          exact ih (h.one hst hi)

end GaussMatrix.Library
