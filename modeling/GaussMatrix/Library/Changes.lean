import GaussMatrix.Library.Runs

/-!
# Changes over a whole run

What holds at the end of a run and not at its start, some step of the run brought about.
-/

namespace GaussMatrix.Library

variable {σ ι : Type} {step : σ → ι → σ} {P : σ → Prop} {s : σ} {is : List ι}

theorem exists_change_of_run (hbefore : ¬ P s) (hafter : P (run step s is)) :
    ∃ x ∈ trace step s is, ¬ P x.1 ∧ P (step x.1 x.2) := by
  induction is generalizing s with
  | nil => exact absurd hafter hbefore
  | cons i is ih =>
      by_cases hstep : P (step s i)
      · exact ⟨(s, i), List.mem_cons_self, hbefore, hstep⟩
      · obtain ⟨x, hx, hchange⟩ := ih hstep hafter
        exact ⟨x, List.mem_cons_of_mem _ hx, hchange⟩

/-- After a step that ends the property and before a later state that has it, a step brings it about. -/
theorem exists_between_of_pair {z y : σ × ι} (h : [z, y].Sublist (trace step s is))
    (hz : ¬ P (step z.1 z.2)) (hy : P y.1) :
    ∃ x, ¬ P x.1 ∧ P (step x.1 x.2) ∧ [z, x, y].Sublist (trace step s is) := by
  obtain ⟨front, last, htrace, hz', hlast⟩ := List.cons_sublist_iff.mp h
  obtain ⟨pre, post, rfl⟩ := List.append_of_mem hz'
  have hcut : trace step s is = pre ++ z :: (post ++ last) := by
    rw [htrace]
    simp
  obtain ⟨later, hlater⟩ := trace_eq_append_cons hcut
  have hmem : y ∈ trace step (step z.1 z.2) later := by
    rw [← hlater]
    exact List.mem_append_right _ (List.singleton_sublist.mp hlast)
  obtain ⟨x, hx, hx', hsub⟩ := exists_step_of_change hmem hz hy
  refine ⟨x, hx, hx', ?_⟩
  rw [hcut, hlater]
  exact (hsub.cons_cons z).trans (List.sublist_append_right _ _)

end GaussMatrix.Library
