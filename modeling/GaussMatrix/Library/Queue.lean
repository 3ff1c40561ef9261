import GaussMatrix.Library.Runs

/-!
# Queues of requests

Requests that wait in their order until a step settles them, each under a key of its own.
-/

namespace GaussMatrix.Library

variable {σ ι χ ρ κ : Type}

/-- The requests of the steps that no later step settles, in order. -/
def outstanding (request : χ → Option ρ) (settles : χ → ρ → Bool) : List χ → List ρ
  | [] => []
  | x :: later =>
      ((request x).toList.filter fun r => !later.any fun y => settles y r) ++
        outstanding request settles later

section

variable {request : χ → Option ρ} {settles : χ → ρ → Bool}

/-- A step takes what it settles out of the queue, and puts its own request at the end. -/
theorem outstanding_concat (xs : List χ) (x : χ) :
    outstanding request settles (xs ++ [x]) =
      ((outstanding request settles xs).filter fun r => !settles x r) ++ (request x).toList := by
  induction xs with
  | nil => simp [outstanding]
  | cons y xs ih =>
      have hlater : ∀ r, (!(xs ++ [x]).any fun z => settles z r) =
          ((!settles x r) && !xs.any fun z => settles z r) := by
        intro r
        rw [List.any_append, List.any_cons, List.any_nil, Bool.or_false, Bool.not_or, Bool.and_comm]
      rw [List.cons_append, outstanding, outstanding, ih, List.filter_append, List.filter_filter,
        List.append_assoc]
      simp only [hlater]

end

section

variable {step : σ → ι → σ} {request : σ × ι → Option ρ} {settles : σ × ι → ρ → Bool}
  {pending : σ → List ρ} {s : σ} {is : List ι}

/-- A queue that each step of a run changes as a queue changes holds what is outstanding. -/
theorem pending_run (hs : pending s = [])
    (hstep : ∀ x ∈ trace step s is, pending (step x.1 x.2) =
      ((pending x.1).filter fun r => !settles x r) ++ (request x).toList) :
    pending (run step s is) = outstanding request settles (trace step s is) := by
  induction is using List.reverseRecOn with
  | nil => exact hs
  | append_singleton is i ih =>
      rw [trace_append, List.forall_mem_append] at hstep
      have hlast := hstep.2 (run step s is, i) (List.mem_singleton_self _)
      rw [run_append, trace_append]
      show pending (step (run step s is) i) = outstanding _ _ (_ ++ [(run step s is, i)])
      rw [hlast, ih hstep.1, outstanding_concat]

end

/-! ## Keys -/

/-- Where no two keys are equal, the first with a key is the only one. -/
theorem eraseP_eq_filter [DecidableEq κ] {key : ρ → κ} {l : List ρ} (h : (l.map key).Nodup) (k : κ) :
    l.eraseP (fun r => key r = k) = l.filter fun r => !decide (key r = k) := by
  induction l with
  | nil => rfl
  | cons r l ih =>
      rw [List.map_cons, List.nodup_cons] at h
      by_cases hr : key r = k
      · have hrest : ∀ q ∈ l, (!decide (key q = k)) = true := by
          intro q hq
          have hne : key q ≠ k := by
            intro heq
            apply h.1
            rw [hr, ← heq]
            exact List.mem_map_of_mem hq
          rw [decide_eq_false hne]
          rfl
        rw [List.eraseP_cons_of_pos (by simpa using hr), List.filter_cons_of_neg (by simpa using hr),
          List.filter_eq_self.mpr hrest]
      · rw [List.eraseP_cons_of_neg (by simpa using hr), List.filter_cons_of_pos (by simpa using hr),
          ih h.2]

theorem injOn_ofNat : Set.InjOn UInt64.ofNat {n | n < 2 ^ 64} := by
  intro m hm n hn h
  have hnat := congrArg UInt64.toNat h
  rw [UInt64.toNat_ofNat_of_lt' hm, UInt64.toNat_ofNat_of_lt' hn] at hnat
  exact hnat

/-- The first numbers of a counter of 64 bits are pairwise distinct. -/
theorem nodup_map_ofNat_range {n : Nat} (h : n ≤ 2 ^ 64) :
    ((List.range n).map UInt64.ofNat).Nodup := by
  apply List.nodup_range.map_on
  intro a ha b hb hab
  have ha' := List.mem_range.mp ha
  have hb' := List.mem_range.mp hb
  exact injOn_ofNat (show a < 2 ^ 64 by omega) (show b < 2 ^ 64 by omega) hab

end GaussMatrix.Library
