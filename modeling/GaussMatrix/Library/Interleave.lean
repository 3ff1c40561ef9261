import GaussMatrix.Library.Runs

/-!
# Interleavings

Threads over one shared state, each with a phase of its own.  A schedule names the thread that takes
each atomic step; a thread that has to wait lets its step pass.
-/

namespace GaussMatrix.Library

/-- The shared state and the phase of each thread. -/
structure Threads (ι σ τ : Type) where
  shared : σ
  phase : ι → τ

namespace Threads

variable {ι σ τ : Type} [DecidableEq ι] {next : ι → σ → τ → σ × τ} {c : Threads ι σ τ} {i j : ι}

/-- One atomic step of a thread. -/
def step (next : ι → σ → τ → σ × τ) (c : Threads ι σ τ) (i : ι) : Threads ι σ τ where
  shared := (next i c.shared (c.phase i)).1
  phase := Function.update c.phase i (next i c.shared (c.phase i)).2

@[simp] theorem step_shared : (step next c i).shared = (next i c.shared (c.phase i)).1 := rfl

@[simp] theorem step_phase_self : (step next c i).phase i = (next i c.shared (c.phase i)).2 :=
  Function.update_self ..

theorem step_phase_of_ne (h : j ≠ i) : (step next c i).phase j = c.phase j :=
  Function.update_of_ne h ..

/-- A thread stays in a phase that its own steps do not leave. -/
theorem phase_run_of_stays {p : τ} (hstays : ∀ s, (next i s p).2 = p) (h : c.phase i = p)
    (schedule : List ι) : (run (step next) c schedule).phase i = p := by
  refine run_of_step (P := fun d : Threads ι σ τ => d.phase i = p) (fun d j hd => ?_) h schedule
  by_cases hij : i = j
  · subst hij
    rw [step_phase_self, hd, hstays]
  · rw [step_phase_of_ne hij, hd]

/-! ## Amounts held -/

section

variable {pool : Finset ι} {held : τ → Nat}

omit [DecidableEq ι]

/-- What the threads of a pool hold together, each as much as its phase does. -/
def total (pool : Finset ι) (held : τ → Nat) (c : Threads ι σ τ) : Nat :=
  ∑ i ∈ pool, held (c.phase i)

theorem le_total (hi : i ∈ pool) : held (c.phase i) ≤ total pool held c :=
  Finset.single_le_sum (f := fun j => held (c.phase j)) (fun _ _ => Nat.zero_le _) hi

theorem total_eq_zero (h : ∀ i ∈ pool, held (c.phase i) = 0) : total pool held c = 0 :=
  Finset.sum_eq_zero h

end

/-- A step changes the total by what it changes for its thread. -/
theorem total_step {pool : Finset ι} {held : τ → Nat} (hi : i ∈ pool) :
    total pool held (step next c i) + held (c.phase i) =
      total pool held c + held (next i c.shared (c.phase i)).2 := by
  have hrest : ∀ j ∈ pool.erase i, held ((step next c i).phase j) = held (c.phase j) := by
    intro j hj
    rw [step_phase_of_ne (Finset.ne_of_mem_erase hj)]
  have hafter := Finset.add_sum_erase pool (fun j => held ((step next c i).phase j)) hi
  have hbefore := Finset.add_sum_erase pool (fun j => held (c.phase j)) hi
  simp only [step_phase_self, Finset.sum_congr rfl hrest] at hafter
  simp only [total]
  omega

/-! ## Locks -/

/-- The threads inside the section are those that hold the lock. -/
def Exclusive (holder : σ → Option ι) (inside : τ → Bool) (c : Threads ι σ τ) : Prop :=
  ∀ i, inside (c.phase i) = true ↔ holder c.shared = some i

/-- What a step of the thread `i` may do to a lock: leave it as it is, take it, or release it. -/
def LockStep (holder : σ → Option ι) (inside : τ → Bool) (i : ι) (s s' : σ) (p p' : τ) : Prop :=
  (holder s' = holder s ∧ inside p' = inside p) ∨
    (holder s = none ∧ holder s' = some i ∧ inside p' = true) ∨
      (inside p = true ∧ holder s' = none ∧ inside p' = false)

variable {holder : σ → Option ι} {inside : τ → Bool}

omit [DecidableEq ι] in
theorem Exclusive.eq (h : Exclusive holder inside c) (hi : inside (c.phase i) = true)
    (hj : inside (c.phase j) = true) : i = j :=
  Option.some.inj (((h i).mp hi).symm.trans ((h j).mp hj))

/-- A lock keeps the section exclusive. -/
theorem Exclusive.step (h : Exclusive holder inside c)
    (hstep : LockStep holder inside i c.shared (next i c.shared (c.phase i)).1 (c.phase i)
      (next i c.shared (c.phase i)).2) :
    Exclusive holder inside (step next c i) := by
  intro j
  have hself := h i
  have hother := h j
  by_cases hj : j = i
  · subst hj
    rw [step_phase_self, step_shared]
    rcases hstep with ⟨hsame, hin⟩ | ⟨-, htaken, hin⟩ | ⟨-, hfree, hout⟩
    · rw [hsame, hin]
      exact hself
    · rw [htaken, hin]
      simp
    · rw [hfree, hout]
      simp
  · rw [step_phase_of_ne hj, step_shared]
    rcases hstep with ⟨hsame, -⟩ | ⟨hfree, htaken, -⟩ | ⟨hin, hfree, -⟩
    · rw [hsame]
      exact hother
    · rw [hother, hfree, htaken]
      simp [Ne.symm hj]
    · rw [hother, hself.mp hin, hfree]
      simp [Ne.symm hj]

end Threads

end GaussMatrix.Library
