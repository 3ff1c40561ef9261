import Mathlib

/-!
# Steps that a crash may cut

A program is a list of atomic steps on a state that outlives a crash.  A crash leaves the state
after some of the steps.  A program meets its contract when its steps succeed, every such state meets
the crash condition, and the last one the postcondition.
-/

namespace GaussMatrix.Library

variable {σ ε : Type}

/-- An atomic step, which may fail. -/
abbrev Action (σ ε : Type) := σ → Except ε σ

/-- Take the steps in order, up to the first that fails. -/
def runSteps : List (Action σ ε) → Action σ ε
  | [], s => .ok s
  | step :: steps, s =>
      match step s with
      | .ok s' => runSteps steps s'
      | .error e => .error e

/-- From a state with `P` the steps succeed; a crash leaves one with `C`, and the end one with `Q`. -/
structure CrashSafe (C P : σ → Prop) (steps : List (Action σ ε)) (Q : σ → Prop) : Prop where
  crash : ∀ s, P s → ∀ n, ∃ s', runSteps (steps.take n) s = .ok s' ∧ C s'
  finish : ∀ s, P s → ∃ s', runSteps steps s = .ok s' ∧ Q s'

namespace CrashSafe

variable {C P Q R : σ → Prop} {step : Action σ ε} {steps later : List (Action σ ε)}

theorem nil (h : ∀ s, P s → C s ∧ Q s) : CrashSafe (ε := ε) C P [] Q where
  crash s hs n := ⟨s, by rw [List.take_nil]; rfl, (h s hs).1⟩
  finish s hs := ⟨s, rfl, (h s hs).2⟩

theorem cons (hstep : ∀ s, P s → C s ∧ ∃ s', step s = .ok s' ∧ R s')
    (hsteps : CrashSafe C R steps Q) : CrashSafe C P (step :: steps) Q where
  crash s hs n := by
    obtain ⟨hcrash, s', hs', hR⟩ := hstep s hs
    cases n with
    | zero => exact ⟨s, rfl, hcrash⟩
    | succ n =>
        obtain ⟨t, ht, hC⟩ := hsteps.crash s' hR n
        exact ⟨t, by rw [List.take_succ_cons, runSteps, hs']; exact ht, hC⟩
  finish s hs := by
    obtain ⟨-, s', hs', hR⟩ := hstep s hs
    obtain ⟨t, ht, hQ⟩ := hsteps.finish s' hR
    exact ⟨t, by rw [runSteps, hs']; exact ht, hQ⟩

/-- One program after the other. -/
theorem append (h : CrashSafe C P steps R) (hlater : CrashSafe C R later Q) :
    CrashSafe C P (steps ++ later) Q := by
  induction steps generalizing P with
  | nil =>
      constructor
      · intro s hs n
        obtain ⟨s', hs', hR⟩ := h.finish s hs
        obtain rfl := Except.ok.inj hs'
        exact hlater.crash s hR n
      · intro s hs
        obtain ⟨s', hs', hR⟩ := h.finish s hs
        obtain rfl := Except.ok.inj hs'
        exact hlater.finish s hR
  | cons step steps ih =>
      have hfirst : ∀ s, P s → C s ∧ ∃ s', step s = .ok s' ∧ ∃ t, P t ∧ step t = .ok s' := by
        intro s hs
        obtain ⟨s₀, hs₀, hC⟩ := h.crash s hs 0
        obtain rfl := Except.ok.inj hs₀
        obtain ⟨t, ht, -⟩ := h.finish s hs
        cases hstep : step s with
        | ok s' => exact ⟨hC, s', rfl, s, hs, hstep⟩
        | error e =>
            rw [runSteps, hstep] at ht
            cases ht
      apply cons hfirst
      apply ih
      constructor
      · rintro s' ⟨s, hs, hstep⟩ n
        obtain ⟨t, ht, hC⟩ := h.crash s hs (n + 1)
        rw [List.take_succ_cons, runSteps, hstep] at ht
        exact ⟨t, ht, hC⟩
      · rintro s' ⟨s, hs, hstep⟩
        obtain ⟨t, ht, hR⟩ := h.finish s hs
        rw [runSteps, hstep] at ht
        exact ⟨t, ht, hR⟩

end CrashSafe

end GaussMatrix.Library
