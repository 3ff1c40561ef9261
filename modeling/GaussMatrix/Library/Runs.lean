import Mathlib

/-!
# Runs of a deterministic machine

A machine is a step function over states and inputs.  A run folds it over a list of inputs; a guard
is a condition on a state and the next input, and a guarded run meets it at every step.
-/

namespace GaussMatrix.Library

variable {σ ι : Type}

/-- The state a run over `is` ends in. -/
def run (step : σ → ι → σ) (s : σ) (is : List ι) : σ := is.foldl step s

/-- Every step of the run from `s` over `is` meets the guard `g` in the state it starts from. -/
def Guarded (step : σ → ι → σ) (g : σ → ι → Prop) : σ → List ι → Prop
  | _, [] => True
  | s, i :: is => g s i ∧ Guarded step g (step s i) is

/-- The steps of the run from `s` over `is`: the state each starts from, and its input. -/
def trace (step : σ → ι → σ) : σ → List ι → List (σ × ι)
  | _, [] => []
  | s, i :: is => (s, i) :: trace step (step s i) is

attribute [local simp] Guarded trace

variable {step : σ → ι → σ} {g g' : σ → ι → Prop} {P : σ → Prop}

@[simp] theorem run_nil (s : σ) : run step s [] = s := rfl

@[simp] theorem run_cons (s : σ) (i : ι) (is : List ι) :
    run step s (i :: is) = run step (step s i) is := rfl

theorem run_append (s : σ) (is js : List ι) :
    run step s (is ++ js) = run step (run step s is) js :=
  List.foldl_append

/-- A property that every guarded step keeps holds at the end of a guarded run. -/
theorem Guarded.run_of_step (hstep : ∀ s i, P s → g s i → P (step s i)) {s : σ} {is : List ι}
    (hs : P s) (hg : Guarded step g s is) : P (run step s is) := by
  induction is generalizing s with
  | nil => exact hs
  | cons i is ih => exact ih (hstep s i hs hg.1) hg.2

/-- A property that every step keeps holds at the end of every run. -/
theorem run_of_step (hstep : ∀ s i, P s → P (step s i)) {s : σ} (hs : P s) (is : List ι) :
    P (run step s is) := by
  induction is generalizing s with
  | nil => exact hs
  | cons i is ih => exact ih (hstep s i hs)

theorem Guarded.append {s : σ} {is js : List ι} :
    Guarded step g s (is ++ js) ↔ Guarded step g s is ∧ Guarded step g (run step s is) js := by
  induction is generalizing s with
  | nil => simp [Guarded]
  | cons i is ih => simp [Guarded, ih, and_assoc]

theorem Guarded.mono (h : ∀ s i, g s i → g' s i) {s : σ} {is : List ι}
    (hg : Guarded step g s is) : Guarded step g' s is := by
  induction is generalizing s with
  | nil => trivial
  | cons i is ih => exact ⟨h s i hg.1, ih hg.2⟩

/-- A guarded run is no longer than a potential that each of its steps lowers. -/
theorem Guarded.length_le {potential : σ → Nat}
    (hstep : ∀ s i, g s i → potential (step s i) < potential s) {s : σ} {is : List ι}
    (hg : Guarded step g s is) : is.length ≤ potential s := by
  induction is generalizing s with
  | nil => exact Nat.zero_le _
  | cons i is ih =>
      have hlower := hstep s i hg.1
      have hrest := ih hg.2
      rw [List.length_cons]
      omega

/-- A run is guarded when each step of its trace meets the guard. -/
theorem guarded_iff_trace {s : σ} {is : List ι} :
    Guarded step g s is ↔ ∀ x ∈ trace step s is, g x.1 x.2 := by
  induction is generalizing s with
  | nil => simp [Guarded, trace]
  | cons i is ih => simp [Guarded, trace, ih]

theorem trace_append (s : σ) (is js : List ι) :
    trace step s (is ++ js) = trace step s is ++ trace step (run step s is) js := by
  induction is generalizing s with
  | nil => rfl
  | cons i is ih => rw [List.cons_append, trace, trace, ih, run_cons, List.cons_append]

/-- A trace takes the inputs in their order. -/
theorem map_snd_trace (s : σ) (is : List ι) : (trace step s is).map Prod.snd = is := by
  induction is generalizing s with
  | nil => rfl
  | cons i is ih => rw [trace, List.map_cons, ih]

/-- Each step of a trace starts where the run over the inputs before it ends. -/
theorem exists_prefix_of_mem_trace {s t : σ} {i : ι} {is : List ι}
    (h : (t, i) ∈ trace step s is) :
    ∃ before after, is = before ++ i :: after ∧ t = run step s before := by
  induction is generalizing s with
  | nil => simp [trace] at h
  | cons j is ih =>
      rcases List.mem_cons.mp h with h | h
      · obtain ⟨rfl, rfl⟩ := Prod.mk.inj h
        exact ⟨[], is, rfl, rfl⟩
      · obtain ⟨before, after, rfl, rfl⟩ := ih h
        exact ⟨j :: before, after, rfl, rfl⟩

theorem mem_of_mem_trace {s t : σ} {i : ι} {is : List ι} (h : (t, i) ∈ trace step s is) :
    i ∈ is := by
  obtain ⟨before, after, rfl, -⟩ := exists_prefix_of_mem_trace h
  simp

/-- A property that each step of a trace keeps holds before each of the steps and at the end. -/
theorem holds_along_trace {s : σ} {is : List ι} (hs : P s)
    (h : ∀ x ∈ trace step s is, P x.1 → P (step x.1 x.2)) :
    (∀ x ∈ trace step s is, P x.1) ∧ P (run step s is) := by
  induction is generalizing s with
  | nil => exact ⟨by simp [trace], hs⟩
  | cons i is ih =>
      simp only [trace, List.forall_mem_cons] at h ⊢
      obtain ⟨hrest, hend⟩ := ih (h.1 hs) h.2
      exact ⟨⟨hs, hrest⟩, hend⟩

/-! ## What holds throughout a run -/

/-- A property holds in every state that a run comes to. -/
def Throughout (step : σ → ι → σ) (s : σ) (is : List ι) (P : σ → Prop) : Prop :=
  ∀ before after, is = before ++ after → P (run step s before)

/-- A property holds throughout a run when it holds at first and each step keeps it. -/
theorem throughout_of_steps {s : σ} {is : List ι} (hs : P s)
    (h : ∀ x ∈ trace step s is, P x.1 → P (step x.1 x.2)) : Throughout step s is P := by
  intro before after his
  apply (holds_along_trace hs _).2
  intro x hx
  apply h
  rw [his, trace_append]
  exact List.mem_append_left _ hx

theorem Throughout.first {s : σ} {is : List ι} (h : Throughout step s is P) : P s := h [] is rfl

/-- What holds throughout a run holds before and after each of its steps. -/
theorem Throughout.of_mem_trace {s : σ} {is : List ι} (h : Throughout step s is P) {x : σ × ι}
    (hx : x ∈ trace step s is) : P x.1 ∧ P (step x.1 x.2) := by
  obtain ⟨before, after, his, hstate⟩ := exists_prefix_of_mem_trace hx
  constructor
  · rw [hstate]
    exact h before (x.2 :: after) his
  · have hlast := h (before ++ [x.2]) after (by rw [his, List.append_assoc]; rfl)
    rw [run_append, ← hstate] at hlast
    exact hlast

/-- A property that a step keeps exactly under a guard holds throughout a run exactly when each step
meets the guard. -/
theorem throughout_iff_trace (hstep : ∀ s i, P s → (P (step s i) ↔ g s i)) {s : σ} {is : List ι}
    (hs : P s) : Throughout step s is P ↔ ∀ x ∈ trace step s is, g x.1 x.2 := by
  constructor
  · intro h x hx
    obtain ⟨hbefore, hafter⟩ := h.of_mem_trace hx
    exact (hstep x.1 x.2 hbefore).mp hafter
  · intro h
    apply throughout_of_steps hs
    intro x hx hbefore
    exact (hstep x.1 x.2 hbefore).mpr (h x hx)

/-! ## Changes along a trace -/

/-- A trace cut at a step goes on from the state that the step leaves. -/
theorem trace_eq_append_cons {s : σ} {is : List ι} {before after : List (σ × ι)} {x : σ × ι}
    (h : trace step s is = before ++ x :: after) :
    ∃ later, after = trace step (step x.1 x.2) later := by
  induction is generalizing s before with
  | nil => simp [trace] at h
  | cons i is ih =>
      cases before with
      | nil =>
          obtain ⟨rfl, rfl⟩ := List.cons.inj h
          exact ⟨is, rfl⟩
      | cons y before => exact ih (List.cons.inj h).2

/-- Before a state with the property that a trace reaches from one without it, a step brings it
about. -/
theorem exists_step_of_change {s : σ} {is : List ι} {y : σ × ι} (hy : y ∈ trace step s is)
    (hbefore : ¬ P s) (hafter : P y.1) :
    ∃ x, ¬ P x.1 ∧ P (step x.1 x.2) ∧ [x, y].Sublist (trace step s is) := by
  induction is generalizing s with
  | nil => simp [trace] at hy
  | cons i is ih =>
      rcases List.mem_cons.mp hy with rfl | hy
      · exact absurd hafter hbefore
      · by_cases hstep : P (step s i)
        · exact ⟨(s, i), hbefore, hstep, (List.singleton_sublist.mpr hy).cons_cons _⟩
        · obtain ⟨x, hx, hx', hsub⟩ := ih hy hstep
          exact ⟨x, hx, hx', hsub.cons _⟩

/-- Between a step that ends the property and a later state that has it, a step brings it about. -/
theorem exists_between_of_change {s : σ} {is : List ι} {w z y : σ × ι}
    (h : [w, z, y].Sublist (trace step s is)) (hz : ¬ P (step z.1 z.2)) (hy : P y.1) :
    ∃ x, ¬ P x.1 ∧ P (step x.1 x.2) ∧ [w, x, y].Sublist (trace step s is) := by
  obtain ⟨front, rest, htrace, hw, hrest⟩ := List.cons_sublist_iff.mp h
  obtain ⟨mid, last, rfl, hz', hlast⟩ := List.cons_sublist_iff.mp hrest
  obtain ⟨pre, post, rfl⟩ := List.append_of_mem hz'
  have hcut : trace step s is = (front ++ pre) ++ z :: (post ++ last) := by
    rw [htrace]
    simp
  obtain ⟨later, hlater⟩ := trace_eq_append_cons hcut
  have hmem : y ∈ trace step (step z.1 z.2) later := by
    rw [← hlater]
    exact List.mem_append_right _ (List.singleton_sublist.mp hlast)
  obtain ⟨x, hx, hx', hsub⟩ := exists_step_of_change hmem hz hy
  refine ⟨x, hx, hx', ?_⟩
  rw [hcut, hlater, List.append_assoc]
  exact (List.singleton_sublist.mpr hw).append ((hsub.cons z).trans (List.sublist_append_right _ _))

/-! ## What is read at the end -/

/-- The last step of a trace that meets a test. -/
def lastStep (test : σ × ι → Bool) (steps : List (σ × ι)) : Option (σ × ι) :=
  (steps.filter test).getLast?

theorem mem_of_lastStep {test : σ × ι → Bool} {steps : List (σ × ι)} {x : σ × ι}
    (h : lastStep test steps = some x) : x ∈ steps ∧ test x = true :=
  List.mem_filter.mp (List.mem_of_getLast? h)

/-- When each step either writes its own value or leaves what is read alone, the last step that
writes decides what is read at the end. -/
theorem read_run {β : Type} {read : σ → Option β} {value : ι → β} {writes : σ × ι → Bool}
    (hwrite : ∀ s i, writes (s, i) = true → read (step s i) = some (value i))
    (hkeep : ∀ s i, writes (s, i) = false → read (step s i) = read s) (s : σ) (is : List ι) :
    read (run step s is) =
      ((lastStep writes (trace step s is)).map fun x => value x.2).or (read s) := by
  induction is generalizing s with
  | nil => rfl
  | cons i is ih =>
      rw [run_cons, ih, trace, lastStep, lastStep]
      cases hstep : writes (s, i) with
      | true =>
          rw [List.filter_cons_of_pos hstep, hwrite s i hstep, List.getLast?_cons]
          cases (List.filter writes (trace step (step s i) is)).getLast? with
          | none => rfl
          | some x => rfl
      | false =>
          have hskip : ¬ writes (s, i) = true := by
            rw [hstep]
            decide
          rw [List.filter_cons_of_neg hskip, hkeep s i hstep]

/-! ## Numbers taken from a counter -/

/-- What is made from the numbers of a counter that goes past each number it gives out is given out
once. -/
theorem nodup_issued {κ : Type} (count : σ → Nat) {issue : σ × ι → Option κ} {value : Nat → κ}
    {bound : Nat} {s : σ} {is : List ι} (hinj : Set.InjOn value {n | n < bound})
    (h : ∀ x ∈ trace step s is, count x.1 < bound ∧ count x.1 ≤ count (step x.1 x.2) ∧
      ∀ k, issue x = some k → k = value (count x.1) ∧ count x.1 < count (step x.1 x.2)) :
    ((trace step s is).filterMap issue).Nodup := by
  suffices hfrom : ((trace step s is).filterMap issue).Nodup ∧
      ∀ k ∈ (trace step s is).filterMap issue, ∃ n, count s ≤ n ∧ n < bound ∧ k = value n from hfrom.1
  induction is generalizing s with
  | nil => exact ⟨List.nodup_nil, fun k hk => absurd hk List.not_mem_nil⟩
  | cons i is ih =>
      rw [trace, List.forall_mem_cons] at h
      obtain ⟨⟨hbound, hmono, hissue⟩, hrest⟩ := h
      obtain ⟨hnodup, hlater⟩ := ih hrest
      rw [trace, List.filterMap_cons]
      cases hk : issue (s, i) with
      | none =>
          refine ⟨hnodup, fun k hmem => ?_⟩
          obtain ⟨n, hn, hlt, hvalue⟩ := hlater k hmem
          exact ⟨n, hmono.trans hn, hlt, hvalue⟩
      | some k =>
          obtain ⟨hvalue, hpast⟩ := hissue k hk
          have hpast : count s < count (step s i) := hpast
          refine ⟨List.nodup_cons.mpr ⟨fun hmem => ?_, hnodup⟩, fun k' hmem => ?_⟩
          · obtain ⟨n, hn, hlt, hvalue'⟩ := hlater k hmem
            have heq : count s = n := hinj hbound hlt (hvalue.symm.trans hvalue')
            omega
          · rcases List.mem_cons.mp hmem with rfl | hmem
            · exact ⟨count s, le_rfl, hbound, hvalue⟩
            · obtain ⟨n, hn, hlt, hvalue'⟩ := hlater k' hmem
              exact ⟨n, hmono.trans hn, hlt, hvalue'⟩

/-- A counter that a step raises by one at most is bounded by the length of the run. -/
theorem count_run_le (count : σ → Nat) (h : ∀ s i, count (step s i) ≤ count s + 1) (s : σ)
    (is : List ι) : count (run step s is) ≤ count s + is.length := by
  induction is generalizing s with
  | nil => exact le_rfl
  | cons i is ih =>
      have hrest := ih (step s i)
      have hstep := h s i
      rw [run_cons, List.length_cons]
      omega

/-! ## Histories -/

section

variable {κ : Type} {issue : σ × ι → Option κ} {I : List κ → σ → Prop} {s : σ} {is : List ι}

/-- What each step keeps of the history of issued values and the state holds at the end of a run. -/
theorem history_run (hs : I [] s)
    (hstep : ∀ x ∈ trace step s is, ∀ h, I h x.1 → I (h ++ (issue x).toList) (step x.1 x.2)) :
    I ((trace step s is).filterMap issue) (run step s is) := by
  induction is using List.reverseRecOn with
  | nil => exact hs
  | append_singleton is i ih =>
      rw [trace_append, List.forall_mem_append] at hstep
      have hlast := hstep.2 (run step s is, i) (List.mem_singleton_self _) _ (ih hstep.1)
      rw [trace_append, List.filterMap_append, run_append]
      have hissue : [(run step s is, i)].filterMap issue = (issue (run step s is, i)).toList := by
        rw [List.filterMap_cons]
        cases issue (run step s is, i) <;> rfl
      rw [trace, trace, hissue]
      exact hlast

/-- If before each value with the property fewer than a bound of them were issued, no more than the
bound are issued in all. -/
theorem countP_history_le {p : κ → Bool} {bound : Nat} (hs : I [] s)
    (hstep : ∀ x ∈ trace step s is, ∀ h, I h x.1 → I (h ++ (issue x).toList) (step x.1 x.2) ∧
      ∀ k, issue x = some k → p k → h.countP p < bound) :
    ((trace step s is).filterMap issue).countP p ≤ bound := by
  suffices hboth : I ((trace step s is).filterMap issue) (run step s is) ∧
      ((trace step s is).filterMap issue).countP p ≤ bound from hboth.2
  apply history_run (I := fun h s => I h s ∧ h.countP p ≤ bound) ⟨hs, Nat.zero_le _⟩
  intro x hx h hh
  obtain ⟨hkeep, hfew⟩ := hstep x hx h hh.1
  refine ⟨hkeep, ?_⟩
  rw [List.countP_append]
  cases hk : issue x with
  | none => exact hh.2
  | some k =>
      rw [Option.toList_some, List.countP_singleton]
      split
      · exact hfew k hk ‹_›
      · exact hh.2

end

end GaussMatrix.Library
