import GaussMatrix.Library.Interleave
import GaussMatrix.StateRes.Cache
import GaussMatrix.StateRes.Termination

/-!
# The workers of a batch

A worker takes the next index, asks the cache, resolves and inserts after a miss, and stores the
result.  Between two of its atomic steps the others take theirs, so several may miss on one key.
-/

namespace GaussMatrix.StateRes

open Library Util Api Api.Events

/-! ## The atomic steps -/

/-- What the workers of a batch of `n` jobs share. -/
structure BatchShared (n : Nat) where
  engine : ParallelResolver
  next : Nat
  results : Fin n → Option StateMap

/-- Where a worker stands: the job it has taken, and what it has found out about it. -/
inductive Stage (n : Nat)
  | idle
  | taken (i : Fin n)
  | missed (i : Fin n)
  | resolving (i : Fin n)
  | inserting (i : Fin n) (resolved : StateMap)
  | storing (i : Fin n) (resolved : StateMap)
  | stopped
  deriving DecidableEq

/-- One atomic step of a worker.  A resolution that does not return is never left. -/
def workerNext (verifyB64 : VerifyB64) (jobs : List ResolveCall) (s : BatchShared jobs.length) :
    Stage jobs.length → BatchShared jobs.length × Stage jobs.length
  | .idle =>
      ({ s with next := s.next + 1 },
        if h : s.next < jobs.length then .taken ⟨s.next, h⟩ else .stopped)
  | .taken i =>
      let (unconflicted, conflicted) := separate (jobs.get i).states
      if conflicted.entries = [] then (s, .storing i unconflicted)
      else
        match s.engine.cache.get (inputKey (jobs.get i).states) with
        -- the hit is counted while the lock is held
        | some cached =>
            ({ s with engine := { s.engine with hits := s.engine.hits + 1 } }, .storing i cached)
        | none => (s, .missed i)
  | .missed i =>
      ({ s with engine := { s.engine with misses := s.engine.misses + 1 } }, .resolving i)
  | .resolving i =>
      match resolve verifyB64 (jobs.get i).order (jobs.get i).states (jobs.get i).pdus with
      | some resolved => (s, .inserting i resolved)
      | none => (s, .resolving i)
  | .inserting i resolved =>
      let cache := s.engine.cache.insert (inputKey (jobs.get i).states) resolved
      ({ s with engine := { s.engine with cache } }, .storing i resolved)
  | .storing i resolved => ({ s with results := Function.update s.results i (some resolved) }, .idle)
  | .stopped => (s, .stopped)

/-- A batch under way.  Numbers past the pool are of no worker. -/
abbrev BatchState (n : Nat) := Threads Nat (BatchShared n) (Stage n)

def batchStart (engine : ParallelResolver) (jobs : List ResolveCall) : BatchState jobs.length where
  shared := ⟨engine, 0, fun _ => none⟩
  phase w := if w < engine.workers then .idle else .stopped

def batchStep (verifyB64 : VerifyB64) (jobs : List ResolveCall) :
    BatchState jobs.length → Nat → BatchState jobs.length :=
  Threads.step fun _ => workerNext verifyB64 jobs

def batchRun (verifyB64 : VerifyB64) (engine : ParallelResolver) (jobs : List ResolveCall)
    (schedule : List Nat) : BatchState jobs.length :=
  run (batchStep verifyB64 jobs) (batchStart engine jobs) schedule

/-- The results, each unwrapped. -/
def unwrapAll {n : Nat} (results : Fin n → Option StateMap) : Option (List StateMap) :=
  (List.ofFn results).mapM id

/-- Whether a worker can go on: it has not stopped, and is not in a resolution that does not
return. -/
def Stage.GoesOn (verifyB64 : VerifyB64) (jobs : List ResolveCall) : Stage jobs.length → Prop
  | .stopped => False
  | .resolving i => ((jobs.get i).plain verifyB64).isSome
  | _ => True

/-! ## What a run leaves behind -/

namespace Stage

variable {n : Nat}

/-- The job a worker has in hand. -/
def job : Stage n → Option (Fin n)
  | idle | stopped => none
  | taken i | missed i | resolving i | inserting i _ | storing i _ => some i

/-- The slot that the next step stores. -/
def slotStored : Stage n → Option (Fin n)
  | storing i _ => some i
  | _ => none

/-- The job whose key the next step inserts. -/
def inserted : Stage n → Option (Fin n)
  | inserting i _ => some i
  | _ => none

end Stage

section

variable (verifyB64 : VerifyB64) (engine : ParallelResolver) (jobs : List ResolveCall)
  (schedule : List Nat)

/-- The slots that a run stores, in order. -/
def slotsStored : List (Fin jobs.length) :=
  (trace (batchStep verifyB64 jobs) (batchStart engine jobs) schedule).filterMap fun x =>
    (x.1.phase x.2).slotStored

/-- The keys that a run inserts, in order. -/
def keysInserted : List (List Str) :=
  (trace (batchStep verifyB64 jobs) (batchStart engine jobs) schedule).filterMap fun x =>
    (x.1.phase x.2).inserted.map fun i => (jobs.get i).key

end

/-- A batch of an engine's life, with the order in which its workers step. -/
structure BatchRun where
  jobs : List ResolveCall
  schedule : List Nat

section

variable (verifyB64 : VerifyB64) (engine : ParallelResolver) (batches : List BatchRun)

def afterBatch (engine : ParallelResolver) (batch : BatchRun) : ParallelResolver :=
  (batchRun verifyB64 engine batch.jobs batch.schedule).shared.engine

def engineAfter : ParallelResolver := run (afterBatch verifyB64) engine batches

/-- The keys that the batches insert, in order. -/
def everInserted : List (List Str) :=
  (trace (afterBatch verifyB64) engine batches).flatMap fun x =>
    keysInserted verifyB64 x.1 x.2.jobs x.2.schedule

end

/-- The state is the unconflicted one of a job without a conflict, and otherwise the plain resolution
of one of the calls with the job's key. -/
def AnswersFor (verifyB64 : VerifyB64) (calls : List ResolveCall) (job : ResolveCall)
    (m : StateMap) : Prop :=
  if job.conflicted then
    ∃ call ∈ calls, call.conflicted ∧ call.key = job.key ∧ call.plain verifyB64 = some m
  else m = (separate job.states).1

/-! ## One step -/

/-- What the steps of a worker do, one by one. -/
inductive WorkerStep (verifyB64 : VerifyB64) (jobs : List ResolveCall) :
    BatchShared jobs.length → Stage jobs.length → BatchShared jobs.length → Stage jobs.length → Prop
  | take {s} (h : s.next < jobs.length) :
      WorkerStep verifyB64 jobs s .idle { s with next := s.next + 1 } (.taken ⟨s.next, h⟩)
  | stop {s} (h : jobs.length ≤ s.next) :
      WorkerStep verifyB64 jobs s .idle { s with next := s.next + 1 } .stopped
  | done {s i} (h : (jobs.get i).conflicted = false) :
      WorkerStep verifyB64 jobs s (.taken i) s (.storing i (separate (jobs.get i).states).1)
  | hit {s i cached} (h : (jobs.get i).conflicted = true)
      (hk : s.engine.cache.get (jobs.get i).key = some cached) :
      WorkerStep verifyB64 jobs s (.taken i)
        { s with engine := { s.engine with hits := s.engine.hits + 1 } } (.storing i cached)
  | miss {s i} (h : (jobs.get i).conflicted = true) :
      WorkerStep verifyB64 jobs s (.taken i) s (.missed i)
  | count {s i} :
      WorkerStep verifyB64 jobs s (.missed i)
        { s with engine := { s.engine with misses := s.engine.misses + 1 } } (.resolving i)
  | resolve {s i m} (h : (jobs.get i).plain verifyB64 = some m) :
      WorkerStep verifyB64 jobs s (.resolving i) s (.inserting i m)
  | spin {s i} (h : (jobs.get i).plain verifyB64 = none) :
      WorkerStep verifyB64 jobs s (.resolving i) s (.resolving i)
  | insert {s i m} :
      WorkerStep verifyB64 jobs s (.inserting i m)
        { s with engine :=
          { s.engine with cache := s.engine.cache.insert (jobs.get i).key m } } (.storing i m)
  | store {s i m} :
      WorkerStep verifyB64 jobs s (.storing i m)
        { s with results := Function.update s.results i (some m) } .idle
  | rest {s} : WorkerStep verifyB64 jobs s .stopped s .stopped

section

variable {verifyB64 : VerifyB64} {jobs : List ResolveCall} {s s' : BatchShared jobs.length}
  {i : Fin jobs.length} {p p' : Stage jobs.length}

theorem workerNext_step (s : BatchShared jobs.length) (p : Stage jobs.length) :
    WorkerStep verifyB64 jobs s p (workerNext verifyB64 jobs s p).1
      (workerNext verifyB64 jobs s p).2 := by
  cases p with
  | idle =>
      simp only [workerNext]
      split
      next h => exact .take h
      next h => exact .stop (Nat.le_of_not_lt h)
  | taken i =>
      by_cases hnil : (separate (jobs.get i).states).2.entries = []
      · simp only [workerNext, hnil, if_true]
        exact .done (by rw [ResolveCall.conflicted, decide_eq_false_iff_not, not_not]; exact hnil)
      · have hc : (jobs.get i).conflicted = true := by
          rw [ResolveCall.conflicted, decide_eq_true_eq]
          exact hnil
        simp only [workerNext, hnil, if_false]
        split
        next cached hk => exact .hit hc hk
        next => exact .miss hc
  | missed i => exact .count
  | resolving i =>
      simp only [workerNext]
      split
      next resolved h => exact .resolve h
      next h => exact .spin h
  | inserting i resolved => exact .insert
  | storing i resolved => exact .store
  | stopped => exact .rest

namespace Stage

/-- Whether the worker has the job in hand. -/
def holds (i : Fin jobs.length) (p : Stage jobs.length) : Nat := if p.job = some i then 1 else 0

/-- Whether the worker has a job in hand whose hit or miss is still to be counted. -/
def uncounted (jobs : List ResolveCall) : Stage jobs.length → Nat
  | taken i => if (jobs.get i).conflicted then 1 else 0
  | missed _ => 1
  | _ => 0

/-- The number of steps a worker is from being done with its job, and with having stopped. -/
def stepsLeft : Stage jobs.length → Nat
  | stopped => 0
  | idle => 1
  | storing _ _ => 2
  | inserting _ _ => 3
  | resolving _ => 4
  | missed _ => 5
  | taken _ => 6

/-- What a worker knows of its job is right. -/
def Right (verifyB64 : VerifyB64) (calls jobs : List ResolveCall) : Stage jobs.length → Prop
  | missed i | resolving i => (jobs.get i).conflicted = true
  | inserting i m => (jobs.get i).conflicted = true ∧ (jobs.get i).plain verifyB64 = some m
  | storing i m => AnswersFor verifyB64 calls (jobs.get i) m
  | _ => True

end Stage

namespace WorkerStep

/-- A job goes from the shared index to a worker, and from its worker to its slot. -/
theorem handed (h : WorkerStep verifyB64 jobs s p s' p') (i : Fin jobs.length) :
    p.slotStored.toList.count i + p'.holds i + (if i < s.next then 1 else 0) =
      p.holds i + (if i < s'.next then 1 else 0) := by
  cases h with
  | take h =>
      simp only [Stage.slotStored, Stage.holds, Stage.job, Option.toList_none, List.count_nil,
        Option.some.injEq, Fin.ext_iff]
      grind
  | stop h =>
      have hlt := i.isLt
      simp only [Stage.slotStored, Stage.holds, Stage.job, Option.toList_none, List.count_nil]
      grind
  | store =>
      simp only [Stage.slotStored, Stage.holds, Stage.job, Option.toList_some, List.count_singleton]
      grind
  | _ => simp [Stage.slotStored, Stage.holds, Stage.job]

/-- Every conflicted job that is handed out is counted once, as a hit or as a miss. -/
theorem counted (h : WorkerStep verifyB64 jobs s p s' p') :
    s'.engine.hits + s'.engine.misses + p'.uncounted jobs +
        (jobs.take s.next).countP ResolveCall.conflicted =
      s.engine.hits + s.engine.misses + p.uncounted jobs +
        (jobs.take s'.next).countP ResolveCall.conflicted := by
  cases h with
  | take h =>
      have htake : jobs.take (s.next + 1) = jobs.take s.next ++ [jobs.get ⟨s.next, h⟩] :=
        (List.take_append_getElem h).symm
      simp only [htake, List.countP_append, List.countP_singleton, Stage.uncounted]
      omega
  | stop h =>
      simp only [List.take_of_length_le h, List.take_of_length_le (Nat.le_succ_of_le h),
        Stage.uncounted]
  | done h => simp only [Stage.uncounted, h, Bool.false_eq_true, if_false]
  | hit h hk =>
      simp only [Stage.uncounted, h, if_true]
      omega
  | miss h => simp only [Stage.uncounted, h, if_true]
  | count =>
      simp only [Stage.uncounted]
      omega
  | _ => simp only [Stage.uncounted]

/-- A step that goes on brings the worker nearer to its end, or hands out a job. -/
theorem lowers (h : WorkerStep verifyB64 jobs s p s' p') (hgo : p.GoesOn verifyB64 jobs) :
    6 * (jobs.length - s'.next) + p'.stepsLeft < 6 * (jobs.length - s.next) + p.stepsLeft := by
  cases h with
  | take h =>
      simp only [Stage.stepsLeft]
      omega
  | stop h =>
      simp only [Stage.stepsLeft]
      omega
  | spin h => exact absurd hgo (by simp only [Stage.GoesOn, h]; simp)
  | rest => exact absurd hgo id
  | _ =>
      simp only [Stage.stepsLeft]
      omega

/-- Only a worker that finds no job left stops. -/
theorem ended (h : WorkerStep verifyB64 jobs s p s' p') (hp : p = .stopped → jobs.length ≤ s.next) :
    s.next ≤ s'.next ∧ (p' = .stopped → jobs.length ≤ s'.next) := by
  cases h with
  | take h => exact ⟨Nat.le_succ _, nofun⟩
  | stop h => exact ⟨Nat.le_succ _, fun _ => Nat.le_succ_of_le h⟩
  | rest => exact ⟨le_rfl, hp⟩
  | _ => exact ⟨le_rfl, nofun⟩

/-- The slots filled are those that were, and the one stored. -/
theorem filled (h : WorkerStep verifyB64 jobs s p s' p') (i : Fin jobs.length) :
    (s'.results i).isSome ↔ (s.results i).isSome ∨ i ∈ p.slotStored.toList := by
  cases h with
  | store =>
      simp only [Stage.slotStored, Option.toList_some, List.mem_singleton, Function.update_apply]
      grind
  | _ => simp [Stage.slotStored]

/-- The keys of the cache are those that were, and the one inserted. -/
theorem cached (h : WorkerStep verifyB64 jobs s p s' p') (k : List Str) :
    k ∈ s'.engine.cache.keys ↔ k ∈ s.engine.cache.keys ∨
      k ∈ (p.inserted.map fun i => (jobs.get i).key).toList := by
  cases h with
  | insert =>
      simp only [Stage.inserted, Option.map_some, Option.toList_some, List.mem_singleton,
        SortedMap.mem_keys_insert]
      exact or_comm
  | _ => simp [Stage.inserted]

theorem stays_resolving (h : WorkerStep verifyB64 jobs s p s' p') (hp : p = .resolving i)
    (hnone : (jobs.get i).plain verifyB64 = none) : p' = .resolving i := by
  cases h with
  | resolve h =>
      rw [Stage.resolving.inj hp, hnone] at h
      exact absurd h (by simp)
  | spin h => exact hp
  | _ => exact absurd hp nofun

theorem workers (h : WorkerStep verifyB64 jobs s p s' p') : s'.engine.workers = s.engine.workers := by
  cases h <;> rfl

/-- A step keeps what is right: the cache, what its worker knows, and the results. -/
theorem right {calls : List ResolveCall} (h : WorkerStep verifyB64 jobs s p s' p')
    (hjobs : jobs ⊆ calls) (hcache : s.engine.Sound verifyB64 calls)
    (hp : p.Right verifyB64 calls jobs)
    (hresults : ∀ i m, s.results i = some m → AnswersFor verifyB64 calls (jobs.get i) m) :
    s'.engine.Sound verifyB64 calls ∧ p'.Right verifyB64 calls jobs ∧
      ∀ i m, s'.results i = some m → AnswersFor verifyB64 calls (jobs.get i) m := by
  cases h with
  | take h => exact ⟨hcache, trivial, hresults⟩
  | stop h => exact ⟨hcache, trivial, hresults⟩
  | done h =>
      refine ⟨hcache, ?_, hresults⟩
      simp only [Stage.Right, AnswersFor, h, Bool.false_eq_true, if_false]
  | hit h hk =>
      refine ⟨hcache, ?_, hresults⟩
      simp only [Stage.Right, AnswersFor, h, if_true]
      exact hcache _ _ hk
  | miss h => exact ⟨hcache, h, hresults⟩
  | count => exact ⟨hcache, hp, hresults⟩
  | resolve h => exact ⟨hcache, ⟨hp, h⟩, hresults⟩
  | spin h => exact ⟨hcache, hp, hresults⟩
  | @insert i m =>
      have hmem : jobs.get i ∈ calls := hjobs (List.get_mem jobs i)
      refine ⟨CacheOf.insert hcache hmem hp.1 hp.2, ?_, hresults⟩
      simp only [Stage.Right, AnswersFor, hp.1, if_true]
      exact ⟨_, hmem, hp.1, rfl, hp.2⟩
  | @store i m =>
      refine ⟨hcache, trivial, fun j m' hj => ?_⟩
      have hj : Function.update s.results i (some m) j = some m' := hj
      rw [Function.update_apply] at hj
      split at hj
      next hji =>
        rw [hji, ← Option.some.inj hj]
        exact hp
      next => exact hresults j m' hj
  | rest => exact ⟨hcache, trivial, hresults⟩

end WorkerStep

end

/-! ## A worker alone -/

section

variable {verifyB64 : VerifyB64} {jobs : List ResolveCall}

/-- On its own a worker that has taken a job does what `resolveCached` does. -/
theorem worker_alone (s : BatchShared jobs.length) (i : Fin jobs.length) :
    ∃ steps, (fun x => workerNext verifyB64 jobs x.1 x.2)^[steps] (s, .taken i) =
      match s.engine.resolveCached verifyB64 (jobs.get i) with
      | some (m, engine) => ({ s with engine }, .storing i m)
      | none =>
          ({ s with engine := { s.engine with misses := s.engine.misses + 1 } }, .resolving i) := by
  by_cases hnil : (separate (jobs.get i).states).2.entries = []
  · refine ⟨1, ?_⟩
    simp only [Function.iterate_one, workerNext, ParallelResolver.resolveCached,
      ParallelResolver.lookup, hnil, if_true]
  · cases hk : s.engine.cache.get (inputKey (jobs.get i).states) with
    | some cached =>
        refine ⟨1, ?_⟩
        simp only [Function.iterate_one, workerNext, ParallelResolver.resolveCached,
          ParallelResolver.lookup, hnil, if_false, hk]
    | none =>
        cases hm : resolve verifyB64 (jobs.get i).order (jobs.get i).states (jobs.get i).pdus with
        | some m =>
            refine ⟨4, ?_⟩
            simp only [Function.iterate_succ_apply, Function.iterate_zero_apply, workerNext,
              ParallelResolver.resolveCached, ParallelResolver.lookup, ParallelResolver.fill, hnil,
              if_false, hk, hm, Option.map_some]
        | none =>
            refine ⟨2, ?_⟩
            simp only [Function.iterate_succ_apply, Function.iterate_zero_apply, workerNext,
              ParallelResolver.resolveCached, ParallelResolver.lookup, ParallelResolver.fill, hnil,
              if_false, hk, hm, Option.map_none]

end

/-! ## A run -/

section

variable {verifyB64 : VerifyB64} {engine : ParallelResolver} {jobs calls : List ResolveCall}
  {c : BatchState jobs.length} {schedule : List Nat} {i : Fin jobs.length}

theorem batchStep_workerStep (verifyB64 : VerifyB64) (c : BatchState jobs.length) (w : Nat) :
    WorkerStep verifyB64 jobs c.shared (c.phase w) (batchStep verifyB64 jobs c w).shared
      ((batchStep verifyB64 jobs c w).phase w) := by
  rw [batchStep, Threads.step_shared, Threads.step_phase_self]
  exact workerNext_step _ _

theorem batchStep_phase_of_ne {v w : Nat} (h : v ≠ w) :
    (batchStep verifyB64 jobs c w).phase v = c.phase v :=
  Threads.step_phase_of_ne h

theorem total_batchStep (verifyB64 : VerifyB64) (held : Stage jobs.length → Nat)
    (c : BatchState jobs.length) {pool w : Nat} (hw : w < pool) :
    Threads.total (Finset.range pool) held (batchStep verifyB64 jobs c w) + held (c.phase w) =
      Threads.total (Finset.range pool) held c + held ((batchStep verifyB64 jobs c w).phase w) := by
  rw [batchStep, Threads.step_phase_self]
  exact Threads.total_step (Finset.mem_range.mpr hw)

theorem batchStart_phase_of_lt {w : Nat} (h : w < engine.workers) :
    (batchStart engine jobs).phase w = .idle :=
  if_pos h

/-- A worker that has stopped does nothing more. -/
theorem batchStep_of_stopped {w : Nat} (h : c.phase w = .stopped) :
    batchStep verifyB64 jobs c w = c := by
  have hnext : workerNext verifyB64 jobs c.shared (c.phase w) = (c.shared, c.phase w) := by
    rw [h]
    rfl
  rw [batchStep, Threads.step, hnext, Function.update_eq_self]

/-- A property of the stage of each worker that its own steps keep. -/
theorem forall_phase_batchStep {P : Stage jobs.length → Prop} {w : Nat}
    (hc : ∀ v, P (c.phase v)) (hw : P ((batchStep verifyB64 jobs c w).phase w)) (v : Nat) :
    P ((batchStep verifyB64 jobs c w).phase v) := by
  by_cases hvw : v = w
  · rw [hvw]
    exact hw
  · rw [batchStep_phase_of_ne hvw]
    exact hc v

/-- What holds of a batch at any time of its run. -/
structure BatchInv (verifyB64 : VerifyB64) (engine : ParallelResolver) (calls jobs : List ResolveCall)
    (c : BatchState jobs.length) : Prop where
  outside : ∀ w, engine.workers ≤ w → c.phase w = .stopped
  ended : ∀ w < engine.workers, c.phase w = .stopped → jobs.length ≤ c.shared.next
  counted : c.shared.engine.hits + c.shared.engine.misses +
      Threads.total (Finset.range engine.workers) (Stage.uncounted jobs) c =
    engine.hits + engine.misses + (jobs.take c.shared.next).countP ResolveCall.conflicted
  workers : c.shared.engine.workers = engine.workers
  cache : c.shared.engine.Sound verifyB64 calls
  stages : ∀ w, (c.phase w).Right verifyB64 calls jobs
  results : ∀ i m, c.shared.results i = some m → AnswersFor verifyB64 calls (jobs.get i) m

theorem batchInv_start (hengine : engine.Sound verifyB64 calls) :
    BatchInv verifyB64 engine calls jobs (batchStart engine jobs) where
  outside w hw := if_neg (Nat.not_lt.mpr hw)
  ended w hw hstopped := by
    rw [batchStart_phase_of_lt hw] at hstopped
    exact absurd hstopped nofun
  counted := by
    have hnone : Threads.total (Finset.range engine.workers) (Stage.uncounted jobs)
        (batchStart engine jobs) = 0 := by
      apply Threads.total_eq_zero
      intro w hw
      rw [batchStart_phase_of_lt (Finset.mem_range.mp hw)]
      rfl
    rw [hnone]
    rfl
  workers := rfl
  cache := hengine
  stages w := by
    simp only [batchStart]
    split
    · trivial
    · trivial
  results i m h := absurd h nofun

theorem BatchInv.step (hjobs : jobs ⊆ calls) (hc : BatchInv verifyB64 engine calls jobs c) (w : Nat) :
    BatchInv verifyB64 engine calls jobs (batchStep verifyB64 jobs c w) := by
  by_cases hw : engine.workers ≤ w
  · rw [batchStep_of_stopped (hc.outside w hw)]
    exact hc
  · have hw : w < engine.workers := Nat.lt_of_not_le hw
    have hstep := batchStep_workerStep verifyB64 c w
    obtain ⟨hmono, hended⟩ := hstep.ended (hc.ended w hw)
    obtain ⟨hcache, hstage, hresults⟩ := hstep.right hjobs hc.cache (hc.stages w) hc.results
    constructor
    case outside =>
      intro v hv
      rw [batchStep_phase_of_ne (by omega)]
      exact hc.outside v hv
    case ended =>
      intro v hv hstopped
      by_cases hvw : v = w
      · rw [hvw] at hstopped
        exact hended hstopped
      · rw [batchStep_phase_of_ne hvw] at hstopped
        exact (hc.ended v hv hstopped).trans hmono
    case counted =>
      have htotal := total_batchStep verifyB64 (Stage.uncounted jobs) c hw
      have hcounted := hstep.counted
      have hbefore := hc.counted
      omega
    case workers => exact hstep.workers.trans hc.workers
    case cache => exact hcache
    case stages => exact forall_phase_batchStep hc.stages hstage
    case results => exact hresults

theorem batchInv_run (hjobs : jobs ⊆ calls) (hengine : engine.Sound verifyB64 calls)
    (schedule : List Nat) :
    BatchInv verifyB64 engine calls jobs (batchRun verifyB64 engine jobs schedule) :=
  run_of_step (fun _ w hc => hc.step hjobs w) (batchInv_start hengine) schedule

/-! ## The slots and the keys of a run -/

/-- Each job is with one worker, in its slot, or not handed out. -/
structure SlotsInv (engine : ParallelResolver) (h : List (Fin jobs.length))
    (c : BatchState jobs.length) : Prop where
  outside : ∀ w, engine.workers ≤ w → c.phase w = .stopped
  handed : ∀ i, h.count i + Threads.total (Finset.range engine.workers) (Stage.holds i) c =
    if i < c.shared.next then 1 else 0
  filled : ∀ i, (c.shared.results i).isSome ↔ i ∈ h

theorem slotsInv_start : SlotsInv engine [] (batchStart engine jobs) where
  outside w hw := if_neg (Nat.not_lt.mpr hw)
  handed i := by
    have hnone : Threads.total (Finset.range engine.workers) (Stage.holds i)
        (batchStart engine jobs) = 0 := by
      apply Threads.total_eq_zero
      intro w hw
      rw [batchStart_phase_of_lt (Finset.mem_range.mp hw)]
      rfl
    rw [hnone]
    rfl
  filled i := by simp [batchStart]

theorem SlotsInv.step {h : List (Fin jobs.length)} (hc : SlotsInv engine h c) (w : Nat) :
    SlotsInv engine (h ++ (c.phase w).slotStored.toList) (batchStep verifyB64 jobs c w) := by
  by_cases hw : engine.workers ≤ w
  · rw [batchStep_of_stopped (hc.outside w hw), hc.outside w hw]
    have hnone : (Stage.stopped : Stage jobs.length).slotStored = none := rfl
    rw [hnone, Option.toList_none, List.append_nil]
    exact hc
  · have hw : w < engine.workers := Nat.lt_of_not_le hw
    have hstep := batchStep_workerStep verifyB64 c w
    constructor
    case outside =>
      intro v hv
      rw [batchStep_phase_of_ne (by omega)]
      exact hc.outside v hv
    case handed =>
      intro i
      have htotal := total_batchStep verifyB64 (Stage.holds i) c hw
      have hhanded := hstep.handed i
      have hbefore := hc.handed i
      rw [List.count_append]
      omega
    case filled =>
      intro i
      rw [hstep.filled, hc.filled, List.mem_append]

theorem slotsInv_run (verifyB64 : VerifyB64) (engine : ParallelResolver) (jobs : List ResolveCall)
    (schedule : List Nat) : SlotsInv engine (slotsStored verifyB64 engine jobs schedule)
      (batchRun verifyB64 engine jobs schedule) := by
  unfold slotsStored batchRun
  apply history_run slotsInv_start
  intro x _ h hx
  exact hx.step x.2

theorem mem_keys_batchRun (engine : ParallelResolver) (jobs : List ResolveCall)
    (schedule : List Nat) (k : List Str) :
    k ∈ (batchRun verifyB64 engine jobs schedule).shared.engine.cache.keys ↔
      k ∈ engine.cache.keys ∨ k ∈ keysInserted verifyB64 engine jobs schedule := by
  unfold keysInserted batchRun
  apply history_run (I := fun h (c : BatchState jobs.length) =>
    k ∈ c.shared.engine.cache.keys ↔ k ∈ engine.cache.keys ∨ k ∈ h)
  · simp [batchStart]
  · intro x _ h hbefore
    have hstep := (batchStep_workerStep verifyB64 x.1 x.2).cached k
    rw [hstep, hbefore, List.mem_append, or_assoc]

/-! ## The life of an engine -/

theorem sound_engineAfter {batches : List BatchRun} (hengine : engine.Sound verifyB64 calls)
    (hbatches : ∀ batch ∈ batches, batch.jobs ⊆ calls) :
    (engineAfter verifyB64 engine batches).Sound verifyB64 calls := by
  induction batches generalizing engine with
  | nil => exact hengine
  | cons batch batches ih =>
      obtain ⟨hbatch, hbatches⟩ := List.forall_mem_cons.mp hbatches
      have hafter := (batchInv_run hbatch hengine batch.schedule).cache
      exact ih hafter hbatches

theorem workers_engineAfter (batches : List BatchRun) :
    (engineAfter verifyB64 engine batches).workers = engine.workers := by
  apply run_of_step (P := fun r : ParallelResolver => r.workers = engine.workers) ?_ rfl
  intro r batch hr
  rw [← hr]
  apply run_of_step (P := fun c : BatchState batch.jobs.length =>
    c.shared.engine.workers = r.workers) ?_ rfl
  intro c w hc
  rw [(batchStep_workerStep _ c w).workers, hc]

theorem mem_keys_engineAfter (batches : List BatchRun) (k : List Str) :
    k ∈ (engineAfter verifyB64 engine batches).cache.keys ↔
      k ∈ engine.cache.keys ∨ k ∈ everInserted verifyB64 engine batches := by
  induction batches generalizing engine with
  | nil => simp [engineAfter, everInserted, trace]
  | cons batch batches ih =>
      simp only [engineAfter, run_cons, everInserted, trace, List.flatMap_cons, List.mem_append]
        at ih ⊢
      rw [ih, afterBatch, mem_keys_batchRun, or_assoc]

/-- The cache of an engine that started empty has an entry for each key ever inserted. -/
theorem size_cache_batchRun (workers : Nat) (batches : List BatchRun) (schedule : List Nat) :
    (batchRun verifyB64 (engineAfter verifyB64 (.new workers) batches) jobs
        schedule).shared.engine.cache.size =
      (everInserted verifyB64 (.new workers) batches ++
        keysInserted verifyB64 (engineAfter verifyB64 (.new workers) batches) jobs
          schedule).dedup.length := by
  rw [← SortedMap.length_keys]
  apply List.Perm.length_eq
  rw [List.perm_ext_iff_of_nodup (SortedMap.nodup_keys _) (List.nodup_dedup _)]
  intro k
  have hempty : k ∉ (ParallelResolver.new workers).cache.keys := List.not_mem_nil
  rw [mem_keys_batchRun, mem_keys_engineAfter, List.mem_dedup, List.mem_append]
  simp [hempty]

/-! ## A finished batch -/

theorem unwrapAll_of_some {n : Nat} {results : Fin n → Option StateMap} {out : Fin n → StateMap}
    (h : ∀ i, results i = some (out i)) : unwrapAll results = some (List.ofFn out) := by
  have hmap : List.ofFn results = (List.ofFn out).map some := by
    rw [List.map_ofFn]
    exact congrArg List.ofFn (funext h)
  rw [unwrapAll, hmap, List.mapM_map]
  show List.mapM (fun m => pure (id m)) (List.ofFn out) = _
  rw [List.mapM_pure, List.map_id]
  rfl

/-- What a batch has done when it returns: each slot is stored once and unwraps to an answer from the
calls with the job's key, each conflicted job is counted, and the cache has an entry for each key that
was inserted before or now. -/
structure Served (verifyB64 : VerifyB64) (engine : ParallelResolver) (calls : List ResolveCall)
    (inserted : List (List Str)) (jobs : List ResolveCall) (schedule : List Nat) : Prop where
  once : ∀ i, (slotsStored verifyB64 engine jobs schedule).count i = 1
  returned : ∃ maps,
    unwrapAll (batchRun verifyB64 engine jobs schedule).shared.results = some maps ∧
      maps.length = jobs.length ∧
      ∀ (i : Nat) job m, jobs[i]? = some job → maps[i]? = some m → AnswersFor verifyB64 calls job m
  counted :
    (batchRun verifyB64 engine jobs schedule).shared.engine.hits +
        (batchRun verifyB64 engine jobs schedule).shared.engine.misses =
      engine.hits + engine.misses + jobs.countP ResolveCall.conflicted
  cachedEntries : (batchRun verifyB64 engine jobs schedule).shared.engine.cache.size =
    (inserted ++ keysInserted verifyB64 engine jobs schedule).dedup.length

/-- When all workers have stopped, the batch is done. -/
theorem count_slotsStored {schedule : List Nat} (hpos : 0 < engine.workers)
    (hjobs : jobs ⊆ calls) (hengine : engine.Sound verifyB64 calls)
    (hstopped : ∀ w, (batchRun verifyB64 engine jobs schedule).phase w = .stopped)
    (i : Fin jobs.length) : (slotsStored verifyB64 engine jobs schedule).count i = 1 := by
  have hinv := batchInv_run hjobs hengine schedule
  have hslots := slotsInv_run verifyB64 engine jobs schedule
  have hnext := hinv.ended 0 hpos (hstopped 0)
  have hnone : Threads.total (Finset.range engine.workers) (Stage.holds i)
      (batchRun verifyB64 engine jobs schedule) = 0 := by
    apply Threads.total_eq_zero
    intro w _
    rw [hstopped w]
    rfl
  have hhanded := hslots.handed i
  rw [hnone, if_pos (i.isLt.trans_le hnext)] at hhanded
  exact hhanded

theorem counted_of_stopped {schedule : List Nat} (hpos : 0 < engine.workers)
    (hjobs : jobs ⊆ calls) (hengine : engine.Sound verifyB64 calls)
    (hstopped : ∀ w, (batchRun verifyB64 engine jobs schedule).phase w = .stopped) :
    (batchRun verifyB64 engine jobs schedule).shared.engine.hits +
        (batchRun verifyB64 engine jobs schedule).shared.engine.misses =
      engine.hits + engine.misses + jobs.countP ResolveCall.conflicted := by
  have hinv := batchInv_run hjobs hengine schedule
  have hnext := hinv.ended 0 hpos (hstopped 0)
  have hnone : Threads.total (Finset.range engine.workers) (Stage.uncounted jobs)
      (batchRun verifyB64 engine jobs schedule) = 0 := by
    apply Threads.total_eq_zero
    intro w _
    rw [hstopped w]
    rfl
  have hcounted := hinv.counted
  rw [hnone, List.take_of_length_le hnext] at hcounted
  exact hcounted

theorem returned_of_stopped {schedule : List Nat} (hpos : 0 < engine.workers)
    (hjobs : jobs ⊆ calls) (hengine : engine.Sound verifyB64 calls)
    (hstopped : ∀ w, (batchRun verifyB64 engine jobs schedule).phase w = .stopped) :
    ∃ maps, unwrapAll (batchRun verifyB64 engine jobs schedule).shared.results = some maps ∧
      maps.length = jobs.length ∧
      ∀ (i : Nat) job m, jobs[i]? = some job → maps[i]? = some m →
        AnswersFor verifyB64 calls job m := by
  have hslots := slotsInv_run verifyB64 engine jobs schedule
  have hresults := (batchInv_run hjobs hengine schedule).results
  have hfilled : ∀ i, ∃ m, (batchRun verifyB64 engine jobs schedule).shared.results i = some m := by
    intro i
    apply Option.isSome_iff_exists.mp
    rw [hslots.filled, ← List.count_pos_iff, count_slotsStored hpos hjobs hengine hstopped i]
    exact Nat.one_pos
  choose out hout using hfilled
  refine ⟨List.ofFn out, unwrapAll_of_some hout, List.length_ofFn, ?_⟩
  intro i job m hjob hm
  obtain ⟨hlt, rfl⟩ := List.getElem?_eq_some_iff.mp hjob
  rw [List.getElem?_ofFn, dif_pos hlt] at hm
  have hanswer := hresults ⟨i, hlt⟩ _ (hout ⟨i, hlt⟩)
  rw [Option.some.inj hm] at hanswer
  exact hanswer

end

/-! ## When a batch returns -/

section

variable (verifyB64 : VerifyB64) (engine : ParallelResolver) (jobs : List ResolveCall)
  (schedule : List Nat)

/-- No worker can go on. -/
def Halted : Prop :=
  ∀ w, ¬ ((batchRun verifyB64 engine jobs schedule).phase w).GoesOn verifyB64 jobs

/-- The mainline walk of the call's resolution ends. -/
def ResolveCall.MainlineEnds (call : ResolveCall) : Prop :=
  EndsInRoot call.pdus
    ((powerPass verifyB64 call.order call.states call.pdus).get (slot roomPowerLevels []))

/-- The mainline walk ends for each job that a worker resolves in the run. -/
def ResolutionsEnd : Prop :=
  ∀ before, before <+: schedule → ∀ w i,
    (batchRun verifyB64 engine jobs before).phase w = .resolving i →
      (jobs.get i).MainlineEnds verifyB64

end

section

variable {verifyB64 : VerifyB64} {engine : ParallelResolver} {jobs calls : List ResolveCall}
  {schedule : List Nat}

theorem ResolveCall.plain_isSome_iff {call : ResolveCall} (h : call.conflicted = true) :
    (call.plain verifyB64).isSome ↔ call.MainlineEnds verifyB64 := by
  have hnil : (separate call.states).2.entries ≠ [] := by
    simpa only [ResolveCall.conflicted, decide_eq_true_eq] using h
  rw [Option.isSome_iff_exists, plain, resolve_isSome_iff, or_iff_right hnil]
  rfl

/-- A bound on the steps that the workers of a pool can still take. -/
def stepsToGo (pool : Nat) (c : BatchState jobs.length) : Nat :=
  6 * (jobs.length - c.shared.next) + Threads.total (Finset.range pool) Stage.stepsLeft c

theorem stepsToGo_start : stepsToGo engine.workers (batchStart engine jobs) =
    6 * jobs.length + engine.workers := by
  have hidle : Threads.total (Finset.range engine.workers) Stage.stepsLeft (batchStart engine jobs) =
      ∑ _ ∈ Finset.range engine.workers, 1 := by
    apply Finset.sum_congr rfl
    intro w hw
    rw [batchStart_phase_of_lt (Finset.mem_range.mp hw)]
    rfl
  rw [stepsToGo, hidle, Finset.sum_const, Finset.card_range, smul_eq_mul, mul_one]
  rfl

theorem stepsToGo_step {pool w : Nat} {c : BatchState jobs.length} (hw : w < pool)
    (hgo : (c.phase w).GoesOn verifyB64 jobs) :
    stepsToGo pool (batchStep verifyB64 jobs c w) < stepsToGo pool c := by
  have htotal := total_batchStep verifyB64 Stage.stepsLeft c hw
  have hlowers := (batchStep_workerStep _ c w).lowers hgo
  rw [stepsToGo, stepsToGo]
  omega

/-- A worker stays in a resolution that does not return. -/
theorem phase_resolving_of_prefix {before : List Nat} (hbefore : before <+: schedule) {w : Nat}
    {i : Fin jobs.length} (hnone : (jobs.get i).plain verifyB64 = none)
    (h : (batchRun verifyB64 engine jobs before).phase w = .resolving i) :
    (batchRun verifyB64 engine jobs schedule).phase w = .resolving i := by
  obtain ⟨after, rfl⟩ := hbefore
  rw [batchRun, run_append]
  refine Threads.phase_run_of_stays (fun s => ?_) h after
  exact (workerNext_step s _).stays_resolving rfl hnone

theorem halted_stopped (hconflicted : ∀ w i,
      (batchRun verifyB64 engine jobs schedule).phase w = .resolving i →
        (jobs.get i).conflicted = true)
    (hhalted : Halted verifyB64 engine jobs schedule)
    (hends : ResolutionsEnd verifyB64 engine jobs schedule) (w : Nat) :
    (batchRun verifyB64 engine jobs schedule).phase w = .stopped := by
  have hw := hhalted w
  cases hp : (batchRun verifyB64 engine jobs schedule).phase w with
  | stopped => rfl
  | resolving i =>
      rw [hp] at hw
      have hend := hends schedule (List.prefix_refl _) w i hp
      exact absurd ((ResolveCall.plain_isSome_iff (hconflicted w i hp)).mpr hend) hw
  | _ =>
      rw [hp] at hw
      exact absurd trivial hw

end

/-- Every run of the workers ends, and when it has, the batch has done what its caller asked for
exactly when the mainline walk ends for each job that a worker resolved: the slots are stored once
each, the results are those of this or an earlier batch, and the counts and the cache have grown by
what was asked. -/
theorem batch_served_iff (verifyB64 : VerifyB64) (workers : Nat) (earlier : List BatchRun)
    (jobs : List ResolveCall) (schedule : List Nat) :
    let engine := engineAfter verifyB64 (.new workers) earlier
    (Guarded (batchStep verifyB64 jobs)
        (fun c w => w < engine.workers ∧ (c.phase w).GoesOn verifyB64 jobs)
        (batchStart engine jobs) schedule →
      schedule.length ≤ 6 * jobs.length + max workers 1) ∧
    (Halted verifyB64 engine jobs schedule →
      (Served verifyB64 engine (earlier.flatMap (·.jobs) ++ jobs)
          (everInserted verifyB64 (.new workers) earlier) jobs schedule ↔
        ResolutionsEnd verifyB64 engine jobs schedule)) := by
  intro engine
  have hworkers : engine.workers = max workers 1 := workers_engineAfter earlier
  have hpos : 0 < engine.workers := by omega
  have hjobs : jobs ⊆ earlier.flatMap (·.jobs) ++ jobs := List.subset_append_right _ _
  have hengine : engine.Sound verifyB64 (earlier.flatMap (·.jobs) ++ jobs) := by
    have hempty : (ParallelResolver.new workers).Sound verifyB64
        (earlier.flatMap (·.jobs) ++ jobs) := cacheOf_empty _
    apply sound_engineAfter hempty
    intro batch hbatch call hcall
    exact List.mem_append_left _ (List.mem_flatMap.mpr ⟨batch, hbatch, hcall⟩)
  have hconflicted : ∀ before w i, (batchRun verifyB64 engine jobs before).phase w = .resolving i →
      (jobs.get i).conflicted = true := by
    intro before w i hp
    have hstage := (batchInv_run hjobs hengine before).stages w
    rw [hp] at hstage
    exact hstage
  constructor
  · intro hguarded
    rw [← hworkers, ← stepsToGo_start]
    exact hguarded.length_le fun c w hw => stepsToGo_step hw.1 hw.2
  · intro hhalted
    constructor
    · intro hserved before hbefore w i hp
      rw [← ResolveCall.plain_isSome_iff (hconflicted before w i hp), Option.isSome_iff_ne_none]
      intro hnone
      -- the worker still has the job in hand, so its slot is empty
      have hstays := phase_resolving_of_prefix hbefore hnone hp
      have hw : w < engine.workers := by
        by_contra hout
        have hstopped := (batchInv_run hjobs hengine schedule).outside w (Nat.le_of_not_lt hout)
        rw [hstays] at hstopped
        exact absurd hstopped nofun
      have hholds : ((batchRun verifyB64 engine jobs schedule).phase w).holds i ≤
          Threads.total (Finset.range engine.workers) (Stage.holds i)
            (batchRun verifyB64 engine jobs schedule) :=
        Threads.le_total (Finset.mem_range.mpr hw)
      have hhanded := (slotsInv_run verifyB64 engine jobs schedule).handed i
      have honce := hserved.once i
      rw [hstays] at hholds
      simp only [Stage.holds, Stage.job, if_true] at hholds
      split at hhanded <;> omega
    · intro hends
      have hstopped := halted_stopped (hconflicted schedule) hhalted hends
      constructor
      case once => exact count_slotsStored hpos hjobs hengine hstopped
      case returned => exact returned_of_stopped hpos hjobs hengine hstopped
      case counted => exact counted_of_stopped hpos hjobs hengine hstopped
      case cachedEntries => exact size_cache_batchRun workers earlier schedule

namespace Sample

/-- The room whose power levels cite themselves, as a job. -/
def cyclicJob : ResolveCall where
  states := cyclicRoom
  pdus := pduMap [ownAncestor, aliceJoin]
  order := .inserted

end Sample

open Sample

/-- The worker that takes a job with self-citing power levels never stores its slot. -/
theorem cyclic_job_never_stored :
    ¬ ∀ (verifyB64 : VerifyB64) (workers : Nat) (jobs : List ResolveCall) (schedule : List Nat),
      Halted verifyB64 (.new workers) jobs schedule →
        ∀ i, (slotsStored verifyB64 (.new workers) jobs schedule).count i = 1 := by
  intro h
  have hresolving : (batchRun noSignature (.new 1) [cyclicJob] [0, 0, 0]).phase 0 =
      .resolving ⟨0, by decide⟩ := by
    decide +kernel
  have hnone : cyclicJob.plain noSignature = none := by decide +kernel
  have hhalted : Halted noSignature (.new 1) [cyclicJob] [0, 0, 0] := by
    intro w
    by_cases hw : w = 0
    · rw [hw, hresolving]
      show ¬ (cyclicJob.plain noSignature).isSome = true
      rw [hnone]
      exact Bool.false_ne_true
    · have hout : 1 ≤ w := Nat.one_le_iff_ne_zero.mpr hw
      rw [(slotsInv_run noSignature (.new 1) [cyclicJob] [0, 0, 0]).outside w hout]
      exact id
  have hstored := h noSignature 1 [cyclicJob] [0, 0, 0] hhalted ⟨0, by decide⟩
  have hempty : slotsStored noSignature (.new 1) [cyclicJob] [0, 0, 0] = [] := by decide +kernel
  rw [hempty] at hstored
  exact absurd hstored (by simp)

end GaussMatrix.StateRes
