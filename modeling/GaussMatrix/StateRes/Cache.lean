import GaussMatrix.Library.Memo
import GaussMatrix.StateRes.Agreement

/-!
# The resolved-state caches

Resolution memoised by the set of input event ids: one resolver called in sequence, and one shared
by the workers of a batch, whose atomic steps interleave in any order.
-/

namespace GaussMatrix.StateRes

open Library Util Api

/-- The cache key: the sorted, deduplicated ids of all input events. -/
def inputKey (states : List StateMap) : List Str :=
  (sortByKey id ((states.flatMap (·.values)).map (·.asStr))).dedup

/-- One resolution request: the state maps to merge and the events they need. -/
structure ResolveJob where
  states : List StateMap
  pdus : PduMap

/-- A call of a resolver on a request, with the hash order its execution meets. -/
structure ResolveCall extends ResolveJob where
  order : HashOrder

namespace ResolveCall

/-- What the uncached resolution returns for the call's own input. -/
def plain (verifyB64 : VerifyB64) (call : ResolveCall) : Option StateMap :=
  resolve verifyB64 call.order call.states call.pdus

/-- Whether the input has a conflict; one without is not worth caching. -/
def conflicted (call : ResolveCall) : Bool := (separate call.states).2.entries ≠ []

def key (call : ResolveCall) : List Str := inputKey call.states

end ResolveCall

/-! ## The sequential resolver -/

/-- The resolved states of a resolver, with the counts of hits and misses. -/
structure CachedResolver where
  cache : SortedMap (List Str) StateMap
  hits : Nat
  misses : Nat

namespace CachedResolver

/-- An empty cache. -/
def new : CachedResolver := ⟨SortedMap.empty, 0, 0⟩

/-- Resolve a request through the cache; `none` when the resolution does not return. -/
def resolve (verifyB64 : VerifyB64) (r : CachedResolver) (call : ResolveCall) :
    Option (StateMap × CachedResolver) :=
  let (unconflicted, conflicted) := separate call.states
  if conflicted.entries = [] then some (unconflicted, r)
  else
    let key := inputKey call.states
    match r.cache.get key with
    | some cached => some (cached, { r with hits := r.hits + 1 })
    | none =>
        (StateRes.resolve verifyB64 call.order call.states call.pdus).map fun resolved =>
          (resolved, { r with misses := r.misses + 1, cache := r.cache.insert key resolved })

/-- The answers to a sequence of calls on one resolver, up to the first that does not return. -/
def answers (verifyB64 : VerifyB64) :
    CachedResolver → List ResolveCall → List (ResolveCall × Option StateMap)
  | _, [] => []
  | r, call :: calls =>
      match r.resolve verifyB64 call with
      | none => [(call, none)]
      | some (m, r') => (call, some m) :: answers verifyB64 r' calls

end CachedResolver

/-! ## The shared resolver -/

/-- The engine: the shared cache, the counts, and the size of the worker pool. -/
structure ParallelResolver where
  cache : SortedMap (List Str) StateMap
  hits : Nat
  misses : Nat
  workers : Nat

namespace ParallelResolver

/-- An engine with an empty cache and a pool of at least one worker. -/
def new (workers : Nat) : ParallelResolver := ⟨SortedMap.empty, 0, 0, max workers 1⟩

/-- The first half of a cached resolution, to the end of the lookup under the lock: the answer, or
`none` on a miss. -/
def lookup (r : ParallelResolver) (call : ResolveCall) : Option StateMap × ParallelResolver :=
  let (unconflicted, conflicted) := separate call.states
  if conflicted.entries = [] then (some unconflicted, r)
  else
    match r.cache.get (inputKey call.states) with
    | some cached => (some cached, { r with hits := r.hits + 1 })
    | none => (none, { r with misses := r.misses + 1 })

/-- The second half after a miss: resolve, and insert under the lock. -/
def fill (verifyB64 : VerifyB64) (r : ParallelResolver) (call : ResolveCall) :
    Option (StateMap × ParallelResolver) :=
  (resolve verifyB64 call.order call.states call.pdus).map fun resolved =>
    (resolved, { r with cache := r.cache.insert (inputKey call.states) resolved })

/-- A single cached resolution, undisturbed. -/
def resolveCached (verifyB64 : VerifyB64) (r : ParallelResolver) (call : ResolveCall) :
    Option (StateMap × ParallelResolver) :=
  match r.lookup call with
  | (some m, r') => some (m, r')
  | (none, r') => r'.fill verifyB64 call

end ParallelResolver

/-- Where a worker of a batch stands. -/
inductive WorkerPhase
  | idle
  | taken (i : Nat)
  | missed (i : Nat)
  | resolved (i : Nat) (m : StateMap)
  | stopped

/-- A batch under way: the engine, the next job to hand out, the workers, and the results stored so
far. -/
structure Batch where
  engine : ParallelResolver
  next : Nat
  phases : List WorkerPhase
  results : List (Option StateMap)

namespace Batch

def start (engine : ParallelResolver) (jobs : List ResolveCall) : Batch :=
  ⟨engine, 0, List.replicate engine.workers .idle, jobs.map fun _ => none⟩

/-- One atomic step of a worker in the given phase.  A resolution that does not return leaves the
worker where it is. -/
def phaseStep (verifyB64 : VerifyB64) (jobs : List ResolveCall) (b : Batch) :
    WorkerPhase → Batch × WorkerPhase
  | .idle =>
      ({ b with next := b.next + 1 },
        if jobs.length ≤ b.next then .stopped else .taken b.next)
  | .taken i =>
      match jobs[i]? with
      | none => (b, .stopped)
      | some job =>
          match b.engine.lookup job with
          | (some m, engine) => ({ b with engine }, .resolved i m)
          | (none, engine) => ({ b with engine }, .missed i)
  | .missed i =>
      match jobs[i]? with
      | none => (b, .stopped)
      | some job =>
          match b.engine.fill verifyB64 job with
          | some (m, engine) => ({ b with engine }, .resolved i m)
          | none => (b, .missed i)
  | .resolved i m => ({ b with results := b.results.set i (some m) }, .idle)
  | .stopped => (b, .stopped)

/-- The scheduler lets worker `w` take its next step. -/
def step (verifyB64 : VerifyB64) (jobs : List ResolveCall) (b : Batch) (w : Nat) : Batch :=
  match b.phases[w]? with
  | none => b
  | some phase =>
      let (b', phase') := b.phaseStep verifyB64 jobs phase
      { b' with phases := b'.phases.set w phase' }

/-- The answers that the batch has stored. -/
def stored (jobs : List ResolveCall) (b : Batch) : List (ResolveCall × StateMap) :=
  (jobs.zip b.results).filterMap fun a => a.2.map fun m => (a.1, m)

end Batch

namespace ParallelResolver

/-- A use of the engine: a single call, or a batch whose workers step in the order of a schedule. -/
inductive Use
  | single (call : ResolveCall)
  | batch (jobs : List ResolveCall) (schedule : List Nat)

/-- The calls a use makes. -/
def Use.calls : Use → List ResolveCall
  | .single call => [call]
  | .batch jobs _ => jobs

/-- Perform a use: the answers it gives, and the engine it leaves. -/
def perform (verifyB64 : VerifyB64) (r : ParallelResolver) :
    Use → List (ResolveCall × StateMap) × ParallelResolver
  | .single call =>
      match r.resolveCached verifyB64 call with
      | none => ([], r)
      | some (m, r') => ([(call, m)], r')
  | .batch jobs schedule =>
      let b := run (Batch.step verifyB64 jobs) (Batch.start r jobs) schedule
      (b.stored jobs, b.engine)

/-- The answers to a sequence of uses of one engine. -/
def answers (verifyB64 : VerifyB64) :
    ParallelResolver → List Use → List (ResolveCall × StateMap)
  | _, [] => []
  | r, use :: uses =>
      let (given, r') := r.perform verifyB64 use
      given ++ answers verifyB64 r' uses

end ParallelResolver

/-! ## The caches as memoisation -/

variable {verifyB64 : VerifyB64}

theorem ResolveCall.plain_of_not_conflicted {call : ResolveCall} (h : call.conflicted = false) :
    call.plain verifyB64 = some (separate call.states).1 := by
  have hnil : (separate call.states).2.entries = [] := by simpa [conflicted] using h
  simp [plain, resolve, hnil]

theorem CachedResolver.resolve_eq_memoCall (verifyB64 : VerifyB64) (r : CachedResolver)
    (call : ResolveCall) :
    (r.resolve verifyB64 call).map (fun a => (a.1, a.2.cache)) =
      memoCall ResolveCall.conflicted ResolveCall.key (ResolveCall.plain verifyB64) r.cache call := by
  by_cases hnil : (separate call.states).2.entries = []
  · have hc : call.conflicted = false := by simp [ResolveCall.conflicted, hnil]
    simp [CachedResolver.resolve, memoCall, hnil, hc, ResolveCall.plain_of_not_conflicted hc]
  · have hc : call.conflicted = true := by simp [ResolveCall.conflicted, hnil]
    simp only [CachedResolver.resolve, memoCall, hnil, hc, if_true, if_false, ResolveCall.key]
    cases r.cache.get (inputKey call.states) with
    | some m => rfl
    | none =>
        rw [Option.map_map]
        rfl

theorem CachedResolver.answers_eq_memoAnswers (r : CachedResolver) (calls : List ResolveCall) :
    r.answers verifyB64 calls =
      memoAnswers ResolveCall.conflicted ResolveCall.key (ResolveCall.plain verifyB64) r.cache
        calls := by
  induction calls generalizing r with
  | nil => rfl
  | cons call calls ih =>
      have hcall := r.resolve_eq_memoCall verifyB64 call
      rw [CachedResolver.answers, memoAnswers, ← hcall]
      cases r.resolve verifyB64 call with
      | none => rfl
      | some a =>
          obtain ⟨m, r'⟩ := a
          simp [ih]

/-! ## Interleavings -/

/-- Any two conflicted calls with one key resolve to one state, where the first resolves at all. -/
def KeysAgree (verifyB64 : VerifyB64) (calls : List ResolveCall) : Prop :=
  ∀ a ∈ calls, ∀ b ∈ calls, a.conflicted → b.conflicted → a.key = b.key →
    (a.plain verifyB64).isSome → a.plain verifyB64 = b.plain verifyB64

/-- Every entry of the engine's cache is the plain resolution of one of `calls`. -/
def ParallelResolver.Sound (verifyB64 : VerifyB64) (calls : List ResolveCall)
    (r : ParallelResolver) : Prop :=
  CacheOf ResolveCall.conflicted ResolveCall.key (ResolveCall.plain verifyB64) (· ∈ calls) r.cache

namespace ParallelResolver

variable {calls : List ResolveCall} {r : ParallelResolver} {call : ResolveCall}

theorem lookup_of_not_conflicted (h : call.conflicted = false) :
    r.lookup call = (some (separate call.states).1, r) := by
  have hnil : (separate call.states).2.entries = [] := by simpa [ResolveCall.conflicted] using h
  simp [lookup, hnil]

theorem lookup_of_conflicted (h : call.conflicted = true) :
    r.lookup call =
      match r.cache.get call.key with
      | some cached => (some cached, { r with hits := r.hits + 1 })
      | none => (none, { r with misses := r.misses + 1 }) := by
  have hnil : (separate call.states).2.entries ≠ [] := by simpa [ResolveCall.conflicted] using h
  simp only [lookup, hnil, if_false]
  rfl

theorem lookup_sound (hagree : KeysAgree verifyB64 calls) (hcall : call ∈ calls)
    (hr : r.Sound verifyB64 calls) :
    (r.lookup call).2.Sound verifyB64 calls ∧
      ∀ m, (r.lookup call).1 = some m → call.plain verifyB64 = some m := by
  cases hc : call.conflicted with
  | false =>
      rw [lookup_of_not_conflicted hc, ResolveCall.plain_of_not_conflicted hc]
      exact ⟨hr, fun m hm => hm⟩
  | true =>
      rw [lookup_of_conflicted hc]
      split
      · rename_i cached hk
        refine ⟨hr, fun m hm => ?_⟩
        obtain rfl := Option.some.inj hm
        exact CacheOf.hit hr
          (fun y hy hcy hkey hsome => hagree y hy call hcall hcy hc hkey hsome) hk
      · exact ⟨hr, fun m hm => absurd hm (by simp)⟩

theorem lookup_miss_conflicted {r' : ParallelResolver} (h : r.lookup call = (none, r')) :
    call.conflicted = true := by
  cases hc : call.conflicted with
  | false =>
      rw [lookup_of_not_conflicted hc] at h
      exact absurd (congrArg Prod.fst h) (by simp)
  | true => rfl

theorem fill_sound (hcall : call ∈ calls) (hc : call.conflicted = true)
    (hr : r.Sound verifyB64 calls) {m : StateMap} {r' : ParallelResolver}
    (h : r.fill verifyB64 call = some (m, r')) :
    r'.Sound verifyB64 calls ∧ call.plain verifyB64 = some m := by
  obtain ⟨m', hm, he⟩ := Option.map_eq_some_iff.mp h
  obtain ⟨rfl, rfl⟩ := Prod.mk.inj he
  exact ⟨CacheOf.insert hr hcall hc hm, hm⟩

theorem resolveCached_sound (hagree : KeysAgree verifyB64 calls) (hcall : call ∈ calls)
    (hr : r.Sound verifyB64 calls) {m : StateMap} {r' : ParallelResolver}
    (h : r.resolveCached verifyB64 call = some (m, r')) :
    r'.Sound verifyB64 calls ∧ call.plain verifyB64 = some m := by
  have hlookup := lookup_sound hagree hcall hr
  unfold resolveCached at h
  split at h
  · rename_i m' r'' heq
    obtain ⟨rfl, rfl⟩ := Prod.mk.inj (Option.some.inj h)
    rw [heq] at hlookup
    exact ⟨hlookup.1, hlookup.2 _ rfl⟩
  · rename_i r'' heq
    rw [heq] at hlookup
    exact fill_sound hcall (lookup_miss_conflicted heq) hlookup.1 h

end ParallelResolver

/-- What a worker holds is right: a missed job has a conflict, a resolved one its plain state. -/
def WorkerPhase.Right (verifyB64 : VerifyB64) (jobs : List ResolveCall) : WorkerPhase → Prop
  | .missed i => ∀ job, jobs[i]? = some job → job.conflicted = true
  | .resolved i m => ∀ job, jobs[i]? = some job → job.plain verifyB64 = some m
  | _ => True

/-- The invariant of a batch, over any interleaving of its workers. -/
structure Batch.Right (verifyB64 : VerifyB64) (calls jobs : List ResolveCall) (b : Batch) :
    Prop where
  sound : b.engine.Sound verifyB64 calls
  phases : ∀ phase ∈ b.phases, phase.Right verifyB64 jobs
  results : ∀ (i : Nat) (job : ResolveCall) m, jobs[i]? = some job → b.results[i]? = some (some m) →
    job.plain verifyB64 = some m

namespace Batch

variable {calls jobs : List ResolveCall} {b : Batch}

theorem right_start {engine : ParallelResolver} (h : engine.Sound verifyB64 calls) :
    (start engine jobs).Right verifyB64 calls jobs where
  sound := h
  phases := by
    intro phase hp
    rw [List.eq_of_mem_replicate hp]
    trivial
  results := by
    intro i job m _ hres
    obtain ⟨_, _, hnone⟩ := List.mem_map.mp (List.mem_of_getElem? hres)
    exact absurd hnone (by simp)

theorem Right.phaseStep (hagree : KeysAgree verifyB64 calls) (hjobs : jobs ⊆ calls)
    (hb : b.Right verifyB64 calls jobs) {phase : WorkerPhase}
    (hp : phase.Right verifyB64 jobs) :
    (b.phaseStep verifyB64 jobs phase).1.Right verifyB64 calls jobs ∧
      (b.phaseStep verifyB64 jobs phase).2.Right verifyB64 jobs := by
  obtain ⟨hsound, hphases, hresults⟩ := hb
  cases phase with
  | idle =>
      refine ⟨⟨hsound, hphases, hresults⟩, ?_⟩
      simp only [Batch.phaseStep]
      split
      · trivial
      · trivial
  | taken i =>
      -- what the cache gives is right, and a miss leaves the job to the worker
      simp only [Batch.phaseStep]
      split
      · exact ⟨⟨hsound, hphases, hresults⟩, trivial⟩
      · rename_i job hjob
        have hlookup := ParallelResolver.lookup_sound (r := b.engine) hagree
          (hjobs (List.mem_of_getElem? hjob)) hsound
        split
        · rename_i m engine heq
          rw [heq] at hlookup
          refine ⟨⟨hlookup.1, hphases, hresults⟩, fun job' hjob' => ?_⟩
          obtain rfl := Option.some.inj (hjob.symm.trans hjob')
          exact hlookup.2 m rfl
        · rename_i engine heq
          rw [heq] at hlookup
          refine ⟨⟨hlookup.1, hphases, hresults⟩, fun job' hjob' => ?_⟩
          obtain rfl := Option.some.inj (hjob.symm.trans hjob')
          exact ParallelResolver.lookup_miss_conflicted heq
  | missed i =>
      -- the worker resolves the job itself and fills the cache
      simp only [Batch.phaseStep]
      split
      · exact ⟨⟨hsound, hphases, hresults⟩, trivial⟩
      · rename_i job hjob
        split
        · rename_i m engine heq
          have hfill := ParallelResolver.fill_sound (hjobs (List.mem_of_getElem? hjob))
            (hp job hjob) hsound heq
          refine ⟨⟨hfill.1, hphases, hresults⟩, fun job' hjob' => ?_⟩
          obtain rfl := Option.some.inj (hjob.symm.trans hjob')
          exact hfill.2
        · exact ⟨⟨hsound, hphases, hresults⟩, hp⟩
  | resolved i m =>
      -- only the slot of the worker's own job changes
      refine ⟨⟨hsound, hphases, ?_⟩, trivial⟩
      intro j job m' hjob hres
      simp only [Batch.phaseStep, List.getElem?_set] at hres
      split at hres
      · rename_i hij
        subst hij
        split at hres
        · obtain rfl := Option.some.inj (Option.some.inj hres)
          exact hp job hjob
        · exact absurd hres (by simp)
      · exact hresults j job m' hjob hres
  | stopped => exact ⟨⟨hsound, hphases, hresults⟩, trivial⟩

theorem Right.step (hagree : KeysAgree verifyB64 calls) (hjobs : jobs ⊆ calls)
    (hb : b.Right verifyB64 calls jobs) (w : Nat) :
    (b.step verifyB64 jobs w).Right verifyB64 calls jobs := by
  unfold Batch.step
  split
  · exact hb
  · rename_i phase hw
    obtain ⟨hb', hp'⟩ := hb.phaseStep hagree hjobs (hb.phases phase (List.mem_of_getElem? hw))
    refine ⟨hb'.sound, fun p hp => ?_, hb'.results⟩
    rcases List.mem_or_eq_of_mem_set hp with hp | rfl
    · exact hb'.phases p hp
    · exact hp'

theorem Right.stored (hb : b.Right verifyB64 calls jobs) :
    ∀ a ∈ b.stored jobs, a.1.plain verifyB64 = some a.2 := by
  rintro ⟨job, m⟩ ha
  obtain ⟨⟨job', res⟩, hmem, he⟩ := List.mem_filterMap.mp ha
  obtain ⟨m', rfl, he⟩ := Option.map_eq_some_iff.mp he
  obtain ⟨rfl, rfl⟩ := Prod.mk.inj he
  obtain ⟨i, hi, hget⟩ := List.mem_iff_getElem.mp hmem
  rw [List.getElem_zip] at hget
  obtain ⟨hjob, hres⟩ := Prod.mk.inj hget
  exact hb.results i job' m' (List.getElem?_eq_some_iff.mpr ⟨_, hjob⟩)
    (List.getElem?_eq_some_iff.mpr ⟨_, hres⟩)

end Batch

/-- One use of a sound engine answers rightly and leaves it sound. -/
theorem ParallelResolver.perform_sound {calls : List ResolveCall} {r : ParallelResolver}
    (hagree : KeysAgree verifyB64 calls) {use : ParallelResolver.Use} (huse : use.calls ⊆ calls)
    (hr : r.Sound verifyB64 calls) :
    (∀ a ∈ (r.perform verifyB64 use).1, a.1.plain verifyB64 = some a.2) ∧
      (r.perform verifyB64 use).2.Sound verifyB64 calls := by
  cases use with
  | single call =>
      simp only [perform]
      split
      · exact ⟨by simp, hr⟩
      · rename_i m r' heq
        obtain ⟨hr', hm⟩ := resolveCached_sound hagree (huse List.mem_cons_self) hr heq
        exact ⟨by simpa using hm, hr'⟩
  | batch jobs schedule =>
      have hb : (run (Batch.step verifyB64 jobs) (Batch.start r jobs) schedule).Right verifyB64
          calls jobs :=
        run_of_step (fun b w hb => hb.step hagree huse w) (Batch.right_start hr) schedule
      exact ⟨hb.stored, hb.sound⟩

/-- Every sequence of uses of a sound engine, under any schedules, answers rightly. -/
theorem ParallelResolver.answers_sound {calls : List ResolveCall}
    (hagree : KeysAgree verifyB64 calls) {uses : List ParallelResolver.Use}
    (huses : ∀ use ∈ uses, use.calls ⊆ calls) {r : ParallelResolver}
    (hr : r.Sound verifyB64 calls) :
    ∀ a ∈ r.answers verifyB64 uses, a.1.plain verifyB64 = some a.2 := by
  induction uses generalizing r with
  | nil => simp [answers]
  | cons use uses ih =>
      obtain ⟨huse, huses⟩ := List.forall_mem_cons.mp huses
      obtain ⟨hgiven, hr'⟩ := perform_sound hagree huse hr
      intro a ha
      rcases List.mem_append.mp ha with ha | ha
      · exact hgiven a ha
      · exact ih huses hr' a ha

/-! ## When the caches are right -/

/-- A resolver called in sequence answers as the plain resolution does exactly when the key
determines the resolution along the sequence; a shared engine does under every schedule of every
sequence of uses when it determines it among the calls. -/
theorem cached_resolution_right_iff (verifyB64 : VerifyB64) :
    (∀ calls : List ResolveCall,
      (∀ a ∈ CachedResolver.new.answers verifyB64 calls, a.2 = a.1.plain verifyB64) ↔
        KeyDetermines ResolveCall.conflicted ResolveCall.key (ResolveCall.plain verifyB64) calls) ∧
    ∀ (workers : Nat) (uses : List ParallelResolver.Use),
      KeysAgree verifyB64 (uses.flatMap (·.calls)) →
        ∀ a ∈ (ParallelResolver.new workers).answers verifyB64 uses,
          a.1.plain verifyB64 = some a.2 := by
  constructor
  · intro calls
    rw [CachedResolver.answers_eq_memoAnswers]
    exact memoAnswers_eq_iff calls
  · intro workers uses hagree
    have hsound : (ParallelResolver.new workers).Sound verifyB64 (uses.flatMap (·.calls)) :=
      cacheOf_empty _
    refine ParallelResolver.answers_sound hagree (fun use huse call hcall => ?_) hsound
    exact List.mem_flatMap.mpr ⟨use, huse, hcall⟩

/-- Three events in two slots, the first slot agreed on. -/
def agreedInput : ResolveCall where
  states :=
    [SortedMap.empty.insertAll
        [(slot "m.room.name" [], ⟨"$a", valid_event⟩), (slot "m.room.topic" [], ⟨"$b", by decide⟩)],
      SortedMap.empty.insertAll
        [(slot "m.room.name" [], ⟨"$a", valid_event⟩), (slot "m.room.topic" [], ⟨"$c", by decide⟩)]]
  pdus := SortedMap.empty
  order := .inserted

/-- The same events, the first slot missing from one of the states. -/
def disputedInput : ResolveCall where
  states :=
    [SortedMap.empty.insertAll
        [(slot "m.room.name" [], ⟨"$a", valid_event⟩), (slot "m.room.topic" [], ⟨"$b", by decide⟩)],
      SortedMap.empty.insertAll [(slot "m.room.topic" [], ⟨"$c", by decide⟩)]]
  pdus := SortedMap.empty
  order := .inserted

/-- Repeated calls on one input, alone and in a batch of two workers. -/
theorem cached_resolution_right_repeated :
    ∀ a ∈ (ParallelResolver.new 2).answers (fun _ _ _ => false)
        [.single agreedInput, .batch [agreedInput, agreedInput] [0, 1, 1, 0, 1, 0]],
      a.1.plain (fun _ _ _ => false) = some a.2 := by
  refine (cached_resolution_right_iff _).2 2 _ (fun a ha b hb _ _ _ _ => ?_)
  simp only [List.flatMap_cons, List.flatMap_nil, ParallelResolver.Use.calls, List.append_nil,
    List.cons_append, List.nil_append, List.mem_cons, List.not_mem_nil, or_false, or_self] at ha hb
  rw [ha, hb]

/-- The second call is answered with the state of the first. -/
theorem cached_answer_of_another_input :
    ¬ ∀ (verifyB64 : VerifyB64) (pdus : PduMap) (calls : List ResolveCall),
      (∀ call ∈ calls, call.pdus = pdus) →
        ∀ a ∈ CachedResolver.new.answers verifyB64 calls, a.2 = a.1.plain verifyB64 := by
  intro h
  have hcalls := h (fun _ _ _ => false) SortedMap.empty [agreedInput, disputedInput]
    (by simp [agreedInput, disputedInput])
  revert hcalls
  decide +kernel

end GaussMatrix.StateRes
