import GaussMatrix.Library.Runs

/-!
# The pool of workers

The accept loop puts each connection at the end of a queue.  Each worker takes the next one with the
lock of the queue held, and serves it with the lock free.
-/

namespace GaussMatrix.Http

open Library

/-- A worker's thread: before its turn at the queue, waiting at it with the lock, or serving; ended
because the accept loop did, or unwound by a panic of the handler. -/
inductive Worker (κ : Type)
  | idle
  | receiving
  | serving (stream : κ)
  | exited
  | panicked

structure Pool (κ : Type) (n : Nat) where
  accepting : Bool
  queue : List κ
  /-- Who holds the lock of the queue. -/
  holder : Option (Fin n)
  worker : Fin n → Worker κ

inductive PoolEvent (κ : Type) (n : Nat)
  | accepted (stream : κ)
  | acceptFailed
  | locked (i : Fin n)
  | received (i : Fin n)
  | hungUp (i : Fin n)
  | served (i : Fin n)
  | panicked (i : Fin n)

namespace Pool

variable {κ : Type} {n : Nat}

/-- The pool before the first connection. -/
def start (n : Nat) : Pool κ n where
  accepting := true
  queue := []
  holder := none
  worker := fun _ => .idle

def setWorker (p : Pool κ n) (i : Fin n) (w : Worker κ) : Pool κ n :=
  { p with worker := Function.update p.worker i w }

def step (p : Pool κ n) : PoolEvent κ n → Pool κ n
  -- the queue is kept alive by the accept loop, so the send goes through whatever the workers do
  | .accepted stream => { p with queue := p.queue ++ [stream] }
  | .acceptFailed => { p with accepting := false }
  | .locked i => { p.setWorker i .receiving with holder := some i }
  | .received i =>
      match p.queue with
      | [] => p
      | stream :: rest => { p.setWorker i (.serving stream) with queue := rest, holder := none }
  | .hungUp i => { p.setWorker i .exited with holder := none }
  | .served i => p.setWorker i .idle
  | .panicked i => p.setWorker i .panicked

/-- When an event can happen. -/
def Enabled (p : Pool κ n) : PoolEvent κ n → Prop
  | .accepted _ => p.accepting = true
  | .acceptFailed => p.accepting = true
  | .locked i => p.worker i = .idle ∧ p.holder = none
  -- a queue without a sender still gives out what it has
  | .received i => p.worker i = .receiving ∧ p.queue ≠ []
  | .hungUp i => p.worker i = .receiving ∧ p.queue = [] ∧ p.accepting = false
  | .served i => ∃ stream, p.worker i = .serving stream
  | .panicked i => ∃ stream, p.worker i = .serving stream

end Pool

/-- The event is one of a worker, not of the accept loop. -/
def PoolEvent.OfWorker {κ : Type} {n : Nat} : PoolEvent κ n → Prop
  | .accepted _ | .acceptFailed => False
  | _ => True

namespace Pool

variable {κ : Type} {n : Nat} {p : Pool κ n} {e : PoolEvent κ n} {i : Fin n}

/-! ## What becomes of a connection -/

def streamOf : Worker κ → Option κ
  | .serving stream => some stream
  | _ => none

/-- The connection that an event queues, if it does. -/
def queuedBy : Pool κ n × PoolEvent κ n → Option κ
  | (_, .accepted stream) => some stream
  | _ => none

/-- The connection that an event takes off the queue. -/
def takenBy : Pool κ n × PoolEvent κ n → Option κ
  | (p, .received _) => p.queue.head?
  | _ => none

/-- The connection that an event finishes. -/
def finishedBy : Pool κ n × PoolEvent κ n → Option κ
  | (p, .served i) => streamOf (p.worker i)
  | _ => none

/-- The connection that an event drops. -/
def droppedBy : Pool κ n × PoolEvent κ n → Option κ
  | (p, .panicked i) => streamOf (p.worker i)
  | _ => none

/-- The connections that a worker serves: one or none. -/
def held (w : Worker κ) : Multiset κ := ((streamOf w).toList : Multiset κ)

/-- The connections in service. -/
def inService (p : Pool κ n) : Multiset κ := ∑ i, held (p.worker i)

theorem setWorker_self (p : Pool κ n) (i : Fin n) (w : Worker κ) : (p.setWorker i w).worker i = w :=
  Function.update_self ..

theorem setWorker_of_ne {j : Fin n} (h : j ≠ i) (p : Pool κ n) (w : Worker κ) :
    (p.setWorker i w).worker j = p.worker j :=
  Function.update_of_ne h ..

/-- What the workers hold together, when one of them changes. -/
theorem sum_setWorker {M : Type} [AddCommMonoid M] (f : Worker κ → M) (p : Pool κ n) (i : Fin n)
    (w : Worker κ) :
    ∑ j, f ((p.setWorker i w).worker j) + f (p.worker i) = ∑ j, f (p.worker j) + f w := by
  have hrest : ∀ j ∈ Finset.univ.erase i, f ((p.setWorker i w).worker j) = f (p.worker j) := by
    intro j hj
    rw [setWorker_of_ne (Finset.ne_of_mem_erase hj)]
  rw [← Finset.add_sum_erase Finset.univ (fun j => f ((p.setWorker i w).worker j)) (Finset.mem_univ i),
    ← Finset.add_sum_erase Finset.univ (fun j => f (p.worker j)) (Finset.mem_univ i),
    Finset.sum_congr rfl hrest, setWorker_self]
  abel

theorem inService_setWorker (p : Pool κ n) (i : Fin n) (w : Worker κ) :
    (p.setWorker i w).inService + held (p.worker i) = p.inService + held w :=
  sum_setWorker held p i w

theorem inService_start : (start n : Pool κ n).inService = 0 :=
  Finset.sum_eq_zero fun _ _ => rfl

/-- The queue is a queue: what is taken off it is what was put on it, in order. -/
theorem queue_step (h : p.Enabled e) :
    p.queue ++ (queuedBy (p, e)).toList = (takenBy (p, e)).toList ++ (p.step e).queue := by
  cases e with
  | accepted stream => rfl
  | received i =>
      obtain ⟨-, hqueue⟩ := h
      obtain ⟨stream, rest, hcons⟩ := List.exists_cons_of_ne_nil hqueue
      simp only [queuedBy, takenBy, step, hcons, List.head?_cons, Option.toList_none,
        Option.toList_some, List.append_nil]
      rfl
  | acceptFailed => exact List.append_nil _
  | locked i => exact List.append_nil _
  | hungUp i => exact List.append_nil _
  | served i => exact List.append_nil _
  | panicked i => exact List.append_nil _

/-- A worker that changes between states without a connection leaves what is in service as it is. -/
theorem inService_of_held {w : Worker κ} (h : held (p.worker i) = held w) :
    (p.setWorker i w).inService = p.inService := by
  have hset := inService_setWorker p i w
  rw [h] at hset
  exact add_right_cancel hset

/-- What is taken goes into service, and out of it when it is finished or dropped. -/
theorem inService_step (h : p.Enabled e) :
    p.inService + (takenBy (p, e)).toList =
      ((finishedBy (p, e)).toList : Multiset κ) + (droppedBy (p, e)).toList + (p.step e).inService := by
  have hleave : ∀ {i stream} {w : Worker κ}, p.worker i = .serving stream → held w = 0 →
      p.inService = {stream} + (p.setWorker i w).inService := by
    intro i stream w hserving hw
    have hset := inService_setWorker p i w
    rw [hserving, hw, add_zero] at hset
    rw [← hset, add_comm]
    rfl
  have hnothing : ∀ {q : Pool κ n}, q.inService = p.inService →
      p.inService + ([] : List κ) = (([] : List κ) : Multiset κ) + ([] : List κ) + q.inService := by
    intro q hq
    rw [hq, Multiset.coe_nil, add_zero, add_zero, zero_add]
  cases e with
  | accepted stream => exact hnothing rfl
  | acceptFailed => exact hnothing rfl
  | locked i =>
      have hsame : (p.setWorker i .receiving).inService = p.inService :=
        inService_of_held (by rw [h.1]; rfl)
      exact hnothing hsame
  | received i =>
      obtain ⟨hworker, hqueue⟩ := h
      obtain ⟨stream, rest, hcons⟩ := List.exists_cons_of_ne_nil hqueue
      have hset := inService_setWorker p i (.serving stream)
      have hempty : held (Worker.receiving : Worker κ) = 0 := rfl
      rw [hworker, hempty, add_zero] at hset
      simp only [takenBy, finishedBy, droppedBy, step, hcons, List.head?_cons, Option.toList_some,
        Option.toList_none, Multiset.coe_nil, zero_add]
      exact hset.symm
  | hungUp i =>
      have hsame : (p.setWorker i .exited).inService = p.inService :=
        inService_of_held (by rw [h.1]; rfl)
      exact hnothing hsame
  | served i =>
      obtain ⟨stream, hserving⟩ := h
      simp only [takenBy, finishedBy, droppedBy, step, hserving, streamOf, Option.toList_some,
        Option.toList_none, Multiset.coe_nil, add_zero]
      exact hleave hserving rfl
  | panicked i =>
      obtain ⟨stream, hserving⟩ := h
      simp only [takenBy, finishedBy, droppedBy, step, hserving, streamOf, Option.toList_some,
        Option.toList_none, Multiset.coe_nil, add_zero, zero_add]
      exact hleave hserving rfl

/-! ## Runs -/

theorem filterMap_trace_cons (f : Pool κ n × PoolEvent κ n → Option κ) (p : Pool κ n)
    (e : PoolEvent κ n) (is : List (PoolEvent κ n)) :
    (trace step p (e :: is)).filterMap f =
      (f (p, e)).toList ++ (trace step (p.step e) is).filterMap f := by
  rw [trace, List.filterMap_cons]
  cases f (p, e) <;> rfl

theorem queue_run {is : List (PoolEvent κ n)} (h : Guarded step Enabled p is) :
    p.queue ++ (trace step p is).filterMap queuedBy =
      (trace step p is).filterMap takenBy ++ (run step p is).queue := by
  induction is generalizing p with
  | nil => exact List.append_nil _
  | cons e is ih =>
      rw [filterMap_trace_cons, filterMap_trace_cons, run_cons, ← List.append_assoc,
        queue_step h.1, List.append_assoc, ih h.2, List.append_assoc]

theorem inService_run {is : List (PoolEvent κ n)} (h : Guarded step Enabled p is) :
    p.inService + ((trace step p is).filterMap takenBy : List κ) =
      (((trace step p is).filterMap finishedBy : List κ) : Multiset κ) +
        ((trace step p is).filterMap droppedBy : List κ) + (run step p is).inService := by
  induction is generalizing p with
  | nil => simp [trace]
  | cons e is ih =>
      have hfirst := inService_step h.1
      have hrest := ih h.2
      simp only [filterMap_trace_cons, run_cons, ← Multiset.coe_add]
      rw [← add_assoc, hfirst, add_assoc, hrest]
      abel

/-! ## The lock -/

/-- The worker at the queue holds its lock, and an exited worker has seen the last of the queue. -/
structure Orderly (p : Pool κ n) : Prop where
  lock : ∀ i, p.worker i = .receiving ↔ p.holder = some i
  last : ∀ i, p.worker i = .exited → p.accepting = false ∧ p.queue = []

theorem orderly_start : (start n : Pool κ n).Orderly where
  lock := by simp [start]
  last := by simp [start]

/-- A worker that is not at the queue, before and after, leaves the lock alone. -/
theorem Orderly.lock_setWorker (hp : p.Orderly) {w : Worker κ} (hbefore : p.worker i ≠ .receiving)
    (hafter : w ≠ .receiving) (j : Fin n) :
    (p.setWorker i w).worker j = .receiving ↔ p.holder = some j := by
  by_cases hj : j = i
  · rw [hj, setWorker_self, ← hp.lock]
    exact iff_of_false hafter hbefore
  · rw [setWorker_of_ne hj, hp.lock]

/-- A worker that leaves the queue leaves nobody there. -/
theorem Orderly.release (hp : p.Orderly) {w : Worker κ} (hbefore : p.worker i = .receiving)
    (hafter : w ≠ .receiving) (j : Fin n) : (p.setWorker i w).worker j ≠ .receiving := by
  by_cases hj : j = i
  · rw [hj, setWorker_self]
    exact hafter
  · rw [setWorker_of_ne hj, ne_eq, hp.lock, (hp.lock i).mp hbefore, Option.some_inj]
    exact Ne.symm hj

theorem Orderly.last_setWorker (hp : p.Orderly) {w : Worker κ} (hw : w ≠ .exited) (j : Fin n)
    (h : (p.setWorker i w).worker j = .exited) : p.accepting = false ∧ p.queue = [] := by
  by_cases hj : j = i
  · rw [hj, setWorker_self] at h
    exact absurd h hw
  · rw [setWorker_of_ne hj] at h
    exact hp.last j h

theorem Orderly.step (hp : p.Orderly) (h : p.Enabled e) : (p.step e).Orderly := by
  have hnone : ∀ j : Fin n, (none : Option (Fin n)) ≠ some j := by simp
  cases e with
  | accepted stream =>
      have haccepting : p.accepting = true := h
      refine ⟨hp.lock, ?_⟩
      intro j hj
      have hlast := (hp.last j hj).1
      rw [haccepting] at hlast
      cases hlast
  | acceptFailed => exact ⟨hp.lock, fun j hj => ⟨rfl, (hp.last j hj).2⟩⟩
  | locked i =>
      obtain ⟨hidle, hfree⟩ := h
      refine ⟨?_, hp.last_setWorker (by simp)⟩
      intro j
      show (p.setWorker i .receiving).worker j = _ ↔ some i = some j
      by_cases hj : j = i
      · rw [hj, setWorker_self]
        exact iff_of_true rfl rfl
      · rw [setWorker_of_ne hj, hp.lock, hfree]
        exact iff_of_false (hnone j) (by simpa using Ne.symm hj)
  | received i =>
      obtain ⟨hworker, hqueue⟩ := h
      obtain ⟨stream, rest, hcons⟩ := List.exists_cons_of_ne_nil hqueue
      simp only [Pool.step, hcons]
      refine ⟨fun j => iff_of_false (hp.release hworker (by simp) j) (hnone j), ?_⟩
      intro j hj
      exact absurd (hp.last_setWorker (by simp) j hj).2 hqueue
  | hungUp i =>
      obtain ⟨hworker, hqueue, hclosed⟩ := h
      exact ⟨fun j => iff_of_false (hp.release hworker (by simp) j) (hnone j),
        fun _ _ => ⟨hclosed, hqueue⟩⟩
  | served i =>
      obtain ⟨stream, hserving⟩ := h
      exact ⟨hp.lock_setWorker (by simp [hserving]) (by simp), hp.last_setWorker (by simp)⟩
  | panicked i =>
      obtain ⟨stream, hserving⟩ := h
      exact ⟨hp.lock_setWorker (by simp [hserving]) (by simp), hp.last_setWorker (by simp)⟩

theorem orderly_run {is : List (PoolEvent κ n)} (h : Guarded Pool.step Enabled (start n) is) :
    (run Pool.step (start n) is).Orderly :=
  h.run_of_step (fun _ _ hp he => hp.step he) orderly_start

/-! ## Progress -/

/-- How many turns a worker has left before it waits for the next connection or is gone. -/
def turns : Worker κ → Nat
  | .idle => 2
  | .receiving => 1
  | .serving _ => 3
  | .exited | .panicked => 0

/-- A bound on the events of workers until the next one of the accept loop. -/
def potential (p : Pool κ n) : Nat := 3 * p.queue.length + ∑ i, turns (p.worker i)

theorem potential_step (h : p.Enabled e) (he : e.OfWorker) : (p.step e).potential < p.potential := by
  cases e with
  | accepted stream => cases he
  | acceptFailed => cases he
  | locked i =>
      have hsum := sum_setWorker turns p i .receiving
      rw [h.1] at hsum
      show 3 * p.queue.length + ∑ j, turns ((p.setWorker i .receiving).worker j) < _
      simp only [turns, potential] at hsum ⊢
      omega
  | received i =>
      obtain ⟨hworker, hqueue⟩ := h
      obtain ⟨stream, rest, hcons⟩ := List.exists_cons_of_ne_nil hqueue
      have hsum := sum_setWorker turns p i (.serving stream)
      rw [hworker] at hsum
      simp only [step, hcons]
      show 3 * rest.length + ∑ j, turns ((p.setWorker i (.serving stream)).worker j) < _
      simp only [turns, potential, hcons, List.length_cons] at hsum ⊢
      omega
  | hungUp i =>
      have hsum := sum_setWorker turns p i .exited
      rw [h.1] at hsum
      show 3 * p.queue.length + ∑ j, turns ((p.setWorker i .exited).worker j) < _
      simp only [turns, potential] at hsum ⊢
      omega
  | served i =>
      obtain ⟨stream, hserving⟩ := h
      have hsum := sum_setWorker turns p i .idle
      rw [hserving] at hsum
      show 3 * p.queue.length + ∑ j, turns ((p.setWorker i .idle).worker j) < _
      simp only [turns, potential] at hsum ⊢
      omega
  | panicked i =>
      obtain ⟨stream, hserving⟩ := h
      have hsum := sum_setWorker turns p i .panicked
      rw [hserving] at hsum
      show 3 * p.queue.length + ∑ j, turns ((p.setWorker i .panicked).worker j) < _
      simp only [turns, potential] at hsum ⊢
      omega

/-- No worker can take a step. -/
def Waiting (p : Pool κ n) : Prop := ∀ e : PoolEvent κ n, e.OfWorker → ¬ p.Enabled e

/-- Where no worker can take a step, a worker that has not panicked has left nothing to do. -/
theorem Orderly.drained (hp : p.Orderly) (hwaiting : p.Waiting) (hi : p.worker i ≠ .panicked) :
    p.queue = [] ∧ p.inService = 0 := by
  have hserving : ∀ j stream, p.worker j ≠ .serving stream :=
    fun j stream hj => hwaiting (.served j) trivial ⟨stream, hj⟩
  constructor
  · by_contra hqueue
    cases hholder : p.holder with
    | some j => exact hwaiting (.received j) trivial ⟨(hp.lock j).mpr hholder, hqueue⟩
    | none =>
        -- the lock is free, so the worker could take its turn
        cases hworker : p.worker i with
        | idle => exact hwaiting (.locked i) trivial ⟨hworker, hholder⟩
        | receiving =>
            rw [hp.lock, hholder] at hworker
            cases hworker
        | serving stream => exact hserving i stream hworker
        | exited => exact hqueue (hp.last i hworker).2
        | panicked => exact hi hworker
  · apply Finset.sum_eq_zero
    intro j _
    cases hworker : p.worker j with
    | serving stream => exact absurd hworker (hserving j stream)
    | _ => rfl

/-- Once every worker has panicked, nothing is taken off the queue any more. -/
theorem panicked_run (hp : ∀ i, p.worker i = .panicked) {is : List (PoolEvent κ n)}
    (h : Guarded step Enabled p is) : (trace step p is).filterMap takenBy = [] := by
  induction is generalizing p with
  | nil => rfl
  | cons e is ih =>
      rw [filterMap_trace_cons]
      have hnone : ∀ {i} {w : Worker κ}, p.worker i = w → w ≠ .panicked → False :=
        fun hi hw => hw (hi.symm.trans (hp _))
      cases e with
      | accepted stream => exact ih hp h.2
      | acceptFailed => exact ih hp h.2
      | locked i => exact (hnone h.1.1 (by simp)).elim
      | received i => exact (hnone h.1.1 (by simp)).elim
      | hungUp i => exact (hnone h.1.1 (by simp)).elim
      | served i =>
          obtain ⟨stream, hserving⟩ := h.1
          exact (hnone hserving (by simp)).elim
      | panicked i =>
          obtain ⟨stream, hserving⟩ := h.1
          exact (hnone hserving (by simp)).elim

/-- A connection, taken by the first of two workers while the second waits for the next one. -/
def oneConnection : List (PoolEvent Nat 2) := [.accepted 7, .locked 0, .received 0, .locked 1]

theorem guarded_oneConnection : Guarded step Enabled (start 2) oneConnection := by
  refine ⟨rfl, ⟨rfl, rfl⟩, ⟨rfl, ?_⟩, ⟨rfl, rfl⟩, trivial⟩
  exact List.cons_ne_nil 7 []

/-- Over every interleaving of the accept loop and the workers, the connections are taken in the order
they came, each by one worker, which finishes it, drops it or is serving it; one worker at most waits
at the queue. -/
theorem connections_served_once (workers : Nat) (is : List (PoolEvent κ (max workers 1)))
    (h : Guarded step Enabled (start (max workers 1)) is) :
    let events := trace step (start (max workers 1)) is
    let p := run step (start (max workers 1)) is
    events.filterMap queuedBy = events.filterMap takenBy ++ p.queue ∧
    ((events.filterMap takenBy : List κ) : Multiset κ) =
      (events.filterMap finishedBy : List κ) + (events.filterMap droppedBy : List κ) + p.inService ∧
    ∀ i j, p.worker i = .receiving → p.worker j = .receiving → i = j := by
  intro events p
  refine ⟨queue_run h, ?_, ?_⟩
  · have hservice := inService_run h
    rwa [inService_start, zero_add] at hservice
  · intro i j hi hj
    have hp : p.Orderly := orderly_run h
    exact Option.some.inj (((hp.lock i).mp hi).symm.trans ((hp.lock j).mp hj))

theorem connections_served_once_two :
    Guarded step Enabled (start 2) oneConnection ∧
    ((trace step (start 2) oneConnection).filterMap queuedBy =
      (trace step (start 2) oneConnection).filterMap takenBy ++ (run step (start 2) oneConnection).queue) :=
  ⟨guarded_oneConnection, (connections_served_once 2 oneConnection guarded_oneConnection).1⟩

/-- The workers come to a stop on their own, and where they stop and one of them has not panicked, each
connection that came has been finished or dropped.  But once all of them have panicked, connections
still come and none is finished any more. -/
theorem pool_drains (workers : Nat) (is : List (PoolEvent κ (max workers 1)))
    (h : Guarded step Enabled (start (max workers 1)) is) :
    let events := trace step (start (max workers 1)) is
    let p := run step (start (max workers 1)) is
    (∀ js, Guarded step (fun q e => q.Enabled e ∧ e.OfWorker) p js → js.length ≤ p.potential) ∧
    (p.Waiting → (∃ i, p.worker i ≠ .panicked) →
      ((events.filterMap queuedBy : List κ) : Multiset κ) =
        (events.filterMap finishedBy : List κ) + (events.filterMap droppedBy : List κ)) ∧
    ((∀ i, p.worker i = .panicked) → ∀ js, Guarded step Enabled p js →
      (trace step p js).filterMap finishedBy = [] ∧
      (run step p js).queue = p.queue ++ (trace step p js).filterMap queuedBy) := by
  intro events p
  refine ⟨?_, ?_, ?_⟩
  · intro js hjs
    exact hjs.length_le fun _ _ he => potential_step he.1 he.2
  · rintro hwaiting ⟨i, hi⟩
    have hp : p.Orderly := orderly_run h
    obtain ⟨hqueue, hservice⟩ := hp.drained hwaiting hi
    have htaken : events.filterMap queuedBy = events.filterMap takenBy ++ p.queue := queue_run h
    have hfate := inService_run h
    rw [inService_start, zero_add] at hfate
    rw [htaken, hqueue, List.append_nil]
    exact hfate.trans (by rw [show (run step (start (max workers 1)) is).inService = 0 from hservice,
      add_zero])
  · intro hall js hjs
    have hnone := panicked_run hall hjs
    have hqueue := queue_run hjs
    have hfate := inService_run hjs
    have hidle : p.inService = 0 := Finset.sum_eq_zero fun i _ => by rw [hall i]; rfl
    rw [hnone, List.nil_append] at hqueue
    rw [hnone, hidle, zero_add] at hfate
    have hfinished : (((trace step p js).filterMap finishedBy : List κ) : Multiset κ) = 0 := by
      rw [← Multiset.le_zero, ← Multiset.coe_nil, hfate, add_assoc]
      exact Multiset.le_add_right _ _
    exact ⟨(Multiset.coe_eq_zero _).mp hfinished, hqueue.symm⟩

theorem pool_drains_two :
    ([.served 0] : List (PoolEvent Nat 2)).length ≤ (run step (start 2) oneConnection).potential :=
  (pool_drains 2 oneConnection guarded_oneConnection).1 _ ⟨⟨⟨7, rfl⟩, trivial⟩, trivial⟩

end Pool

end GaussMatrix.Http
