import Mathlib.Data.Nat.Notation

/-!
# The thread pool

`thread_pool.hpp` and `thread_pool.cpp`, as a transition system.  A thread is a program counter; a
step is one lock-protected section, one operation on an atomic, or the start or end of a job's
function.  Waiting on `m_data_condition` gives the lock back, so the section ends there, and a
waiting thread may wake up at any time: a spurious wake-up is allowed in every state, and the
wake-ups of a `notify_all` are among these.

`F` is the type of the functions that are queued.  `called`, `queued`, `invoked`, `finished` and
`discarded` record what happened to the jobs; the code keeps no such record.
-/

namespace EllohimMQ

/-- An empty `std::function` is `none`.  The ticket tells the calls of `queue_job` apart. -/
structure ThreadPoolJob (F : Type) where
  func : Option F
  ticket : ℕ
  deriving DecidableEq

/-- Where a worker is in `run`. -/
inductive Worker (F : Type) where
  /-- before taking the lock, at the top of the loop or after a wake-up -/
  | ready
  /-- in `m_data_condition.wait` -/
  | asleep
  /-- after `lock.unlock()` -/
  | holding (job : ThreadPoolJob F)
  /-- after `++m_busy_threads` -/
  | entered (job : ThreadPoolJob F)
  /-- in `std::invoke` -/
  | executing (job : ThreadPoolJob F)
  /-- before `--m_busy_threads` -/
  | leaving
  | exited
  deriving DecidableEq

/-- The thread has left `run`. -/
def Worker.hasExited {F : Type} : Worker F → Bool
  | .exited => true
  | _ => false

/-- Where a caller of `queue_job` is. -/
inductive Producer (F : Type) where
  | idle
  /-- after `next_queue++ % m_job_stack.size()` -/
  | indexed (job : ThreadPoolJob F) (index : ℕ)
  /-- before `m_data_condition.notify_all()` -/
  | pushed
  /-- after a remainder with divisor zero or an access past the end of `m_job_stack` -/
  | faulted
  deriving DecidableEq

/-- Where the caller of `destroy` is. -/
inductive Destroyer where
  | notCalled
  | stopped
  | joining
  | cleared
  deriving DecidableEq

/-- The pool with its threads.  `called`, `queued`, `invoked`, `finished` and `discarded` record the
jobs that calls were made for, that entered a deque, whose function was begun and has ended, and
that `destroy` threw away. -/
structure ThreadPool (F : Type) where
  acceptJobs : Bool
  jobStack : List (List (ThreadPoolJob F))
  allocatedThreadCount : BitVec 64
  busyThreads : BitVec 64
  nextQueue : BitVec 64
  workers : List (Worker F)
  producers : List (Producer F)
  destroyer : Destroyer
  called : List (ThreadPoolJob F)
  queued : List (ThreadPoolJob F)
  invoked : List (ThreadPoolJob F)
  finished : List (ThreadPoolJob F)
  discarded : List (ThreadPoolJob F)

/-- How a job's function ends.  Any other exception ends the process. -/
inductive Outcome where
  | returned
  | threw
  deriving DecidableEq

/-- The steps of the threads; `p` is a caller of `queue_job`, `i` a worker. -/
inductive PoolStep (F : Type) where
  | queueJob (p : ℕ) (func : Option F)
  | push (p : ℕ)
  | notify (p : ℕ)
  | lock (i : ℕ)
  | wake (i : ℕ)
  | enter (i : ℕ)
  | invoke (i : ℕ)
  | finish (i : ℕ) (outcome : Outcome)
  | leave (i : ℕ)
  | destroyStop
  | destroyNotify
  | destroyClear
  deriving DecidableEq

namespace ThreadPool

variable {F : Type}

/-- A pool after its constructor, with `producers` threads that may call `queue_job`.  `next_queue`
is a static variable and keeps its value from one pool to the next. -/
def new (preallocatedThreadCount nextQueue : BitVec 64) (producers : ℕ) : ThreadPool F where
  acceptJobs := true
  jobStack := List.replicate preallocatedThreadCount.toNat []
  allocatedThreadCount := preallocatedThreadCount
  busyThreads := 0
  nextQueue
  workers := List.replicate preallocatedThreadCount.toNat .ready
  producers := List.replicate producers .idle
  destroyer := .notCalled
  called := []
  queued := []
  invoked := []
  finished := []
  discarded := []

/-! ## `queue_job` -/

/-- The part of `queue_job` before the lock. -/
def queueJob (s : ThreadPool F) (p : ℕ) (func : Option F) : ThreadPool F :=
  match func with
  | none => s
  | some func =>
    if s.jobStack.length = 0 then { s with producers := s.producers.set p .faulted }
    else
      let job : ThreadPoolJob F := ⟨some func, s.called.length⟩
      let index := s.nextQueue.toNat % s.jobStack.length
      { s with
        nextQueue := s.nextQueue + 1
        producers := s.producers.set p (.indexed job index)
        called := s.called ++ [job] }

/-- `m_job_stack[index].push_front({ func, location })` -/
def push (s : ThreadPool F) (p : ℕ) (job : ThreadPoolJob F) (index : ℕ) : ThreadPool F :=
  match s.jobStack[index]? with
  | none => { s with producers := s.producers.set p .faulted }
  | some jobs =>
    { s with
      jobStack := s.jobStack.set index (job :: jobs)
      producers := s.producers.set p .pushed
      queued := s.queued ++ [job] }

/-- `notify_all` -/
def notifyAll (workers : List (Worker F)) : List (Worker F) :=
  workers.map fun
    | .asleep => .ready
    | w => w

/-! ## `run` -/

/-- The victim that the loop stops at: the first other deque, from `index + 1` round, that holds at
least four jobs. -/
def victim (jobStack : List (List (ThreadPoolJob F))) (index : ℕ) : Option ℕ :=
  ((List.range jobStack.length).map fun i => (index + i + 1) % jobStack.length).find? fun v =>
    4 ≤ (jobStack.getD v []).length && v ≠ index

/-- The job taken, and the deques that are left: from the front of the worker's own deque, else from
the back of a victim's, else the `job` that was default-constructed at the top of the loop. -/
def takeJob (s : ThreadPool F) (index : ℕ) :
    Option (ThreadPoolJob F) × List (List (ThreadPoolJob F)) :=
  match s.jobStack.getD index [] with
  | job :: jobs => (some job, s.jobStack.set index jobs)
  | [] =>
    if 1 < s.allocatedThreadCount.toNat then
      match victim s.jobStack index with
      | some v =>
        let jobs := s.jobStack.getD v []
        (jobs.getLast?, s.jobStack.set v jobs.dropLast)
      | none => (none, s.jobStack)
    else (none, s.jobStack)

/-- The job that `thread_pool_job job;` constructs; no call of `queue_job` made it. -/
def defaultJob (s : ThreadPool F) : ThreadPoolJob F := ⟨none, s.called.length⟩

/-- The section from taking the lock to giving it back. -/
def lock (s : ThreadPool F) (i : ℕ) : ThreadPool F :=
  if s.jobStack.getD i [] = [] ∧ s.acceptJobs = true then
    { s with workers := s.workers.set i .asleep }
  else if s.acceptJobs = false then
    { s with workers := s.workers.set i .exited }
  else
    let (job, jobStack) := s.takeJob i
    { s with jobStack, workers := s.workers.set i (.holding (job.getD s.defaultJob)) }

/-! ## Steps -/

/-- One step; `none` when the thread is not at the place that the step starts from. -/
def step (s : ThreadPool F) : PoolStep F → Option (ThreadPool F)
  | .queueJob p func =>
    match s.producers[p]? with
    | some .idle => some (s.queueJob p func)
    | _ => none
  | .push p =>
    match s.producers[p]? with
    | some (.indexed job index) => some (s.push p job index)
    | _ => none
  | .notify p =>
    match s.producers[p]? with
    | some .pushed =>
      some { s with workers := notifyAll s.workers, producers := s.producers.set p .idle }
    | _ => none
  | .lock i =>
    match s.workers[i]? with
    | some .ready => some (s.lock i)
    | _ => none
  | .wake i =>
    match s.workers[i]? with
    | some .asleep => some { s with workers := s.workers.set i .ready }
    | _ => none
  | .enter i =>
    match s.workers[i]? with
    | some (.holding job) =>
      some { s with busyThreads := s.busyThreads + 1, workers := s.workers.set i (.entered job) }
    | _ => none
  | .invoke i =>
    match s.workers[i]? with
    | some (.entered job) =>
      some { s with workers := s.workers.set i (.executing job), invoked := s.invoked ++ [job] }
    | _ => none
  | .finish i _ =>
    match s.workers[i]? with
    | some (.executing job) =>
      some { s with workers := s.workers.set i .leaving, finished := s.finished ++ [job] }
    | _ => none
  | .leave i =>
    match s.workers[i]? with
    | some .leaving =>
      some { s with busyThreads := s.busyThreads - 1, workers := s.workers.set i .ready }
    | _ => none
  | .destroyStop =>
    if s.destroyer = .notCalled then some { s with acceptJobs := false, destroyer := .stopped }
    else none
  | .destroyNotify =>
    if s.destroyer = .stopped then
      some { s with workers := notifyAll s.workers, destroyer := .joining }
    else none
  | .destroyClear =>
    if s.destroyer = .joining ∧ s.workers.all Worker.hasExited = true then
      some { s with
        jobStack := []
        workers := []
        destroyer := .cleared
        discarded := s.discarded ++ s.jobStack.flatten }
    else none

end ThreadPool

end EllohimMQ
