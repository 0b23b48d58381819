import EllohimMQ.Model.Scheduler
import EllohimMQ.Model.ThreadPool

/-!
# The lifetime of the pool

`thread_pool::thread_pool` with `rescale_thread_pool`, then the pool with its callers and the timer
thread, then `destroy`.  The constructor is not one step: it makes the deques, starts the workers one
by one, and publishes the pool in `g_thread_pool` at its end.  A worker runs from when it is started.
`g_thread_pool` is the only way to `queue_job` and `destroy`, so these are called after that.

The scheduler does not know about the pool's lifetime.  Its thread is caller number 0 of `queue_job`.
-/

namespace EllohimMQ

variable {F : Type}

/-- Where the thread that makes the pool is in `thread_pool::thread_pool`. -/
inductive PoolConstructor where
  /-- before `m_job_stack.resize` -/
  | entered
  /-- in the loop that starts the workers -/
  | spawning
  /-- after `g_thread_pool = this` -/
  | returned
  /-- an allocation or the start of a thread failed: there is no pool -/
  | threw
  deriving DecidableEq

/-- The pool, the scheduler, and how far the pool is constructed. -/
structure PoolLifetime (F : Type) where
  phase : PoolConstructor
  pool : ThreadPool F
  timers : Scheduler F

/-- The steps of the constructor, of the pool and of the scheduler; `pass` is the call of
`queue_job` in `scheduler::run`. -/
inductive LifetimeStep (F : Type) where
  | resize
  | spawn
  | publish
  | throw
  | pool (l : PoolStep F)
  | timers (l : SchedulerStep F)
  | pass
  deriving DecidableEq

namespace PoolLifetime

/-- Before the constructor's body, with `callers` threads that may call `queue_job` besides the timer
thread and `submitters` threads that may submit timers. -/
def new (preallocatedThreadCount nextQueue : BitVec 64) (callers : ℕ) (clock : TimePoint)
    (submitters : ℕ) : PoolLifetime F where
  phase := .entered
  pool := { ThreadPool.new preallocatedThreadCount nextQueue (callers + 1) with
    jobStack := []
    workers := [] }
  timers := .init clock submitters

/-- The steps of the threads that have the pool. -/
def stepPool (s : PoolLifetime F) (l : PoolStep F) : Option (ThreadPool F) :=
  match l with
  | .queueJob 0 _ => none
  | .queueJob _ _ => if s.phase = .returned then s.pool.step l else none
  | .destroyStop => if s.phase = .returned then s.pool.step l else none
  | l => s.pool.step l

/-- The steps of the timer thread and of its callers.  The thread goes on in its loop when it has
returned from `queue_job`. -/
def stepTimers (s : PoolLifetime F) (l : SchedulerStep F) : Option (Scheduler F) :=
  match l with
  | .pass => none
  | .test =>
    match s.pool.producers[(0 : ℕ)]? with
    | some .idle => s.timers.step l
    | _ => none
  | l => s.timers.step l

/-- `g_thread_pool->queue_job(job.func)` -/
def pass (s : PoolLifetime F) : Option (PoolLifetime F) :=
  match s.timers.thread with
  | .popped job =>
    if s.phase = .returned then
      (s.timers.step .pass).bind fun timers =>
        (s.pool.step (.queueJob 0 job.func)).map fun pool => { s with timers, pool }
    else none
  | _ => none

/-- One step, unless the constructor has thrown. -/
def stepLive (s : PoolLifetime F) : LifetimeStep F → Option (PoolLifetime F)
  | .resize =>
    if s.phase = .entered then
      let jobStack := List.replicate s.pool.allocatedThreadCount.toNat []
      some { s with phase := .spawning, pool := { s.pool with jobStack } }
    else none
  | .spawn =>
    if s.phase = .spawning ∧ s.pool.workers.length < s.pool.allocatedThreadCount.toNat then
      some { s with pool := { s.pool with workers := s.pool.workers ++ [.ready] } }
    else none
  | .publish =>
    if s.phase = .spawning ∧ s.pool.allocatedThreadCount.toNat ≤ s.pool.workers.length then
      some { s with phase := .returned }
    else none
  | .throw =>
    if s.phase = .entered ∨ s.phase = .spawning then
      some { s with phase := .threw }
    else none
  | .pool l => (s.stepPool l).map fun pool => { s with pool }
  | .timers l => (s.stepTimers l).map fun timers => { s with timers }
  | .pass => s.pass

/-- One step.  When the constructor throws there is no pool, and no step. -/
def step (s : PoolLifetime F) (l : LifetimeStep F) : Option (PoolLifetime F) :=
  if s.phase = .threw then none else s.stepLive l

end PoolLifetime

end EllohimMQ
