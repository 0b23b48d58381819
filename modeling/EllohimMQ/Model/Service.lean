import EllohimMQ.Model.Coroutine

/-!
# Any number of handlers at work

`Model.Coroutine` has one root.  Here the server's thread calls `consumer::call` as often as it
likes, and all the handlers share the pool and the timer thread.  What belongs to one call of
`async_run` is a `Handler`: the Tasks of a handler are objects of its own coroutines, so no handler
has a handle of another one's frames.  A job carries the number of its handler.

What a worker does inside `std::invoke` is as in `Model.Coroutine`: the handler is read as a process
of its own (`Handler.process`), in which the worker takes its step.  Only `execute_after` concerns the
timer thread that all share.  The outside answers an effect of a handler by what that handler has
shown; handlers that tell each other something through the outside are not covered.
-/

namespace EllohimMQ

open Calls

variable {σ Fx V E : Type}

/-- What belongs to one call of `async_run`.  `root` is the coroutine that was given to it. -/
structure Handler (σ Fx V E : Type) where
  root : σ
  frames : List (TaskFrame σ V E)
  asyncTask : AsyncPoint
  trace : List (Calls.Event Fx V E)

namespace Handler

/-- A handler whose job has not started. -/
def new (root : σ) : Handler σ Fx V E := ⟨root, [], .notStarted, []⟩

/-- The handler and the worker that is at `a` in it.  The pool and the timer thread of this process
are not those of the service, and take no step. -/
def process (h : Handler σ Fx V E) (a : Activity σ) : Process σ Fx V E where
  pool := .new 0 0 0
  timers := .init 0 0
  called := true
  frames := h.frames
  asyncTask := h.asyncTask
  activities := [a]
  trace := h.trace
  terminated := false
  faulted := false

/-- The Task, the delay and what is left, when the worker at `a` is about to evaluate
`co_await sleepCoro(..)`. -/
def sleeps (P : Program σ Fx V E) (h : Handler σ Fx V E) : Activity σ → Option (ℕ × ℤ × σ)
  | .inBody t =>
    match (h.frames[t]?).map TaskFrame.point with
    | some (.running b) =>
      match P.next b with
      | .sleep ms rest => some (t, ms, rest)
      | _ => none
    | _ => none
  | _ => none

/-- Task `t` is suspended in `TimerAwaiter`. -/
def suspend (h : Handler σ Fx V E) (t : ℕ) (ms : ℤ) (rest : σ) : Handler σ Fx V E :=
  { h with
    frames := h.frames.modify t (.suspend (.timerAwaiter rest))
    trace := h.trace ++ [.slept ms] }

end Handler

/-- The number in an activity is that of the handler, and says nothing while the worker is idle. -/
structure Service (σ Fx V E : Type) where
  pool : ThreadPool (ℕ × CoroutineJob σ)
  timers : Scheduler (ℕ × CoroutineJob σ)
  handlers : List (Handler σ Fx V E)
  activities : List (ℕ × Activity σ)
  terminated : Bool
  faulted : Bool

/-- The steps, named as those of `Process`; `call` is a call of `consumer::call` whose `on_call` is
`root`. -/
inductive ServiceStep (σ : Type) where
  | call (root : σ)
  | pool (l : PoolStep (ℕ × CoroutineJob σ))
  | timers (l : SchedulerStep (ℕ × CoroutineJob σ))
  | pass
  | invoke (i : ℕ)
  | execute (i : ℕ)
  | finish (i : ℕ)

namespace Service

/-- The callers of `queue_job` are the timer thread, number 0, and the server's thread, number 1. -/
def new (workers nextQueue : BitVec 64) (clock : TimePoint) : Service σ Fx V E where
  pool := .new workers nextQueue 2
  timers := .init clock workers.toNat
  handlers := []
  activities := List.replicate workers.toNat (0, .idle)
  terminated := false
  faulted := false

/-- Worker `i` goes on to `a` in handler `k`. -/
def setActivity (s : Service σ Fx V E) (i k : ℕ) (a : Activity σ) : Service σ Fx V E :=
  { s with activities := s.activities.set i (k, a) }

/-- Handler `k` changes. -/
def setHandler (s : Service σ Fx V E) (k : ℕ) (h : Handler σ Fx V E) : Service σ Fx V E :=
  { s with handlers := s.handlers.set k h }

/-- Worker `i` has taken the step of handler `k` that ends in `p`. -/
def absorb (s : Service σ Fx V E) (i k : ℕ) (root : σ) (p : Process σ Fx V E) : Service σ Fx V E :=
  { s.setHandler k ⟨root, p.frames, p.asyncTask, p.trace⟩ with
    activities := s.activities.set i (k, p.activities.headD .idle)
    terminated := p.terminated
    faulted := p.faulted }

variable (P : Program σ Fx V E)

/-- One step of worker `i` inside `std::invoke`, in handler `k`. -/
def executeIn (s : Service σ Fx V E) (i k : ℕ) (a : Activity σ) : Option (Service σ Fx V E) :=
  match s.handlers[k]? with
  | none => none
  | some h =>
    match h.sleeps P a with
    | some (t, ms, rest) =>
      (s.timers.step (.executeAfter i (timerDelay ms) (some (k, .resume (.task t))))).map
        fun timers => ({ s with timers }.setHandler k (h.suspend t ms rest)).setActivity i k .inTimer
    | none => ((h.process a).execute P 0).map (s.absorb i k h.root)

/-- One step of worker `i` inside `std::invoke`. -/
def execute (s : Service σ Fx V E) (i : ℕ) : Option (Service σ Fx V E) :=
  match s.activities[i]? with
  | some (k, .inTimer) =>
    match s.timers.submitters[i]? with
    | some .idle => some (s.setActivity i k (.ending .returned))
    | _ => none
  | some (k, a) => s.executeIn P i k a
  | none => none

/-- The activity that invoking a job begins. -/
def begin (func : Option (ℕ × CoroutineJob σ)) : ℕ × Activity σ :=
  ((func.map Prod.fst).getD 0, Activity.ofJob (func.map Prod.snd))

/-- One step of a process that has not ended. -/
def stepLive (s : Service σ Fx V E) : ServiceStep σ → Option (Service σ Fx V E)
  | .call root =>
    (s.pool.step (.queueJob 1 (some (s.handlers.length, .asyncRun root)))).map fun pool =>
      { s with pool, handlers := s.handlers ++ [.new root] }
  | .pool l =>
    if l.internal then (s.pool.step l).map fun pool => { s with pool } else none
  | .timers .test =>
    -- the timer thread has returned from `queue_job`
    match s.pool.producers[(0 : ℕ)]? with
    | some .idle => (s.timers.step .test).map fun timers => { s with timers }
    | _ => none
  | .timers l =>
    if l.internal then (s.timers.step l).map fun timers => { s with timers } else none
  | .pass =>
    match s.timers.thread with
    | .popped job =>
      (s.timers.step .pass).bind fun timers =>
        (s.pool.step (.queueJob 0 job.func)).map fun pool => { s with timers, pool }
    | _ => none
  | .invoke i =>
    match s.pool.workers[i]? with
    | some (.entered job) =>
      (s.pool.step (.invoke i)).map fun pool =>
        { s with pool, activities := s.activities.set i (begin job.func) }
    | _ => none
  | .execute i => s.execute P i
  | .finish i =>
    match s.activities[i]? with
    | some (k, .ending outcome) =>
      (s.pool.step (.finish i outcome)).map fun pool =>
        { s with pool, activities := s.activities.set i (k, .idle) }
    | _ => none

/-- One step.  A process that has ended takes none. -/
def step (s : Service σ Fx V E) (l : ServiceStep σ) : Option (Service σ Fx V E) :=
  if s.terminated ∨ s.faulted then none else s.stepLive P l

end Service

end EllohimMQ
