import EllohimMQ.Lib.Calls
import EllohimMQ.Model.Scheduler
import EllohimMQ.Model.ThreadPool

/-!
# Coroutines on the pool and the timer thread

`coroutine.hpp`: the promises of `Task<T>` and of `AsyncTask`, their awaiters, `async_run` and
`TimerAwaiter`, together with the pool that runs `async_run` and the timer thread that hands a
sleeping coroutine back to the pool.  A step is a step of the pool or of the scheduler, or what one
worker does between two operations on them.

What a coroutine computes between its suspension points is a body in the sense of `Calls`; a Task
object is a number, its `co_await` is an `await` of that number and its destructor is a `drop`.  A
coroutine frame is known by its position in `frames`.  The one `AsyncTask` is the functor of
`async_run`.
-/

namespace EllohimMQ

open Calls

variable {σ Fx V E : Type}

/-- `std::coroutine_handle<>` -/
inductive CoroutineHandle where
  | noop
  | asyncTask
  | task (t : ℕ)
  deriving DecidableEq

/-- Where a coroutine is, with the awaiter that its frame holds there. -/
inductive Point (σ V E : Type) where
  | initialSuspend (body : σ)
  | running (body : σ)
  | taskAwaiter (t : ℕ) (rest : Completion V E → σ)
  | timerAwaiter (rest : σ)
  | finalSuspend
  | destroyed

/-- The frame of a Task with its `promise_type`.  `suspensions` and `resumptions` count what happened
to the coroutine at its `co_await`s; the code keeps no such count. -/
structure TaskFrame (σ V E : Type) where
  point : Point σ V E
  value : Option V
  exception : Option E
  continuation : CoroutineHandle
  suspensions : ℕ
  resumptions : ℕ

namespace TaskFrame

/-- A coroutine that has been called: `initial_suspend` is `std::suspend_always`. -/
def new (body : σ) : TaskFrame σ V E := ⟨.initialSuspend body, none, none, .noop, 0, 0⟩

/-- `result()`; with neither an exception nor a value its assertion fails. -/
def result (f : TaskFrame σ V E) : Option (Completion V E) :=
  match f.exception with
  | some e => some (.exception e)
  | none => f.value.map .value

/-- `std::move(coro_.promise().result())` leaves a moved-from value behind. -/
def take (P : Program σ Fx V E) (f : TaskFrame σ V E) : TaskFrame σ V E :=
  match f.exception with
  | some _ => f
  | none => { f with value := f.value.map P.moved }

/-- `promise_type::setContinuation` -/
def setContinuation (handle : CoroutineHandle) (f : TaskFrame σ V E) : TaskFrame σ V E :=
  { f with continuation := handle }

/-- `promise_type::return_value` and `return_void` -/
def returnValue (v : V) (f : TaskFrame σ V E) : TaskFrame σ V E :=
  { f with point := .finalSuspend, value := some v }

/-- `promise_type::unhandled_exception` -/
def unhandledException (e : E) (f : TaskFrame σ V E) : TaskFrame σ V E :=
  { f with point := .finalSuspend, exception := some e }

/-- The coroutine goes on to `point`. -/
def moveTo (point : Point σ V E) (f : TaskFrame σ V E) : TaskFrame σ V E := { f with point }

/-- The coroutine is suspended at a `co_await`. -/
def suspend (point : Point σ V E) (f : TaskFrame σ V E) : TaskFrame σ V E :=
  { f with point, suspensions := f.suspensions + 1 }

/-- The coroutine is resumed at a `co_await`. -/
def resume (point : Point σ V E) (f : TaskFrame σ V E) : TaskFrame σ V E :=
  { f with point, resumptions := f.resumptions + 1 }

end TaskFrame

/-- Where the functor of `async_run` is. -/
inductive AsyncPoint where
  | notStarted
  | taskAwaiter (t : ℕ)
  | destroyed
  deriving DecidableEq

/-- What is queued: the function that `async_func` returns, and the lambda of `TimerAwaiter`. -/
inductive CoroutineJob (σ : Type) where
  | asyncRun (coro : σ)
  | resume (handle : CoroutineHandle)
  deriving DecidableEq

/-- What a worker is doing inside `std::invoke`. -/
inductive Activity (σ : Type) where
  /-- it is not inside `std::invoke` -/
  | idle
  /-- before `async_run` -/
  | starting (coro : σ)
  /-- before `handle.resume()`, or at a symmetric transfer to the handle -/
  | resuming (handle : CoroutineHandle)
  /-- in the body of a Task -/
  | inBody (t : ℕ)
  /-- in `TimerAwaiter::await_suspend`, in the call of `execute_after` -/
  | inTimer
  /-- before the job's function ends -/
  | ending (outcome : Outcome)

/-- `called` tells whether the coroutine was given to `queue_job`.  `trace` is what can be seen of its
run.  `terminated` stands for `std::terminate`, `faulted` for undefined behaviour. -/
structure Process (σ Fx V E : Type) where
  pool : ThreadPool (CoroutineJob σ)
  timers : Scheduler (CoroutineJob σ)
  called : Bool
  frames : List (TaskFrame σ V E)
  asyncTask : AsyncPoint
  activities : List (Activity σ)
  trace : List (Calls.Event Fx V E)
  terminated : Bool
  faulted : Bool

/-- The steps.  Those of the pool and of the scheduler are named as in their models; a job's function
is invoked by `invoke`, executed by `execute`, and ends by `finish`. -/
inductive ProcessStep (σ : Type) where
  | call
  | pool (l : PoolStep (CoroutineJob σ))
  | timers (l : SchedulerStep (CoroutineJob σ))
  | pass
  | invoke (i : ℕ)
  | execute (i : ℕ)
  | finish (i : ℕ)

/-- The steps of the pool that neither call `queue_job` nor begin or end a job's function.  `destroy`
is not called. -/
def PoolStep.internal {F : Type} : PoolStep F → Bool
  | .push _ => true
  | .notify _ => true
  | .lock _ => true
  | .wake _ => true
  | .enter _ => true
  | .leave _ => true
  | _ => false

/-- The steps of the scheduler outside the calls of `execute_after` and `queue_job`, except for the
one that ends the call of `queue_job`. -/
def SchedulerStep.internal {F : Type} : SchedulerStep F → Bool
  | .tick _ => true
  | .push _ => true
  | .notify _ => true
  | .lock _ => true
  | .wake => true
  | .relock => true
  | _ => false

/-- `TimerAwaiter(std::chrono::milliseconds delay) : delay_(delay.count())`, where `delay_` is an
`int` -/
def timerDelay (count : ℤ) : ℤ := count.bmod (2 ^ 32)

/-- What `std::invoke` begins with; an empty function throws `std::bad_function_call`. -/
def Activity.ofJob : Option (CoroutineJob σ) → Activity σ
  | some (.asyncRun coro) => .starting coro
  | some (.resume handle) => .resuming handle
  | none => .ending .threw

namespace Process

/-- The pool has `workers` threads.  Its callers of `queue_job` are the timer thread, number 0, and
the thread that calls the consumer, number 1. -/
def new (workers nextQueue : BitVec 64) (clock : TimePoint) : Process σ Fx V E where
  pool := .new workers nextQueue 2
  timers := .init clock workers.toNat
  called := false
  frames := []
  asyncTask := .notStarted
  activities := List.replicate workers.toNat .idle
  trace := []
  terminated := false
  faulted := false

/-- The handler shows something. -/
def emit (s : Process σ Fx V E) (e : Calls.Event Fx V E) : Process σ Fx V E :=
  { s with trace := s.trace ++ [e] }

/-- A coroutine is resumed or destroyed that is not suspended, or a result is taken that is not
there. -/
def fault (s : Process σ Fx V E) : Process σ Fx V E := { s with faulted := true }

/-- Worker `i` goes on to `a`. -/
def setActivity (s : Process σ Fx V E) (i : ℕ) (a : Activity σ) : Process σ Fx V E :=
  { s with activities := s.activities.set i a }

/-- The frame of Task `t` changes. -/
def modifyFrame (s : Process σ Fx V E) (t : ℕ) (g : TaskFrame σ V E → TaskFrame σ V E) :
    Process σ Fx V E :=
  { s with frames := s.frames.modify t g }

/-- A coroutine is called. -/
def pushFrame (s : Process σ Fx V E) (f : TaskFrame σ V E) : Process σ Fx V E :=
  { s with frames := s.frames ++ [f] }

/-- `coro_.destroy()` in the destructor of a Task: the coroutine has to be suspended. -/
def destroy (s : Process σ Fx V E) (t : ℕ) : Process σ Fx V E :=
  match (s.frames[t]?).map TaskFrame.point with
  | none => s.fault
  | some (.running _) => s.fault
  | some .destroyed => s.fault
  | _ => s.modifyFrame t (.moveTo .destroyed)

variable (P : Program σ Fx V E)

/-- `task_awaiter::await_resume`: the completion that `co_await` evaluates to or throws. -/
def awaitResume (s : Process σ Fx V E) (t : ℕ) : Option (Completion V E × Process σ Fx V E) :=
  match s.frames[t]? with
  | none => none
  | some f =>
    match f.point with
    | .destroyed => none
    | _ => f.result.map fun c => (c, (s.modifyFrame t (.take P)).emit (.awaited t c))

/-- `handle.resume()` on worker `i`: the coroutine goes on from the point where it is suspended. -/
def resume (s : Process σ Fx V E) (i : ℕ) : CoroutineHandle → Process σ Fx V E
  | .noop => s.setActivity i (.ending .returned)
  | .asyncTask =>
    match s.asyncTask with
    | .taskAwaiter t =>
      match s.awaitResume P t with
      | none => s.fault
      | some (.value _, s) =>
        -- `co_return`; `frame` is destroyed, and `final_suspend` does not suspend
        { s.destroy t with
          asyncTask := .destroyed
          activities := s.activities.set i (.ending .returned) }
      -- `AsyncTask::promise_type::unhandled_exception`
      | some (.exception _, s) => { s with terminated := true }
    | _ => s.fault
  | .task t =>
    match (s.frames[t]?).map TaskFrame.point with
    | some (.initialSuspend body) =>
      (s.modifyFrame t (.moveTo (.running body))).setActivity i (.inBody t)
    | some (.taskAwaiter u rest) =>
      match s.awaitResume P u with
      | none => s.fault
      | some (c, s) => (s.modifyFrame t (.resume (.running (rest c)))).setActivity i (.inBody t)
    | some (.timerAwaiter rest) =>
      (s.modifyFrame t (.resume (.running rest))).setActivity i (.inBody t)
    | _ => s.fault

/-- `co_await` of Task `u` in the body of Task `t`. -/
def awaitTask (s : Process σ Fx V E) (i t u : ℕ) (rest : Completion V E → σ) : Process σ Fx V E :=
  match (s.frames[u]?).map TaskFrame.point with
  | none => s.fault
  | some .destroyed => s.fault
  | some .finalSuspend =>
    -- `await_ready`: `coro_.done()`
    match s.awaitResume P u with
    | none => s.fault
    | some (c, s) => s.modifyFrame t (.moveTo (.running (rest c)))
  | _ =>
    -- `await_suspend`: the callee is resumed by symmetric transfer
    ((s.modifyFrame t (.suspend (.taskAwaiter u rest))).modifyFrame u
      (.setContinuation (.task t))).setActivity i (.resuming (.task u))

/-- The end of the body of Task `t`: `final_awaiter` transfers to the continuation. -/
def finalSuspend (s : Process σ Fx V E) (i t : ℕ) (g : TaskFrame σ V E → TaskFrame σ V E) :
    Process σ Fx V E :=
  match s.frames[t]? with
  | none => s.fault
  | some f => (s.modifyFrame t g).setActivity i (.resuming f.continuation)

/-- What worker `i` does next in the body `b` of Task `t`. -/
def runBody (s : Process σ Fx V E) (i t : ℕ) (b : σ) : Option (Process σ Fx V E) :=
  match P.next b with
  | .effect e rest =>
    let answer := P.answer s.trace e
    some ((s.emit (.effect e answer)).modifyFrame t (.moveTo (.running (rest answer))))
  | .task body rest =>
    some ((s.pushFrame (.new body)).modifyFrame t (.moveTo (.running (rest s.frames.length))))
  | .drop u rest => some ((s.destroy u).modifyFrame t (.moveTo (.running rest)))
  | .await u rest => some (s.awaitTask P i t u rest)
  | .sleep ms rest =>
    (s.timers.step (.executeAfter i (timerDelay ms) (some (.resume (.task t))))).map fun timers =>
      (({ s with timers }.modifyFrame t (.suspend (.timerAwaiter rest))).emit
        (.slept ms)).setActivity i .inTimer
  | .ret v => some (s.finalSuspend i t (.returnValue v))
  | .throw e => some (s.finalSuspend i t (.unhandledException e))

/-- `async_run(coro)`, up to where the functor has suspended: `auto frame = coro(); co_await frame;` -/
def asyncRun (s : Process σ Fx V E) (i : ℕ) (coro : σ) : Process σ Fx V E :=
  { s.pushFrame ((TaskFrame.new coro).setContinuation .asyncTask) with
    asyncTask := .taskAwaiter s.frames.length
    activities := s.activities.set i (.resuming (.task s.frames.length)) }

/-- One step of worker `i` inside `std::invoke`. -/
def execute (s : Process σ Fx V E) (i : ℕ) : Option (Process σ Fx V E) :=
  match s.activities[i]? with
  | some (.starting coro) => some (s.asyncRun i coro)
  | some (.resuming handle) => some (s.resume P i handle)
  | some (.inBody t) =>
    match (s.frames[t]?).map TaskFrame.point with
    | some (.running b) => s.runBody P i t b
    | _ => some s.fault
  | some .inTimer =>
    match s.timers.submitters[i]? with
    | some .idle => some (s.setActivity i (.ending .returned))
    | _ => none
  | _ => none

/-- A step of the process while it is neither terminated nor faulted; `root` is the coroutine that is
queued. -/
def stepLive (root : σ) (s : Process σ Fx V E) : ProcessStep σ → Option (Process σ Fx V E)
  | .call =>
    if s.called then none
    else (s.pool.step (.queueJob 1 (some (.asyncRun root)))).map fun pool =>
      { s with pool, called := true }
  | .pool l =>
    if l.internal then (s.pool.step l).map fun pool => { s with pool } else none
  | .timers .test =>
    -- the timer thread has returned from `queue_job`
    match s.pool.producers[(0 : ℕ)]? with
    | some .idle => (s.timers.step .test).map fun timers => { s with timers }
    | _ => none
  | .timers l =>
    if l.internal then (s.timers.step l).map fun timers => { s with timers } else none
  | .pass =>
    match s.timers.thread with
    | .popped job =>
      (s.timers.step .pass).bind fun timers =>
        (s.pool.step (.queueJob 0 job.func)).map fun pool => { s with timers, pool }
    | _ => none
  | .invoke i =>
    match s.pool.workers[i]? with
    | some (.entered job) =>
      (s.pool.step (.invoke i)).map fun pool =>
        { s with pool, activities := s.activities.set i (Activity.ofJob job.func) }
    | _ => none
  | .execute i => s.execute P i
  | .finish i =>
    match s.activities[i]? with
    | some (.ending outcome) =>
      (s.pool.step (.finish i outcome)).map fun pool =>
        { s with pool, activities := s.activities.set i .idle }
    | _ => none

/-- One step.  A process that has ended takes none. -/
def step (root : σ) (s : Process σ Fx V E) (l : ProcessStep σ) : Option (Process σ Fx V E) :=
  if s.terminated ∨ s.faulted then none else s.stepLive P root l

end Process

end EllohimMQ
