import Mathlib.Algebra.Group.Nat.Defs
import Mathlib.Data.List.Basic
import Mathlib.Data.Int.Notation

/-!
# The timer thread

`scheduler.hpp`, as a transition system with the same reading of locks and waits as the thread pool:
a step is one lock-protected section or one unlocked access, a wait ends the section it is in, and a
waiting thread may wake up at any time (a notification, the deadline, or nothing at all).

A time point counts nanoseconds of the steady clock.  The clock moves only forward, by steps of its
own.  `m_jobs` is the list of the jobs in the heap; which of several earliest jobs is at its top is
left open, so the step that looks at the top says where it is in the list.
-/

namespace EllohimMQ

/-- `std::chrono::steady_clock::time_point`, in nanoseconds -/
abbrev TimePoint := ℤ

/-- The ticket tells the calls of `execute_at` apart. -/
structure ScheduledJob (F : Type) where
  executeTime : TimePoint
  func : Option F
  ticket : ℕ
  deriving DecidableEq

/-- `operator>` -/
def ScheduledJob.greater {F : Type} (job other : ScheduledJob F) : Bool :=
  other.executeTime < job.executeTime

/-- Where the timer thread is in `run`. -/
inductive TimerThread (F : Type) where
  /-- before the test of `m_running` -/
  | testing
  /-- before taking the lock -/
  | locking
  /-- in `m_cv.wait(lock, ..)` -/
  | waiting
  /-- woken up from `m_cv.wait(lock, ..)`, before taking the lock again -/
  | woken
  /-- in `m_cv.wait_until(lock, next_time)` -/
  | waitingUntil (nextTime : TimePoint)
  /-- after `lock.unlock()` -/
  | popped (job : ScheduledJob F)
  | exited
  deriving DecidableEq

/-- Where a caller of `execute_at` or `execute_after` is. -/
inductive Submitter (F : Type) where
  | idle
  /-- before taking the lock -/
  | calling (job : ScheduledJob F)
  /-- before `m_cv.notify_all()` -/
  | pushed
  deriving DecidableEq

/-- Where the caller of `destroy_impl` is. -/
inductive SchedulerDestroyer where
  | notCalled
  | stopped
  | joining
  | joined
  deriving DecidableEq

/-- `called`, `submitted` and `passed` record the jobs that calls were made for, that entered the
heap, and that were given to `queue_job`. -/
structure Scheduler (F : Type) where
  running : Bool
  jobs : List (ScheduledJob F)
  clock : TimePoint
  thread : TimerThread F
  submitters : List (Submitter F)
  destroyer : SchedulerDestroyer
  called : List (ScheduledJob F)
  submitted : List (ScheduledJob F)
  passed : List (ScheduledJob F)

/-- The steps of the threads and of the clock; `p` is a caller, `top` a position in `jobs`. -/
inductive SchedulerStep (F : Type) where
  | tick (now : TimePoint)
  | executeAt (p : ℕ) (time : TimePoint) (func : Option F)
  | executeAfter (p : ℕ) (milliseconds : ℤ) (func : Option F)
  | push (p : ℕ)
  | notify (p : ℕ)
  | test
  | lock (top : ℕ)
  | wake
  | relock
  | pass
  | destroyStop
  | destroyNotify
  | destroyJoin
  deriving DecidableEq

namespace Scheduler

variable {F : Type}

/-- The scheduler after `init`, with `submitters` threads that may submit jobs. -/
def init (clock : TimePoint) (submitters : ℕ) : Scheduler F where
  running := true
  jobs := []
  clock
  thread := .testing
  submitters := List.replicate submitters .idle
  destroyer := .notCalled
  called := []
  submitted := []
  passed := []

/-- A signed 64-bit count, as the arithmetic of `std::chrono` computes it. -/
def wrap (count : ℤ) : ℤ := count.bmod (2 ^ 64)

/-- The call of `execute_at_impl`, up to its lock. -/
def executeAt (s : Scheduler F) (p : ℕ) (time : TimePoint) (func : Option F) : Scheduler F :=
  let job : ScheduledJob F := ⟨time, func, s.called.length⟩
  { s with submitters := s.submitters.set p (.calling job), called := s.called ++ [job] }

/-- `execute_at_impl(std::chrono::steady_clock::now() + duration, func)` -/
def executeAfter (s : Scheduler F) (p : ℕ) (milliseconds : ℤ) (func : Option F) : Scheduler F :=
  s.executeAt p (wrap (s.clock + wrap (milliseconds * 1000000))) func

/-- The heap order: no job is earlier than the one at the top. -/
def isTop (jobs : List (ScheduledJob F)) (job : ScheduledJob F) : Bool :=
  jobs.all fun other => !job.greater other

/-- One iteration of `run` after the test, up to where the lock is given back; `top` is the position
of `m_jobs.top()`. -/
def lock (s : Scheduler F) (top : ℕ) : Option (Scheduler F) :=
  match s.jobs with
  | [] => some { s with thread := if s.running then .waiting else .testing }
  | _ =>
    match s.jobs[top]? with
    | none => none
    | some job =>
      if isTop s.jobs job then
        if job.executeTime ≤ s.clock then
          some { s with jobs := s.jobs.eraseIdx top, thread := .popped job }
        else some { s with thread := .waitingUntil job.executeTime }
      else none

/-- `notify_all` -/
def notified : TimerThread F → TimerThread F
  | .waiting => .woken
  | .waitingUntil _ => .testing
  | thread => thread

/-- One step; `none` when the thread is not at the place that the step starts from. -/
def step (s : Scheduler F) : SchedulerStep F → Option (Scheduler F)
  | .tick now => if s.clock ≤ now then some { s with clock := now } else none
  | .executeAt p time func =>
    match s.submitters[p]? with
    | some .idle => some (s.executeAt p time func)
    | _ => none
  | .executeAfter p milliseconds func =>
    match s.submitters[p]? with
    | some .idle => some (s.executeAfter p milliseconds func)
    | _ => none
  | .push p =>
    match s.submitters[p]? with
    | some (.calling job) =>
      some { s with
        jobs := job :: s.jobs
        submitters := s.submitters.set p .pushed
        submitted := s.submitted ++ [job] }
    | _ => none
  | .notify p =>
    match s.submitters[p]? with
    | some .pushed =>
      some { s with thread := notified s.thread, submitters := s.submitters.set p .idle }
    | _ => none
  | .test =>
    match s.thread with
    | .testing => some { s with thread := if s.running then .locking else .exited }
    | _ => none
  | .lock top =>
    match s.thread with
    | .locking => s.lock top
    | _ => none
  | .wake =>
    match s.thread with
    | .waiting => some { s with thread := .woken }
    | .waitingUntil _ => some { s with thread := .testing }
    | _ => none
  | .relock =>
    match s.thread with
    | .woken =>
      some { s with
        thread := if s.jobs.isEmpty = false ∨ s.running = false then .testing else .waiting }
    | _ => none
  | .pass =>
    match s.thread with
    | .popped job => some { s with thread := .testing, passed := s.passed ++ [job] }
    | _ => none
  | .destroyStop =>
    if s.destroyer = .notCalled then some { s with running := false, destroyer := .stopped }
    else none
  | .destroyNotify =>
    if s.destroyer = .stopped then
      some { s with thread := notified s.thread, destroyer := .joining }
    else none
  | .destroyJoin =>
    match s.destroyer, s.thread with
    | .joining, .exited => some { s with destroyer := .joined }
    | _, _ => none

end Scheduler

end EllohimMQ
