import EllohimMQ.Lib.Calls

/-!
# `sync_wait`

`sync_wait` of `coroutine.hpp`: a thread waits for an awaitable that a coroutine of its own awaits.  The
coroutine is started on a thread made for it, and may be resumed on any other when it has been
suspended.  It uses the locals of the waiting function by reference: the mutex, the condition variable,
the flag and the place of the result.  `faulted` is set when it does so after that function has
returned, and when the function finds no result.

The steps of the awaitable are the environment's.
-/

namespace EllohimMQ

open Calls

/-- Where the thread that called `sync_wait` is. -/
inductive Waiter (V E : Type) where
  /-- before `std::unique_lock lk(mtx)` -/
  | entered
  /-- before the construction of `thr` -/
  | locked
  /-- in `cv.wait`, before the predicate -/
  | testing
  | asleep
  /-- in `cv.wait`, before it has the lock again -/
  | waking
  /-- before `thr.join()` -/
  | joining
  | joined
  /-- back at the caller, with the value or the exception -/
  | returned (r : Completion V E)
  deriving DecidableEq

/-- Where `thr` is. -/
inductive Helper where
  | notStarted
  /-- before `task()` -/
  | starting
  /-- in the coroutine -/
  | inTask
  /-- `task()` has returned, because the coroutine has been suspended or has ended -/
  | leaving
  | ended
  deriving DecidableEq

/-- Where the coroutine is. -/
inductive TaskPoint where
  | notStarted
  /-- in `co_await await`, on some thread -/
  | awaiting
  | suspended
  /-- behind the `try`, before the lock -/
  | completed
  /-- before `flag = true` -/
  | locked
  /-- before `cv.notify_all()` -/
  | flagged
  /-- before the lock is given back -/
  | notified
  | ended
  deriving DecidableEq

/-- Who has the mutex. -/
inductive LockOwner where
  | waiter
  | task
  deriving DecidableEq

/-- The two threads, the coroutine, and the locals of `sync_wait` that they share. -/
structure SyncWait (V E : Type) where
  waiter : Waiter V E
  thr : Helper
  task : TaskPoint
  mtx : Option LockOwner
  flag : Bool
  value : Option V
  exceptionPtr : Option E
  faulted : Bool

/-- `wake` is a return from the wait that nobody asked for. -/
inductive SyncStep (V E : Type) where
  | lock
  | spawn
  | test
  | wake
  | relock
  | join
  | ret
  | start
  | exit
  | suspend
  | resume
  | complete (r : Completion V E)
  | taskLock
  | setFlag
  | notify
  | unlock
  deriving DecidableEq

namespace SyncWait

variable {V E : Type}

/-- The beginning of the call. -/
def init : SyncWait V E where
  waiter := .entered
  thr := .notStarted
  task := .notStarted
  mtx := none
  flag := false
  value := none
  exceptionPtr := none
  faulted := false

/-- The locals still exist. -/
def alive (s : SyncWait V E) : Bool :=
  match s.waiter with
  | .returned _ => false
  | _ => true

/-- A use of a local by the coroutine. -/
def touch (s : SyncWait V E) : SyncWait V E := { s with faulted := s.faulted || !s.alive }

/-- The thread that runs the coroutine is free again. -/
def leave (s : SyncWait V E) : SyncWait V E :=
  { s with thr := if s.thr = .inTask then .leaving else s.thr }

/-- What the `try` block, or its handler, writes. -/
def store (s : SyncWait V E) : Completion V E → SyncWait V E
  | .value v => { s with value := some v }
  | .exception e => { s with exceptionPtr := some e }

/-- What is behind `thr.join()`; then the locals are destroyed, and `lk` with them. -/
def finish (s : SyncWait V E) : SyncWait V E :=
  match s.exceptionPtr, s.value with
  | some e, _ => { s with waiter := .returned (.exception e), mtx := none }
  | none, some v => { s with waiter := .returned (.value v), mtx := none }
  | none, none => { s with faulted := true }

/-- One step; `none` when the thread is not at the place that the step starts from, or has to wait. -/
def step (s : SyncWait V E) : SyncStep V E → Option (SyncWait V E)
  | .lock =>
    match s.waiter, s.mtx with
    | .entered, none => some { s with waiter := .locked, mtx := some .waiter }
    | _, _ => none
  | .spawn =>
    match s.waiter with
    | .locked => some { s with waiter := .testing, thr := .starting }
    | _ => none
  | .test =>
    match s.waiter with
    | .testing =>
      if s.flag then some { s with waiter := .joining }
      else some { s with waiter := .asleep, mtx := none }
    | _ => none
  | .wake =>
    match s.waiter with
    | .asleep => some { s with waiter := .waking }
    | _ => none
  | .relock =>
    match s.waiter, s.mtx with
    | .waking, none => some { s with waiter := .testing, mtx := some .waiter }
    | _, _ => none
  | .join =>
    match s.waiter, s.thr with
    | .joining, .ended => some { s with waiter := .joined }
    | _, _ => none
  | .ret =>
    match s.waiter with
    | .joined => some s.finish
    | _ => none
  | .start =>
    match s.thr with
    | .starting => some { s.touch with thr := .inTask, task := .awaiting }
    | _ => none
  | .exit =>
    match s.thr with
    | .leaving => some { s with thr := .ended }
    | _ => none
  | .suspend =>
    match s.task with
    | .awaiting => some { s.leave with task := .suspended }
    | _ => none
  | .resume =>
    match s.task with
    | .suspended => some { s with task := .awaiting }
    | _ => none
  | .complete r =>
    match s.task with
    | .awaiting => some { s.touch.store r with task := .completed }
    | _ => none
  | .taskLock =>
    match s.task, s.mtx with
    | .completed, none => some { s.touch with task := .locked, mtx := some .task }
    | _, _ => none
  | .setFlag =>
    match s.task with
    | .locked => some { s.touch with task := .flagged, flag := true }
    | _ => none
  | .notify =>
    match s.task with
    | .flagged =>
      some { s.touch with
        task := .notified
        waiter := match s.waiter with
          | .asleep => .waking
          | waiter => waiter }
    | _ => none
  | .unlock =>
    match s.task with
    | .notified => some { s.touch.leave with task := .ended, mtx := none }
    | _ => none

end SyncWait

end EllohimMQ
