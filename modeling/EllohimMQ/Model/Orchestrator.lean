import Mathlib.Data.List.Basic
import Mathlib.Logic.Function.Basic

/-!
# The orchestrator

`orchestrator.hpp` and `orchestrator.cpp`, as a transition system with the same reading of locks and
waits as the thread pool.  Its coroutines are opaque: `r h` is the number of resumes after which the
coroutine `h` is done, and its frame outlives the loop.  A coroutine's body runs in the step between
`resume` and `finish`; what it does to the queue, it does through `enqueue` like any other caller.

`called`, `pushed` and `popped` record the handles that `enqueue` was called for, and those that
entered and left the queue.
-/

namespace EllohimMQ

/-- Where the thread of `loop` is. -/
inductive Looper (H : Type) where
  /-- before taking the lock, at the top of the loop or after a wake-up -/
  | ready
  /-- in `cv_.wait` -/
  | asleep
  /-- after the lock is given back -/
  | popped (h : H)
  /-- in `h.resume()` -/
  | resuming (h : H)
  /-- before the test of `h.done()` behind it -/
  | returned (h : H)
  /-- in its own call of `enqueue(h)` -/
  | requeueing (h : H)
  /-- before `cv_.notify_one()` in that call -/
  | requeued
  | exited
  deriving DecidableEq

/-- Where a caller of `enqueue` is. -/
inductive Enqueuer (H : Type) where
  | idle
  /-- before taking the lock -/
  | enqueueing (h : H)
  /-- before `cv_.notify_one()` -/
  | pushed
  deriving DecidableEq

/-- Where the caller of `stop` is. -/
inductive Stopper where
  | notCalled
  | stopped
  | joining
  | joined
  deriving DecidableEq

/-- The queue with the threads that use it.  `resumes` counts the calls of `resume`; `called`,
`pushed` and `popped` record the handles that were given to `enqueue`, that entered the queue, and
that left it. -/
structure Orchestrator (H : Type) where
  queue : List H
  stopped : Bool
  loop : Looper H
  enqueuers : List (Enqueuer H)
  stopper : Stopper
  resumes : H → ℕ
  called : List H
  pushed : List H
  popped : List H

/-- The steps of the threads; `p` is a caller of `enqueue`, and `none` the null handle. -/
inductive OrchestratorStep (H : Type) where
  | enqueue (p : ℕ) (h : Option H)
  | push (p : ℕ)
  | notify (p : ℕ)
  | lock
  | wake
  | resume
  | finish
  | test
  | requeue
  | requeueNotify
  | stop
  | stopNotify
  | join
  deriving DecidableEq

namespace Orchestrator

variable {H : Type} [DecidableEq H] (r : H → ℕ)

/-- The orchestrator with its loop about to start, and `enqueuers` threads that may call `enqueue`. -/
def init (enqueuers : ℕ) : Orchestrator H where
  queue := []
  stopped := false
  loop := .ready
  enqueuers := List.replicate enqueuers .idle
  stopper := .notCalled
  resumes _ := 0
  called := []
  pushed := []
  popped := []

/-- `h.done()`: the last of the resumes that the coroutine needs has returned. -/
def done (s : Orchestrator H) (h : H) : Bool := r h ≤ s.resumes h && s.loop ≠ .resuming h

/-- The part of `enqueue_impl` before the lock. -/
def enqueue (s : Orchestrator H) (p : ℕ) (h : H) : Orchestrator H :=
  { s with
    enqueuers := if s.done r h then s.enqueuers else s.enqueuers.set p (.enqueueing h)
    called := s.called ++ [h] }

/-- `queue_.push(h)` -/
def pushQueue (s : Orchestrator H) (h : H) : Orchestrator H :=
  { s with queue := s.queue ++ [h], pushed := s.pushed ++ [h] }

/-- `notify_one` and `notify_all`: nobody waits but the loop. -/
def notified : Looper H → Looper H
  | .asleep => .ready
  | loop => loop

/-- The section of `loop` from taking the lock to giving it back. -/
def lock (s : Orchestrator H) : Orchestrator H :=
  match s.queue with
  | [] => { s with loop := if s.stopped then .exited else .asleep }
  | h :: queue => { s with queue, loop := .popped h, popped := s.popped ++ [h] }

/-- One step; `none` when the thread is not at the place that the step starts from. -/
def step (s : Orchestrator H) : OrchestratorStep H → Option (Orchestrator H)
  | .enqueue p h =>
    match s.enqueuers[p]?, h with
    | some .idle, none => some s
    | some .idle, some h => some (s.enqueue r p h)
    | _, _ => none
  | .push p =>
    match s.enqueuers[p]? with
    | some (.enqueueing h) =>
      some { s.pushQueue h with enqueuers := s.enqueuers.set p .pushed }
    | _ => none
  | .notify p =>
    match s.enqueuers[p]? with
    | some .pushed =>
      some { s with loop := notified s.loop, enqueuers := s.enqueuers.set p .idle }
    | _ => none
  | .lock => if s.loop = .ready then some s.lock else none
  | .wake => if s.loop = .asleep then some { s with loop := .ready } else none
  | .resume =>
    match s.loop with
    | .popped h =>
      if s.done r h then some { s with loop := .ready }
      else
        some { s with
          loop := .resuming h
          resumes := Function.update s.resumes h (s.resumes h + 1) }
    | _ => none
  | .finish =>
    match s.loop with
    | .resuming h => some { s with loop := .returned h }
    | _ => none
  | .test =>
    match s.loop with
    | .returned h => some { s with loop := if s.done r h then .ready else .requeueing h }
    | _ => none
  | .requeue =>
    match s.loop with
    | .requeueing h =>
      if s.done r h then some { s with loop := .ready }
      else some { s.pushQueue h with loop := .requeued }
    | _ => none
  | .requeueNotify => if s.loop = .requeued then some { s with loop := .ready } else none
  | .stop =>
    if s.stopper = .notCalled then some { s with stopped := true, stopper := .stopped } else none
  | .stopNotify =>
    if s.stopper = .stopped then
      some { s with loop := notified s.loop, stopper := .joining }
    else none
  | .join =>
    if s.stopper = .joining ∧ s.loop = .exited then some { s with stopper := .joined } else none

end Orchestrator

end EllohimMQ
