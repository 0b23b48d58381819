import EllohimMQ.Lib.Calls

/-!
# The result of an `async`

What `CoroutineState<T>` of `async.hpp` hands from a coroutine to those that want its result: the
calls of `result()` that wait for it, and the callback that `then` installs.  The continuation, the
frame and the scheduler are in `Model.AsyncScheduler`.

One step is one critical section of the mutex, so the mutex is held between two steps only during a
callback and where `then` calls `schedule`.  A call of `then` that returns has cleared the object by
`detach`, so no other call on it does anything.  Where the callback throws inside `then`, `detach` is not
reached and the object keeps its state; a second `then` on it is left out here.  The mutex is not
recursive: `faulted` is set when a thread locks it twice.
-/

namespace EllohimMQ

open Calls

/-- `T`, or `void` with its only value. -/
inductive ResultType (V : Type) where
  | value
  | void (unit : V)
  deriving DecidableEq

/-- What a call of `result()` ends with; `noValue` is the exception "Coroutine completed but no value
set". -/
inductive ResultOutcome (V E : Type) where
  | value (v : V)
  | rethrown (e : E)
  | noValue
  deriving DecidableEq

/-- Where the coroutine is. -/
inductive PromisePoint (V E : Type) where
  | inBody
  /-- in `return_value`, before the lock -/
  | returnValue (v : V)
  /-- in `unhandled_exception`, before the lock -/
  | unhandledException (e : E)
  /-- in `FinalAwaiter::await_suspend`, before the lock -/
  | finalAwait
  /-- in the callback, which it has invoked with the lock -/
  | invoking
  | ended
  deriving DecidableEq

/-- Where a call of `result()` is. -/
inductive ResultCall (V E : Type) where
  /-- before the lock -/
  | entered
  | asleep
  /-- in `cv.wait`, before it has the lock again -/
  | waking
  | returned (r : ResultOutcome V E)
  deriving DecidableEq

/-- Where the call of `then` is. -/
inductive ThenPoint where
  | absent
  /-- before the lock -/
  | entered
  /-- in `state->result()`, before the lock, which it has already -/
  | relocking
  /-- in the callback, with the lock -/
  | invoking
  /-- in `detach()`, with the lock -/
  | detaching
  | returned
  | threw
  deriving DecidableEq

/-- Who has the mutex. -/
inductive StateOwner where
  | finalAwaiter
  | thenCall
  deriving DecidableEq

/-- `CoroutineState<T>`, with the parties.  `invoked` lists what the callback was invoked with. -/
structure AsyncResult (V E : Type) where
  completed : Bool
  exceptionSet : Bool
  value : Option V
  exception : Option E
  onCompleted : Bool
  mutex : Option StateOwner
  promise : PromisePoint V E
  results : List (ResultCall V E)
  thenCall : ThenPoint
  invoked : List V
  faulted : Bool

/-- The steps.  The body ends by `complete`; `wake` is a return from the wait that nobody asked for.
`callbackEnds` and `thenCallbackEnds` say whether the callback throws. -/
inductive ResultStep (V E : Type) where
  | complete (c : Completion V E)
  | store
  | finalAwait
  | callbackEnds (threw : Bool)
  | result (i : ℕ)
  | wake (i : ℕ)
  | thenLock
  | thenCallbackEnds (threw : Bool)
  | detach
  deriving DecidableEq

namespace ResultCall

variable {V E : Type}

/-- `cv.notify_all()` -/
def notify : ResultCall V E → ResultCall V E
  | .asleep => .waking
  | call => call

end ResultCall

namespace AsyncResult

variable {V E : Type}

/-- The state of a coroutine that was called, when `n` calls of `result()` and perhaps one of `then` are
made for it. -/
def init (n : ℕ) (hasThen : Bool) : AsyncResult V E where
  completed := false
  exceptionSet := false
  value := none
  exception := none
  onCompleted := false
  mutex := none
  promise := .inBody
  results := List.replicate n .entered
  thenCall := if hasThen then .entered else .absent
  invoked := []
  faulted := false

/-- `result()`, behind the wait -/
def result (T : ResultType V) (s : AsyncResult V E) : ResultOutcome V E :=
  match s.exceptionSet, s.exception, T, s.value with
  | true, some e, _, _ => .rethrown e
  | _, _, .void u, _ => .value u
  | _, _, .value, some v => .value v
  | _, _, .value, none => .noValue

/-- What `FinalAwaiter` invokes the callback with, if it does. -/
def delivered (T : ResultType V) (s : AsyncResult V E) : Option V :=
  match T with
  | .void u => some u
  | .value => s.value

/-- Where the coroutine goes on when its body ends: `return_void` does nothing. -/
def afterBody (T : ResultType V) : Completion V E → PromisePoint V E
  | .exception e => .unhandledException e
  | .value v =>
    match T with
    | .value => .returnValue v
    | .void _ => .finalAwait

/-- `return_value` and `unhandled_exception`, with the lock. -/
def storeStep (s : AsyncResult V E) : PromisePoint V E → Option (AsyncResult V E)
  | .returnValue v => some { s with value := some v, promise := .finalAwait }
  | .unhandledException e =>
    some { s with exception := some e, exceptionSet := true, promise := .finalAwait }
  | _ => none

/-- `FinalAwaiter::await_suspend`, with the lock. -/
def finish (T : ResultType V) (s : AsyncResult V E) : AsyncResult V E :=
  let s := { s with completed := true, results := s.results.map .notify }
  match s.onCompleted, s.delivered T with
  | true, some v =>
    { s with mutex := some .finalAwaiter, promise := .invoking, invoked := s.invoked ++ [v] }
  | _, _ => { s with promise := .ended }

/-- `cv.wait(lock, ..)` and what follows it in `result()`, with the lock. -/
def resultStep (T : ResultType V) (s : AsyncResult V E) (i : ℕ) : AsyncResult V E :=
  { s with results := s.results.set i (if s.completed then .returned (s.result T) else .asleep) }

/-- `then`, with the lock. -/
def thenStep (T : ResultType V) (s : AsyncResult V E) : AsyncResult V E :=
  let s := { s with onCompleted := true, mutex := some .thenCall }
  if s.completed then
    match T with
    | .value => { s with thenCall := .relocking, faulted := true }
    | .void u => { s with thenCall := .invoking, invoked := s.invoked ++ [u] }
  else { s with thenCall := .detaching }

/-- One step; `none` when the thread is not at the place that the step starts from, or has to wait. -/
def step (T : ResultType V) (s : AsyncResult V E) (l : ResultStep V E) : Option (AsyncResult V E) :=
  if s.faulted then none
  else
    match l with
    | .complete c =>
      match s.promise with
      | .inBody => some { s with promise := afterBody T c }
      | _ => none
    | .store => if s.mutex = none then s.storeStep s.promise else none
    | .finalAwait =>
      match s.mutex, s.promise with
      | none, .finalAwait => some (s.finish T)
      | _, _ => none
    | .callbackEnds threw =>
      match s.promise with
      | .invoking =>
        some { s with
          mutex := none
          promise := .ended
          results := if threw then s.results.map .notify else s.results }
      | _ => none
    | .result i =>
      match s.mutex, s.results[i]? with
      | none, some .entered => some (s.resultStep T i)
      | none, some .waking => some (s.resultStep T i)
      | _, _ => none
    | .wake i =>
      match s.results[i]? with
      | some .asleep => some { s with results := s.results.set i .waking }
      | _ => none
    | .thenLock =>
      if s.mutex = none ∧ s.thenCall = .entered then some (s.thenStep T) else none
    | .thenCallbackEnds threw =>
      if s.thenCall = .invoking then
        some (if threw then { s with mutex := none, thenCall := .threw }
          else { s with thenCall := .detaching })
      else none
    | .detach =>
      if s.thenCall = .detaching then some { s with mutex := none, thenCall := .returned } else none

end AsyncResult

end EllohimMQ
