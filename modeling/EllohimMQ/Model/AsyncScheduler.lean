import EllohimMQ.Model.Scheduler
import Mathlib.Data.List.Sort
import Mathlib.Data.Nat.Notation
import Mathlib.Logic.Function.Basic

/-!
# The coroutines of `async.hpp` and their scheduler

The scheduler with its workers started, the coroutines that run on it and the `async` objects that
own them.  A coroutine's body may do anything that the header offers: it is a sequence of steps that
the environment chooses, and so is the code of any thread outside the scheduler.  One step is one
critical section, one access to an atomic or to `done()`, or one call of the program; `done()` is read
once where the code reads it twice in a row.

A handle is the address of a frame.  The allocator may give a new frame any address that is free, also
one of a frame that was destroyed.  The state that a promise and its `async` share is a position in
`states`, and outlives the frame.  An `async` is not changed by other threads while it is awaited or
detached.  Values, exceptions and callbacks are left out.
-/

namespace EllohimMQ

/-- `std::coroutine_handle<>`, not null. -/
abbrev Address := ℕ

/-- Where a coroutine is. -/
inductive FramePoint where
  | initialSuspend
  | running
  /-- suspended in the `co_await` of an `async` with this state -/
  | awaiting (state : ℕ)
  /-- suspended in `sleep_for` or `yield` -/
  | sleeping
  | finalSuspend
  deriving DecidableEq

/-- A coroutine frame with its `TaskPromise`. -/
structure PromiseFrame where
  point : FramePoint
  state : ℕ
  deriving DecidableEq

/-- `locked` stands for its mutex.  `address` and `destroyed` record where the frame is and how often
it was destroyed; the code keeps neither. -/
structure CoroutineState where
  completed : Bool
  continuation : Option Address
  locked : Bool
  address : Address
  destroyed : ℕ
  deriving DecidableEq

/-- `async<T>` -/
structure Async where
  coro : Option Address
  state : Option ℕ
  deriving DecidableEq

/-- Where a program calls the scheduler from. -/
inductive Site where
  | outside
  | body (c : Address)
  deriving DecidableEq

/-- The callers of `schedule`. -/
inductive Caller where
  /-- the program; `detach` of an object clears it afterwards -/
  | program (site : Site) (object : Option ℕ)
  /-- `await_suspend`, for the coroutine that is awaited, with the mutex of its state -/
  | registered (state : ℕ)
  /-- `await_suspend`, for the awaiting coroutine itself -/
  | fallback (state : Option ℕ)
  deriving DecidableEq

/-- Where a thread is. -/
inductive ThreadPoint where
  /-- in code outside the scheduler -/
  | outside
  /-- at the top of `tick_impl` -/
  | tick
  /-- in `process_delayed_tasks_impl`: before the lock, and with the handles that were ready -/
  | timed (now : TimePoint)
  | moving (ready : List Address)
  | distributing (h : Address) (ready : List Address)
  | pushingFront (i : ℕ) (h : Address) (ready : List Address)
  /-- in `get_next_task` -/
  | fetching
  | stealing (i : ℕ)
  /-- before `h.done()` in `tick_impl` -/
  | fetched (h : Address)
  /-- before `h.resume()`, or at a symmetric transfer to `h` -/
  | resuming (h : Address)
  /-- in the body of a coroutine -/
  | body (h : Address)
  /-- in `await_suspend(h)`: before its first test, and before the lock -/
  | awaitSuspend (h : Address) (state : ℕ) (coro : Option Address)
  | registering (h : Address) (state : ℕ) (coro : Address)
  /-- in `schedule(h)`: before the test of `done()`, before `fetch_add`, and before the locks -/
  | scheduling (h : Address) (caller : Caller)
  | counting (h : Address) (caller : Caller)
  | inserting (i : ℕ) (h : Address) (caller : Caller)
  /-- in `schedule_after(delay, h)`: before the test of `done()`, and before the lock -/
  | delaying (h : Address) (delay : ℤ)
  | emplacing (h : Address) (delay : ℤ)
  /-- in `state->result()` of `await_resume` -/
  | awaitResume (h : Address) (state : ℕ)
  /-- in `FinalAwaiter::await_suspend(h)`: before the lock, and before `cleanup_handle(h)` -/
  | finalAwait (h : Address)
  | finalCleanup (h : Address) (continuation : Option Address)
  /-- in `process_cleanup_tasks_impl`: before the swap, before `handle_refs_mutex`, and with it -/
  | sweeping
  | locking (requests : List Address)
  | destroying (requests : List Address)

/-- The scheduler with the threads, the frames, the states and the objects of a program. -/
structure AsyncScheduler where
  localTaskQueues : List (List Address)
  delayedTasks : List (TimePoint × Address)
  cleanupTasks : List Address
  handleRefs : Address → Option ℤ
  refsLocked : Bool
  nextThreadIdx : BitVec 64
  clock : TimePoint
  threads : List ThreadPoint
  memory : Address → Option PromiseFrame
  states : List CoroutineState
  /-- the `async` objects; `none` after the destructor -/
  objects : List (Option Async)
  /-- a frame was used that is not there, or resumed while it is not suspended -/
  faulted : Bool

/-- What a program does, with objects given by their number; the last four are for coroutines only. -/
inductive Operation where
  | create (address : Address)
  | move (o : ℕ)
  | assign (o other : ℕ)
  | drop (o : ℕ)
  | detach (o : ℕ)
  | schedule (h : Address)
  | await (o : ℕ)
  | sleepFor (delay : ℤ)
  | yield
  | ret
  deriving DecidableEq

/-- Time passes; thread `t` takes its next step inside the scheduler, or a `try_lock` of it fails; the
program on thread `t` goes on. -/
inductive AsyncStep where
  | tick (time : TimePoint)
  | advance (t : ℕ)
  | tryLockFails (t : ℕ)
  | call (t : ℕ) (op : Operation)
  deriving DecidableEq

/-- The program's code, if the thread is in it. -/
def ThreadPoint.site : ThreadPoint → Option Site
  | .outside => some .outside
  | .body c => some (.body c)
  | _ => none

/-- Where a thread is while it is in the program there. -/
def Site.point : Site → ThreadPoint
  | .outside => .outside
  | .body c => .body c

/-- Who has called the `schedule` that the thread is in. -/
def ThreadPoint.caller : ThreadPoint → Option Caller
  | .scheduling _ caller => some caller
  | .counting _ caller => some caller
  | .inserting _ _ caller => some caller
  | _ => none

/-- The object whose `detach` the thread is in. -/
def ThreadPoint.detaching (x : ThreadPoint) : Option ℕ :=
  match x.caller with
  | some (.program _ object) => object
  | _ => none

/-- Where the thread goes on after `schedule`: an `await_suspend` is the end of a `resume()`. -/
def Caller.returns : Caller → ThreadPoint
  | .program site _ => site.point
  | _ => .tick

/-- The state whose mutex is held during `schedule`. -/
def Caller.lock : Caller → Option ℕ
  | .program _ _ => none
  | .registered state => some state
  | .fallback state => state

namespace CoroutineState

/-- The state of a coroutine that is created at an address. -/
def new (address : Address) : CoroutineState := ⟨false, none, false, address, 0⟩

/-- The mutex is taken or given back. -/
def setLocked (locked : Bool) (c : CoroutineState) : CoroutineState := { c with locked }

/-- `continuation = h` -/
def setContinuation (h : Address) (c : CoroutineState) : CoroutineState :=
  { c with continuation := some h }

/-- `completed = true` -/
def complete (c : CoroutineState) : CoroutineState := { c with completed := true }

/-- The frame has been destroyed once more. -/
def countDestroyed (c : CoroutineState) : CoroutineState := { c with destroyed := c.destroyed + 1 }

end CoroutineState

namespace AsyncScheduler

/-- The scheduler after `start(workers)`, next to `outsiders` other threads. -/
def init (workers outsiders : ℕ) (nextThreadIdx : BitVec 64) (clock : TimePoint) :
    AsyncScheduler where
  localTaskQueues := List.replicate workers []
  delayedTasks := []
  cleanupTasks := []
  handleRefs _ := none
  refsLocked := false
  nextThreadIdx := nextThreadIdx
  clock := clock
  threads := List.replicate workers .tick ++ List.replicate outsiders .outside
  memory _ := none
  states := []
  objects := []
  faulted := false

/-- A frame is used that is not there, or that is not suspended. -/
def fault (s : AsyncScheduler) : AsyncScheduler := { s with faulted := true }

/-- Thread `t` goes to `x`. -/
def setThread (s : AsyncScheduler) (t : ℕ) (x : ThreadPoint) : AsyncScheduler :=
  { s with threads := s.threads.set t x }

/-- The coroutine at `h` goes to `point`. -/
def setPoint (s : AsyncScheduler) (h : Address) (point : FramePoint) : AsyncScheduler :=
  { s with memory := Function.update s.memory h ((s.memory h).map fun f => { f with point }) }

/-- State `k` changes. -/
def modifyState (s : AsyncScheduler) (k : ℕ) (g : CoroutineState → CoroutineState) :
    AsyncScheduler :=
  { s with states := s.states.modify k g }

/-- The queue of thread `i` is replaced. -/
def setQueue (s : AsyncScheduler) (i : ℕ) (queue : List Address) : AsyncScheduler :=
  { s with localTaskQueues := s.localTaskQueues.set i queue }

/-- `h.done()`; `none` when the frame is not there. -/
def done (s : AsyncScheduler) (h : Address) : Option Bool :=
  (s.memory h).map fun f => f.point = .finalSuspend

/-- `next_thread_idx.fetch_add(1) % num_threads` -/
def threadIdx (s : AsyncScheduler) : ℕ := s.nextThreadIdx.toNat % s.localTaskQueues.length

/-- `next_thread_idx.fetch_add(1)`, by thread `t`, which goes on at `x`. -/
def countThread (s : AsyncScheduler) (t : ℕ) (x : ThreadPoint) : AsyncScheduler :=
  { s.setThread t x with nextThreadIdx := s.nextThreadIdx + 1 }

/-! ## The scheduler -/

/-- `delayed_tasks`, in the order in which it is popped: its top is its least pair. -/
def sortedTasks (s : AsyncScheduler) : List (TimePoint × Address) :=
  s.delayedTasks.insertionSort fun a b => a.1 < b.1 ∨ a.1 = b.1 ∧ a.2 ≤ b.2

/-- The locked part of `process_delayed_tasks_impl`. -/
def popReady (s : AsyncScheduler) (t : ℕ) (now : TimePoint) : AsyncScheduler :=
  { s.setThread t (.moving ((s.sortedTasks.takeWhile fun p => p.1 ≤ now).map Prod.snd)) with
    delayedTasks := s.sortedTasks.dropWhile fun p => p.1 ≤ now }

/-- `push_front(h)` -/
def pushFront (s : AsyncScheduler) (t i : ℕ) (h : Address) (ready : List Address) :
    AsyncScheduler :=
  { s.setThread t (.moving ready) with
    localTaskQueues := s.localTaskQueues.modify i (h :: ·) }

/-- The own queue in `get_next_task`. -/
def fetch (s : AsyncScheduler) (t : ℕ) : AsyncScheduler :=
  match s.localTaskQueues[t]? with
  | some (h :: queue) => (s.setQueue t queue).setThread t (.fetched h)
  | _ => s.setThread t (.stealing 0)

/-- One turn of the stealing loop in `get_next_task`, with the mutex of queue `i`. -/
def steal (s : AsyncScheduler) (t i : ℕ) : AsyncScheduler :=
  match s.localTaskQueues[i]? with
  | none => s.setThread t .sweeping
  | some queue =>
    if i = t then s.setThread t (.stealing (i + 1))
    else
      match queue.getLast? with
      | none => s.setThread t (.stealing (i + 1))
      | some h => (s.setQueue i queue.dropLast).setThread t (.fetched h)

/-- `h.resume()` -/
def resume (s : AsyncScheduler) (t : ℕ) (h : Address) : AsyncScheduler :=
  match (s.memory h).map PromiseFrame.point with
  | some .initialSuspend => (s.setPoint h .running).setThread t (.body h)
  | some .sleeping => (s.setPoint h .running).setThread t (.body h)
  | some (.awaiting k) => (s.setPoint h .running).setThread t (.awaitResume h k)
  | _ => s.fault

/-- The end of `schedule` and of what its caller does with it. -/
def scheduled (s : AsyncScheduler) (t : ℕ) (caller : Caller) : AsyncScheduler :=
  { s.setThread t caller.returns with
    objects :=
      match caller with
      | .program _ (some o) => s.objects.set o (some ⟨none, none⟩)
      | _ => s.objects
    states :=
      match caller.lock with
      | some k => s.states.modify k (.setLocked false)
      | none => s.states }

/-- The locked part of `schedule_impl`. -/
def insert (s : AsyncScheduler) (t i : ℕ) (h : Address) (caller : Caller) : AsyncScheduler :=
  match s.handleRefs h with
  | none =>
    { s.scheduled t caller with
      handleRefs := Function.update s.handleRefs h (some 1)
      localTaskQueues := s.localTaskQueues.modify i (· ++ [h]) }
  | some _ => s.scheduled t caller

/-- The locked part of `await_suspend`, up to its call of `schedule`. -/
def register (s : AsyncScheduler) (t : ℕ) (h : Address) (k : ℕ) (coro : Address)
    (c : CoroutineState) : AsyncScheduler :=
  if c.completed then
    (s.modifyState k (.setLocked true)).setThread t (.scheduling h (.fallback (some k)))
  else
    (s.modifyState k fun c => (c.setContinuation h).setLocked true).setThread t
      (.scheduling coro (.registered k))

/-- `h.destroy()` -/
def destroy (s : AsyncScheduler) (h : Address) : AsyncScheduler :=
  match s.memory h with
  | none => s.fault
  | some f =>
    { s.modifyState f.state .countDestroyed with memory := Function.update s.memory h none }

/-- One turn of the loop in `process_cleanup_tasks_impl`. -/
def process (s : AsyncScheduler) (h : Address) : AsyncScheduler :=
  match s.handleRefs h with
  | none => s
  | some n =>
    if n - 1 ≤ 0 then
      let s := { s with handleRefs := Function.update s.handleRefs h none }
      match s.done h with
      | none => s.fault
      | some true => s.destroy h
      | some false => s
    else { s with handleRefs := Function.update s.handleRefs h (some (n - 1)) }

/-- The step that thread `t` takes at `x`; `none` where it waits or the program chooses. -/
def advance (s : AsyncScheduler) (t : ℕ) : ThreadPoint → Option AsyncScheduler
  | .outside => none
  | .tick => some (s.setThread t (.timed s.clock))
  | .timed now => some (s.popReady t now)
  | .moving [] => some (s.setThread t .fetching)
  | .moving (h :: ready) =>
    match s.done h with
    | none => some s.fault
    | some true => some (s.setThread t (.moving ready))
    | some false => some (s.setThread t (.distributing h ready))
  | .distributing h ready => some (s.countThread t (.pushingFront s.threadIdx h ready))
  | .pushingFront i h ready => some (s.pushFront t i h ready)
  | .fetching => some (s.fetch t)
  | .stealing i => some (s.steal t i)
  | .fetched h =>
    match s.done h with
    | none => some s.fault
    | some true => some (s.setThread t .tick)
    | some false => some (s.setThread t (.resuming h))
  | .resuming h => some (s.resume t h)
  | .body _ => none
  | .awaitSuspend h _ none => some (s.setThread t (.scheduling h (.fallback none)))
  | .awaitSuspend h k (some coro) =>
    match s.done coro with
    | none => some s.fault
    | some true => some (s.setThread t (.scheduling h (.fallback none)))
    | some false => some (s.setThread t (.registering h k coro))
  | .registering h k coro =>
    match s.states[k]? with
    | none => none
    | some c => if c.locked then none else some (s.register t h k coro c)
  | .scheduling h caller =>
    match s.done h with
    | none => some s.fault
    | some true => some (s.scheduled t caller)
    | some false => some (s.setThread t (.counting h caller))
  | .counting h caller => some (s.countThread t (.inserting s.threadIdx h caller))
  | .inserting i h caller => if s.refsLocked then none else some (s.insert t i h caller)
  | .delaying h delay =>
    match s.done h with
    | none => some s.fault
    | some true => some (s.setThread t .tick)
    | some false => some (s.setThread t (.emplacing h delay))
  | .emplacing h delay =>
    some { s.setThread t .tick with delayedTasks := s.delayedTasks ++ [(s.clock + delay * 1000000, h)] }
  | .awaitResume h k =>
    match s.states[k]? with
    | none => none
    | some c => if c.completed ∧ ¬c.locked then some (s.setThread t (.body h)) else none
  | .finalAwait h =>
    match s.memory h with
    | none => some s.fault
    | some f =>
      match s.states[f.state]? with
      | none => none
      | some c =>
        if c.locked then none
        else some ((s.modifyState f.state .complete).setThread t (.finalCleanup h c.continuation))
  | .finalCleanup h continuation =>
    some { s.setThread t (continuation.elim .tick .resuming) with
      cleanupTasks := s.cleanupTasks ++ [h] }
  | .sweeping =>
    some { s.setThread t (if s.cleanupTasks = [] then .tick else .locking s.cleanupTasks) with
      cleanupTasks := [] }
  | .locking requests =>
    if s.refsLocked then none
    else some { s.setThread t (.destroying requests) with refsLocked := true }
  | .destroying [] => some { s.setThread t .tick with refsLocked := false }
  | .destroying (h :: requests) => some ((s.process h).setThread t (.destroying requests))

/-! ## The program -/

/-- An object that exists and that no thread is detaching. -/
def object (s : AsyncScheduler) (o : ℕ) : Option Async :=
  if s.threads.any fun x => x.detaching = some o then none else (s.objects[o]?).join

/-- A call of a coroutine whose frame is allocated at `address`. -/
def create (s : AsyncScheduler) (address : Address) : AsyncScheduler :=
  { s with
    memory := Function.update s.memory address (some ⟨.initialSuspend, s.states.length⟩)
    states := s.states ++ [.new address]
    objects := s.objects ++ [some ⟨some address, some s.states.length⟩] }

/-- `async::cleanup` -/
def cleanup (s : AsyncScheduler) (a : Async) : AsyncScheduler :=
  { s with cleanupTasks := s.cleanupTasks ++ a.coro.toList }

/-- `co_await` of an object in the body of `c`: `await_ready`, and `await_resume` when it is ready. -/
def await (s : AsyncScheduler) (t : ℕ) (c : Address) (a : Async) : Option AsyncScheduler :=
  match a.state with
  | none => some s
  | some k =>
    (s.states[k]?).map fun state =>
      if state.completed then s
      else (s.setPoint c (.awaiting k)).setThread t (.awaitSuspend c k a.coro)

/-- The suspension of `c` in `SleepAwaiter` or `YieldAwaiter`. -/
def sleep (s : AsyncScheduler) (t : ℕ) (c : Address) (delay : ℤ) : AsyncScheduler :=
  (s.setPoint c .sleeping).setThread t (.delaying c delay)

/-- What the program on thread `t` does at `site`. -/
def call (s : AsyncScheduler) (t : ℕ) (site : Site) : Operation → Option AsyncScheduler
  | .create address => if s.memory address = none then some (s.create address) else none
  | .move o => (s.object o).map fun a =>
      { s with objects := s.objects.set o (some ⟨none, none⟩) ++ [some a] }
  | .assign o other =>
    match s.object o, s.object other with
    | some a, some b =>
      if o = other then some s
      else some { s.cleanup a with
        objects := (s.objects.set o (some b)).set other (some ⟨none, none⟩) }
    | _, _ => none
  | .drop o => (s.object o).map fun a => { s.cleanup a with objects := s.objects.set o none }
  | .detach o => (s.object o).map fun a =>
      match a.coro, a.state with
      | some h, some _ => s.setThread t (.scheduling h (.program site (some o)))
      | _, _ => s
  | .schedule h => some (s.setThread t (.scheduling h (.program site none)))
  | .await o =>
    match site, s.object o with
    | .body c, some a => s.await t c a
    | _, _ => none
  | .sleepFor delay =>
    match site with
    | .body c => some (if delay ≤ 0 then s else s.sleep t c delay)
    | .outside => none
  | .yield =>
    match site with
    | .body c => some (s.sleep t c 0)
    | .outside => none
  | .ret =>
    match site with
    | .body c => some ((s.setPoint c .finalSuspend).setThread t (.finalAwait c))
    | .outside => none

/-- One step; `none` when the thread is not at a place that the step starts from, or has to wait. -/
def step (s : AsyncScheduler) (l : AsyncStep) : Option AsyncScheduler :=
  if s.faulted then none
  else
    match l with
    | .tick time => if s.clock ≤ time then some { s with clock := time } else none
    | .advance t => (s.threads[t]?).bind (s.advance t)
    | .tryLockFails t =>
      match s.threads[t]? with
      | some (.stealing i) =>
        if i < s.localTaskQueues.length ∧ i ≠ t then some (s.setThread t (.stealing (i + 1)))
        else none
      | _ => none
    | .call t op => ((s.threads[t]?).bind ThreadPoint.site).bind fun site => s.call t site op

end AsyncScheduler

end EllohimMQ
