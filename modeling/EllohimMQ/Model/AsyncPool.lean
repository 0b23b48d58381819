import EllohimMQ.Model.AsyncScheduler

/-!
# The public calls of the scheduler of `async.hpp`

The scheduler from its construction on.  `start` and `run` set the number of threads and resize the
queues and their mutexes; `schedule` may be called before, between and after them.  A call is one step,
and so is one `tick` of a worker and one turn of the loop in `run`; a worker of an earlier `start` may be
alive until it has seen that `running` is false.  What a coroutine does when it is resumed, and which
`try_lock` fails, is in the label; of its frame the model keeps `done()` only.
-/

namespace EllohimMQ

/-- What a thread of the program or the body of a coroutine does. -/
inductive AsyncAct where
  /-- a coroutine is created at an address, or is at its end -/
  | create (h : Address)
  | finish (h : Address)
  | schedule (h : Option Address)
  | scheduleAfter (delay : ℤ) (h : Option Address)
  | cleanupHandle (h : Option Address)
  deriving DecidableEq

/-- The queues whose `try_lock` fails during a tick, what the resumed coroutine does, and whether an
exception comes out of it. -/
structure Resumption where
  busy : List ℕ
  acts : List AsyncAct
  threw : Bool
  deriving DecidableEq

/-- The calls of the public functions, the ticks, and what passes outside the scheduler. -/
inductive AsyncCall where
  | time (t : TimePoint)
  | act (a : AsyncAct)
  | start (maxThread : ℕ)
  | stop
  | run
  | runSync (h : Option Address)
  /-- one turn of the loop in `run` -/
  | turn (r : Resumption)
  /-- one tick of a worker thread, and the end of one -/
  | tick (threadIdx : ℕ) (r : Resumption)
  | ended (threadIdx : ℕ)
  deriving DecidableEq

/-- `inRun` tells that `run` has not returned; `discarded` is what was in the queues that were cut off,
and `faulted` that a remainder by zero was taken or a queue used that is not there.  The code keeps none
of the three. -/
structure AsyncPool where
  localTaskQueues : List (List Address)
  delayedTasks : List (TimePoint × Address)
  cleanupTasks : List Address
  handleRefs : Address → Option ℤ
  localQueueMutexes : ℕ
  running : Bool
  numThreads : ℕ
  nextThreadIdx : BitVec 64
  threads : List ℕ
  clock : TimePoint
  done : Address → Bool
  inRun : Bool
  discarded : List Address
  faulted : Bool

namespace AsyncPool

/-- The scheduler as it is constructed. -/
def init (clock : TimePoint) (done : Address → Bool) : AsyncPool where
  localTaskQueues := []
  delayedTasks := []
  cleanupTasks := []
  handleRefs _ := none
  localQueueMutexes := 0
  running := false
  numThreads := 0
  nextThreadIdx := 0
  threads := []
  clock := clock
  done := done
  inRun := false
  discarded := []
  faulted := false

/-- A remainder by zero, or a queue that is not there. -/
def fault (s : AsyncPool) : AsyncPool := { s with faulted := true }

/-- `next_thread_idx.fetch_add(1) % num_threads`, with the queue of this index changed by `push` under
its mutex. -/
def distribute (s : AsyncPool) (push : AsyncPool → ℕ → AsyncPool) : AsyncPool :=
  if s.numThreads = 0 then s.fault
  else
    let threadIdx := s.nextThreadIdx.toNat % s.numThreads
    let s := { s with nextThreadIdx := s.nextThreadIdx + 1 }
    if threadIdx < s.localQueueMutexes ∧ threadIdx < s.localTaskQueues.length then push s threadIdx
    else s.fault

/-- The queue of thread `i` changes. -/
def modifyQueue (s : AsyncPool) (i : ℕ) (f : List Address → List Address) : AsyncPool :=
  { s with localTaskQueues := s.localTaskQueues.modify i f }

/-! ## `schedule`, `schedule_after` and `cleanup_handle` -/

/-- The locked part of `schedule_impl`. -/
def insert (h : Address) (s : AsyncPool) (threadIdx : ℕ) : AsyncPool :=
  match s.handleRefs h with
  | none =>
    { s.modifyQueue threadIdx (· ++ [h]) with
      handleRefs := Function.update s.handleRefs h (some 1) }
  | some _ => s

/-- `schedule_impl` -/
def schedule (s : AsyncPool) : Option Address → AsyncPool
  | none => s
  | some h => if s.done h then s else s.distribute (insert h)

/-- `schedule_after_impl` -/
def scheduleAfter (s : AsyncPool) (delay : ℤ) : Option Address → AsyncPool
  | none => s
  | some h =>
    if s.done h then s
    else { s with delayedTasks := s.delayedTasks ++ [(s.clock + delay * 1000000, h)] }

/-- `cleanup_handle_impl` -/
def cleanupHandle (s : AsyncPool) : Option Address → AsyncPool
  | none => s
  | some h => { s with cleanupTasks := s.cleanupTasks ++ [h] }

/-- What a thread of the program or the body of a coroutine does, to the scheduler. -/
def act (s : AsyncPool) : AsyncAct → AsyncPool
  | .create h => { s with done := Function.update s.done h false }
  | .finish h => { s with done := Function.update s.done h true }
  | .schedule h => s.schedule h
  | .scheduleAfter delay h => s.scheduleAfter delay h
  | .cleanupHandle h => s.cleanupHandle h

/-- One thing after the other, up to a fault. -/
def each {B : Type} (f : AsyncPool → B → AsyncPool) (s : AsyncPool) : List B → AsyncPool
  | [] => s
  | b :: bs => if s.faulted then s else each f (f s b) bs

/-! ## A tick -/

/-- One turn of the second loop in `process_delayed_tasks_impl`. -/
def moveReady (s : AsyncPool) (h : Address) : AsyncPool :=
  if s.done h then s else s.distribute fun s threadIdx => s.modifyQueue threadIdx (h :: ·)

/-- `process_delayed_tasks_impl`; the top of `delayed_tasks` is its least pair. -/
def processDelayedTasks (s : AsyncPool) : AsyncPool :=
  let sorted := s.delayedTasks.insertionSort fun a b => a.1 < b.1 ∨ a.1 = b.1 ∧ a.2 ≤ b.2
  let ready := (sorted.takeWhile fun p => p.1 ≤ s.clock).map Prod.snd
  each moveReady { s with delayedTasks := sorted.dropWhile fun p => p.1 ≤ s.clock } ready

/-- One turn of the loop in `process_cleanup_tasks_impl`. -/
def release (s : AsyncPool) (h : Address) : AsyncPool :=
  match s.handleRefs h with
  | none => s
  | some n =>
    { s with handleRefs :=
        Function.update s.handleRefs h (if n - 1 ≤ 0 then none else some (n - 1)) }

/-- `process_cleanup_tasks_impl` -/
def processCleanupTasks (s : AsyncPool) : AsyncPool :=
  each release { s with cleanupTasks := [] } s.cleanupTasks

/-- The stealing loop in `get_next_task`. -/
def steal (s : AsyncPool) (threadIdx : ℕ) (busy : List ℕ) : List ℕ → AsyncPool × Option Address
  | [] => (s, none)
  | i :: is =>
    if i = threadIdx then s.steal threadIdx busy is
    else if i < s.localQueueMutexes ∧ i < s.localTaskQueues.length then
      match (s.localTaskQueues.getD i []).getLast? with
      | none => s.steal threadIdx busy is
      | some h =>
        if i ∈ busy then s.steal threadIdx busy is
        else (s.modifyQueue i List.dropLast, some h)
    else (s.fault, none)

/-- `get_next_task` -/
def getNextTask (s : AsyncPool) (threadIdx : ℕ) (busy : List ℕ) : AsyncPool × Option Address :=
  if threadIdx < s.localQueueMutexes ∧ threadIdx < s.localTaskQueues.length then
    match s.localTaskQueues.getD threadIdx [] with
    | h :: queue => (s.modifyQueue threadIdx fun _ => queue, some h)
    | [] => s.steal threadIdx busy (List.range s.numThreads)
  else (s.fault, none)

/-- What `tick_impl` does with the handle it has got. -/
def resume (s : AsyncPool) (h : Address) (r : Resumption) : AsyncPool :=
  if s.done h then s
  else
    let s := each act s r.acts
    if r.threw then s.cleanupHandle (some h) else s

/-- `tick_impl` -/
def tickImpl (s : AsyncPool) (threadIdx : ℕ) (r : Resumption) : AsyncPool :=
  let s := s.processDelayedTasks
  if s.faulted then s
  else
    match s.getNextTask threadIdx r.busy with
    | (s, some h) => s.resume h r
    | (s, none) => if s.faulted then s else s.processCleanupTasks

/-! ## `start`, `stop` and `run` -/

/-- `local_task_queues.resize(n)` and the new mutexes. -/
def resize (s : AsyncPool) (n : ℕ) : AsyncPool :=
  { s with
    running := true
    numThreads := n
    localTaskQueues := s.localTaskQueues.take n ++ List.replicate (n - s.localTaskQueues.length) []
    localQueueMutexes := n
    discarded := s.discarded ++ (s.localTaskQueues.drop n).flatten }

/-- `start_impl` -/
def startImpl (s : AsyncPool) (maxThread : ℕ) : AsyncPool :=
  if s.running then s
  else { s.resize maxThread with threads := s.threads ++ List.range maxThread }

/-- `stop_impl`; it returns when all workers have ended. -/
def stopImpl (s : AsyncPool) : AsyncPool := { s with running := false, threads := [] }

/-- `run_impl`, up to its loop. -/
def runImpl (s : AsyncPool) : AsyncPool := { s.resize 1 with inRun := true }

/-- One turn of the loop. -/
def turn (s : AsyncPool) (r : Resumption) : AsyncPool :=
  if 0 < s.localQueueMutexes ∧ 0 < s.localTaskQueues.length then
    let hasWork := s.localTaskQueues.getD 0 [] ≠ []
    let s := s.processDelayedTasks
    if s.faulted then s
    else
      let s := s.processCleanupTasks
      if hasWork then s.tickImpl 0 r
      else if s.localTaskQueues.getD 0 [] = [] ∧ s.delayedTasks = [] ∧ s.cleanupTasks = [] then
        { s with inRun := false, running := false }
      else s
  else s.fault

/-- `run_sync`, up to the loop of `run`; without a coroutine it throws. -/
def runSync (s : AsyncPool) : Option Address → AsyncPool
  | none => s
  | some h =>
    let s := s.schedule (some h)
    if s.faulted then s else s.runImpl

/-- A call is made when the one before has returned. -/
def step (s : AsyncPool) (l : AsyncCall) : Option AsyncPool :=
  if s.faulted then none
  else
    match l with
    | .time t => if s.clock ≤ t then some { s with clock := t } else none
    | .tick threadIdx r =>
      if s.running ∧ threadIdx ∈ s.threads then some (s.tickImpl threadIdx r) else none
    | .ended threadIdx =>
      if s.running = false ∧ threadIdx ∈ s.threads then
        some { s with threads := s.threads.erase threadIdx }
      else none
    | .turn r => if s.inRun then some (s.turn r) else none
    | .act a => if s.inRun then none else some (s.act a)
    | .start maxThread => if s.inRun then none else some (s.startImpl maxThread)
    | .stop => if s.inRun then none else some s.stopImpl
    | .run => if s.inRun then none else some s.runImpl
    | .runSync h => if s.inRun then none else some (s.runSync h)

end AsyncPool

end EllohimMQ
