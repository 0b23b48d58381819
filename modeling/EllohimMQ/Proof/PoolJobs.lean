import Mathlib.Algebra.Order.BigOperators.Group.List
import Mathlib.Algebra.Order.Group.Nat
import Mathlib.Data.List.Nodup
import EllohimMQ.Lib.Table
import EllohimMQ.Lib.Transition
import EllohimMQ.Model.ThreadPool

/-!
# Conservation of jobs in the thread pool

While `destroy` has not been called, every job that was queued is in one position of one deque, held
by one worker, or finished (`Conserved.places`), and every job whose function was invoked is being
executed or finished (`Conserved.invoked`).  Tickets make the jobs distinct, so each is in one place
only.  A worker that passes its wait finds a job in its own deque, because only `destroy` clears
`m_accept_jobs`; hence the job it holds was queued and is not the default-constructed one.
-/

namespace EllohimMQ

open Transition

variable {F : Type}

/-! ## What the threads hold -/

/-- The job in a worker's local variable, until its function has ended. -/
def Worker.held : Worker F → List (ThreadPoolJob F)
  | .holding job => [job]
  | .entered job => [job]
  | .executing job => [job]
  | _ => []

/-- The job whose function a worker has invoked and that has not ended. -/
def Worker.running : Worker F → List (ThreadPoolJob F)
  | .executing job => [job]
  | _ => []

/-- Between the increment of `m_busy_threads` and its decrement. -/
def Worker.busy : Worker F → Bool
  | .entered _ => true
  | .executing _ => true
  | .leaving => true
  | _ => false

/-- The job of a call of `queue_job` that has not been pushed. -/
def Producer.calling : Producer F → List (ThreadPoolJob F)
  | .indexed job _ => [job]
  | _ => []

namespace ThreadPool

/-- The jobs in the hands of the workers. -/
def held (s : ThreadPool F) : List (ThreadPoolJob F) := s.workers.flatMap Worker.held

/-- The jobs whose functions have been invoked and have not ended. -/
def running (s : ThreadPool F) : List (ThreadPoolJob F) := s.workers.flatMap Worker.running

/-- The jobs that have not been pushed. -/
def calling (s : ThreadPool F) : List (ThreadPoolJob F) := s.producers.flatMap Producer.calling

/-- Waking the sleepers changes nothing that is held or counted. -/
theorem notifyAll_flatMap {β : Type} (workers : List (Worker F)) (f : Worker F → List β)
    (hf : f .asleep = f .ready) : (notifyAll workers).flatMap f = workers.flatMap f := by
  rw [notifyAll, List.flatMap_map]
  congr 1
  funext w
  cases w <;> simp [hf]

theorem notifyAll_countP (workers : List (Worker F)) (f : Worker F → Bool)
    (hf : f .asleep = f .ready) : (notifyAll workers).countP f = workers.countP f := by
  rw [notifyAll, List.countP_map]
  congr 1
  funext w
  cases w <;> simp [hf]

theorem notifyAll_length (workers : List (Worker F)) :
    (notifyAll workers).length = workers.length := List.length_map ..

/-! ## What a step does -/

/-- The steps by thread, with the place each starts from and the state it ends in. -/
inductive Moves (s : ThreadPool F) : PoolStep F → ThreadPool F → Prop
  | queueJob {p : ℕ} (func : Option F) (hp : s.producers[p]? = some .idle) :
    Moves s (.queueJob p func) (s.queueJob p func)
  | push {p index : ℕ} {job : ThreadPoolJob F} (hp : s.producers[p]? = some (.indexed job index)) :
    Moves s (.push p) (s.push p job index)
  | notify {p : ℕ} (hp : s.producers[p]? = some .pushed) :
    Moves s (.notify p)
      { s with workers := notifyAll s.workers, producers := s.producers.set p .idle }
  | lock {i : ℕ} (hw : s.workers[i]? = some .ready) : Moves s (.lock i) (s.lock i)
  | wake {i : ℕ} (hw : s.workers[i]? = some .asleep) :
    Moves s (.wake i) { s with workers := s.workers.set i .ready }
  | enter {i : ℕ} {job : ThreadPoolJob F} (hw : s.workers[i]? = some (.holding job)) :
    Moves s (.enter i)
      { s with busyThreads := s.busyThreads + 1, workers := s.workers.set i (.entered job) }
  | invoke {i : ℕ} {job : ThreadPoolJob F} (hw : s.workers[i]? = some (.entered job)) :
    Moves s (.invoke i)
      { s with workers := s.workers.set i (.executing job), invoked := s.invoked ++ [job] }
  | finish {i : ℕ} {job : ThreadPoolJob F} (outcome : Outcome)
    (hw : s.workers[i]? = some (.executing job)) :
    Moves s (.finish i outcome)
      { s with workers := s.workers.set i .leaving, finished := s.finished ++ [job] }
  | leave {i : ℕ} (hw : s.workers[i]? = some .leaving) :
    Moves s (.leave i)
      { s with busyThreads := s.busyThreads - 1, workers := s.workers.set i .ready }
  | destroyStop (hd : s.destroyer = .notCalled) :
    Moves s .destroyStop { s with acceptJobs := false, destroyer := .stopped }
  | destroyNotify (hd : s.destroyer = .stopped) :
    Moves s .destroyNotify { s with workers := notifyAll s.workers, destroyer := .joining }
  | destroyClear (hd : s.destroyer = .joining) (hw : s.workers.all Worker.hasExited = true) :
    Moves s .destroyClear
      { s with
        jobStack := []
        workers := []
        destroyer := .cleared
        discarded := s.discarded ++ s.jobStack.flatten }

theorem step_cases {s s' : ThreadPool F} {l : PoolStep F} (h : s.step l = some s') :
    s.Moves l s' := by
  cases l <;> simp only [step] at h <;> split at h <;> cases h
  · exact .queueJob _ ‹_›
  · exact .push ‹_›
  · exact .notify ‹_›
  · exact .lock ‹_›
  · exact .wake ‹_›
  · exact .enter ‹_›
  · exact .invoke ‹_›
  · exact .finish _ ‹_›
  · exact .leave ‹_›
  · exact .destroyStop ‹_›
  · exact .destroyNotify ‹_›
  · next hd => exact .destroyClear hd.1 hd.2

section

variable (s : ThreadPool F) (p i index : ℕ) (func : Option F) (job : ThreadPoolJob F)

@[simp] theorem queueJob_destroyer : (s.queueJob p func).destroyer = s.destroyer := by
  cases func <;> simp only [queueJob]
  split_ifs <;> rfl

@[simp] theorem queueJob_allocatedThreadCount :
    (s.queueJob p func).allocatedThreadCount = s.allocatedThreadCount := by
  cases func <;> simp only [queueJob]
  split_ifs <;> rfl

@[simp] theorem push_destroyer : (s.push p job index).destroyer = s.destroyer := by
  unfold push
  split <;> rfl

@[simp] theorem push_allocatedThreadCount :
    (s.push p job index).allocatedThreadCount = s.allocatedThreadCount := by
  unfold push
  split <;> rfl

@[simp] theorem lock_destroyer : (s.lock i).destroyer = s.destroyer := by
  unfold lock
  split_ifs <;> rfl

@[simp] theorem lock_allocatedThreadCount :
    (s.lock i).allocatedThreadCount = s.allocatedThreadCount := by
  unfold lock
  split_ifs <;> rfl

@[simp] theorem lock_producers : (s.lock i).producers = s.producers := by
  unfold lock
  split_ifs <;> rfl

end

/-- No step undoes a call of `destroy`. -/
theorem step_destroyer {s s' : ThreadPool F} {l : PoolStep F} (h : s.step l = some s')
    (hd : s'.destroyer = .notCalled) : s.destroyer = .notCalled := by
  cases step_cases h <;> simp_all

/-- No step changes the number of threads the pool was made for. -/
theorem step_allocatedThreadCount {s s' : ThreadPool F} {l : PoolStep F} (h : s.step l = some s') :
    s'.allocatedThreadCount = s.allocatedThreadCount := by
  cases step_cases h <;> simp

/-! ## The invariant -/

/-- What the steps before `destroy` keep: every deque has its worker, every index is one of a deque,
and each job is in one place. -/
structure Conserved (s : ThreadPool F) : Prop where
  acceptJobs : s.acceptJobs = true
  jobStack_length : s.jobStack.length = s.allocatedThreadCount.toNat
  workers_length : s.workers.length = s.allocatedThreadCount.toNat
  index : ∀ c ∈ s.producers, ∀ job index, c = .indexed job index → index < s.jobStack.length
  faulted : .faulted ∉ s.producers
  tickets : s.called.map ThreadPoolJob.ticket = List.range s.called.length
  func : ∀ job ∈ s.called, job.func.isSome
  called : s.called.Perm (s.calling ++ s.queued)
  places : s.queued.Perm (s.jobStack.flatten ++ s.held ++ s.finished)
  invoked : s.invoked.Perm (s.running ++ s.finished)
  busy : s.busyThreads.toNat = s.workers.countP Worker.busy

theorem conserved_new (n nextQueue : BitVec 64) (k : ℕ) :
    (new n nextQueue k : ThreadPool F).Conserved where
  acceptJobs := rfl
  jobStack_length := List.length_replicate
  workers_length := List.length_replicate
  index c hc job index e := by
    rw [List.eq_of_mem_replicate hc] at e
    cases e
  faulted hc := by cases List.eq_of_mem_replicate hc
  tickets := rfl
  func _ h := by cases h
  called := by simp [new, calling, Producer.calling]
  places := by simp [new, held, Worker.held]
  invoked := by simp [new, running, Worker.running]
  busy := by simp [new, List.countP_replicate, Worker.busy]

variable {s : ThreadPool F}

theorem Conserved.nodup_called (h : s.Conserved) : s.called.Nodup :=
  List.Nodup.of_map ThreadPoolJob.ticket (h.tickets ▸ List.nodup_range)

theorem Conserved.nodup_queued (h : s.Conserved) : s.queued.Nodup :=
  (List.nodup_append.1 (h.called.nodup_iff.1 h.nodup_called)).2.1

theorem Conserved.mem_called (h : s.Conserved) {job : ThreadPoolJob F} (hj : job ∈ s.queued) :
    job ∈ s.called := h.called.mem_iff.2 (List.mem_append_right _ hj)

/-- A job that a worker holds was queued. -/
theorem Conserved.mem_queued (h : s.Conserved) {i : ℕ} {w : Worker F} (hw : s.workers[i]? = some w)
    {job : ThreadPoolJob F} (hj : job ∈ w.held) : job ∈ s.queued := by
  have hheld : job ∈ s.held := List.mem_flatMap.2 ⟨w, List.mem_of_getElem? hw, hj⟩
  exact h.places.mem_iff.2 (by simp [hheld])

open Classical in
/-- A job that is held and not running was not invoked. -/
theorem Conserved.notMem_invoked (h : s.Conserved) {i : ℕ} {w : Worker F}
    (hw : s.workers[i]? = some w) {job : ThreadPoolJob F} (hj : w.held = [job])
    (hr : w.running = []) : job ∉ s.invoked := by
  intro hmem
  have hq := List.nodup_iff_count_le_one.1 h.nodup_queued job
  have hp := h.places.count_eq job
  have hi := h.invoked.count_eq job
  have hpos := List.count_pos_iff.2 hmem
  -- the running jobs are among the held ones, and `w` holds one more
  have hle : s.running.count job + 1 ≤ s.held.count job := by
    have hh := Table.count_flatMap_set hw .leaving Worker.held job
    have hrun := Table.count_flatMap_set hw .leaving Worker.running job
    have hsub : ((s.workers.set i .leaving).flatMap Worker.running).count job ≤
        ((s.workers.set i .leaving).flatMap Worker.held).count job := by
      simp only [List.count_flatMap]
      refine List.sum_le_sum fun w _ => ?_
      cases w <;> simp [Worker.running, Worker.held]
    rw [hj, List.count_singleton_self] at hh
    rw [hr] at hrun
    simp only [Worker.held, Worker.running, List.count_nil] at hh hrun
    unfold held running
    omega
  simp only [List.count_append] at hp hi
  omega

/-! ## The steps -/

open Classical in
theorem Conserved.queueJob (h : s.Conserved) (hn : 0 < s.allocatedThreadCount.toNat) {p : ℕ}
    (hp : s.producers[p]? = some .idle) (func : Option F) : (s.queueJob p func).Conserved := by
  rcases func with _ | f
  · exact h
  have hlen : s.jobStack.length ≠ 0 := by rw [h.jobStack_length]; omega
  rw [ThreadPool.queueJob, if_neg hlen]
  refine { h with
    index := Table.forall_mem_set h.index fun job index e => ?_
    faulted := fun hc => ?_, tickets := ?_, func := ?_, called := ?_ }
  · cases e
    exact Nat.mod_lt _ (by omega)
  · rcases List.mem_or_eq_of_mem_set hc with hc | hc
    · exact h.faulted hc
    · cases hc
  · simp [h.tickets, List.range_succ]
  · intro job hj
    rcases List.mem_append.1 hj with hj | hj
    · exact h.func job hj
    · rw [List.mem_singleton.1 hj]
      rfl
  · refine List.perm_iff_count.2 fun x => ?_
    have hcalled := h.called.count_eq x
    have hset := Table.count_flatMap_set hp
      (.indexed ⟨some f, s.called.length⟩ (s.nextQueue.toNat % s.jobStack.length))
      Producer.calling x
    simp only [calling, Producer.calling, List.count_append, List.count_nil] at hcalled hset ⊢
    omega

open Classical in
theorem Conserved.push (h : s.Conserved) {p index : ℕ} {job : ThreadPoolJob F}
    (hp : s.producers[p]? = some (.indexed job index)) : (s.push p job index).Conserved := by
  have hlt := h.index _ (List.mem_of_getElem? hp) job index rfl
  obtain ⟨jobs, hjobs⟩ : ∃ jobs, s.jobStack[index]? = some jobs :=
    ⟨_, List.getElem?_eq_getElem hlt⟩
  simp only [ThreadPool.push, hjobs]
  refine { h with
    jobStack_length := by rw [List.length_set, h.jobStack_length]
    index := Table.forall_mem_set (fun c hc job index e => ?_) fun job index e => ?_
    faulted := fun hc => ?_, called := ?_, places := ?_ }
  · rw [List.length_set]
    exact h.index c hc job index e
  · cases e
  · rcases List.mem_or_eq_of_mem_set hc with hc | hc
    · exact h.faulted hc
    · cases hc
  · refine List.perm_iff_count.2 fun x => ?_
    have hcalled := h.called.count_eq x
    have hset := Table.count_flatMap_set hp .pushed Producer.calling x
    simp only [calling, Producer.calling, List.count_append, List.count_nil] at hcalled hset ⊢
    omega
  · refine List.perm_iff_count.2 fun x => ?_
    have hplaces := h.places.count_eq x
    have hset := Table.count_flatten_set hjobs (job :: jobs) x
    simp only [held, List.count_append, List.count_cons, List.count_nil] at hplaces hset ⊢
    omega

open Classical in
/-- A step of a worker outside the lock: `started` and `ended` are the jobs whose functions begin
and end with it. -/
theorem Conserved.worker (h : s.Conserved) {i : ℕ} {w : Worker F} (hw : s.workers[i]? = some w)
    (w' : Worker F) (busyThreads : BitVec 64) (started ended : List (ThreadPoolJob F))
    (hheld : w.held.Perm (w'.held ++ ended))
    (hrun : (w.running ++ started).Perm (w'.running ++ ended))
    (hbusy : busyThreads.toNat + (if w.busy then 1 else 0) =
      s.busyThreads.toNat + if w'.busy then 1 else 0) :
    ({ s with
      busyThreads
      workers := s.workers.set i w'
      invoked := s.invoked ++ started
      finished := s.finished ++ ended } : ThreadPool F).Conserved := by
  refine { h with workers_length := ?_, places := ?_, invoked := ?_, busy := ?_ }
  · rw [List.length_set, h.workers_length]
  · refine List.perm_iff_count.2 fun x => ?_
    have hplaces := h.places.count_eq x
    have hset := Table.count_flatMap_set hw w' Worker.held x
    have hx := hheld.count_eq x
    simp only [held, List.count_append] at hplaces hset hx ⊢
    omega
  · refine List.perm_iff_count.2 fun x => ?_
    have hinvoked := h.invoked.count_eq x
    have hset := Table.count_flatMap_set hw w' Worker.running x
    have hx := hrun.count_eq x
    simp only [running, List.count_append] at hinvoked hset hx ⊢
    omega
  · have hset := Table.countP_set hw w' Worker.busy
    have := h.busy
    simp only at hset ⊢
    omega

/-- A step that concerns one worker's place only. -/
theorem Conserved.moveWorker (h : s.Conserved) {i : ℕ} {w : Worker F}
    (hw : s.workers[i]? = some w) (w' : Worker F) (hheld : w'.held = w.held)
    (hrun : w'.running = w.running) (hbusy : w'.busy = w.busy) :
    ({ s with workers := s.workers.set i w' } : ThreadPool F).Conserved := by
  have := h.worker hw w' s.busyThreads [] [] (by simp [hheld]) (by simp [hrun]) (by simp [hbusy])
  simpa only [List.append_nil] using this

open Classical in
/-- A worker that passes its wait takes the front job of its own deque. -/
theorem Conserved.lock (h : s.Conserved) {i : ℕ} (hw : s.workers[i]? = some .ready) :
    (s.lock i).Conserved := by
  rcases hi : s.jobStack.getD i [] with _ | ⟨job, jobs⟩
  · rw [ThreadPool.lock, if_pos ⟨hi, h.acceptJobs⟩]
    exact h.moveWorker hw .asleep rfl rfl rfl
  · have hjobs : s.jobStack[i]? = some (job :: jobs) := by
      rw [List.getD_eq_getElem?_getD] at hi
      rcases hs : s.jobStack[i]? with _ | jobs'
      · rw [hs] at hi
        cases hi
      · rw [hs] at hi
        exact congrArg some hi
    have hlock : s.lock i = { s with
        jobStack := s.jobStack.set i jobs
        workers := s.workers.set i (.holding job) } := by
      have hsome : (s.jobStack[i]?).getD [] = job :: jobs := by rw [hjobs, Option.getD_some]
      simp [ThreadPool.lock, takeJob, hsome, h.acceptJobs]
    rw [hlock]
    refine { h with
      jobStack_length := ?_, workers_length := ?_, index := ?_, places := ?_, invoked := ?_, busy := ?_ }
    · rw [List.length_set, h.jobStack_length]
    · rw [List.length_set, h.workers_length]
    · simpa only [List.length_set] using h.index
    · refine List.perm_iff_count.2 fun x => ?_
      have hplaces := h.places.count_eq x
      have hset := Table.count_flatten_set hjobs jobs x
      have hheld := Table.count_flatMap_set hw (.holding job) Worker.held x
      simp only [held, Worker.held, List.count_append, List.count_cons, List.count_nil]
        at hplaces hset hheld ⊢
      omega
    · refine List.perm_iff_count.2 fun x => ?_
      have hinvoked := h.invoked.count_eq x
      have hset := Table.count_flatMap_set hw (.holding job) Worker.running x
      simp only [running, Worker.running, List.count_append, List.count_nil] at hinvoked hset ⊢
      omega
    · have hset := Table.countP_set hw (.holding job) Worker.busy
      have hb := h.busy
      simp only [Worker.busy, Bool.false_eq_true, if_false] at hset ⊢
      omega

/-- `++m_busy_threads` does not overflow: the worker that does it is not counted yet. -/
theorem Conserved.enter (h : s.Conserved) {i : ℕ} {job : ThreadPoolJob F}
    (hw : s.workers[i]? = some (.holding job)) :
    ({ s with
      busyThreads := s.busyThreads + 1
      workers := s.workers.set i (.entered job) } : ThreadPool F).Conserved := by
  have hlt := Table.countP_lt_length hw (p := Worker.busy) rfl
  have hbound := s.allocatedThreadCount.isLt
  have hbusy := h.busy
  have hlen := h.workers_length
  have hadd : (s.busyThreads + 1).toNat = s.busyThreads.toNat + 1 := by
    rw [BitVec.toNat_add]
    exact Nat.mod_eq_of_lt (by change s.busyThreads.toNat + 1 < 2 ^ 64; omega)
  have := h.worker hw (.entered job) (s.busyThreads + 1) [] [] (by simp [Worker.held])
    (by simp [Worker.running]) (by rw [hadd]; rfl)
  simpa only [List.append_nil] using this

/-- `--m_busy_threads` does not underflow: the worker that does it is counted. -/
theorem Conserved.leave (h : s.Conserved) {i : ℕ} (hw : s.workers[i]? = some .leaving) :
    ({ s with
      busyThreads := s.busyThreads - 1
      workers := s.workers.set i .ready } : ThreadPool F).Conserved := by
  have hpos := Table.countP_pos_of_getElem? hw (p := Worker.busy) rfl
  have hbusy := h.busy
  have hsub : (s.busyThreads - 1).toNat + 1 = s.busyThreads.toNat := by
    have := s.busyThreads.isLt
    rw [BitVec.toNat_sub]
    change (2 ^ 64 - 1 + s.busyThreads.toNat) % 2 ^ 64 + 1 = _
    omega
  have := h.worker hw .ready (s.busyThreads - 1) [] [] (by simp [Worker.held])
    (by simp [Worker.running]) hsub
  simpa only [List.append_nil] using this

theorem Conserved.notifyAll (h : s.Conserved) {p : ℕ} (hp : s.producers[p]? = some .pushed) :
    ({ s with
      workers := ThreadPool.notifyAll s.workers
      producers := s.producers.set p .idle } : ThreadPool F).Conserved := by
  refine { h with
    workers_length := ?_, index := ?_, faulted := fun hc => ?_, called := ?_, places := ?_
    invoked := ?_, busy := ?_ }
  · rw [notifyAll_length, h.workers_length]
  · exact Table.forall_mem_set h.index fun _ _ e => by cases e
  · rcases List.mem_or_eq_of_mem_set hc with hc | hc
    · exact h.faulted hc
    · cases hc
  · classical
    refine List.perm_iff_count.2 fun x => ?_
    have hcalled := h.called.count_eq x
    have hset := Table.count_flatMap_set hp .idle Producer.calling x
    simp only [calling, Producer.calling, List.count_append, List.count_nil] at hcalled hset ⊢
    omega
  · rw [held, notifyAll_flatMap _ _ rfl]
    exact h.places
  · rw [running, notifyAll_flatMap _ _ rfl]
    exact h.invoked
  · rw [notifyAll_countP _ _ rfl]
    exact h.busy

/-- A step before `destroy` is called is a step of a caller of `queue_job` or of a worker, and keeps
the invariant. -/
theorem Conserved.step (h : s.Conserved) (hn : 0 < s.allocatedThreadCount.toNat) {l : PoolStep F}
    {s' : ThreadPool F} (hs : s.step l = some s') (hd : s'.destroyer = .notCalled) :
    s'.Conserved := by
  cases step_cases hs with
  | queueJob func hp => exact h.queueJob hn hp func
  | push hp => exact h.push hp
  | notify hp => exact h.notifyAll hp
  | lock hw => exact h.lock hw
  | wake hw => exact h.moveWorker hw .ready rfl rfl rfl
  | enter hw => exact h.enter hw
  | @invoke i job hw =>
    have := h.worker hw (.executing job) s.busyThreads [job] [] (by simp [Worker.held])
      (by simp [Worker.running]) (by simp [Worker.busy])
    rwa [List.append_nil] at this
  | @finish i job outcome hw =>
    have := h.worker hw .leaving s.busyThreads [] [job] (by simp [Worker.held])
      (by simp [Worker.running]) (by simp [Worker.busy])
    rwa [List.append_nil] at this
  | leave hw => exact h.leave hw
  | destroyStop => cases hd
  | destroyNotify => cases hd
  | destroyClear => cases hd

/-- The invariant holds in every state reached before `destroy` is called. -/
theorem conserved_of_reachable {n nextQueue : BitVec 64} {k : ℕ} (hn : 0 < n.toNat)
    (h : Reachable step (new n nextQueue k) s) (hd : s.destroyer = .notCalled) : s.Conserved := by
  have key : s.allocatedThreadCount = n ∧ (s.destroyer = .notCalled → s.Conserved) := by
    refine h.invariant (P := fun s => s.allocatedThreadCount = n ∧
      (s.destroyer = .notCalled → s.Conserved)) ?_ ⟨rfl, fun _ => conserved_new n nextQueue k⟩
    rintro s l s' ⟨hcount, hc⟩ hs
    refine ⟨(step_allocatedThreadCount hs).trans hcount, fun hd => ?_⟩
    exact (hc (step_destroyer hs hd)).step (hcount ▸ hn) hs hd
  exact key.2 hd

/-- In every state of a pool of at least one worker that is reached before `destroy` is called:

* the jobs of the calls of `queue_job` are pairwise different, and each of them is still with its
  caller or queued, exactly once;
* a job that was queued is in one position of one deque, held by one worker, or finished, and in
  only one of these places;
* the next function that a worker invokes is that of a job that was queued and was not invoked
  before, and is not empty;
* `m_busy_threads` is the number of workers between the increment and the decrement. -/
theorem jobs_conserved {n nextQueue : BitVec 64} {k : ℕ} (hn : 0 < n.toNat)
    (h : Reachable step (new n nextQueue k) s) (hd : s.destroyer = .notCalled) :
    (s.called.Nodup ∧ s.called.Perm (s.calling ++ s.queued) ∧ .faulted ∉ s.producers) ∧
    s.queued.Perm (s.jobStack.flatten ++ s.held ++ s.finished) ∧
    (∀ i s', s.step (.invoke i) = some s' → ∃ job, s'.invoked = s.invoked ++ [job] ∧
      job ∈ s.queued ∧ job ∉ s.invoked ∧ job.func.isSome) ∧
    s.busyThreads.toNat = s.workers.countP Worker.busy ∧
    s.busyThreads.toNat ≤ s.allocatedThreadCount.toNat := by
  have hc := conserved_of_reachable hn h hd
  refine ⟨⟨hc.nodup_called, hc.called, hc.faulted⟩, hc.places, fun i s' hs => ?_, hc.busy, ?_⟩
  · cases step_cases hs with
    | @invoke i job hw =>
      have hq : job ∈ s.queued := hc.mem_queued hw (List.mem_singleton_self job)
      refine ⟨job, rfl, hq, hc.notMem_invoked hw rfl rfl, ?_⟩
      exact hc.func job (hc.mem_called hq)
  · rw [hc.busy, ← hc.workers_length]
    exact List.countP_le_length

/-- Two callers and two workers: one job is finished, the other still in its deque. -/
theorem jobs_conserved_two :
    ∃ s : ThreadPool ℕ, run step (new 2 0 2)
        [.lock 0, .queueJob 0 (some 7), .queueJob 1 (some 8), .push 0, .push 1, .notify 0, .lock 0,
          .enter 0, .invoke 0, .finish 0 .threw] = some s ∧
      s.queued.Perm (s.jobStack.flatten ++ s.held ++ s.finished) ∧ s.finished = [⟨some 7, 0⟩] := by
  obtain ⟨s, hs, hview⟩ := Option.map_eq_some_iff.1 (show (run step (new 2 0 2 : ThreadPool ℕ)
    [.lock 0, .queueJob 0 (some 7), .queueJob 1 (some 8), .push 0, .push 1, .notify 0, .lock 0,
      .enter 0, .invoke 0, .finish 0 .threw]).map (fun s => (s.finished, s.destroyer)) =
        some ([⟨some 7, 0⟩], .notCalled) by decide)
  obtain ⟨hfinished, hd⟩ := Prod.mk.inj hview
  exact ⟨s, hs, (jobs_conserved (by decide) ⟨_, hs⟩ hd).2.1, hfinished⟩

end ThreadPool

end EllohimMQ
