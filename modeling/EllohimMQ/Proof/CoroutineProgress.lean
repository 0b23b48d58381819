import EllohimMQ.Proof.CoroutineThreads

/-!
# The process does not get stuck

From every state the threads can bring the execution on to the next configuration of the plain
execution.  `Process.weight` counts how far the job that is on its way, and the workers that are on
their way out of an earlier job, have still to go.  While a job is on its way, some step of some
thread makes the weight smaller (`exists_deliver`).
-/

namespace EllohimMQ

open Calls Transition

variable {F : Type}

/-! ## Weights -/

/-- What a worker weighs where it is; one that sleeps weighs more than one that is ready. -/
def Worker.weight : Worker F → ℕ
  | .exited => 0
  | .ready => 1
  | .asleep => 2
  | .leaving => 2
  | .executing _ => 3
  | .entered _ => 20
  | .holding _ => 21

/-- What a caller of `queue_job` weighs. -/
def Producer.weight : Producer F → ℕ
  | .pushed => 1
  | .indexed _ _ => 60
  | _ => 0

/-- What the timer thread weighs; with a job in its hands it still has to call `queue_job`. -/
def TimerThread.weight : TimerThread F → ℕ
  | .exited => 0
  | .locking => 1
  | .testing => 2
  | .woken => 3
  | .waitingUntil _ => 3
  | .waiting => 4
  | .popped _ => 70

/-- What a caller of `execute_after` weighs. -/
def Submitter.weight : Submitter F → ℕ
  | .idle => 0
  | .pushed => 10
  | .calling _ => 200

/-- A job in the heap; one that is not due waits for the clock. -/
def ScheduledJob.weight (clock : TimePoint) (job : ScheduledJob F) : ℕ :=
  if job.executeTime ≤ clock then 100 else 101

/-- What a worker weighs in the function of its job. -/
def Activity.weight {σ : Type} : Activity σ → ℕ
  | .idle => 0
  | .ending _ => 1
  | .inTimer => 2
  | .inBody _ => 3
  | .resuming _ => 4
  | .starting _ => 5

namespace ThreadPool

variable {s : ThreadPool F} {i p : ℕ}

/-- The weight of the pool. -/
def weight (s : ThreadPool F) : ℕ :=
  (s.workers.map Worker.weight).sum + (s.producers.map Producer.weight).sum +
    (s.jobStack.map fun jobs => 50 * jobs.length).sum

theorem weight_worker {w w' : Worker F} (hw : s.workers[i]? = some w) (h : w'.weight < w.weight)
    (busyThreads : BitVec 64) :
    ({ s with busyThreads, workers := s.workers.set i w' } : ThreadPool F).weight < s.weight := by
  have := Table.sum_map_set hw w' Worker.weight
  simp only [weight]
  omega

theorem weight_push {job : ThreadPoolJob F} {index : ℕ} {jobs : List (ThreadPoolJob F)}
    (hp : s.producers[p]? = some (.indexed job index)) (hjobs : s.jobStack[index]? = some jobs) :
    (s.push p job index).weight < s.weight := by
  have h₁ := Table.sum_map_set hp .pushed Producer.weight
  have h₂ := Table.sum_map_set hjobs (job :: jobs) fun jobs => 50 * jobs.length
  simp only [push, hjobs, weight]
  simp only [Producer.weight, List.length_cons] at h₁ h₂
  omega

theorem weight_notify (hp : s.producers[p]? = some .pushed) :
    ({ s with
      workers := notifyAll s.workers
      producers := s.producers.set p .idle } : ThreadPool F).weight < s.weight := by
  have h₁ := Table.sum_map_set hp .idle Producer.weight
  have h₂ : ((notifyAll s.workers).map Worker.weight).sum ≤ (s.workers.map Worker.weight).sum := by
    rw [notifyAll, List.map_map]
    refine List.sum_le_sum fun w _ => ?_
    cases w <;> simp [Worker.weight]
  simp only [weight]
  simp only [Producer.weight] at h₁
  omega

/-- The worker takes the job in front. -/
theorem weight_lock {job : ThreadPoolJob F} {jobs : List (ThreadPoolJob F)}
    (ha : s.acceptJobs = true) (hw : s.workers[i]? = some .ready)
    (hjobs : s.jobStack[i]? = some (job :: jobs)) : (s.lock i).weight < s.weight := by
  have hd : s.jobStack.getD i [] = job :: jobs := by
    rw [List.getD_eq_getElem?_getD, hjobs]
    rfl
  have h₁ := Table.sum_map_set hw (.holding job) Worker.weight
  have h₂ := Table.sum_map_set hjobs jobs fun jobs => 50 * jobs.length
  simp only [Worker.weight, List.length_cons] at h₁ h₂
  rw [lock, if_neg (fun h => by rw [hd] at h; cases h.1), if_neg (by simp [ha])]
  simp only [takeJob, hd, weight, Option.getD_some]
  omega

end ThreadPool

namespace Scheduler

variable {s : Scheduler F} {p : ℕ}

/-- The weight of the timer thread, its callers and its jobs. -/
def weight (s : Scheduler F) : ℕ :=
  s.thread.weight + (s.submitters.map Submitter.weight).sum +
    (s.jobs.map (ScheduledJob.weight s.clock)).sum

theorem weight_push {job : ScheduledJob F} (hp : s.submitters[p]? = some (.calling job)) :
    ({ s with
      jobs := job :: s.jobs
      submitters := s.submitters.set p .pushed
      submitted := s.submitted ++ [job] } : Scheduler F).weight < s.weight := by
  have h := Table.sum_map_set hp .pushed Submitter.weight
  have hjob : job.weight s.clock ≤ 101 := by
    unfold ScheduledJob.weight
    split <;> omega
  simp only [weight, List.map_cons, List.sum_cons]
  simp only [Submitter.weight] at h
  omega

theorem weight_notify (hp : s.submitters[p]? = some .pushed) :
    ({ s with
      thread := notified s.thread
      submitters := s.submitters.set p .idle } : Scheduler F).weight < s.weight := by
  have h := Table.sum_map_set hp .idle Submitter.weight
  have ht : (notified s.thread).weight ≤ s.thread.weight := by
    cases s.thread <;> simp [notified, TimerThread.weight]
  simp only [weight]
  simp only [Submitter.weight] at h
  omega

theorem weight_thread {thread : TimerThread F} (h : thread.weight < s.thread.weight) :
    ({ s with thread } : Scheduler F).weight < s.weight := by
  simp only [weight]
  omega

end Scheduler

variable {σ Fx V E : Type}

/-- The weight of the process, with that of the call of the consumer while it is still to come. -/
def Process.weight (s : Process σ Fx V E) : ℕ :=
  s.pool.weight + s.timers.weight + (s.activities.map Activity.weight).sum +
    if s.called then 0 else 100

/-! ## A job on its way -/

/-- Some step of some thread makes the weight smaller. -/
def Lighter (P : Program σ Fx V E) (root : σ) (s : Process σ Fx V E) : Prop :=
  ∃ l s', s.step P root l = some s' ∧ s'.weight < s.weight

section

variable {P : Program σ Fx V E} {root : σ} {s : Process σ Fx V E} {i : ℕ}

theorem step_live (hf : s.faulted = false) (ht : s.terminated = false) (l : ProcessStep σ) :
    s.step P root l = s.stepLive P root l := by
  rw [Process.step, if_neg]
  simp [hf, ht]

theorem lighter_pool (hf : s.faulted = false) (ht : s.terminated = false)
    (l : PoolStep (CoroutineJob σ)) {pool : ThreadPool (CoroutineJob σ)} (hl : l.internal = true)
    (hs : s.pool.step l = some pool) (hw : pool.weight < s.pool.weight) : Lighter P root s := by
  refine ⟨.pool l, { s with pool }, ?_, ?_⟩
  · rw [step_live hf ht, Process.stepLive, if_pos hl, hs]
    rfl
  · simp only [Process.weight]
    omega

theorem lighter_timers (hf : s.faulted = false) (ht : s.terminated = false)
    (l : SchedulerStep (CoroutineJob σ)) (timers : Scheduler (CoroutineJob σ))
    (hl : l.internal = true) (hs : s.timers.step l = some timers)
    (hw : timers.weight < s.timers.weight) : Lighter P root s := by
  refine ⟨.timers l, { s with timers }, ?_, ?_⟩
  · rw [step_live hf ht]
    cases l with
    | test => cases hl
    | _ =>
      simp only [Process.stepLive]
      rw [if_pos hl, hs]
      rfl
  · simp only [Process.weight]
    omega

/-- A worker goes on inside its job's function. -/
theorem lighter_activity (hf : s.faulted = false) (ht : s.terminated = false)
    {s' : Process σ Fx V E} {a : Activity σ} (a' : Activity σ) (hs : s.execute P i = some s')
    (ha : s.activities[i]? = some a) (hlt : a'.weight < a.weight) (hp : s'.pool = s.pool)
    (htimers : s'.timers = s.timers) (hc : s'.called = s.called)
    (hact : s'.activities = s.activities.set i a') : Lighter P root s := by
  refine ⟨.execute i, s', by rw [step_live hf ht]; exact hs, ?_⟩
  have := Table.sum_map_set ha a' Activity.weight
  simp only [Process.weight, hp, htimers, hc, hact]
  omega

/-- Every job that is owed is in one of the places between `execute_after` and `std::invoke`. -/
theorem owes_length {called : Bool} {pool : ThreadPool (CoroutineJob σ)}
    {timers : Scheduler (CoroutineJob σ)} {jobs : List (CoroutineJob σ)}
    (h : Accounts root called pool timers) (ho : Owes root called pool timers jobs) :
    timers.pending.length + timers.jobs.length + timers.thread.inFlight.length +
      pool.calling.length + pool.jobStack.flatten.length + pool.held.length =
    jobs.length + pool.running.length := by
  have h₁ := ho.length_eq
  have h₂ := h.linked.length_eq
  have h₃ := h.timely.called.length_eq
  have h₄ := h.timely.places.length_eq
  have h₅ := h.conserved.called.length_eq
  have h₆ := h.conserved.places.length_eq
  have h₇ := h.conserved.invoked.length_eq
  simp only [List.length_append, List.length_map] at h₁ h₂ h₃ h₄ h₅ h₆ h₇
  omega

theorem running_le_held (pool : ThreadPool (CoroutineJob σ)) :
    pool.running.length ≤ pool.held.length := by
  rw [ThreadPool.held, ThreadPool.running, List.length_flatMap, List.length_flatMap]
  exact List.sum_le_sum fun w _ => by cases w <;> simp [Worker.running, Worker.held]

/-- The workers hold no job that they do not execute. -/
theorem running_of_held {pool : ThreadPool (CoroutineJob σ)}
    (h : pool.held.length = pool.running.length) {w : Worker (CoroutineJob σ)}
    (hw : pool.workers[i]? = some w) : w.held.length = w.running.length := by
  have hle : ∀ w : Worker (CoroutineJob σ), w.running.length ≤ w.held.length := fun w => by
    cases w <;> simp [Worker.running, Worker.held]
  have h₁ := Table.sum_map_set hw .ready fun w => w.held.length
  have h₂ := Table.sum_map_set hw .ready fun w => w.running.length
  have h₃ : ((pool.workers.set i .ready).map fun w => w.running.length).sum ≤
      ((pool.workers.set i .ready).map fun w => w.held.length).sum :=
    List.sum_le_sum fun w _ => hle w
  rw [ThreadPool.held, ThreadPool.running, List.length_flatMap, List.length_flatMap] at h
  have := hle w
  change _ + w.held.length = _ + 0 at h₁
  change _ + w.running.length = _ + 0 at h₂
  omega

section

variable (hf : s.faulted = false) (ht : s.terminated = false)

include hf ht

/-- A worker is in `execute_after`, before its lock. -/
theorem lighter_of_pending (h : 0 < s.timers.pending.length) : Lighter P root s := by
  obtain ⟨job, hjob⟩ := List.exists_mem_of_length_pos h
  obtain ⟨u, hu, hmem⟩ := List.mem_flatMap.1 hjob
  obtain ⟨p, hp⟩ := List.getElem?_of_mem hu
  cases u with
  | calling job' =>
    exact lighter_timers hf ht (.push p) _ rfl (by simp only [Scheduler.step, hp])
      (Scheduler.weight_push hp)
  | idle | pushed => cases hmem

/-- A caller of `queue_job` is before its lock. -/
theorem lighter_of_calling (hc : s.pool.Conserved) (h : 0 < s.pool.calling.length) :
    Lighter P root s := by
  obtain ⟨job, hjob⟩ := List.exists_mem_of_length_pos h
  obtain ⟨c, hmemc, hmem⟩ := List.mem_flatMap.1 hjob
  obtain ⟨p, hp⟩ := List.getElem?_of_mem hmemc
  cases c with
  | indexed job' index =>
    have hlt := hc.index _ hmemc job' index rfl
    exact lighter_pool hf ht (.push p) rfl (by simp only [ThreadPool.step, hp])
      (ThreadPool.weight_push hp (List.getElem?_eq_getElem hlt))
  | idle | pushed | faulted => cases hmem

/-- The timer thread has popped the job. -/
theorem lighter_of_inFlight (hr : Ready s) (hlen : s.pool.jobStack.length ≠ 0)
    (h : 0 < s.timers.thread.inFlight.length) : Lighter P root s := by
  cases hthread : s.timers.thread with
  | popped job =>
    have hp := hr.timerThread (by rw [hthread]; nofun)
    refine ⟨.pass, { s with
      timers := { s.timers with thread := .testing, passed := s.timers.passed ++ [job] }
      pool := s.pool.queueJob 0 job.func }, ?_, ?_⟩
    · rw [step_live hf ht]
      simp only [Process.stepLive, hthread, Scheduler.step, ThreadPool.step, hp, Option.bind_some,
        Option.map_some]
    · have hpool : (s.pool.queueJob 0 job.func).weight ≤ s.pool.weight + 60 := by
        rcases job.func with _ | func
        · exact Nat.le_add_right ..
        · rw [ThreadPool.queueJob, if_neg hlen]
          have := Table.sum_map_set hp (.indexed ⟨some func, s.pool.called.length⟩
            (s.pool.nextQueue.toNat % s.pool.jobStack.length)) Producer.weight
          simp only [ThreadPool.weight]
          simp only [Producer.weight] at this
          omega
      simp only [Process.weight, Scheduler.weight, hthread, TimerThread.weight]
      omega
  | testing | locking | waiting | woken | waitingUntil | exited =>
    rw [hthread] at h
    cases h

/-- A worker has taken the job, and has not invoked it. -/
theorem lighter_of_held (hw : s.activities.length = s.pool.workers.length)
    (h : s.pool.running.length < s.pool.held.length) : Lighter P root s := by
  obtain ⟨i, w, hi, hlt⟩ : ∃ (i : ℕ) (w : Worker (CoroutineJob σ)), s.pool.workers[i]? = some w ∧
      w.running.length < w.held.length := by
    by_contra hall
    push Not at hall
    rw [ThreadPool.held, ThreadPool.running, List.length_flatMap, List.length_flatMap] at h
    refine absurd (List.sum_le_sum fun w hw => ?_) (Nat.not_le_of_lt h)
    obtain ⟨i, hi⟩ := List.getElem?_of_mem hw
    exact hall i w hi
  cases w with
  | holding job =>
    exact lighter_pool hf ht (.enter i) rfl (by simp only [ThreadPool.step, hi]; rfl)
      (ThreadPool.weight_worker hi (by simp [Worker.weight]) _)
  | entered job =>
    obtain ⟨a, ha⟩ : ∃ a, s.activities[i]? = some a :=
      ⟨_, List.getElem?_eq_getElem (hw ▸ (List.getElem?_eq_some_iff.1 hi).1)⟩
    refine ⟨.invoke i, { s with
      pool := { s.pool with
        workers := s.pool.workers.set i (.executing job)
        invoked := s.pool.invoked ++ [job] }
      activities := s.activities.set i (Activity.ofJob job.func) }, ?_, ?_⟩
    · rw [step_live hf ht]
      simp only [Process.stepLive, ThreadPool.step, hi, Option.map_some]
    · have h₁ := Table.sum_map_set hi (.executing job) Worker.weight
      have h₂ := Table.sum_map_set ha (Activity.ofJob job.func) Activity.weight
      have h₃ : (Activity.ofJob job.func).weight ≤ 5 := by
        rcases job.func with _ | coro | handle <;> simp [Activity.ofJob, Activity.weight]
      simp only [Process.weight, ThreadPool.weight]
      simp only [Worker.weight] at h₁
      omega
  | ready | asleep | executing | leaving | exited =>
    simp [Worker.running, Worker.held] at hlt

/-- The job is in the heap: the timer thread comes to it, and the clock to its time. -/
theorem lighter_of_heap (hr : Ready s) (hc : s.pool.Conserved) (hcalling : s.pool.calling = [])
    {job : ScheduledJob (CoroutineJob σ)} (hjobs : s.timers.jobs = [job])
    (hfree : s.timers.thread.inFlight = []) : Lighter P root s := by
  cases hthread : s.timers.thread with
  | testing =>
    obtain ⟨c, hp⟩ : ∃ c, s.pool.producers[(0 : ℕ)]? = some c :=
      ⟨_, List.getElem?_eq_getElem (by rw [hr.producers_length]; decide)⟩
    cases c with
    | idle =>
      refine ⟨.timers .test, { s with timers := { s.timers with thread := .locking } }, ?_, ?_⟩
      · rw [step_live hf ht]
        simp only [Process.stepLive, hp, Scheduler.step, hthread, hr.running, if_true,
          Option.map_some]
      · simp only [Process.weight, Scheduler.weight, hthread, TimerThread.weight]
        omega
    | indexed job' index =>
      have hmem : job' ∈ s.pool.calling :=
        List.mem_flatMap.2 ⟨_, List.mem_of_getElem? hp, List.mem_singleton_self job'⟩
      rw [hcalling] at hmem
      cases hmem
    | pushed =>
      exact lighter_pool hf ht (.notify 0) rfl (by simp only [ThreadPool.step, hp])
        (ThreadPool.weight_notify hp)
    | faulted => exact absurd (List.mem_of_getElem? hp) hc.faulted
  | locking =>
    by_cases hdue : job.executeTime ≤ s.timers.clock
    · refine lighter_timers hf ht (.lock 0)
        { s.timers with jobs := [], thread := .popped job } rfl ?_ ?_
      · simp [Scheduler.step, hthread, Scheduler.lock, hjobs, Scheduler.isTop,
          ScheduledJob.greater, hdue]
      · simp [Scheduler.weight, hthread, TimerThread.weight, hjobs, ScheduledJob.weight, hdue]
        omega
    · refine lighter_timers hf ht (.tick job.executeTime)
        { s.timers with clock := job.executeTime } rfl ?_ ?_
      · exact if_pos (Int.le_of_not_le hdue)
      · simp [Scheduler.weight, hjobs, ScheduledJob.weight, hdue]
  | waiting =>
    exact lighter_timers hf ht .wake _ rfl (by simp only [Scheduler.step, hthread]; rfl)
      (Scheduler.weight_thread (by rw [hthread]; simp [TimerThread.weight]))
  | woken =>
    refine lighter_timers hf ht .relock { s.timers with thread := .testing } rfl ?_
      (Scheduler.weight_thread (by rw [hthread]; simp [TimerThread.weight]))
    simp [Scheduler.step, hthread, hjobs]
  | waitingUntil time =>
    exact lighter_timers hf ht .wake _ rfl (by simp only [Scheduler.step, hthread]; rfl)
      (Scheduler.weight_thread (by rw [hthread]; simp [TimerThread.weight]))
  | popped job' =>
    rw [hthread] at hfree
    cases hfree
  | exited => exact absurd hthread hr.thread

/-- A worker that executes a job, and is passive, is on its way out of it. -/
theorem lighter_of_passive (hr : Ready s) (hlen : i < s.timers.submitters.length)
    (hpending : s.timers.pending = []) {job : ThreadPoolJob (CoroutineJob σ)}
    (hw : s.pool.workers[i]? = some (.executing job)) {a : Activity σ}
    (ha : s.activities[i]? = some a) (hpassive : a.passive = true) : Lighter P root s := by
  have hbusy := hr.working i _ a hw ha
  cases a with
  | idle => cases hbusy
  | starting | resuming | inBody => cases hpassive
  | inTimer =>
    obtain ⟨u, hu⟩ : ∃ u, s.timers.submitters[i]? = some u := ⟨_, List.getElem?_eq_getElem hlen⟩
    cases u with
    | idle =>
      have hs : s.execute P i = some (s.setActivity i (.ending .returned)) := by
        simp only [Process.execute, ha, hu]
      exact lighter_activity hf ht (.ending .returned) hs ha (by simp [Activity.weight]) rfl rfl
        rfl rfl
    | calling job' =>
      have hmem : job' ∈ s.timers.pending :=
        List.mem_flatMap.2 ⟨_, List.mem_of_getElem? hu, List.mem_singleton_self job'⟩
      rw [hpending] at hmem
      cases hmem
    | pushed =>
      exact lighter_timers hf ht (.notify i) _ rfl (by simp only [Scheduler.step, hu])
        (Scheduler.weight_notify hu)
  | ending outcome =>
    refine ⟨.finish i, { s with
      pool := { s.pool with
        workers := s.pool.workers.set i .leaving
        finished := s.pool.finished ++ [job] }
      activities := s.activities.set i .idle }, ?_, ?_⟩
    · rw [step_live hf ht]
      simp only [Process.stepLive, ha, ThreadPool.step, hw, Option.map_some]
    · have h₁ := Table.sum_map_set hw .leaving Worker.weight
      have h₂ := Table.sum_map_set ha .idle Activity.weight
      simp only [Process.weight, ThreadPool.weight]
      simp only [Worker.weight, Activity.weight] at h₁ h₂
      omega

/-- The job is in a deque: the worker of that deque comes back for it. -/
theorem lighter_of_stack (hr : Ready s) (hc : s.pool.Conserved)
    (hact : s.activities.length = s.pool.workers.length) (hquiet : Quiet s.activities none)
    (hpending : s.timers.pending = []) (hheld : s.pool.held.length = s.pool.running.length)
    (h : 0 < s.pool.jobStack.flatten.length) : Lighter P root s := by
  obtain ⟨job, hjob⟩ := List.exists_mem_of_length_pos h
  obtain ⟨jobs, hmem, hjobs⟩ := List.mem_flatten.1 hjob
  obtain ⟨i, hi⟩ := List.getElem?_of_mem hmem
  have hlt : i < s.pool.workers.length := by
    rw [hc.workers_length, ← hc.jobStack_length]
    exact (List.getElem?_eq_some_iff.1 hi).1
  obtain ⟨w, hw⟩ : ∃ w, s.pool.workers[i]? = some w := ⟨_, List.getElem?_eq_getElem hlt⟩
  cases w with
  | ready =>
    obtain ⟨front, rest, rfl⟩ := List.exists_cons_of_ne_nil (List.ne_nil_of_mem hjobs)
    exact lighter_pool hf ht (.lock i) rfl (by simp only [ThreadPool.step, hw])
      (ThreadPool.weight_lock hc.acceptJobs hw hi)
  | asleep =>
    exact lighter_pool hf ht (.wake i) rfl (by simp only [ThreadPool.step, hw]; rfl)
      (ThreadPool.weight_worker hw (by simp [Worker.weight]) _)
  | holding job' | entered job' =>
    have := running_of_held hheld hw
    simp [Worker.held, Worker.running] at this
  | leaving =>
    exact lighter_pool hf ht (.leave i) rfl (by simp only [ThreadPool.step, hw]; rfl)
      (ThreadPool.weight_worker hw (by simp [Worker.weight]) _)
  | exited =>
    have := hr.workers i _ hw
    cases this
  | executing job' =>
    obtain ⟨a, ha⟩ : ∃ a, s.activities[i]? = some a := ⟨_, List.getElem?_eq_getElem (hact ▸ hlt)⟩
    exact lighter_of_passive hf ht hr (by rwa [hr.submitters_length, ← hc.workers_length]) hpending
      hw ha (hquiet i a ha (by simp))

end

/-- While a job is on its way, some thread moves it, or moves out of its way. -/
theorem exists_deliver {j : CoroutineJob σ} (h : Holds root s (.job j)) (hr : Ready s)
    (ht : s.terminated = false) : Lighter P root s := by
  have hf := h.faulted
  have hc := h.accounts.conserved
  have hlen := owes_length h.accounts h.owes
  simp only [Holder.jobs, List.length_singleton] at hlen
  have hact : s.activities.length = s.pool.workers.length := by
    rw [h.activities_length, hc.workers_length]
  have hheld := running_le_held s.pool
  by_cases h₁ : 0 < s.timers.pending.length
  · exact lighter_of_pending hf ht h₁
  by_cases h₂ : 0 < s.pool.calling.length
  · exact lighter_of_calling hf ht hc h₂
  by_cases h₃ : 0 < s.timers.thread.inFlight.length
  · exact lighter_of_inFlight hf ht hr h.accounts.jobStack_length h₃
  by_cases h₄ : s.pool.running.length < s.pool.held.length
  · exact lighter_of_held hf ht hact h₄
  by_cases h₅ : 0 < s.pool.jobStack.flatten.length
  · exact lighter_of_stack hf ht hr hc hact h.active (List.eq_nil_of_length_eq_zero (by omega))
      (by omega) h₅
  · obtain ⟨job, hjob⟩ := List.length_eq_one_iff.1 (show s.timers.jobs.length = 1 by omega)
    exact lighter_of_heap hf ht hr hc (List.eq_nil_of_length_eq_zero (by omega)) hjob
      (List.eq_nil_of_length_eq_zero (by omega))

/-! ## The next configuration -/

variable {c : Config σ Fx V E}

/-- The body on top can take its step, since its worker is not in `execute_after`. -/
theorem exists_runBody (hr : Ready s) (hlen : s.activities.length = s.pool.allocatedThreadCount.toNat)
    {t : ℕ} (ha : s.activities[i]? = some (.inBody t)) (b : σ) :
    ∃ s', s.runBody P i t b = some s' := by
  unfold Process.runBody
  cases P.next b with
  | sleep ms rest =>
    have hlt : i < s.timers.submitters.length := by
      rw [hr.submitters_length, ← hlen]
      exact (List.getElem?_eq_some_iff.1 ha).1
    have hidle := hr.sleeping i _ _ (List.getElem?_eq_getElem hlt) ha nofun
    have hu : s.timers.submitters[i]? = some .idle := (List.getElem?_eq_getElem hlt).trans
      (congrArg some hidle)
    simp only [Scheduler.step, hu]
    exact ⟨_, rfl⟩
  | effect | task | drop | await | ret | throw => exact ⟨_, rfl⟩

/-- Before the plain execution has ended, some step makes the weight smaller or comes to the next
configuration. -/
theorem exists_next (h : Sound root s c) (hr : Ready s) (ht : s.terminated = false)
    (hc : (P.step c).control ≠ .misuse) (hend : ∀ r m, c ≠ ⟨.done r, [], m⟩) :
    Lighter P root s ∨ ∃ l s', s.step P root l = some s' ∧ Sound root s' (P.step c) := by
  obtain ⟨holder, hh, hp⟩ := h
  have hf := hh.faulted
  cases hp with
  | fresh hcalled hn =>
    have hproducer := hr.caller hcalled
    refine .inl ⟨.call, { s with
      pool := s.pool.queueJob 1 (some (.asyncRun root))
      called := true }, ?_, ?_⟩
    · rw [step_live hf ht]
      simp [Process.stepLive, hcalled, ThreadPool.step, hproducer]
    · have := Table.sum_map_set hproducer (.indexed ⟨some (.asyncRun root), s.pool.called.length⟩
        (s.pool.nextQueue.toNat % s.pool.jobStack.length)) Producer.weight
      rw [ThreadPool.queueJob, if_neg hh.accounts.jobStack_length]
      simp only [Process.weight, ThreadPool.weight, hcalled]
      simp only [Producer.weight] at this
      simp only [if_true, Bool.false_eq_true, if_false]
      omega
  | queued hcalled hn => exact .inl (exists_deliver hh hr ht)
  | sleeping hl hfr hpoint hclean => exact .inl (exists_deliver hh hr ht)
  | @starting i hcalled hn =>
    have ha := hh.active.1
    have hs : s.execute P i = some (s.asyncRun i root) := by simp only [Process.execute, ha]
    exact .inl (lighter_activity hf ht (.resuming (.task s.frames.length)) hs ha
      (by simp [Activity.weight]) rfl rfl rfl rfl)
  | @resuming i b stack m f hl hfr hpoint hclean =>
    have ha := hh.active.1
    have hs : s.execute P i = some (s.resume P i (.task (top stack))) := by
      simp only [Process.execute, ha]
    refine .inl (lighter_activity hf ht (.inBody (top stack)) hs ha (by simp [Activity.weight])
      ?_ ?_ ?_ ?_) <;>
      rcases hpoint with hpoint | hpoint <;>
        simp only [Process.resume, hfr, Option.map_some, hpoint] <;> rfl
  | @running i b stack m f hl hfr hpoint hclean =>
    have ha := hh.active.1
    obtain ⟨s', hs⟩ := exists_runBody (P := P) hr hh.activities_length ha b
    refine .inr ⟨.execute i, s', ?_, Sound.runBody hh hl hfr hpoint hclean hs hc⟩
    rw [step_live hf ht]
    simp only [Process.stepLive, Process.execute, ha, hfr, Option.map_some, hpoint]
    exact hs
  | @returning i r stack m f hl hfr hpoint hres =>
    have ha := hh.active.1
    cases stack with
    | nil => exact absurd rfl (hend r m)
    | cons entry stack =>
      obtain ⟨t, rest⟩ := entry
      obtain ⟨f', hf', hcont⟩ := hl.tree.linked.1
      cases hfr.symm.trans hf'
      rw [hcont] at hh ha
      refine .inr ⟨.execute i, s.resume P i (.task (top stack)), ?_,
        Sound.leave hh hl hfr hpoint hres⟩
      rw [step_live hf ht]
      simp only [Process.stepLive, Process.execute, ha]
  | completed => exact absurd rfl (hend _ _)
  | terminated hterm =>
    rw [hterm] at ht
    cases ht

/-- The threads can bring the execution on to the next configuration. -/
theorem exists_advance (h : Sound root s c) (hr : Ready s) (hc : (P.step c).control ≠ .misuse) :
    ∃ s', Steps (Process.step P root) s s' ∧ Sound root s' (P.step c) ∧ Ready s' := by
  by_cases hend : ∃ r m, c = ⟨.done r, [], m⟩
  · obtain ⟨r, m, rfl⟩ := hend
    exact ⟨s, .refl s, h, hr⟩
  have hne : ∀ r m, c ≠ ⟨.done r, [], m⟩ := fun r m e => hend ⟨r, m, e⟩
  -- on the weight: the steps that leave the configuration where it is make it smaller
  induction hw : s.weight using Nat.strong_induction_on generalizing s with
  | _ w ih =>
    have ht : s.terminated = false := by
      rcases h.cases with ⟨hn, -⟩ | ⟨stack, hl⟩ | ⟨v, m, hend, -⟩ | ⟨e, m, hend, -⟩
      · exact hn.terminated
      · exact hl.terminated
      · exact absurd hend (hne _ _)
      · exact absurd hend (hne _ _)
    have hready : ∀ {l s'}, s.step P root l = some s' → Ready s' := fun hs => by
      obtain ⟨holder, hh, -⟩ := h
      exact hr.step hh.accounts.conserved hs
    rcases exists_next h hr ht hc hne with ⟨l, s₁, hs, hlt⟩ | ⟨l, s₁, hs, h₁⟩
    · rcases h.step hs hc with h₁ | h₁
      · obtain ⟨s', hsteps, h', hr'⟩ := ih s₁.weight (hw ▸ hlt) h₁ (hready hs) rfl
        exact ⟨s', .head hs hsteps, h', hr'⟩
      · exact ⟨s₁, .single hs, h₁, hready hs⟩
    · exact ⟨s₁, .single hs, h₁, hready hs⟩

/-- The functor has completed, or the process was terminated. -/
def Process.Ended (s : Process σ Fx V E) : Prop := s.asyncTask = .destroyed ∨ s.terminated = true

/-- When the plain execution has ended, one more step may be needed to end the functor. -/
theorem exists_end {r : Completion V E} {m : Memory σ Fx V E} (h : Sound root s ⟨.done r, [], m⟩) :
    ∃ s', Steps (Process.step P root) s s' ∧ Sound root s' ⟨.done r, [], m⟩ ∧ s'.Ended := by
  have hsound := h
  obtain ⟨holder, hh, hp⟩ := h
  cases hp with
  | @returning i _ _ _ f hl hfr hpoint hres =>
    have ha := hh.active.1
    obtain ⟨f', hf', hcont⟩ := hl.tree.linked
    cases hfr.symm.trans hf'
    rw [hcont] at hh ha
    have hresume := awaitResume_eq (P := P) (t := 0) hfr hpoint hres
    refine ⟨s.resume P i .asyncTask, .single (l := .execute i) ?_,
      Sound.rootEnds hh hl hfr hpoint hres, ?_⟩
    · rw [step_live hh.faulted hl.terminated]
      simp only [Process.stepLive, Process.execute, ha]
    · simp only [Process.resume, hl.asyncTask, hresume]
      cases r with
      | value v => exact .inl rfl
      | exception e => exact .inr rfl
  | completed _ _ hasync => exact ⟨s, .refl s, hsound, .inl hasync⟩
  | terminated hterm => exact ⟨s, .refl s, hsound, .inr hterm⟩

end

/-! ## Every run -/

section

variable {P : Program σ Fx V E} {root : σ} {s : Process σ Fx V E} {n nextQueue : BitVec 64}
  {clock : TimePoint}

theorem ready_of_reachable (hn : 0 < n.toNat) (hw : P.WellUsed root)
    (h : Reachable (Process.step P root) (.new n nextQueue clock) s) : Ready s := by
  obtain ⟨ls, hls⟩ := h
  have key : Reachable (Process.step P root) (.new n nextQueue clock) s ∧ Ready s := by
    refine run_induction (P := fun _ s =>
      Reachable (Process.step P root) (.new n nextQueue clock) s ∧ Ready s) ⟨.refl _, ready_new⟩
      (fun _ s l s' ⟨hreach, hr⟩ hs => ?_) hls
    obtain ⟨k, holder, hh, -⟩ := sound_of_reachable hn hw hreach
    exact ⟨hreach.tail hs, hr.step hh.accounts.conserved hs⟩
  exact key.2

/-- From every state the threads can bring the execution on to every later configuration. -/
theorem exists_sound_after (hw : P.WellUsed root) {k : ℕ} (h : Sound root s (P.after root k))
    (hr : Ready s) (j : ℕ) :
    ∃ s', Steps (Process.step P root) s s' ∧ Sound root s' (P.after root (k + j)) ∧ Ready s' := by
  induction j with
  | zero => exact ⟨s, .refl s, h, hr⟩
  | succ j ih =>
    obtain ⟨s₁, hsteps, h₁, hr₁⟩ := ih
    have hnext := Program.after_succ P root (k + j)
    obtain ⟨s', hsteps', h', hr'⟩ := exists_advance h₁ hr₁ (hnext ▸ hw.control_ne (k + j + 1))
    exact ⟨s', hsteps.trans hsteps', by rwa [← Nat.add_assoc, hnext], hr'⟩

/-- When the plain execution ends, the threads can bring the execution on to its end. -/
theorem exists_sound_done {k j : ℕ} {r : Completion V E} {m : Memory σ Fx V E}
    (h : Sound root s (P.after root k)) (hr : Ready s) (hrun : P.run root j = .done r m) :
    ∃ s', Steps (Process.step P root) s s' ∧ Sound root s' ⟨.done r, [], m⟩ ∧ Ready s' := by
  obtain ⟨i, hi⟩ := Program.after_of_run hrun
  obtain ⟨s', hsteps, h', hr'⟩ := exists_sound_after (Program.wellUsed_of_run hrun) h hr i
  have hend : P.after root (k + i) = ⟨.done r, [], m⟩ := by
    rw [← hi]
    exact Program.iterate_eq (by rw [← Program.after, hi, Program.step_done])
      (Nat.le_add_left i k)
  exact ⟨s', hsteps, hend ▸ h', hr'⟩

end

end EllohimMQ
