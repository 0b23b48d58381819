import EllohimMQ.Model.Coroutine
import EllohimMQ.Proof.PoolJobs
import EllohimMQ.Proof.Timers

/-!
# The jobs of one root

The jobs that were ever asked for are the one that starts the root and one for each sleep.  `Owes`
lists those that no worker has invoked yet.  Neither the pool nor the timer thread changes this list,
because both conserve their jobs (`Conserved`, `Timely`); it grows with a sleep, and it loses the job
that a worker invokes.
-/

namespace EllohimMQ

open Transition

namespace ThreadPool

variable {F : Type} {s s' : ThreadPool F} {l : PoolStep F}

section

variable (s : ThreadPool F) (p i index : ℕ) (job : ThreadPoolJob F)

@[simp] theorem push_called : (s.push p job index).called = s.called := by
  unfold push
  split <;> rfl

@[simp] theorem push_invoked : (s.push p job index).invoked = s.invoked := by
  unfold push
  split <;> rfl

@[simp] theorem lock_called : (s.lock i).called = s.called := by
  unfold lock
  split_ifs <;> rfl

@[simp] theorem lock_invoked : (s.lock i).invoked = s.invoked := by
  unfold lock
  split_ifs <;> rfl

end

/-- An internal step makes and begins no job. -/
theorem step_internal (hl : l.internal = true) (h : s.step l = some s') :
    s'.called = s.called ∧ s'.invoked = s.invoked ∧ s'.destroyer = s.destroyer := by
  cases step_cases h with
  | push | notify | lock | wake | enter | leave => simp
  | queueJob | invoke | finish | destroyStop | destroyNotify | destroyClear => cases hl

theorem step_queueJob {p : ℕ} {func : F} (hlen : s.jobStack.length ≠ 0)
    (h : s.step (.queueJob p (some func)) = some s') :
    s'.called = s.called ++ [⟨some func, s.called.length⟩] ∧ s'.invoked = s.invoked ∧
      s'.destroyer = s.destroyer := by
  cases step_cases h with
  | queueJob _ hp =>
    rw [queueJob, if_neg hlen]
    exact ⟨rfl, rfl, rfl⟩

theorem step_invoke {i : ℕ} {job : ThreadPoolJob F} (hw : s.workers[i]? = some (.entered job))
    (h : s.step (.invoke i) = some s') :
    s'.called = s.called ∧ s'.invoked = s.invoked ++ [job] ∧ s'.destroyer = s.destroyer := by
  cases step_cases h with
  | invoke hw' =>
    rw [hw] at hw'
    cases hw'
    exact ⟨rfl, rfl, rfl⟩

theorem step_finish {i : ℕ} {outcome : Outcome} (h : s.step (.finish i outcome) = some s') :
    s'.called = s.called ∧ s'.invoked = s.invoked ∧ s'.destroyer = s.destroyer := by
  cases step_cases h with
  | finish => exact ⟨rfl, rfl, rfl⟩

open Classical in
/-- What was invoked was asked for, and as often. -/
theorem Conserved.invoked_subperm (h : s.Conserved) : s.invoked.Subperm s.called := by
  rw [List.subperm_ext_iff]
  intro job _
  have hi := h.invoked.count_eq job
  have hp := h.places.count_eq job
  have hc := h.called.count_eq job
  have hle : s.running.count job ≤ s.held.count job := by
    simp only [running, held, List.count_flatMap]
    refine List.sum_le_sum fun w _ => ?_
    cases w <;> simp [Worker.running, Worker.held]
  simp only [List.count_append] at hi hp hc
  omega

end ThreadPool

namespace Scheduler

variable {F : Type} {s s' : Scheduler F} {l : SchedulerStep F}

/-- An internal step submits no job and passes none on. -/
theorem step_internal (hl : l.internal = true ∨ l = .test) (h : s.step l = some s') :
    s'.called = s.called ∧ s'.passed = s.passed := by
  cases step_cases h with
  | tick | push | notify | test | empty | pop | waitUntil | wake | wakeUntil | relock =>
    exact ⟨rfl, rfl⟩
  | executeAt | executeAfter | pass | destroyStop | destroyNotify | destroyJoin =>
    rcases hl with hl | hl <;> cases hl

theorem step_pass {job : ScheduledJob F} (ht : s.thread = .popped job)
    (h : s.step .pass = some s') :
    s'.called = s.called ∧ s'.passed = s.passed ++ [job] := by
  cases step_cases h with
  | pass ht' =>
    rw [ht] at ht'
    cases ht'
    exact ⟨rfl, rfl⟩

theorem step_executeAfter {p : ℕ} {ms : ℤ} {func : Option F}
    (h : s.step (.executeAfter p ms func) = some s') :
    ∃ time, s'.called = s.called ++ [⟨time, func, s.called.length⟩] ∧ s'.passed = s.passed := by
  simp only [step] at h
  split at h
  · obtain rfl := Option.some.inj h
    exact ⟨_, rfl, rfl⟩
  · cases h

theorem Timely.passed_subperm (h : s.Timely) : s.passed.Subperm s.called :=
  (List.sublist_append_right ..).subperm.trans <| h.places.symm.subperm.trans <|
    (List.sublist_append_right ..).subperm.trans h.called.symm.subperm

end Scheduler

variable {σ : Type}

/-- The job that starts the root, once it was asked for. -/
def rootJob (root : σ) (called : Bool) : List (Option (CoroutineJob σ)) :=
  if called then [some (.asyncRun root)] else []

/-- The jobs that were asked for are those that were invoked and the ones in `jobs`. -/
def Owes (root : σ) (called : Bool) (pool : ThreadPool (CoroutineJob σ))
    (timers : Scheduler (CoroutineJob σ)) (jobs : List (CoroutineJob σ)) : Prop :=
  (rootJob root called ++ timers.called.map ScheduledJob.func).Perm
    (pool.invoked.map ThreadPoolJob.func ++ jobs.map some)

/-- The job that a worker has taken and not invoked. -/
def Worker.taken {F : Type} : Worker F → List (ThreadPoolJob F)
  | .holding job => [job]
  | .entered job => [job]
  | _ => []

/-- The functions of the jobs between `execute_after` or `queue_job` and `std::invoke`. -/
def onTheWay (pool : ThreadPool (CoroutineJob σ)) (timers : Scheduler (CoroutineJob σ)) :
    List (Option (CoroutineJob σ)) :=
  (timers.pending ++ timers.jobs ++ timers.thread.inFlight).map ScheduledJob.func ++
    (pool.calling ++ pool.jobStack.flatten ++ pool.workers.flatMap Worker.taken).map
      ThreadPoolJob.func

/-- The pool and the timer thread conserve their jobs, and the pool got its jobs from the caller of
the consumer and from the timer thread. -/
structure Accounts (root : σ) (called : Bool) (pool : ThreadPool (CoroutineJob σ))
    (timers : Scheduler (CoroutineJob σ)) : Prop where
  threads : 0 < pool.allocatedThreadCount.toNat
  destroyer : pool.destroyer = .notCalled
  conserved : pool.Conserved
  timely : timers.Timely
  funcs : ∀ job : ScheduledJob (CoroutineJob σ), job ∈ timers.called → job.func.isSome
  linked : (pool.called.map ThreadPoolJob.func).Perm
    (rootJob root called ++ timers.passed.map ScheduledJob.func)

theorem accounts_new {root : σ} {n nextQueue : BitVec 64} {clock : TimePoint} {k : ℕ}
    (hn : 0 < n.toNat) :
    Accounts root false (.new n nextQueue 2) (.init clock k) where
  threads := hn
  destroyer := rfl
  conserved := ThreadPool.conserved_new ..
  timely := Scheduler.timely_init ..
  funcs _ h := by cases h
  linked := .refl []

namespace Accounts

variable {root : σ} {called : Bool} {pool pool' : ThreadPool (CoroutineJob σ)}
  {timers timers' : Scheduler (CoroutineJob σ)} {jobs : List (CoroutineJob σ)}

theorem jobStack_length (h : Accounts root called pool timers) : pool.jobStack.length ≠ 0 := by
  rw [h.conserved.jobStack_length]
  exact Nat.ne_of_gt h.threads

open Classical in
/-- What is owed is on its way, once each. -/
theorem onTheWay_perm (h : Accounts root called pool timers)
    (ho : Owes root called pool timers jobs) : (onTheWay pool timers).Perm (jobs.map some) := by
  have hheld : ∀ x, (pool.held.map ThreadPoolJob.func).count x =
      ((pool.workers.flatMap Worker.taken).map ThreadPoolJob.func).count x +
        (pool.running.map ThreadPoolJob.func).count x := fun x => by
    simp only [ThreadPool.held, ThreadPool.running, List.map_flatMap, List.count_flatMap]
    rw [← List.sum_map_add]
    congr 2
    funext w
    cases w <;> simp [Worker.held, Worker.taken, Worker.running]
  refine List.perm_iff_count.2 fun x => ?_
  have h₁ := ho.count_eq x
  have h₂ := h.linked.count_eq x
  have h₃ := (h.timely.called.map ScheduledJob.func).count_eq x
  have h₄ := (h.timely.places.map ScheduledJob.func).count_eq x
  have h₅ := (h.conserved.called.map ThreadPoolJob.func).count_eq x
  have h₆ := (h.conserved.places.map ThreadPoolJob.func).count_eq x
  have h₇ := (h.conserved.invoked.map ThreadPoolJob.func).count_eq x
  have h₈ := hheld x
  simp only [onTheWay, List.map_append, List.count_append] at h₁ h₂ h₃ h₄ h₅ h₆ h₇ ⊢
  omega

/-- A step of the pool keeps its part of the accounts. -/
theorem ofPool (h : Accounts root called pool timers) {l : PoolStep (CoroutineJob σ)}
    (hs : pool.step l = some pool') (hd : pool'.destroyer = pool.destroyer) (called' : Bool)
    (ht : timers'.Timely) (hf : ∀ job : ScheduledJob (CoroutineJob σ), job ∈ timers'.called → job.func.isSome)
    (hl : (pool'.called.map ThreadPoolJob.func).Perm
      (rootJob root called' ++ timers'.passed.map ScheduledJob.func)) :
    Accounts root called' pool' timers' where
  threads := by
    rw [ThreadPool.step_allocatedThreadCount hs]
    exact h.threads
  destroyer := hd.trans h.destroyer
  conserved := h.conserved.step h.threads hs (hd.trans h.destroyer)
  timely := ht
  funcs := hf
  linked := hl

/-- The consumer is called. -/
theorem call (h : Accounts root false pool timers) (ho : Owes root false pool timers jobs)
    (hs : pool.step (.queueJob 1 (some (.asyncRun root))) = some pool') :
    Accounts root true pool' timers ∧ Owes root true pool' timers (.asyncRun root :: jobs) := by
  obtain ⟨hc, hi, hd⟩ := ThreadPool.step_queueJob h.jobStack_length hs
  refine ⟨h.ofPool hs hd true h.timely h.funcs ?_, ?_⟩
  · rw [hc, List.map_append]
    exact (h.linked.append_right _).trans List.perm_append_comm
  · rw [Owes, hi, List.map_cons]
    exact (ho.cons (some (.asyncRun root))).trans List.perm_middle.symm

theorem poolStep (h : Accounts root called pool timers) (ho : Owes root called pool timers jobs)
    {l : PoolStep (CoroutineJob σ)} (hl : l.internal = true) (hs : pool.step l = some pool') :
    Accounts root called pool' timers ∧ Owes root called pool' timers jobs := by
  obtain ⟨hc, hi, hd⟩ := ThreadPool.step_internal hl hs
  refine ⟨h.ofPool hs hd called h.timely h.funcs ?_, ?_⟩
  · rw [hc]
    exact h.linked
  · rw [Owes, hi]
    exact ho

theorem timersStep (h : Accounts root called pool timers) (ho : Owes root called pool timers jobs)
    {l : SchedulerStep (CoroutineJob σ)} (hl : l.internal = true ∨ l = .test)
    (hs : timers.step l = some timers') :
    Accounts root called pool timers' ∧ Owes root called pool timers' jobs := by
  obtain ⟨hc, hp⟩ := Scheduler.step_internal hl hs
  refine ⟨{ h with timely := h.timely.step hs, funcs := ?_, linked := ?_ }, ?_⟩
  · rw [hc]
    exact h.funcs
  · rw [hp]
    exact h.linked
  · rw [Owes, hc]
    exact ho

/-- The timer thread passes a job on to the pool. -/
theorem pass (h : Accounts root called pool timers) (ho : Owes root called pool timers jobs)
    {job : ScheduledJob (CoroutineJob σ)} (ht : timers.thread = .popped job)
    (hs : timers.step .pass = some timers')
    (hs' : pool.step (.queueJob 0 job.func) = some pool') :
    Accounts root called pool' timers' ∧ Owes root called pool' timers' jobs := by
  obtain ⟨htc, hp⟩ := Scheduler.step_pass ht hs
  have hmem : job ∈ timers.called := by
    have hjob : job ∈ timers.submitted := by
      refine h.timely.places.mem_iff.2 ?_
      simp [ht, TimerThread.inFlight]
    exact h.timely.called.mem_iff.2 (List.mem_append_right _ hjob)
  obtain ⟨func, hfunc⟩ := Option.isSome_iff_exists.1 (h.funcs job hmem)
  rw [hfunc] at hs'
  obtain ⟨hc, hi, hd⟩ := ThreadPool.step_queueJob h.jobStack_length hs'
  refine ⟨h.ofPool hs' hd called (h.timely.step hs) (htc ▸ h.funcs) ?_, ?_⟩
  · rw [hc, hp, List.map_append, List.map_append, ← List.append_assoc]
    simpa [hfunc] using h.linked.append_right [job.func]
  · rw [Owes, htc, hi]
    exact ho

/-- A worker invokes one of the jobs that are owed. -/
theorem invoke (h : Accounts root called pool timers) (ho : Owes root called pool timers jobs)
    {i : ℕ} {job : ThreadPoolJob (CoroutineJob σ)} (hw : pool.workers[i]? = some (.entered job))
    (hs : pool.step (.invoke i) = some pool') :
    Accounts root called pool' timers ∧ job.func ∈ jobs.map some ∧
      ∀ j jobs', jobs = j :: jobs' → job.func = some j → Owes root called pool' timers jobs' := by
  obtain ⟨hc, hi, hd⟩ := ThreadPool.step_invoke hw hs
  have hacc : Accounts root called pool' timers := by
    refine h.ofPool hs hd called h.timely h.funcs ?_
    rw [hc]
    exact h.linked
  refine ⟨hacc, ?_, ?_⟩
  · have hsub := hacc.conserved.invoked_subperm
    rw [hc, hi] at hsub
    have hcalled := (Table.subperm_map hsub ThreadPoolJob.func).trans h.linked.subperm
    have hpassed := Table.subperm_map h.timely.passed_subperm ScheduledJob.func
    rw [List.map_append] at hcalled
    have howed := hcalled.trans (((List.subperm_append_left _).2 hpassed).trans ho.subperm)
    exact List.singleton_subperm_iff.1 ((List.subperm_append_left _).1 howed)
  · rintro j jobs' rfl hj
    rw [Owes, hi, List.map_append, List.append_assoc]
    simpa [Owes, hj] using ho

theorem finish (h : Accounts root called pool timers) (ho : Owes root called pool timers jobs)
    {i : ℕ} {outcome : Outcome} (hs : pool.step (.finish i outcome) = some pool') :
    Accounts root called pool' timers ∧ Owes root called pool' timers jobs := by
  obtain ⟨hc, hi, hd⟩ := ThreadPool.step_finish hs
  refine ⟨h.ofPool hs hd called h.timely h.funcs ?_, ?_⟩
  · rw [hc]
    exact h.linked
  · rw [Owes, hi]
    exact ho

/-- A coroutine that sleeps asks for the job that resumes it. -/
theorem sleep (h : Accounts root called pool timers) (ho : Owes root called pool timers jobs)
    {i : ℕ} {ms : ℤ} {job : CoroutineJob σ}
    (hs : timers.step (.executeAfter i ms (some job)) = some timers') :
    Accounts root called pool timers' ∧ Owes root called pool timers' (job :: jobs) := by
  obtain ⟨time, hc, hp⟩ := Scheduler.step_executeAfter hs
  refine ⟨{ h with timely := h.timely.step hs, funcs := fun job' hjob' => ?_, linked := ?_ }, ?_⟩
  · rw [hc] at hjob'
    rcases List.mem_append.1 hjob' with hjob' | hjob'
    · exact h.funcs job' hjob'
    · rw [List.mem_singleton.1 hjob']
      rfl
  · rw [hp]
    exact h.linked
  · rw [Owes, hc, List.map_append, List.map_cons, ← List.append_assoc]
    exact (List.perm_append_singleton _ _).trans
      ((ho.cons (some job)).trans List.perm_middle.symm)

end Accounts

end EllohimMQ
