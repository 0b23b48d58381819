import Mathlib.Data.List.MinMax
import EllohimMQ.Proof.Timers

/-!
# Stopping the timer thread

`destroy_impl` sets `m_running` and notifies; the timer thread tests `m_running` before it takes the
lock, and of its two waits only the one on an empty heap tests it again.  So when the notification
comes between the test and the lock, and the heap then holds a job that is not due, the thread goes
to sleep until that job's time, and `join` waits with it.  `shutdown_iff` shows that this is the
only way for the thread to be in a wait after the notification.
-/

namespace EllohimMQ

open Transition

variable {F : Type}

/-- In one of the two waits on `m_cv`. -/
def TimerThread.waits : TimerThread F → Bool
  | .waiting => true
  | .waitingUntil _ => true
  | _ => false

/-- The beginning of a call of `execute_at` or `execute_after`. -/
def SchedulerStep.submits : SchedulerStep F → Bool
  | .executeAt _ _ _ => true
  | .executeAfter _ _ _ => true
  | _ => false

namespace Scheduler

/-- The timer thread has seen `m_running` set and not yet taken the lock, no job of the heap is due,
and the heap has a job or is about to be given one that is not due. -/
def Overtaken (s : Scheduler F) : Prop :=
  s.thread = .locking ∧ (∀ job ∈ s.jobs, s.clock < job.executeTime) ∧
    ∃ job ∈ s.jobs ++ s.pending, s.clock < job.executeTime

/-- From the notification on, without new jobs, the thread is in no wait. -/
def StopsPromptly (s : Scheduler F) : Prop :=
  ∀ ls s', (∀ l ∈ ls, SchedulerStep.submits l = false) →
    run step s (.destroyNotify :: ls) = some s' → s'.thread.waits = false

/-! ## After the notification -/

/-- What the notification and the steps after it keep. -/
structure Stopping (s : Scheduler F) : Prop where
  running : s.running = false
  waits : s.thread.waits = false
  due : s.thread = .locking → (∃ job ∈ s.jobs, job.executeTime ≤ s.clock) ∨
    ∀ job ∈ s.jobs ++ s.pending, job.executeTime ≤ s.clock

theorem isTop_iff {jobs : List (ScheduledJob F)} {job : ScheduledJob F} :
    isTop jobs job = true ↔ ∀ other ∈ jobs, job.executeTime ≤ other.executeTime := by
  simp [isTop, ScheduledJob.greater]

/-- A heap that is not empty has a top. -/
theorem exists_isTop {jobs : List (ScheduledJob F)} (h : jobs ≠ []) :
    ∃ (top : ℕ) (job : ScheduledJob F), jobs[top]? = some job ∧ isTop jobs job = true := by
  rcases hmin : jobs.argmin ScheduledJob.executeTime with _ | job
  · exact absurd (List.argmin_eq_none.1 hmin) h
  · obtain ⟨top, htop⟩ := List.getElem?_of_mem (List.argmin_mem hmin)
    exact ⟨top, job, htop, isTop_iff.2 fun other ho => List.le_of_mem_argmin ho hmin⟩

/-- After a push the job is out of the hands of its caller, and in the heap. -/
theorem mem_push_iff {s : Scheduler F} {p : ℕ} {job : ScheduledJob F}
    (hp : s.submitters[p]? = some (.calling job)) (other : ScheduledJob F) :
    other ∈ (job :: s.jobs) ++ (s.submitters.set p .pushed).flatMap Submitter.pending ↔
      other ∈ s.jobs ++ s.pending := by
  obtain ⟨rest, hl, hset⟩ := Table.exists_perm_set hp
  have hpending := (hl.flatMap_right Submitter.pending).mem_iff (a := other)
  have hpushed := ((hset .pushed).flatMap_right Submitter.pending).mem_iff (a := other)
  simp only [List.flatMap_cons, Submitter.pending, List.singleton_append, List.nil_append,
    List.mem_cons] at hpending hpushed
  simp only [List.cons_append, List.mem_cons, List.mem_append, hpushed, Scheduler.pending, hpending]
  tauto

theorem notified_of_waits {thread : TimerThread F} (h : thread.waits = false) :
    notified thread = thread := by
  cases thread <;> first | rfl | cases h

theorem waits_notified (thread : TimerThread F) : (notified thread).waits = false := by
  cases thread <;> rfl

/-- Of the timer thread's places the lock is the only one that `due` speaks of. -/
theorem Stopping.moveThread {s : Scheduler F} (h : s.Stopping) {thread : TimerThread F}
    (hwaits : thread.waits = false) (hthread : thread ≠ .locking) (jobs : List (ScheduledJob F))
    (passed : List (ScheduledJob F)) : ({ s with thread, jobs, passed } : Scheduler F).Stopping :=
  ⟨h.running, hwaits, fun ht => absurd ht hthread⟩

/-- When some job is due, the top of the heap is. -/
theorem Stopping.le_of_isTop {s : Scheduler F} (h : s.Stopping) (ht : s.thread = .locking)
    {job : ScheduledJob F} (hmem : job ∈ s.jobs) (htop : isTop s.jobs job = true) :
    job.executeTime ≤ s.clock := by
  obtain ⟨other, hother, hle⟩ | hall := h.due ht
  · exact (isTop_iff.1 htop other hother).trans hle
  · exact hall job (List.mem_append_left _ hmem)

theorem Stopping.step {s s' : Scheduler F} (h : s.Stopping) {l : SchedulerStep F}
    (hl : l.submits = false) (hs : s.step l = some s') : s'.Stopping := by
  have hrun := h.running
  cases step_cases hs with
  | tick hnow =>
    refine ⟨hrun, h.waits, fun ht =>
      (h.due ht).imp ?_ fun hall job hjob => (hall job hjob).trans hnow⟩
    rintro ⟨job, hjob, hle⟩
    exact ⟨job, hjob, hle.trans hnow⟩
  | executeAt | executeAfter => cases hl
  | push hp =>
    refine ⟨hrun, h.waits, fun ht => (h.due ht).imp ?_ fun hall other hother => ?_⟩
    · rintro ⟨other, hother, hle⟩
      exact ⟨other, List.mem_cons_of_mem _ hother, hle⟩
    · exact hall other ((mem_push_iff hp other).1 hother)
  | @notify p hp =>
    have hpending : (s.submitters.set p .idle).flatMap Submitter.pending ⊆ s.pending := by
      obtain ⟨rest, hl', hset⟩ := Table.exists_perm_set hp
      intro job hjob
      have hrest := ((hset .idle).flatMap_right Submitter.pending).mem_iff.1 hjob
      exact (hl'.flatMap_right Submitter.pending).mem_iff.2 hrest
    rw [notified_of_waits h.waits]
    refine ⟨hrun, h.waits, fun ht => (h.due ht).imp id fun hall job hjob => hall job ?_⟩
    exact List.mem_append.2 ((List.mem_append.1 hjob).imp id fun hm => hpending hm)
  | test | empty =>
    exact h.moveThread (by simp [hrun, TimerThread.waits]) (by simp [hrun]) s.jobs s.passed
  | pop => exact h.moveThread rfl (by simp) _ s.passed
  | waitUntil ht hjob htop hdue =>
    exact absurd (h.le_of_isTop ht (List.mem_of_getElem? hjob) htop) hdue
  | wake ht | wakeUntil ht => simpa [ht, TimerThread.waits] using h.waits
  | relock =>
    rw [if_pos (.inr hrun)]
    exact h.moveThread rfl (by simp) s.jobs s.passed
  | pass => exact h.moveThread rfl (by simp) s.jobs _
  | destroyStop => exact ⟨rfl, h.waits, h.due⟩
  | destroyNotify =>
    rw [notified_of_waits h.waits]
    exact ⟨hrun, h.waits, h.due⟩
  | destroyJoin => exact ⟨hrun, h.waits, h.due⟩

/-- The flag is cleared before the notification. -/
theorem running_of_stopped {clock : TimePoint} {k : ℕ} {s : Scheduler F}
    (h : Reachable step (init clock k) s) (hd : s.destroyer = .stopped) : s.running = false := by
  refine h.invariant (P := fun s => s.destroyer ≠ .notCalled → s.running = false) ?_ (by simp [init])
    (by simp [hd])
  rintro s l s' hP hs
  cases step_cases hs with
  | destroyStop => exact fun _ => rfl
  | destroyNotify hd => exact fun _ => hP (by simp [hd])
  | destroyJoin hd => exact fun _ => hP (by simp [hd])
  | _ => exact hP

/-- In the notification step the thread leaves its wait, if it is in one. -/
theorem stopping_destroyNotify {s : Scheduler F} (hrun : s.running = false)
    (h : ¬ s.Overtaken) :
    ({ s with thread := notified s.thread, destroyer := .joining } : Scheduler F).Stopping := by
  refine ⟨hrun, waits_notified _, fun ht => ?_⟩
  have hlocking : s.thread = .locking := by
    rcases hthread : s.thread <;> simp [hthread, notified] at ht ⊢
  by_contra hcon
  simp only [not_or, not_exists, not_and, not_forall, not_le] at hcon
  obtain ⟨hnone, job, hjob, hlt⟩ := hcon
  exact h ⟨hlocking, hnone, job, hjob, hlt⟩

/-- A thread that takes the lock while no job is due, and some job is there, goes to sleep. -/
theorem lock_of_not_due {s : Scheduler F} (hne : s.jobs ≠ [])
    (hlt : ∀ job ∈ s.jobs, s.clock < job.executeTime) :
    ∃ (top : ℕ) (job : ScheduledJob F),
      s.lock top = some { s with thread := .waitingUntil job.executeTime } := by
  obtain ⟨top, job, hjob, htop⟩ := exists_isTop hne
  have hdue : ¬ job.executeTime ≤ s.clock := not_le.2 (hlt job (List.mem_of_getElem? hjob))
  refine ⟨top, job, ?_⟩
  unfold Scheduler.lock
  split
  · next he => exact absurd he hne
  · simp only [hjob, if_pos htop, if_neg hdue]

theorem step_destroyNotify {s : Scheduler F} (hd : s.destroyer = .stopped) :
    s.step .destroyNotify =
      some { s with thread := notified s.thread, destroyer := .joining } := by
  simp [Scheduler.step, hd]

/-- The thread takes the lock and finds a job that is not due. -/
theorem Overtaken.waits {s : Scheduler F} (h : s.Overtaken) (hd : s.destroyer = .stopped) :
    ¬ s.StopsPromptly := by
  obtain ⟨hthread, hlt, job, hjob, hfuture⟩ := h
  intro hstops
  let s₁ : Scheduler F := { s with thread := .locking, destroyer := .joining }
  have hnotify : s.step .destroyNotify = some s₁ := by
    rw [step_destroyNotify hd, hthread]
    rfl
  by_cases hne : s.jobs = []
  · -- the job is pushed first
    rw [hne, List.nil_append] at hjob
    obtain ⟨submitter, hmem, hpending⟩ := List.mem_flatMap.1 hjob
    obtain ⟨p, hp⟩ := List.getElem?_of_mem hmem
    obtain rfl : submitter = .calling job := by
      cases submitter <;> simp [Submitter.pending] at hpending
      rw [hpending]
    let s₂ : Scheduler F := { s₁ with
      jobs := job :: s.jobs
      submitters := s.submitters.set p .pushed
      submitted := s.submitted ++ [job] }
    have hpush : s₁.step (.push p) = some s₂ := by simp [Scheduler.step, s₁, s₂, hp]
    have hlt₂ : ∀ job' ∈ s₂.jobs, s₂.clock < job'.executeTime := by simpa [s₂, hne] using hfuture
    obtain ⟨top, job', hlock⟩ := lock_of_not_due (s := s₂) (by simp [s₂]) hlt₂
    have hrun : run step s [.destroyNotify, .push p, .lock top] =
        some { s₂ with thread := .waitingUntil job'.executeTime } := by
      simp only [run_cons, hnotify, hpush, Option.bind_some, run_nil]
      exact congrArg (Option.bind · some) hlock
    exact absurd (hstops [.push p, .lock top] _ (by simp [SchedulerStep.submits]) hrun)
      (by simp [TimerThread.waits])
  · obtain ⟨top, job', hlock⟩ := lock_of_not_due (s := s₁) hne hlt
    have hrun : run step s [.destroyNotify, .lock top] =
        some { s₁ with thread := .waitingUntil job'.executeTime } := by
      simp only [run_cons, hnotify, Option.bind_some, run_nil]
      exact congrArg (Option.bind · some) hlock
    exact absurd (hstops [.lock top] _ (by simp [SchedulerStep.submits]) hrun)
      (by simp [TimerThread.waits])

/-- From the notification of `destroy_impl` on, with no further calls of `execute_at`, the timer
thread is in no wait, if and only if the notification does not come while the thread is between its
test of `m_running` and the lock, with a job in the heap, or about to enter it, and none due. -/
theorem shutdown_iff {clock : TimePoint} {k : ℕ} {s : Scheduler F}
    (h : Reachable step (init clock k) s) (hd : s.destroyer = .stopped) :
    s.StopsPromptly ↔ ¬ s.Overtaken := by
  refine ⟨fun hs ho => ho.waits hd hs, fun ho ls s' hls hrun => ?_⟩
  obtain ⟨s₁, hs₁, hrest⟩ := Option.bind_eq_some_iff.1 hrun
  obtain rfl := Option.some.inj ((step_destroyNotify hd).symm.trans hs₁)
  have hstopping := stopping_destroyNotify (running_of_stopped h hd) ho
  have hadm : ∀ s₁ : Scheduler F, Admissible step (fun _ l => SchedulerStep.submits l = false) s₁ ls :=
    admissible_of_forall fun _ => hls
  exact ((hadm _).invariant (fun _ _ _ hst hl hs => hst.step hl hs) hstopping hrest).waits

/-- The thread is asleep on an empty heap when it is told to stop. -/
theorem shutdown_iff_asleep :
    ∃ s : Scheduler ℕ, run step (init 0 1) [.test, .lock 0, .destroyStop] = some s ∧
      s.thread = .waiting ∧ s.StopsPromptly := by
  refine ⟨_, rfl, rfl, (shutdown_iff (k := 1) ⟨[.test, .lock 0, .destroyStop], rfl⟩ rfl).2 ?_⟩
  rintro ⟨hthread, -⟩
  cases hthread

/-- A job is due at time 10; at time 0 the thread tests `m_running`, is stopped and notified before
it takes the lock, and then goes to sleep until time 10. -/
theorem stop_missed :
    ∃ s s' : Scheduler ℕ, run step (init 0 1)
        [.executeAt 0 10 (some 7), .push 0, .notify 0, .test, .destroyStop] = some s ∧
      run step s [.destroyNotify, .lock 0] = some s' ∧ s'.thread = .waitingUntil 10 ∧
      ¬ s.StopsPromptly := by
  refine ⟨_, _, rfl, rfl, rfl, fun h => ?_⟩
  have hwaits := h [.lock 0] _ (by decide) rfl
  cases hwaits

end Scheduler

end EllohimMQ
