import Mathlib.Data.List.Nodup
import Mathlib.Data.List.Perm.Subperm
import EllohimMQ.Lib.Table
import EllohimMQ.Lib.Transition
import EllohimMQ.Model.Scheduler

/-!
# Jobs of the timer thread

Every job that entered the heap is in `m_jobs`, in the timer thread's hands between `pop` and
`queue_job`, or passed on (`Timely.places`).  The thread pops a job only in the section in which it
has compared the job's time with the clock, and the clock never goes back, so the job is still due
when it is passed on (`Timely.due`).

None of this needs the assumption that `destroy_impl` has not been called: it stops the thread, and
the jobs that are left stay in `m_jobs`.
-/

namespace EllohimMQ

open Transition

variable {F : Type}

/-- The job that the timer thread has popped and not passed on. -/
def TimerThread.inFlight : TimerThread F → List (ScheduledJob F)
  | .popped job => [job]
  | _ => []

/-- The job of a call of `execute_at` that has not entered the heap. -/
def Submitter.pending : Submitter F → List (ScheduledJob F)
  | .calling job => [job]
  | _ => []

namespace Scheduler

/-- The jobs that have not entered the heap. -/
def pending (s : Scheduler F) : List (ScheduledJob F) := s.submitters.flatMap Submitter.pending

theorem notified_inFlight (thread : TimerThread F) :
    (notified thread).inFlight = thread.inFlight := by
  cases thread <;> rfl

/-! ## What a step does -/

/-- The steps, with the place each starts from and the state it ends in: one constructor for each
branch of `step` and of `lock`. -/
inductive Moves (s : Scheduler F) : SchedulerStep F → Scheduler F → Prop
  | tick {now : TimePoint} (hnow : s.clock ≤ now) : Moves s (.tick now) { s with clock := now }
  | executeAt {p : ℕ} (time : TimePoint) (func : Option F) (hp : s.submitters[p]? = some .idle) :
    Moves s (.executeAt p time func) (s.executeAt p time func)
  | executeAfter {p : ℕ} (milliseconds : ℤ) (func : Option F)
    (hp : s.submitters[p]? = some .idle) :
    Moves s (.executeAfter p milliseconds func)
      (s.executeAt p (wrap (s.clock + wrap (milliseconds * 1000000))) func)
  | push {p : ℕ} {job : ScheduledJob F} (hp : s.submitters[p]? = some (.calling job)) :
    Moves s (.push p)
      { s with
        jobs := job :: s.jobs
        submitters := s.submitters.set p .pushed
        submitted := s.submitted ++ [job] }
  | notify {p : ℕ} (hp : s.submitters[p]? = some .pushed) :
    Moves s (.notify p)
      { s with thread := notified s.thread, submitters := s.submitters.set p .idle }
  | test (ht : s.thread = .testing) :
    Moves s .test { s with thread := if s.running then .locking else .exited }
  | empty {top : ℕ} (ht : s.thread = .locking) (hjobs : s.jobs = []) :
    Moves s (.lock top) { s with thread := if s.running then .waiting else .testing }
  | pop {top : ℕ} {job : ScheduledJob F} (ht : s.thread = .locking)
    (hjob : s.jobs[top]? = some job) (htop : isTop s.jobs job = true)
    (hdue : job.executeTime ≤ s.clock) :
    Moves s (.lock top) { s with jobs := s.jobs.eraseIdx top, thread := .popped job }
  | waitUntil {top : ℕ} {job : ScheduledJob F} (ht : s.thread = .locking)
    (hjob : s.jobs[top]? = some job) (htop : isTop s.jobs job = true)
    (hdue : ¬ job.executeTime ≤ s.clock) :
    Moves s (.lock top) { s with thread := .waitingUntil job.executeTime }
  | wake (ht : s.thread = .waiting) : Moves s .wake { s with thread := .woken }
  | wakeUntil {nextTime : TimePoint} (ht : s.thread = .waitingUntil nextTime) :
    Moves s .wake { s with thread := .testing }
  | relock (ht : s.thread = .woken) :
    Moves s .relock
      { s with
        thread := if s.jobs.isEmpty = false ∨ s.running = false then .testing else .waiting }
  | pass {job : ScheduledJob F} (ht : s.thread = .popped job) :
    Moves s .pass { s with thread := .testing, passed := s.passed ++ [job] }
  | destroyStop (hd : s.destroyer = .notCalled) :
    Moves s .destroyStop { s with running := false, destroyer := .stopped }
  | destroyNotify (hd : s.destroyer = .stopped) :
    Moves s .destroyNotify { s with thread := notified s.thread, destroyer := .joining }
  | destroyJoin (hd : s.destroyer = .joining) (ht : s.thread = .exited) :
    Moves s .destroyJoin { s with destroyer := .joined }

theorem lock_cases {s s' : Scheduler F} {top : ℕ} (ht : s.thread = .locking)
    (h : s.lock top = some s') : s.Moves (.lock top) s' := by
  unfold lock at h
  split at h
  · next hjobs => exact Option.some.inj h ▸ .empty ht hjobs
  · split at h
    · cases h
    next job hjob =>
      split_ifs at h with htop hdue
      · exact Option.some.inj h ▸ .pop ht hjob htop hdue
      · exact Option.some.inj h ▸ .waitUntil ht hjob htop hdue

theorem step_cases {s s' : Scheduler F} {l : SchedulerStep F} (h : s.step l = some s') :
    s.Moves l s' := by
  cases l <;> simp only [step] at h <;> split at h <;> try cases h
  · exact .tick ‹_›
  · exact .executeAt _ _ ‹_›
  · exact .executeAfter _ _ ‹_›
  · exact .push ‹_›
  · exact .notify ‹_›
  · exact .test ‹_›
  · next ht => exact lock_cases ht h
  · exact .wake ‹_›
  · exact .wakeUntil ‹_›
  · exact .relock ‹_›
  · exact .pass ‹_›
  · exact .destroyStop ‹_›
  · exact .destroyNotify ‹_›
  · exact .destroyJoin ‹_› ‹_›

/-! ## The invariant -/

/-- What all steps keep: each job is in one place, and the one in the hands of the timer thread is
due. -/
structure Timely (s : Scheduler F) : Prop where
  tickets : s.called.map ScheduledJob.ticket = List.range s.called.length
  called : s.called.Perm (s.pending ++ s.submitted)
  places : s.submitted.Perm (s.jobs ++ s.thread.inFlight ++ s.passed)
  due : ∀ job ∈ s.thread.inFlight, job.executeTime ≤ s.clock

theorem timely_init (clock : TimePoint) (k : ℕ) : (init clock k : Scheduler F).Timely where
  tickets := rfl
  called := by simp [init, pending, Submitter.pending]
  places := .refl []
  due _ hjob := by cases hjob

variable {s : Scheduler F}

theorem Timely.nodup_called (h : s.Timely) : s.called.Nodup :=
  List.Nodup.of_map ScheduledJob.ticket (h.tickets ▸ List.nodup_range)

theorem Timely.nodup_submitted (h : s.Timely) : s.submitted.Nodup :=
  (List.nodup_append.1 (h.called.nodup_iff.1 h.nodup_called)).2.1

/-- The popped job was not passed on before. -/
theorem Timely.notMem_passed (h : s.Timely) {job : ScheduledJob F} (ht : s.thread = .popped job) :
    job ∉ s.passed := by
  have hn := h.places.nodup_iff.1 h.nodup_submitted
  rw [List.nodup_append] at hn
  intro hmem
  exact hn.2.2 job (by simp [ht, TimerThread.inFlight]) job hmem rfl

open Classical in
theorem Timely.executeAt (h : s.Timely) {p : ℕ} (hp : s.submitters[p]? = some .idle)
    (time : TimePoint) (func : Option F) : (s.executeAt p time func).Timely := by
  refine { h with tickets := ?_, called := List.perm_iff_count.2 fun x => ?_ }
  · simp [Scheduler.executeAt, h.tickets, List.range_succ]
  · have hcalled := h.called.count_eq x
    have hset := Table.count_flatMap_set hp (.calling ⟨time, func, s.called.length⟩)
      Submitter.pending x
    simp only [Scheduler.executeAt, pending, Submitter.pending, List.count_append, List.count_nil]
      at hcalled hset ⊢
    omega

open Classical in
theorem Timely.push (h : s.Timely) {p : ℕ} {job : ScheduledJob F}
    (hp : s.submitters[p]? = some (.calling job)) :
    ({ s with
      jobs := job :: s.jobs
      submitters := s.submitters.set p .pushed
      submitted := s.submitted ++ [job] } : Scheduler F).Timely := by
  refine { h with
    called := List.perm_iff_count.2 fun x => ?_
    places := List.perm_iff_count.2 fun x => ?_ }
  · have hcalled := h.called.count_eq x
    have hset := Table.count_flatMap_set hp .pushed Submitter.pending x
    simp only [pending, Submitter.pending, List.count_append, List.count_nil] at hcalled hset ⊢
    omega
  · have hplaces := h.places.count_eq x
    simp only [List.count_append, List.count_cons, List.count_nil] at hplaces ⊢
    omega

theorem Timely.notify (h : s.Timely) {p : ℕ} (hp : s.submitters[p]? = some .pushed) :
    ({ s with
      thread := notified s.thread
      submitters := s.submitters.set p .idle } : Scheduler F).Timely := by
  classical
  refine { h with called := List.perm_iff_count.2 fun x => ?_, places := ?_, due := ?_ }
  · have hcalled := h.called.count_eq x
    have hset := Table.count_flatMap_set hp .idle Submitter.pending x
    simp only [pending, Submitter.pending, List.count_append, List.count_nil] at hcalled hset ⊢
    omega
  · rw [notified_inFlight]
    exact h.places
  · rw [notified_inFlight]
    exact h.due

/-- The top job leaves the heap when the clock has reached its time. -/
theorem Timely.pop (h : s.Timely) {top : ℕ} {job : ScheduledJob F} (ht : s.thread = .locking)
    (hjob : s.jobs[top]? = some job) (hdue : job.executeTime ≤ s.clock) :
    ({ s with jobs := s.jobs.eraseIdx top, thread := .popped job } : Scheduler F).Timely := by
  classical
  obtain ⟨hlt, rfl⟩ := List.getElem?_eq_some_iff.1 hjob
  refine { h with places := List.perm_iff_count.2 fun x => ?_, due := fun job' hjob' => ?_ }
  · have hplaces := h.places.count_eq x
    have herase := (List.getElem_cons_eraseIdx_perm hlt).count_eq x
    simp only [ht, TimerThread.inFlight, List.count_append, List.count_cons, List.count_nil]
      at hplaces herase ⊢
    omega
  · obtain rfl := List.mem_singleton.1 hjob'
    exact hdue

/-- The timer thread goes on without a job in its hands. -/
theorem Timely.moveThread (h : s.Timely) (ht : s.thread.inFlight = []) {thread : TimerThread F}
    (ht' : thread.inFlight = []) : ({ s with thread } : Scheduler F).Timely := by
  refine { h with places := ?_, due := ?_ }
  · have hplaces := h.places
    rwa [ht, ← ht'] at hplaces
  · rw [ht']
    exact List.forall_mem_nil _

theorem Timely.step (h : s.Timely) {l : SchedulerStep F} {s' : Scheduler F}
    (hs : s.step l = some s') : s'.Timely := by
  cases step_cases hs with
  | tick hnow => exact { h with due := fun job hjob => Int.le_trans (h.due job hjob) hnow }
  | executeAt time func hp => exact h.executeAt hp time func
  | executeAfter milliseconds func hp => exact h.executeAt hp _ func
  | push hp => exact h.push hp
  | notify hp => exact h.notify hp
  | pop ht hjob htop hdue => exact h.pop ht hjob hdue
  | test ht | empty ht | relock ht =>
    exact h.moveThread (by rw [ht]; rfl) (by split_ifs <;> rfl)
  | waitUntil ht | wake ht | wakeUntil ht => exact h.moveThread (by rw [ht]; rfl) rfl
  | @pass job ht =>
    refine { h with places := ?_, due := List.forall_mem_nil _ }
    have hplaces := h.places
    rw [ht, List.append_assoc] at hplaces
    simpa [TimerThread.inFlight] using
      hplaces.trans ((List.perm_append_singleton job s.passed).symm.append_left s.jobs)
  | destroyStop => exact { h with }
  | destroyNotify =>
    refine { h with places := ?_, due := ?_ }
    · rw [notified_inFlight]
      exact h.places
    · rw [notified_inFlight]
      exact h.due
  | destroyJoin => exact { h with }

theorem timely_of_reachable {clock : TimePoint} {k : ℕ} (h : Reachable step (init clock k) s) :
    s.Timely := h.invariant (fun _ _ _ ht hs => ht.step hs) (timely_init clock k)

/-- In every state that the timer thread and any number of callers reach:

* the jobs of the calls of `execute_at` and `execute_after` are pairwise different, and each of them
  is still with its caller or submitted, exactly once;
* a submitted job is in `m_jobs`, popped and about to be passed on, or passed on exactly once;
* a job is passed on only when the clock has reached its time, and only once;
* when a job is popped, no job in `m_jobs` has an earlier time. -/
theorem timers_exact {clock : TimePoint} {k : ℕ} (h : Reachable step (init clock k) s) :
    (s.called.Nodup ∧ s.called.Perm (s.pending ++ s.submitted)) ∧
    s.submitted.Perm (s.jobs ++ s.thread.inFlight ++ s.passed) ∧
    (∀ s', s.step .pass = some s' → ∃ job, s'.passed = s.passed ++ [job] ∧ job ∉ s.passed ∧
      job.executeTime ≤ s.clock) ∧
    ∀ top s' job, s.step (.lock top) = some s' → s'.thread = .popped job →
      s.jobs.Perm (job :: s'.jobs) ∧ ∀ other ∈ s.jobs, job.executeTime ≤ other.executeTime := by
  have ht := timely_of_reachable h
  refine ⟨⟨ht.nodup_called, ht.called⟩, ht.places, fun s' hs => ?_, fun top s' job hs hp => ?_⟩
  · cases step_cases hs with
    | @pass job hj =>
      refine ⟨job, rfl, ht.notMem_passed hj, ht.due job ?_⟩
      rw [hj]
      exact List.mem_singleton_self job
  · cases step_cases hs with
    | pop hl hjob htop hdue =>
      obtain rfl := TimerThread.popped.inj hp
      obtain ⟨hlt, rfl⟩ := List.getElem?_eq_some_iff.1 hjob
      refine ⟨(List.getElem_cons_eraseIdx_perm hlt).symm, fun other hother => ?_⟩
      have := List.all_eq_true.1 htop other hother
      simpa [ScheduledJob.greater] using this
    | empty =>
      dsimp only at hp
      split_ifs at hp
    | waitUntil => cases hp

/-- A job with an earlier deadline is inserted during the timed wait: it is popped first. -/
theorem timers_exact_insert :
    ∃ s : Scheduler ℕ, run step (init 0 2)
        [.executeAt 0 10 (some 1), .push 0, .test, .lock 0, .executeAt 1 5 (some 2), .push 1,
          .notify 1, .tick 6, .test, .lock 0, .pass] = some s ∧
      s.submitted.Perm (s.jobs ++ s.thread.inFlight ++ s.passed) ∧ s.passed = [⟨5, some 2, 1⟩] := by
  obtain ⟨s, hs, hview⟩ := Option.map_eq_some_iff.1 (show (run step (init 0 2 : Scheduler ℕ)
    [.executeAt 0 10 (some 1), .push 0, .test, .lock 0, .executeAt 1 5 (some 2), .push 1,
      .notify 1, .tick 6, .test, .lock 0, .pass]).map (fun s => s.passed) =
        some [⟨5, some 2, 1⟩] by decide)
  exact ⟨s, hs, (timers_exact ⟨_, hs⟩).2.1, hview⟩

end Scheduler

end EllohimMQ
