import EllohimMQ.Lib.Progress
import EllohimMQ.Proof.Shutdown

/-!
# The timer thread comes to rest

The timer thread waits without a limit only while the heap is empty, and otherwise no longer than
until the time of some job of the heap.  A job that is inserted during a wait may be earlier; then the
caller that inserted it has still to notify (`Watchful`).  So when no thread can go on, the wait is
for the earliest job, and all jobs that are due have been passed on.
-/

namespace EllohimMQ

open Transition

variable {F : Type}

/-! ## Energy -/

/-- The steps that the timer thread has left before it waits or has exited.  A wait whose time has
come is over. -/
def TimerThread.energy (clock : TimePoint) (running : Bool) : TimerThread F → ℕ
  | .exited => 0
  | .waiting => 0
  | .waitingUntil nextTime => if nextTime ≤ clock then 3 else 0
  | .testing => 2
  | .locking => if running then 1 else 3
  | .woken => 3
  | .popped _ => 3

/-- The steps that a call has left, with those that its job will need. -/
def Submitter.energy : Submitter F → ℕ
  | .idle => 0
  | .pushed => 4
  | .calling _ => 8

/-- The steps of `destroy_impl` that are left, with the wake-ups by it. -/
def SchedulerDestroyer.energy : SchedulerDestroyer → ℕ
  | .notCalled => 8
  | .stopped => 5
  | .joining => 1
  | .joined => 0

/-- The clock goes on. -/
def SchedulerStep.ticks : SchedulerStep F → Bool
  | .tick _ => true
  | _ => false

/-- The timer thread wakes up without a notification. -/
def SchedulerStep.wakes : SchedulerStep F → Bool
  | .wake => true
  | _ => false

namespace Scheduler

variable {s s' : Scheduler F} {l : SchedulerStep F}

/-- The steps that the threads have left before they rest. -/
def energy (s : Scheduler F) : ℕ :=
  s.thread.energy s.clock s.running + (s.submitters.map Submitter.energy).sum + 3 * s.jobs.length +
    s.destroyer.energy

/-- The steps that the threads take of their own accord.  The wait for a time ends when the clock has
reached it. -/
def Proceeds (s : Scheduler F) : SchedulerStep F → Prop
  | .push _ => True
  | .notify _ => True
  | .test => True
  | .lock _ => True
  | .relock => True
  | .pass => True
  | .wake => ∃ nextTime, s.thread = .waitingUntil nextTime ∧ nextTime ≤ s.clock
  | _ => False

/-- What a step uses up. -/
def used : SchedulerStep F → ℕ
  | .tick _ => 0
  | .executeAt _ _ _ => 0
  | .executeAfter _ _ _ => 0
  | .wake => 0
  | _ => 1

/-- What a step supplies. -/
def supplied : SchedulerStep F → ℕ
  | .tick _ => 3
  | .executeAt _ _ _ => 8
  | .executeAfter _ _ _ => 8
  | .wake => 3
  | _ => 0

theorem energy_thread_le (clock : TimePoint) (running : Bool) (thread : TimerThread F) :
    thread.energy clock running ≤ 3 := by
  cases thread <;> simp only [TimerThread.energy] <;> (try split_ifs) <;> omega

theorem energy_notified (clock : TimePoint) (running : Bool) (thread : TimerThread F) :
    (notified thread).energy clock running ≤ thread.energy clock running + 3 := by
  have := energy_thread_le clock running (notified thread)
  omega

theorem energy_executeAt {p : ℕ} (hp : s.submitters[p]? = some .idle) (time : TimePoint)
    (func : Option F) : (s.executeAt p time func).energy = s.energy + 8 := by
  have := Table.sum_map_set hp (.calling ⟨time, func, s.called.length⟩) Submitter.energy
  simp only [energy, executeAt]
  simp only [Submitter.energy] at this
  omega

/-- A step of the timer thread that leaves the heap as it is. -/
theorem energy_moveThread {thread : TimerThread F} (used supplied : ℕ)
    (h : thread.energy s.clock s.running + used ≤ s.thread.energy s.clock s.running + supplied)
    (passed : List (ScheduledJob F)) :
    ({ s with thread, passed } : Scheduler F).energy + used ≤ s.energy + supplied := by
  simp only [energy]
  omega

theorem energy_step (h : s.step l = some s') : s'.energy + used l ≤ s.energy + supplied l := by
  cases step_cases h with
  | @tick now =>
    have hthread := energy_thread_le now s.running s.thread
    simp only [energy, used, supplied]
    omega
  | executeAt time func hp => exact (energy_executeAt hp time func).le
  | executeAfter milliseconds func hp => exact (energy_executeAt hp _ func).le
  | push hp =>
    have := Table.sum_map_set hp .pushed Submitter.energy
    simp only [energy, used, supplied, List.length_cons]
    simp only [Submitter.energy] at this
    omega
  | notify hp =>
    have h₁ := Table.sum_map_set hp .idle Submitter.energy
    have h₂ := energy_notified s.clock s.running s.thread
    simp only [energy, used, supplied]
    simp only [Submitter.energy] at h₁
    omega
  | test ht =>
    refine energy_moveThread 1 0 ?_ s.passed
    rw [ht]
    split_ifs with hrunning <;> simp [TimerThread.energy, hrunning]
  | empty ht =>
    refine energy_moveThread 1 0 ?_ s.passed
    rw [ht]
    split_ifs with hrunning <;> simp [TimerThread.energy, hrunning]
  | pop ht hjob =>
    have hlt := (List.getElem?_eq_some_iff.1 hjob).1
    have hlen := List.length_eraseIdx_of_lt hlt
    simp only [energy, used, supplied, ht, TimerThread.energy, hlen]
    split_ifs <;> omega
  | waitUntil ht _ _ hdue =>
    refine energy_moveThread 1 0 ?_ s.passed
    simp only [ht, TimerThread.energy, if_neg hdue]
    split_ifs <;> omega
  | wake | wakeUntil =>
    exact energy_moveThread 0 3 (by simp [TimerThread.energy]) s.passed
  | relock ht =>
    refine energy_moveThread 1 0 ?_ s.passed
    rw [ht]
    split_ifs <;> simp [TimerThread.energy]
  | pass ht =>
    exact energy_moveThread 1 0 (by simp [ht, TimerThread.energy]) _
  | destroyStop hd =>
    have hthread : s.thread.energy s.clock false ≤ s.thread.energy s.clock s.running + 2 := by
      cases s.thread <;> simp only [TimerThread.energy] <;> (try split_ifs) <;> omega
    simp only [energy, used, supplied, hd, SchedulerDestroyer.energy]
    omega
  | destroyNotify hd =>
    have := energy_notified s.clock s.running s.thread
    simp only [energy, used, supplied, hd, SchedulerDestroyer.energy]
    omega
  | destroyJoin hd =>
    simp only [energy, used, supplied, hd, SchedulerDestroyer.energy]
    omega

/-- A thread that goes on with what it has begun uses up energy. -/
theorem energy_lt (hl : s.Proceeds l) (h : s.step l = some s') : s'.energy < s.energy := by
  cases l with
  | wake =>
    obtain ⟨nextTime, ht, hle⟩ := hl
    simp only [step, ht] at h
    obtain rfl := Option.some.inj h
    simp only [energy, ht, TimerThread.energy, if_pos hle]
    omega
  | tick | executeAt | executeAfter | destroyStop | destroyNotify | destroyJoin => cases hl
  | push | notify | test | lock | relock | pass => exact energy_step h

theorem sum_used (ls : List (SchedulerStep F)) :
    (ls.map used).sum + ls.countP SchedulerStep.submits + ls.countP SchedulerStep.ticks +
      ls.countP SchedulerStep.wakes = ls.length := by
  induction ls with
  | nil => rfl
  | cons l ls ih =>
    simp only [List.map_cons, List.sum_cons, List.countP_cons, List.length_cons]
    cases l <;>
      simp only [used, SchedulerStep.submits, SchedulerStep.ticks, SchedulerStep.wakes] <;> grind

theorem sum_supplied (ls : List (SchedulerStep F)) :
    (ls.map supplied).sum = 8 * ls.countP SchedulerStep.submits +
      3 * ls.countP SchedulerStep.ticks + 3 * ls.countP SchedulerStep.wakes := by
  induction ls with
  | nil => rfl
  | cons l ls ih =>
    simp only [List.map_cons, List.sum_cons, List.countP_cons]
    cases l <;>
      simp only [supplied, SchedulerStep.submits, SchedulerStep.ticks, SchedulerStep.wakes] <;> grind

/-! ## What a wait is for -/

/-- The timer thread has left its loop only after `destroy_impl` has cleared `m_running`, and waits
for the earliest job, unless a caller has still to notify it. -/
structure Watchful (s : Scheduler F) : Prop where
  running : s.running = true ↔ s.destroyer = .notCalled
  exited : s.thread = .exited → s.running = false
  waiting : s.thread = .waiting → s.jobs = [] ∨ .pushed ∈ s.submitters
  waitingUntil : ∀ nextTime, s.thread = .waitingUntil nextTime →
    (∃ job ∈ s.jobs, job.executeTime = nextTime) ∧
      ((∀ job ∈ s.jobs, nextTime ≤ job.executeTime) ∨ .pushed ∈ s.submitters)

theorem watchful_init (clock : TimePoint) (k : ℕ) : (init clock k : Scheduler F).Watchful where
  running := by simp [init]
  exited h := by cases h
  waiting h := by cases h
  waitingUntil _ h := by cases h

/-- The timer thread goes to a place that is no wait. -/
theorem Watchful.move (h : s.Watchful) {thread : TimerThread F} (hwaits : thread.waits = false)
    (hexited : thread = .exited → s.running = false) (jobs : List (ScheduledJob F))
    (submitters : List (Submitter F)) (passed : List (ScheduledJob F)) :
    ({ s with thread, jobs, submitters, passed } : Scheduler F).Watchful where
  running := h.running
  exited := hexited
  waiting ht := by
    obtain rfl := ht
    cases hwaits
  waitingUntil _ ht := by
    obtain rfl := ht
    cases hwaits

/-- A caller that is not about to notify goes on. -/
theorem Watchful.moveSubmitter (h : s.Watchful) {p : ℕ} {u : Submitter F}
    (hp : s.submitters[p]? = some u) (hu : u ≠ .pushed) (u' : Submitter F)
    (called : List (ScheduledJob F)) :
    ({ s with submitters := s.submitters.set p u', called } : Scheduler F).Watchful := by
  have hmem : .pushed ∈ s.submitters → .pushed ∈ s.submitters.set p u' :=
    fun hm => Table.mem_set_of_mem hp hm hu.symm
  exact { h with
    waiting := fun ht => (h.waiting ht).imp_right hmem
    waitingUntil := fun t ht => ⟨(h.waitingUntil t ht).1, (h.waitingUntil t ht).2.imp_right hmem⟩ }

/-- The timer thread begins to wait without a limit. -/
theorem Watchful.wait (h : s.Watchful) (hjobs : s.jobs = []) :
    ({ s with thread := .waiting } : Scheduler F).Watchful :=
  { h with
    exited := by simp
    waiting := fun _ => .inl hjobs
    waitingUntil := by simp }

theorem Watchful.step (h : s.Watchful) (hs : s.step l = some s') : s'.Watchful := by
  cases step_cases hs with
  | tick => exact { h with }
  | executeAt _ _ hp | executeAfter _ _ hp => exact h.moveSubmitter hp (by simp) _ _
  | @push p job hp =>
    have hlt := (List.getElem?_eq_some_iff.1 hp).1
    have hmem : .pushed ∈ s.submitters.set p .pushed :=
      List.mem_of_getElem? (i := p) (by simp [hlt])
    exact { h with
      waiting := fun _ => .inr hmem
      waitingUntil := fun t ht => by
        obtain ⟨first, hfirst, htime⟩ := (h.waitingUntil t ht).1
        exact ⟨⟨first, List.mem_cons_of_mem _ hfirst, htime⟩, .inr hmem⟩ }
  | notify =>
    refine h.move (waits_notified _) (fun ht => h.exited ?_) s.jobs _ s.passed
    cases hthread : s.thread <;> rw [hthread] at ht <;> first | rfl | cases ht
  | test =>
    split_ifs with hrunning
    · exact h.move rfl (by simp) s.jobs s.submitters s.passed
    · exact h.move rfl (fun _ => Bool.eq_false_iff.2 hrunning) s.jobs s.submitters s.passed
  | empty _ hjobs =>
    split_ifs
    · exact h.wait hjobs
    · exact h.move rfl (by simp) s.jobs s.submitters s.passed
  | pop => exact h.move rfl (by simp) _ s.submitters s.passed
  | @waitUntil top job _ hjob htop =>
    exact { h with
      exited := by simp
      waiting := by simp
      waitingUntil := fun t ht => by
        obtain rfl := TimerThread.waitingUntil.inj ht
        exact ⟨⟨job, List.mem_of_getElem? hjob, rfl⟩, .inl (isTop_iff.1 htop)⟩ }
  | wake | wakeUntil => exact h.move rfl (by simp) s.jobs s.submitters s.passed
  | relock =>
    split_ifs with hcond
    · exact h.move rfl (by simp) s.jobs s.submitters s.passed
    · rw [not_or, Bool.not_eq_false, List.isEmpty_iff] at hcond
      exact h.wait hcond.1
  | pass => exact h.move rfl (by simp) s.jobs s.submitters _
  | destroyStop => exact { h with running := by simp, exited := fun _ => rfl }
  | destroyNotify hd =>
    have hrunning : s.running = false := by
      rw [← Bool.not_eq_true, h.running, hd]
      simp
    have hmove := h.move (waits_notified s.thread) (fun _ => hrunning) s.jobs s.submitters s.passed
    exact { hmove with running := by simp [hrunning] }
  | destroyJoin hd => exact { h with running := h.running.trans (by simp [hd]) }

theorem watchful_of_reachable {clock : TimePoint} {k : ℕ}
    (h : Reachable Scheduler.step (init clock k) s) : s.Watchful :=
  h.invariant (fun _ _ _ hw hs => hw.step hs) (watchful_init clock k)

/-! ## At rest -/

theorem submitter_of_resting (h : Resting Scheduler.step Proceeds s) {u : Submitter F}
    (hu : u ∈ s.submitters) : u = .idle := by
  obtain ⟨p, hp⟩ := List.getElem?_of_mem hu
  cases u with
  | idle => rfl
  | calling job => simpa [Scheduler.step, hp] using h (.push p) trivial
  | pushed => simpa [Scheduler.step, hp] using h (.notify p) trivial

theorem thread_of_resting (h : Resting Scheduler.step Proceeds s) :
    s.thread = .exited ∨ s.thread = .waiting ∨
      ∃ nextTime, s.thread = .waitingUntil nextTime ∧ s.clock < nextTime := by
  cases ht : s.thread with
  | exited => exact .inl rfl
  | waiting => exact .inr (.inl rfl)
  | waitingUntil nextTime =>
    refine .inr (.inr ⟨nextTime, rfl, ?_⟩)
    by_contra hle
    simpa [Scheduler.step, ht] using h .wake ⟨nextTime, ht, Int.not_lt.1 hle⟩
  | testing => simpa [Scheduler.step, ht] using h .test trivial
  | woken => simpa [Scheduler.step, ht] using h .relock trivial
  | popped job => simpa [Scheduler.step, ht] using h .pass trivial
  | locking =>
    by_cases hjobs : s.jobs = []
    · simpa [Scheduler.step, Scheduler.lock, ht, hjobs] using h (.lock 0) trivial
    · -- some job is at the top of the heap
      obtain ⟨top, job, hjob, htop⟩ := exists_isTop hjobs
      have hnone := h (.lock top) trivial
      simp only [Scheduler.step, ht, Scheduler.lock, hjob, htop, if_true] at hnone
      split at hnone <;> cases hnone

/-- When no caller is in `execute_at` and the timer thread waits, no thread can go on. -/
theorem resting_of_waiting (hu : ∀ u ∈ s.submitters, u = .idle)
    (ht : s.thread = .waiting ∨ ∃ nextTime, s.thread = .waitingUntil nextTime ∧ s.clock < nextTime) :
    Resting Scheduler.step Proceeds s := by
  have hsubmitter : ∀ (p : ℕ) (u : Submitter F), s.submitters[p]? = some u → u = .idle :=
    fun p u hp => hu u (List.mem_of_getElem? hp)
  intro l hl
  cases l with
  | tick | executeAt | executeAfter | destroyStop | destroyNotify | destroyJoin => cases hl
  | push p | notify p =>
    simp only [Scheduler.step]
    split
    · next hp => cases hsubmitter p _ hp
    · rfl
  | wake =>
    obtain ⟨nextTime, hwait, hle⟩ := hl
    obtain ht | ⟨time, ht, hlt⟩ := ht
    · rw [ht] at hwait
      cases hwait
    · obtain rfl := TimerThread.waitingUntil.inj (ht.symm.trans hwait)
      exact absurd hle (Int.not_le.2 hlt)
  | test | lock | relock | pass => obtain ht | ⟨time, ht, -⟩ := ht <;> simp [Scheduler.step, ht]

/-- When no thread can go on, no job is due, and the timer thread waits for the earliest one. -/
theorem Watchful.heap_of_resting (hw : s.Watchful) (hd : s.destroyer = .notCalled)
    (hrest : Resting Scheduler.step Proceeds s) :
    s.pending = [] ∧ s.thread.inFlight = [] ∧ (∀ job ∈ s.jobs, s.clock < job.executeTime) ∧
      (s.jobs = [] ∧ s.thread = .waiting ∨ ∃ job ∈ s.jobs, s.thread = .waitingUntil job.executeTime ∧
        ∀ other ∈ s.jobs, job.executeTime ≤ other.executeTime) := by
  have hpushed : .pushed ∉ s.submitters := fun hmem => by cases submitter_of_resting hrest hmem
  refine ⟨List.flatMap_eq_nil_iff.2 fun u hu => ?_, ?_⟩
  · rw [submitter_of_resting hrest hu]
    rfl
  obtain hexit | hwait | ⟨nextTime, hwait, hlt⟩ := thread_of_resting hrest
  · have := hw.exited hexit
    rw [hw.running.2 hd] at this
    cases this
  · have hjobs := (hw.waiting hwait).resolve_right hpushed
    exact ⟨by rw [hwait]; rfl, by simp [hjobs], .inl ⟨hjobs, hwait⟩⟩
  · obtain ⟨⟨job, hjob, rfl⟩, hleast⟩ := hw.waitingUntil nextTime hwait
    have hleast := hleast.resolve_right hpushed
    exact ⟨by rw [hwait]; rfl, fun other ho => hlt.trans_le (hleast other ho),
      .inr ⟨job, hjob, hwait, hleast⟩⟩

/-- The timer thread does all its work, in whatever order it and its callers take their steps:

* up to any state the threads have taken no more steps than the submissions, the ticks of the clock
  and the wake-ups account for, and without more of these they come to rest;
* when no thread can go on and `destroy` has not been called, the jobs that were submitted are those
  in the heap, none of which is due, and those that were passed on, once each; and the timer thread
  waits until the earliest time of a job in the heap, or without a limit when there is none. -/
theorem timers_complete {clock : TimePoint} {k : ℕ} {ls : List (SchedulerStep F)}
    (hrun : run Scheduler.step (init clock k) ls = some s) :
    ls.length ≤ 10 + 9 * ls.countP SchedulerStep.submits + 4 * ls.countP SchedulerStep.ticks +
      4 * ls.countP SchedulerStep.wakes ∧
    (∃ ls' s', Admissible Scheduler.step Proceeds s ls' ∧
      run Scheduler.step s ls' = some s' ∧ Resting Scheduler.step Proceeds s') ∧
    (s.destroyer = .notCalled → Resting Scheduler.step Proceeds s →
      s.called.Nodup ∧ s.called.Perm (s.jobs ++ s.passed) ∧
      (∀ job ∈ s.jobs, s.clock < job.executeTime) ∧
      (s.jobs = [] ∧ s.thread = .waiting ∨ ∃ job ∈ s.jobs, s.thread = .waitingUntil job.executeTime ∧
        ∀ other ∈ s.jobs, job.executeTime ≤ other.executeTime)) := by
  refine ⟨?_, ?_, fun hd hrest => ?_⟩
  · have h := run_gain_le (I := fun _ => True) (m := energy) (u := used) (v := supplied)
      (fun s l s' _ hl => ⟨trivial, energy_step hl⟩) trivial hrun
    have hinit : (init clock k : Scheduler F).energy = 10 := by
      simp [energy, init, TimerThread.energy, Submitter.energy, SchedulerDestroyer.energy]
    have hused := sum_used ls
    rw [sum_supplied, hinit] at h
    omega
  · exact exists_resting (I := fun _ => True) (m := energy)
      (fun _ _ _ _ hl hstep => ⟨trivial, energy_lt hl hstep⟩) trivial
  · have ht := timely_of_reachable ⟨ls, hrun⟩
    obtain ⟨hpending, hflight, hdue, hheap⟩ :=
      (watchful_of_reachable ⟨ls, hrun⟩).heap_of_resting hd hrest
    have hcalled := ht.called
    have hplaces := ht.places
    rw [hpending, List.nil_append] at hcalled
    rw [hflight, List.append_nil] at hplaces
    exact ⟨ht.nodup_called, hcalled.trans hplaces, hdue, hheap⟩

/-- A job that is due is passed on; one that is not is what the thread waits for. -/
theorem timers_complete_two :
    ∃ s : Scheduler ℕ, run Scheduler.step (init 0 1)
        [.executeAt 0 10 (some 1), .push 0, .notify 0, .test, .lock 0, .executeAt 0 4 (some 2),
          .push 0, .notify 0, .tick 5, .test, .lock 0, .pass, .test, .lock 0] = some s ∧
      s.called.Perm (s.jobs ++ s.passed) ∧ s.thread = .waitingUntil 10 ∧ s.passed.length = 1 := by
  obtain ⟨s, hs, hview⟩ := Option.map_eq_some_iff.1
    (show (run Scheduler.step (init 0 1 : Scheduler ℕ)
      [.executeAt 0 10 (some 1), .push 0, .notify 0, .test, .lock 0, .executeAt 0 4 (some 2),
        .push 0, .notify 0, .tick 5, .test, .lock 0, .pass, .test, .lock 0]).map
          (fun s => (s.clock, s.thread, s.submitters, s.destroyer, s.passed.length)) =
        some (5, .waitingUntil 10, [.idle], .notCalled, 1) by decide)
  simp only [Prod.mk.injEq] at hview
  obtain ⟨hclock, hthread, hsubmitters, hd, hpassed⟩ := hview
  have hrest := resting_of_waiting (s := s) (by simp [hsubmitters])
    (.inr ⟨10, hthread, by rw [hclock]; decide⟩)
  exact ⟨s, hs, ((timers_complete hs).2.2 hd hrest).2.1, hthread, hpassed⟩

end Scheduler

end EllohimMQ
