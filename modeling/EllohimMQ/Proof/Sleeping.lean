import EllohimMQ.Proof.CoroutineThreads

/-!
# How long a sleep is

`co_await sleepCoro(delay)` narrows the 64-bit count to the `int` of `TimerAwaiter`, widens it again to
milliseconds, scales it to nanoseconds and adds the clock reading, all before the timer thread
compares the result with its clock.  The job is passed on at that time at the earliest, and there is
a run in which it is passed on then; so the sleep is never cut short exactly when the arithmetic gives
no less than `now + delay`, which `le_wrap_iff` puts in terms of `now` and `delay`.
-/

namespace EllohimMQ

open Calls Transition

variable {σ Fx V E F : Type}

/-! ## The arithmetic -/

theorem bmod_bounds (x : ℤ) {m h : ℕ} (hm : m = 2 * h) (hh : 0 < h) :
    -(h : ℤ) ≤ x.bmod m ∧ x.bmod m < h ∧ ∃ k, x = x.bmod m + m * k := by
  have hle := Int.le_bmod (x := x) (m := m) (by omega)
  have hlt := Int.bmod_lt (x := x) (m := m) (by omega)
  exact ⟨by omega, by omega, x.bdiv m, (Int.bmod_add_bdiv x m).symm⟩

/-- The delay fits the `int`, and the deadline the 64-bit count of nanoseconds.  Next to the lowest
clock readings there is another case: the delay becomes a negative one, which takes the sum below that
range and round to its top, and the delay is no more than was gained by it. -/
def DelayFits (now delay : ℤ) : Prop :=
  (delay < 2 ^ 31 ∧ now + delay * 1000000 < 2 ^ 63) ∨
  (now + timerDelay delay * 1000000 < -2 ^ 63 ∧
    delay * 1000000 ≤ timerDelay delay * 1000000 + 2 ^ 64)

instance (now delay : ℤ) : Decidable (DelayFits now delay) := inferInstanceAs (Decidable (_ ∨ _))

theorem le_wrap_iff {now delay : ℤ} (hnow : -2 ^ 63 ≤ now ∧ now < 2 ^ 63) (hd : 0 ≤ delay) :
    now + delay * 1000000 ≤
      Scheduler.wrap (now + Scheduler.wrap (timerDelay delay * 1000000)) ↔ DelayFits now delay := by
  obtain ⟨hle, hlt, k, hk⟩ : -((2 ^ 31 : ℕ) : ℤ) ≤ timerDelay delay ∧
      timerDelay delay < (2 ^ 31 : ℕ) ∧ ∃ k, delay = timerDelay delay + (2 ^ 32 : ℕ) * k :=
    bmod_bounds delay rfl (by decide)
  unfold DelayFits Scheduler.wrap
  -- the scaled `int` is far inside the 64-bit range
  rw [Int.bmod_eq_of_le (n := timerDelay delay * 1000000) (by omega) (by omega)]
  obtain ⟨hle', hlt', j, hj⟩ := bmod_bounds (now + timerDelay delay * 1000000)
    (m := 2 ^ 64) (h := 2 ^ 63) rfl (by decide)
  have hk' : k = 0 ∨ (1 ≤ k ∧ 2 ^ 31 ≤ delay) := by omega
  have hj' : j = -1 ∨ j = 0 ∨ j = 1 := by omega
  rcases hk' with rfl | hk' <;> rcases hj' with rfl | rfl | rfl <;> omega

/-! ## From the call to the pool -/

namespace Scheduler

/-- `co_await sleepCoro(delay)` on thread `p`, up to the lock in `execute_at_impl` -/
def sleepCoro (s : Scheduler (CoroutineJob σ)) (p : ℕ) (delay : ℤ) (handle : CoroutineHandle) :
    Option (Scheduler (CoroutineJob σ)) :=
  s.step (.executeAfter p (timerDelay delay) (some (.resume handle)))

variable {s s' : Scheduler F} {l : SchedulerStep F}

/-- A call of `execute_at` stays the call that it was. -/
theorem step_called (h : s.step l = some s') : s.called <+: s'.called := by
  cases step_cases h with
  | executeAt | executeAfter => exact List.prefix_append ..
  | _ => exact List.prefix_rfl

theorem steps_called (h : Steps step s s') : s.called <+: s'.called :=
  h.invariant (P := fun t => s.called <+: t.called)
    (fun _ _ _ hP hs => hP.trans (step_called hs)) List.prefix_rfl

/-- The ticket of a job is its place among the calls. -/
theorem Timely.getElem_called (h : s.Timely) {job : ScheduledJob F} (hjob : job ∈ s.called) :
    s.called[job.ticket]? = some job := by
  obtain ⟨i, hi⟩ := List.mem_iff_getElem?.1 hjob
  have hticket : (s.called.map ScheduledJob.ticket)[i]? = some job.ticket := by
    rw [List.getElem?_map, hi, Option.map_some]
  rw [h.tickets] at hticket
  have hlt := (List.getElem?_eq_some_iff.1 hi).1
  rw [List.getElem?_range hlt, Option.some.injEq] at hticket
  rwa [← hticket]

theorem Timely.mem_called (h : s.Timely) {job : ScheduledJob F} (ht : s.thread = .popped job) :
    job ∈ s.called := by
  apply h.called.symm.subset
  apply List.mem_append_right
  apply h.places.symm.subset
  simp [ht, TimerThread.inFlight]

theorem executeAfter_of_step {p : ℕ} {milliseconds : ℤ} {func : Option F}
    (h : s.step (.executeAfter p milliseconds func) = some s') :
    s.submitters[p]? = some .idle ∧ s' = s.executeAfter p milliseconds func := by
  simp only [step] at h
  split at h
  · next hp => exact ⟨hp, (Option.some.inj h).symm⟩
  · cases h

/-- A job that `execute_after` was called for is passed on when the clock has reached the time that
`execute_after` has computed. -/
theorem due_of_pass {p : ℕ} {milliseconds : ℤ} {func : Option F} {s₁ s₂ s₃ : Scheduler F}
    {job : ScheduledJob F} (h : s.Timely)
    (hcall : s.step (.executeAfter p milliseconds func) = some s₁) (hrun : Steps step s₁ s₂)
    (hpass : s₂.step .pass = some s₃) (hjob : s₃.passed = s₂.passed ++ [job])
    (hticket : job.ticket = s.called.length) :
    wrap (s.clock + wrap (milliseconds * 1000000)) ≤ s₂.clock := by
  have h₁ := h.step hcall
  have h₂ := hrun.invariant (fun _ _ _ ht hs => ht.step hs) h₁
  have hthread : s₂.thread = .popped job := by
    cases step_cases hpass with
    | pass ht => rw [ht, List.singleton_inj.1 (List.append_cancel_left hjob)]
  have hmem := h₂.getElem_called (h₂.mem_called hthread)
  have hfirst : s₁.called[job.ticket]? =
      some ⟨wrap (s.clock + wrap (milliseconds * 1000000)), func, s.called.length⟩ := by
    rw [hticket, (executeAfter_of_step hcall).2]
    exact List.getElem?_concat_length
  obtain ⟨rest, hrest⟩ := steps_called hrun
  have hlt := (List.getElem?_eq_some_iff.1 hfirst).1
  rw [← hrest, List.getElem?_append_left hlt, hfirst, Option.some.injEq] at hmem
  have hdue := h₂.due job (by simp [hthread, TimerThread.inFlight])
  rwa [← hmem] at hdue

/-- However the threads go on after `co_await sleepCoro(delay)` at clock reading `now`, the coroutine is
handed to the pool when the clock has reached `now + delay`. -/
def SleepKept (σ : Type) (now delay : ℤ) : Prop :=
  ∀ (clock : TimePoint) (submitters p : ℕ) (handle : CoroutineHandle)
    (s s₁ s₂ s₃ : Scheduler (CoroutineJob σ)) (job : ScheduledJob (CoroutineJob σ)),
    Reachable step (init clock submitters) s → s.clock = now →
    s.sleepCoro p delay handle = some s₁ → Steps step s₁ s₂ → s₂.step .pass = some s₃ →
    s₃.passed = s₂.passed ++ [job] → job.ticket = s.called.length →
    now + delay * 1000000 ≤ s₂.clock

theorem sleepKept_of_delayFits {now delay : ℤ} (hnow : -2 ^ 63 ≤ now ∧ now < 2 ^ 63)
    (hd : 0 ≤ delay) (h : DelayFits now delay) : SleepKept σ now delay := by
  intro clock submitters p handle s s₁ s₂ s₃ job hs hclock hcall hrun hpass hjob hticket
  have hdue := due_of_pass (timely_of_reachable hs) hcall hrun hpass hjob hticket
  rw [hclock] at hdue
  exact ((le_wrap_iff hnow hd).2 h).trans hdue

/-- The timer thread can pass the job on as soon as the clock has reached the computed time. -/
theorem run_sleep {now time t : TimePoint} (hnow : now ≤ t) (htime : time ≤ t)
    (job : ScheduledJob F) (hjob : job.executeTime = time) :
    run step ({ init now 1 with submitters := [.calling job], called := [job] } : Scheduler F)
        [.push 0, .notify 0, .tick t, .test, .lock 0] =
      some { init t 1 with
        thread := .popped job, submitters := [.idle], called := [job], submitted := [job] } := by
  subst hjob
  simp [step, lock, init, notified, isTop, ScheduledJob.greater, hnow, htime]

/-- A sleep of `delay` milliseconds that begins at clock reading `now` is not cut short, whatever the
timer thread and the other threads do, if and only if `DelayFits now delay`. -/
theorem sleepKept_iff {now delay : ℤ} (hnow : -2 ^ 63 ≤ now ∧ now < 2 ^ 63) (hd : 0 ≤ delay) :
    SleepKept σ now delay ↔ DelayFits now delay := by
  constructor
  · intro h
    rw [← le_wrap_iff hnow hd]
    let time := wrap (now + wrap (timerDelay delay * 1000000))
    let job : ScheduledJob (CoroutineJob σ) := ⟨time, some (.resume .noop), 0⟩
    have hrun := run_sleep (le_max_left now time) (le_max_right now time) job rfl
    have hkept := h now 1 0 .noop (init now 1) _ _ _ job (.refl _) rfl rfl ⟨_, hrun⟩ rfl rfl rfl
    change now + delay * 1000000 ≤ max now time at hkept
    by_cases hzero : delay = 0
    · subst hzero
      exact (le_wrap_iff hnow le_rfl).2 (.inl (by omega))
    · apply (le_max_iff.1 hkept).resolve_left
      omega
  · exact sleepKept_of_delayFits hnow hd

/-- A delay of a day at clock reading zero. -/
theorem sleepKept_iff_day : SleepKept ℕ 0 86400000 :=
  (sleepKept_iff (by decide) (by decide)).2 (by decide)

/-- A delay of `2 ^ 32` milliseconds becomes zero: the coroutine is handed to the pool at once. -/
theorem not_sleepKept : ¬ SleepKept ℕ 0 (2 ^ 32) := by
  intro h
  have hkept := h 0 1 0 .noop (init 0 1) _ _ _ ⟨0, some (.resume .noop), 0⟩ (.refl _) rfl rfl
    ⟨[.push 0, .notify 0, .test, .lock 0], rfl⟩ rfl rfl rfl
  exact absurd hkept (by decide)

end Scheduler

/-! ## The coroutine -/

namespace Process

variable {P : Program σ Fx V E} {root : σ} {s s' : Process σ Fx V E}

/-- What a worker does to the timers when the coroutine it runs sleeps. -/
theorem runBody_sleep {i t : ℕ} {b rest : σ} {delay : ℤ} (hb : P.next b = .sleep delay rest)
    (h : s.runBody P i t b = some s') :
    s.timers.sleepCoro i delay (.task t) = some s'.timers := by
  rw [runBody, hb] at h
  obtain ⟨timers, htimers, rfl⟩ := Option.map_eq_some_iff.1 h
  exact htimers

/-- A step of the process is a step of the timers, or leaves them as they are. -/
theorem step_timers {l : ProcessStep σ} (h : s.step P root l = some s') :
    Steps Scheduler.step s.timers s'.timers := by
  cases (step_cases h).2 with
  | timers hl hidle htimers => exact .single htimers
  | pass hjob htimers => exact .single htimers
  | execute hs =>
    obtain ⟨a, ha, -, ⟨hwithin, -⟩ | ⟨ms, job, htimers, -⟩⟩ := within_execute hs
    · exact hwithin.timers ▸ .refl _
    · exact .single htimers
  | call | pool | invoke | finish => exact .refl _

theorem steps_timers (h : Steps (step P root) s s') : Steps Scheduler.step s.timers s'.timers :=
  h.invariant (P := fun t => Steps Scheduler.step s.timers t.timers)
    (fun _ _ _ hP hs => hP.trans (step_timers hs)) (.refl _)

/-- In every run of a process: a coroutine that sleeps for a delay that fits is handed to the pool when
the clock has reached the end of the delay. -/
theorem sleep_kept {n nextQueue : BitVec 64} {clock : TimePoint} {i t : ℕ} {b rest : σ} {delay : ℤ}
    {s₁ s₂ s₃ : Process σ Fx V E} {job : ScheduledJob (CoroutineJob σ)}
    (hs : Reachable (step P root) (.new n nextQueue clock) s) (hb : P.next b = .sleep delay rest)
    (hnow : -2 ^ 63 ≤ s.timers.clock ∧ s.timers.clock < 2 ^ 63) (hd : 0 ≤ delay)
    (hfits : DelayFits s.timers.clock delay) (hsleep : s.runBody P i t b = some s₁)
    (hrun : Steps (step P root) s₁ s₂) (hpass : s₂.step P root .pass = some s₃)
    (hjob : s₃.timers.passed = s₂.timers.passed ++ [job])
    (hticket : job.ticket = s.timers.called.length) :
    s.timers.clock + delay * 1000000 ≤ s₂.timers.clock := by
  cases (step_cases hpass).2 with
  | pass hthread htimers =>
    exact Scheduler.sleepKept_of_delayFits hnow hd hfits _ _ _ _ _ _ _ _ _ (steps_timers hs) rfl
      (runBody_sleep hb hsleep) (steps_timers hrun) htimers hjob hticket

end Process

end EllohimMQ
