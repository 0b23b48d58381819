import EllohimMQ.Proof.ServiceRuns
import EllohimMQ.Proof.Sleeping

/-!
# How long a handler takes

A handler may be slower than its sleeps, because it waits for the timer thread and for a worker, but
never faster: whatever it shows comes when the clock has gone on by all the sleeps before.  What
carries this from one sleep to the next is that a handler is in one place: while its job is with the
timer thread, no worker goes on in it, and the job is late enough (`Paced.late`); when it is
elsewhere, the time is over (`Paced.elapsed`).
-/

namespace EllohimMQ

open Calls Transition

variable {σ Fx V E : Type}

/-! ## The jobs with the timer thread -/

namespace Scheduler

variable {F : Type} {s s' : Scheduler F} {l : SchedulerStep F}

/-- The jobs between `execute_after` and `queue_job`. -/
def waiting (s : Scheduler F) : List (ScheduledJob F) := s.pending ++ s.jobs ++ s.thread.inFlight

theorem Timely.called_perm (h : s.Timely) : s.called.Perm (s.waiting ++ s.passed) := by
  refine h.called.trans ((h.places.append_left _).trans ?_)
  rw [waiting, List.append_assoc s.jobs, List.append_assoc s.pending, List.append_assoc s.pending,
    List.append_assoc s.jobs]

theorem step_clock (hs : s.step l = some s') : s.clock ≤ s'.clock := by
  cases step_cases hs with
  | tick hnow => exact hnow
  | _ => exact Int.le_refl _

/-- A step of the scheduler that neither takes a job nor passes one on keeps those that wait. -/
theorem Timely.waiting_internal (h : s.Timely) (hl : l.internal = true ∨ l = .test)
    (hs : s.step l = some s') : s'.waiting.Perm s.waiting := by
  obtain ⟨hcalled, hpassed⟩ := step_internal hl hs
  have h' := (h.step hs).called_perm
  rw [hcalled, hpassed] at h'
  exact (List.perm_append_right_iff s.passed).1 (h'.symm.trans h.called_perm)

theorem Timely.waiting_pass (h : s.Timely) {job : ScheduledJob F} (ht : s.thread = .popped job)
    (hs : s.step .pass = some s') : s.waiting.Perm (job :: s'.waiting) := by
  obtain ⟨hcalled, hpassed⟩ := step_pass ht hs
  have h' := (h.step hs).called_perm
  rw [hcalled, hpassed] at h'
  refine (List.perm_append_right_iff s.passed).1 ((h.called_perm.symm.trans h').trans ?_)
  rw [← List.append_assoc]
  exact List.perm_append_singleton job _

theorem Timely.waiting_executeAfter (h : s.Timely) {p : ℕ} {milliseconds : ℤ} {func : Option F}
    (hs : s.step (.executeAfter p milliseconds func) = some s') :
    s'.clock = s.clock ∧ s'.waiting.Perm
      (⟨wrap (s.clock + wrap (milliseconds * 1000000)), func, s.called.length⟩ :: s.waiting) := by
  have h' := (h.step hs).called_perm
  obtain ⟨-, rfl⟩ := executeAfter_of_step hs
  refine ⟨rfl, (List.perm_append_right_iff s.passed).1 (h'.symm.trans ?_)⟩
  exact (List.perm_append_singleton _ _).trans (h.called_perm.cons _)

end Scheduler

/-! ## What is shown -/

/-- The nanoseconds of a sleep. -/
def sleepTime : Calls.Event Fx V E → ℤ
  | .slept ms => ms * 1000000
  | _ => 0

/-- The nanoseconds of all sleeps. -/
def sleepTimes : List (Calls.Event Fx V E) → ℤ
  | [] => 0
  | e :: trace => sleepTime e + sleepTimes trace

/-- A trace goes on, and with no sleep. -/
def Wakeful (trace trace' : List (Calls.Event Fx V E)) : Prop :=
  ∃ events, trace' = trace ++ events ∧ ∀ ms, .slept ms ∉ events

theorem wakeful_refl (trace : List (Calls.Event Fx V E)) : Wakeful trace trace :=
  ⟨[], (List.append_nil trace).symm, fun _ => List.not_mem_nil⟩

theorem wakeful_concat (trace : List (Calls.Event Fx V E)) {e : Calls.Event Fx V E}
    (he : ∀ ms, e ≠ .slept ms) : Wakeful trace (trace ++ [e]) :=
  ⟨[e], rfl, fun ms hmem => he ms (List.mem_singleton.1 hmem).symm⟩

theorem sleepTimes_append (trace events : List (Calls.Event Fx V E)) :
    sleepTimes (trace ++ events) = sleepTimes trace + sleepTimes events := by
  induction trace with
  | nil => exact (Int.zero_add _).symm
  | cons e trace ih => rw [List.cons_append, sleepTimes, sleepTimes, ih, Int.add_assoc]

theorem sleepTimes_concat (trace : List (Calls.Event Fx V E)) (e : Calls.Event Fx V E) :
    sleepTimes (trace ++ [e]) = sleepTimes trace + sleepTime e := by
  rw [sleepTimes_append, sleepTimes, sleepTimes, Int.add_zero]

theorem sleepTimes_eq_zero {events : List (Calls.Event Fx V E)} (h : ∀ ms, .slept ms ∉ events) :
    sleepTimes events = 0 := by
  induction events with
  | nil => rfl
  | cons e events ih =>
    rw [sleepTimes, ih fun ms hmem => h ms (List.mem_cons_of_mem e hmem), Int.add_zero]
    cases e with
    | slept ms => exact absurd List.mem_cons_self (h ms)
    | effect | awaited => rfl

theorem Wakeful.sleepTimes_eq {trace trace' : List (Calls.Event Fx V E)} (h : Wakeful trace trace') :
    sleepTimes trace' = sleepTimes trace := by
  obtain ⟨events, rfl, hevents⟩ := h
  rw [sleepTimes_append, sleepTimes_eq_zero hevents, Int.add_zero]

/-- An event of a trace that has gone on was there before, or comes now. -/
theorem event_before_or_now {trace events pre post : List (Calls.Event Fx V E)}
    {e : Calls.Event Fx V E} (heq : trace ++ events = pre ++ e :: post) :
    (∃ post', trace = pre ++ e :: post') ∨
      ∃ events', pre = trace ++ events' ∧ events = events' ++ e :: post := by
  rcases List.append_eq_append_iff.1 heq with ⟨events', hpre, hrest⟩ | ⟨events', htrace, hrest⟩
  · exact .inr ⟨events', hpre, hrest⟩
  · rcases events' with _ | ⟨e', events'⟩
    · rw [List.append_nil] at htrace
      exact .inr ⟨[], by rw [htrace, List.append_nil], hrest.symm⟩
    · obtain ⟨rfl, -⟩ := List.cons.inj hrest
      exact .inl ⟨events', htrace⟩

namespace Process

variable {P : Program σ Fx V E} {s s' : Process σ Fx V E} {t : ℕ}

theorem wakeful_awaitResume {c : Completion V E} (h : s.awaitResume P t = some (c, s')) :
    Wakeful s.trace s'.trace := by
  unfold awaitResume at h
  split at h
  · cases h
  · split at h
    · cases h
    · obtain ⟨r, -, hr⟩ := Option.map_eq_some_iff.1 h
      cases hr
      exact wakeful_concat _ fun ms he => by cases he

theorem destroy_trace (s : Process σ Fx V E) (t : ℕ) : (s.destroy t).trace = s.trace := by
  unfold destroy
  split <;> rfl

theorem wakeful_resume (s : Process σ Fx V E) (i : ℕ) (handle : CoroutineHandle) :
    Wakeful s.trace (s.resume P i handle).trace := by
  cases handle with
  | noop => exact wakeful_refl _
  | asyncTask =>
    rw [resume]
    split
    · split
      · exact wakeful_refl _
      · next v s' h =>
        have hw := wakeful_awaitResume h
        rw [← destroy_trace s'] at hw
        exact hw
      · next e s' h => exact (wakeful_awaitResume h :)
    · exact wakeful_refl _
  | task t =>
    rw [resume]
    split
    · exact wakeful_refl _
    · split
      · exact wakeful_refl _
      · next r s' h => exact (wakeful_awaitResume h :)
    · exact wakeful_refl _
    · exact wakeful_refl _

theorem wakeful_awaitTask (s : Process σ Fx V E) (i t u : ℕ) (rest : Completion V E → σ) :
    Wakeful s.trace (s.awaitTask P i t u rest).trace := by
  unfold awaitTask
  split
  · exact wakeful_refl _
  · exact wakeful_refl _
  · split
    · exact wakeful_refl _
    · next r s' h => exact (wakeful_awaitResume h :)
  · exact wakeful_refl _

theorem finalSuspend_trace (s : Process σ Fx V E) (i t : ℕ)
    (g : TaskFrame σ V E → TaskFrame σ V E) : (s.finalSuspend i t g).trace = s.trace := by
  unfold finalSuspend
  split <;> rfl

theorem wakeful_runBody {i : ℕ} {b : σ} (hb : ∀ ms rest, P.next b ≠ .sleep ms rest)
    (h : s.runBody P i t b = some s') : Wakeful s.trace s'.trace := by
  unfold runBody at h
  generalize P.next b = act at h hb
  cases act with
  | effect e rest =>
    obtain rfl := Option.some.inj h
    exact wakeful_concat _ fun ms he => by cases he
  | task body rest =>
    obtain rfl := Option.some.inj h
    exact wakeful_refl _
  | drop u rest =>
    obtain rfl := Option.some.inj h
    change Wakeful s.trace (s.destroy u).trace
    rw [destroy_trace]
    exact wakeful_refl _
  | await u rest =>
    obtain rfl := Option.some.inj h
    exact wakeful_awaitTask ..
  | sleep ms rest => exact absurd rfl (hb ms rest)
  | ret v | throw e =>
    obtain rfl := Option.some.inj h
    rw [finalSuspend_trace]
    exact wakeful_refl _

end Process

/-- A worker goes on in a handler without sleeping. -/
theorem Handler.wakeful_execute {P : Program σ Fx V E} {h : Handler σ Fx V E} {a : Activity σ}
    {p : Process σ Fx V E} (hsleep : h.sleeps P a = none)
    (hx : (h.process a).execute P 0 = some p) : Wakeful h.trace p.trace := by
  cases a with
  | idle | inTimer | ending => cases hx
  | starting coro =>
    obtain rfl := Option.some.inj hx
    exact wakeful_refl _
  | resuming handle =>
    obtain rfl := Option.some.inj hx
    exact Process.wakeful_resume ..
  | inBody t =>
    rcases hf : (h.frames[t]?).map TaskFrame.point with _ | point
    · simp only [Process.execute, process, List.getElem?_cons_zero, hf] at hx
      obtain rfl := Option.some.inj hx
      exact wakeful_refl _
    · cases point with
      | running b =>
        have hb : ∀ ms rest, P.next b ≠ .sleep ms rest := fun ms rest hb => by
          simp [sleeps, hf, hb] at hsleep
        refine Process.wakeful_runBody (s := h.process (.inBody t)) (i := 0) (t := t) hb ?_
        simpa only [Process.execute, process, List.getElem?_cons_zero, hf] using hx
      | initialSuspend | taskAwaiter | timerAwaiter | finalSuspend | destroyed =>
        simp only [Process.execute, process, List.getElem?_cons_zero, hf] at hx
        obtain rfl := Option.some.inj hx
        exact wakeful_refl _

/-! ## The pace of a handler -/

/-- What is known of handler `k`, which was called at `start`. -/
structure Paced (start : TimePoint) (k : ℕ) (h : Handler σ Fx V E)
    (timers : Scheduler (ℕ × CoroutineJob σ)) : Prop where
  elapsed : (∃ job ∈ timers.waiting, ∃ j, job.func = some (k, j)) ∨
    start + sleepTimes h.trace ≤ timers.clock
  late : ∀ job ∈ timers.waiting, ∀ j, job.func = some (k, j) →
    start + sleepTimes h.trace ≤ job.executeTime
  shown : ∀ pre e post, h.trace = pre ++ e :: post → start + sleepTimes pre ≤ timers.clock
  completed : h.asyncTask = .destroyed → start + sleepTimes h.trace ≤ timers.clock

/-- The delays fit the `int` of `TimerAwaiter`, and the clock is not so near to the end of its range
that a deadline is beyond it. -/
def Fits (trace : List (Calls.Event Fx V E)) (clock : TimePoint) : Prop :=
  ∀ ms, .slept ms ∈ trace → 0 ≤ ms ∧ ms < 2 ^ 31 ∧ clock + ms * 1000000 < 2 ^ 63

theorem Fits.mono {trace trace' : List (Calls.Event Fx V E)} {clock clock' : TimePoint}
    (h : Fits trace' clock') (htrace : trace <+: trace') (hclock : clock ≤ clock') :
    Fits trace clock := fun ms hmem => by
  obtain ⟨h₁, h₂, h₃⟩ := h ms (htrace.subset hmem)
  exact ⟨h₁, h₂, (Int.add_le_add_right hclock _).trans_lt h₃⟩

variable {P : Program σ Fx V E} {s s' : Service σ Fx V E} {standings : List (Standing σ)}
  {start : TimePoint} {i k : ℕ} {h h' : Handler σ Fx V E}
  {timers timers' : Scheduler (ℕ × CoroutineJob σ)}

theorem paced_new (root : σ) (k : ℕ) (timers : Scheduler (ℕ × CoroutineJob σ))
    (hnew : ∀ job ∈ timers.waiting, ∀ j, job.func ≠ some (k, j)) :
    Paced timers.clock k (.new root : Handler σ Fx V E) timers where
  elapsed := .inr (Int.add_zero _).le
  late job hjob j hj := absurd hj (hnew job hjob j)
  shown pre e post heq := by
    have hlen := congrArg List.length heq
    simp [Handler.new] at hlen
  completed hd := by cases hd

/-- The clock goes on, jobs of other handlers come, and jobs that are due go. -/
theorem Paced.move (hp : Paced start k h timers) (hclock : timers.clock ≤ timers'.clock)
    (hcome : ∀ job ∈ timers'.waiting, job ∈ timers.waiting ∨ ∀ j, job.func ≠ some (k, j))
    (hgo : ∀ job ∈ timers.waiting, job ∈ timers'.waiting ∨ job.executeTime ≤ timers'.clock) :
    Paced start k h timers' where
  elapsed := by
    rcases hp.elapsed with ⟨job, hjob, j, hj⟩ | helapsed
    · have hlate := hp.late job hjob j hj
      exact (hgo job hjob).imp (fun hjob' => ⟨job, hjob', j, hj⟩) hlate.trans
    · exact .inr (helapsed.trans hclock)
  late job hjob j hj := hp.late job ((hcome job hjob).resolve_right fun hne => hne j hj) j hj
  shown pre e post heq := (hp.shown pre e post heq).trans hclock
  completed hd := (hp.completed hd).trans hclock

/-- A job with the timer thread carries its handler on. -/
theorem Serves.exists_standing_of_waiting (hs : Serves P s standings)
    {job : ScheduledJob (ℕ × CoroutineJob σ)} {j : CoroutineJob σ} (hjob : job ∈ s.timers.waiting)
    (hj : job.func = some (k, j)) : ∃ n, standings[k]? = some ⟨.job j, n⟩ := by
  have hunderway : some (k, j) ∈ underway s.pool s.timers :=
    List.mem_append_left _ (hj ▸ List.mem_map_of_mem hjob)
  have hcarrying := hs.ledger.underway_perm.mem_iff.1 hunderway
  rw [List.mem_map_of_injective (Option.some_injective _)] at hcarrying
  exact mem_carrying.1 hcarrying

/-- While a worker is in a handler, the timer thread has no job of it. -/
theorem Serves.notMem_waiting (hs : Serves P s standings) {a : Activity σ}
    (ha : s.activities[i]? = some (k, a)) (hbusy : a.passive = false) :
    ∀ job ∈ s.timers.waiting, ∀ j, job.func ≠ some (k, j) := by
  intro job hjob j hj
  obtain ⟨n, hst⟩ := (hs.paired i k a).1 ⟨ha, hbusy⟩
  obtain ⟨n', hst'⟩ := hs.exists_standing_of_waiting hjob hj
  cases hst.symm.trans hst'

theorem Paced.elapsed_of_notMem (hp : Paced start k h timers)
    (hne : ∀ job ∈ timers.waiting, ∀ j, job.func ≠ some (k, j)) :
    start + sleepTimes h.trace ≤ timers.clock := by
  refine hp.elapsed.resolve_left ?_
  rintro ⟨job, hjob, j, hj⟩
  exact hne job hjob j hj

/-- A worker goes on in the handler. -/
theorem Paced.turned (hp : Paced start k h timers) (hne : ∀ job ∈ timers.waiting, ∀ j,
    job.func ≠ some (k, j)) (hw : Wakeful h.trace h'.trace) : Paced start k h' timers := by
  have helapsed := hp.elapsed_of_notMem hne
  have heq := hw.sleepTimes_eq
  refine ⟨.inr (by rwa [heq]), fun job hjob j hj => absurd hj (hne job hjob j),
    fun pre e post htrace => ?_, fun _ => by rwa [heq]⟩
  obtain ⟨events, hevents, hnone⟩ := hw
  rw [hevents] at htrace
  rcases event_before_or_now htrace with ⟨post', hpost⟩ | ⟨events', rfl, rfl⟩
  · exact hp.shown pre e post' hpost
  · have hnone' : ∀ ms, .slept ms ∉ events' := fun ms hmem =>
      hnone ms (List.mem_append_left _ hmem)
    rwa [sleepTimes_append, sleepTimes_eq_zero hnone', Int.add_zero]

/-- The handler goes to sleep. -/
theorem Paced.slept (hp : Paced start k h timers) {ms : ℤ} {job : ScheduledJob (ℕ × CoroutineJob σ)}
    {j : CoroutineJob σ} (hne : ∀ job ∈ timers.waiting, ∀ j, job.func ≠ some (k, j))
    (hdone : h.asyncTask ≠ .destroyed) (hasync : h'.asyncTask = h.asyncTask)
    (htrace : h'.trace = h.trace ++ [.slept ms]) (hfunc : job.func = some (k, j))
    (htime : timers.clock + ms * 1000000 ≤ job.executeTime) (hclock : timers'.clock = timers.clock)
    (hwaiting : timers'.waiting.Perm (job :: timers.waiting)) : Paced start k h' timers' := by
  have helapsed := hp.elapsed_of_notMem hne
  have htimes : start + sleepTimes h'.trace = start + sleepTimes h.trace + ms * 1000000 := by
    rw [htrace, sleepTimes_concat, sleepTime, Int.add_assoc]
  refine ⟨.inl ⟨job, hwaiting.mem_iff.2 List.mem_cons_self, j, hfunc⟩, fun job' hjob' j' hj' => ?_,
    fun pre e post heq => ?_, fun hd => absurd (hasync ▸ hd) hdone⟩
  · rcases List.mem_cons.1 (hwaiting.mem_iff.1 hjob') with rfl | hjob'
    · rw [htimes]
      exact (Int.add_le_add_right helapsed _).trans htime
    · exact absurd hj' (hne job' hjob' j')
  · rw [hclock]
    rw [htrace] at heq
    rcases event_before_or_now heq with ⟨post', hpost⟩ | ⟨events, rfl, hevents⟩
    · exact hp.shown pre e post' hpost
    · -- there is one event now, and nothing before it
      rcases events with _ | ⟨e', events⟩
      · rwa [List.append_nil]
      · have hlen := congrArg List.length hevents
        simp at hlen

/-- A call of `execute_after` with a delay that fits. -/
theorem deadline_le {now ms : ℤ} (hnow : -2 ^ 63 ≤ now) (h : 0 ≤ ms ∧ ms < 2 ^ 31 ∧
    now + ms * 1000000 < 2 ^ 63) :
    now + ms * 1000000 ≤ Scheduler.wrap (now + Scheduler.wrap (timerDelay ms * 1000000)) :=
  (le_wrap_iff ⟨hnow, by omega⟩ h.1).2 (.inl h.2)

theorem Service.step_clock {l : ServiceStep σ} (hstep : s.step P l = some s') :
    s.timers.clock ≤ s'.timers.clock := by
  cases Service.step_cases hstep with
  | timers hl htimers => exact Scheduler.step_clock htimers
  | pass hjob htimers hpool => exact Scheduler.step_clock htimers
  | slept ha hm hsleep htimers => exact Scheduler.step_clock htimers
  | call | pool | invoke | returned | finish | turned => exact Int.le_refl _

/-- A handler takes back nothing that it has shown. -/
theorem Service.step_handler {l : ServiceStep σ} (hstep : s.step P l = some s')
    (hk : s.handlers[k]? = some h) : ∃ h', s'.handlers[k]? = some h' ∧ h.trace <+: h'.trace := by
  have hlt := (List.getElem?_eq_some_iff.1 hk).1
  have hset : ∀ (m : ℕ) (g g' : Handler σ Fx V E), s.handlers[m]? = some g → g.trace <+: g'.trace →
      ∃ h', (s.handlers.set m g')[k]? = some h' ∧ h.trace <+: h'.trace := by
    intro m g g' hm hle
    rcases eq_or_ne m k with rfl | hne
    · obtain rfl := Option.some.inj (hk.symm.trans hm)
      exact ⟨g', List.getElem?_set_self hlt, hle⟩
    · exact ⟨h, by rwa [List.getElem?_set_ne hne], List.prefix_rfl⟩
  cases Service.step_cases hstep with
  | call hpool => exact ⟨h, by rwa [List.getElem?_append_left hlt], List.prefix_rfl⟩
  | pool | timers | pass | invoke | returned | finish => exact ⟨h, hk, List.prefix_rfl⟩
  | slept ha hm hsleep htimers => exact hset _ _ _ hm (List.prefix_append ..)
  | turned ha hne hm hsleep hx =>
    obtain ⟨events, htrace, -⟩ := Handler.wakeful_execute hsleep hx
    exact hset _ _ _ hm ⟨events, htrace.symm⟩

/-- A worker lets a coroutine of handler `m` sleep. -/
theorem Paced.step_slept (hp : Paced start k h s.timers) (hs : Serves P s standings)
    (hclock : -2 ^ 63 ≤ s.timers.clock) (hk : s.handlers[k]? = some h) {m t : ℕ} {a : Activity σ}
    {g : Handler σ Fx V E} {ms : ℤ} {rest : σ} (ha : s.activities[i]? = some (m, a))
    (hm : s.handlers[m]? = some g) (hsleep : g.sleeps P a = some (t, ms, rest))
    (htimers : s.timers.step (.executeAfter i (timerDelay ms) (some (m, .resume (.task t)))) =
      some timers) (hk' : (s.handlers.set m (g.suspend t ms rest))[k]? = some h')
    (hfits : Fits h'.trace timers.clock) : Paced start k h' timers := by
  obtain ⟨hclock', hperm⟩ := hs.ledger.timely.waiting_executeAfter htimers
  rcases eq_or_ne m k with rfl | hne
  · obtain rfl := Option.some.inj (hk.symm.trans hm)
    rw [List.getElem?_set_self (List.getElem?_eq_some_iff.1 hk).1] at hk'
    obtain rfl := Option.some.inj hk'
    obtain ⟨n, hst, -⟩ := hs.slept ha hm hsleep htimers
    have hbusy := ((hs.paired i m a).2 ⟨n, hst⟩).2
    have hphase := hs.phase m h _ hm hst
    have hfit := hfits ms (List.mem_append_right _ (List.mem_singleton_self _))
    rw [hclock'] at hfit
    exact hp.slept (hs.notMem_waiting ha hbusy)
      (fun hd => by cases (Handler.destroyed_iff hphase).1 hd) rfl rfl rfl
      (deadline_le hclock hfit) hclock' hperm
  · rw [List.getElem?_set_ne hne] at hk'
    obtain rfl := Option.some.inj (hk.symm.trans hk')
    refine hp.move hclock'.ge (fun job hjob => ?_)
      fun job hjob => .inl (hperm.mem_iff.2 (List.mem_cons_of_mem _ hjob))
    rcases List.mem_cons.1 (hperm.mem_iff.1 hjob) with rfl | hjob
    · exact .inr fun j hj => hne (Prod.mk.inj (Option.some.inj hj)).1
    · exact .inl hjob

/-- A worker goes on in handler `m`. -/
theorem Paced.step_turned (hp : Paced start k h s.timers) (hs : Serves P s standings)
    (hk : s.handlers[k]? = some h) {m : ℕ} {a : Activity σ} {g : Handler σ Fx V E}
    {p : Process σ Fx V E} (ha : s.activities[i]? = some (m, a)) (hne : a ≠ .inTimer)
    (hm : s.handlers[m]? = some g) (hsleep : g.sleeps P a = none)
    (hx : (g.process a).execute P 0 = some p)
    (hk' : (s.handlers.set m ⟨g.root, p.frames, p.asyncTask, p.trace⟩)[k]? = some h') :
    Paced start k h' s.timers := by
  rcases eq_or_ne m k with rfl | hmk
  · obtain rfl := Option.some.inj (hk.symm.trans hm)
    rw [List.getElem?_set_self (List.getElem?_eq_some_iff.1 hk).1] at hk'
    obtain rfl := Option.some.inj hk'
    have hbusy : a.passive = false := by
      cases a with
      | starting | resuming | inBody => rfl
      | inTimer => exact absurd rfl hne
      | idle | ending => cases hx
    exact hp.turned (hs.notMem_waiting ha hbusy) (Handler.wakeful_execute hsleep hx)
  · rw [List.getElem?_set_ne hmk] at hk'
    obtain rfl := Option.some.inj (hk.symm.trans hk')
    exact hp

theorem Paced.step {l : ServiceStep σ} (hp : Paced start k h s.timers) (hs : Serves P s standings)
    (hclock : -2 ^ 63 ≤ s.timers.clock) (hk : s.handlers[k]? = some h)
    (hstep : s.step P l = some s') (hk' : s'.handlers[k]? = some h')
    (hfits : Fits h'.trace s'.timers.clock) : Paced start k h' s'.timers := by
  cases Service.step_cases hstep with
  | call hpool =>
    rw [List.getElem?_append_left (List.getElem?_eq_some_iff.1 hk).1] at hk'
    obtain rfl := Option.some.inj (hk.symm.trans hk')
    exact hp
  | pool | invoke | returned | finish =>
    obtain rfl := Option.some.inj (hk.symm.trans hk')
    exact hp
  | timers hl htimers =>
    obtain rfl := Option.some.inj (hk.symm.trans hk')
    have hperm := hs.ledger.timely.waiting_internal hl htimers
    exact hp.move (Scheduler.step_clock htimers) (fun job hjob => .inl (hperm.mem_iff.1 hjob))
      fun job hjob => .inl (hperm.mem_iff.2 hjob)
  | @pass job timers pool hjob htimers hpool =>
    obtain rfl := Option.some.inj (hk.symm.trans hk')
    have hperm := hs.ledger.timely.waiting_pass hjob htimers
    have hdue := hs.ledger.timely.due job (by simp [hjob, TimerThread.inFlight])
    refine hp.move (Scheduler.step_clock htimers)
      (fun job' hjob' => .inl (hperm.mem_iff.2 (List.mem_cons_of_mem _ hjob'))) fun job' hjob' => ?_
    rcases List.mem_cons.1 (hperm.mem_iff.1 hjob') with rfl | hjob'
    · exact .inr (hdue.trans (Scheduler.step_clock htimers))
    · exact .inl hjob'
  | slept ha hm hsleep htimers => exact hp.step_slept hs hclock hk ha hm hsleep htimers hk' hfits
  | turned ha hne hm hsleep hx => exact hp.step_turned hs hk ha hne hm hsleep hx hk'

/-! ## Every run -/

variable {n nextQueue : BitVec 64} {clock : TimePoint} {ls ls' : List (ServiceStep σ)} {root : σ}

theorem le_clock_of_run (hrun : run (Service.step P) (.new n nextQueue clock) ls = some s) :
    clock ≤ s.timers.clock :=
  Steps.invariant (P := fun s : Service σ Fx V E => clock ≤ s.timers.clock)
    (fun _ _ _ hle hstep => hle.trans (Service.step_clock hstep)) ⟨ls, hrun⟩ (Int.le_refl _)

/-- The timer thread has no job of a handler that is still to be called. -/
theorem Serves.notMem_waiting_length (hs : Serves P s standings) :
    ∀ job ∈ s.timers.waiting, ∀ j, job.func ≠ some (s.handlers.length, j) := by
  intro job hjob j hj
  obtain ⟨n, hst⟩ := hs.exists_standing_of_waiting hjob hj
  have hlt := (List.getElem?_eq_some_iff.1 hst).1
  rw [hs.length_eq] at hlt
  exact Nat.lt_irrefl _ hlt

/-- Handler `k` is there, and at its pace as long as its delays fit. -/
structure Pacing (P : Program σ Fx V E) (start : TimePoint) (k : ℕ) (s : Service σ Fx V E) :
    Prop where
  serves : (∃ standings, Serves P s standings) ∨ Ended P s
  clock : -2 ^ 63 ≤ s.timers.clock
  called : k < s.handlers.length
  paced : ∀ h, s.handlers[k]? = some h → Fits h.trace s.timers.clock → Paced start k h s.timers

/-- `consumer::call` begins a handler. -/
theorem Serves.pacing_call (hs : Serves P s standings) (hclock : -2 ^ 63 ≤ s.timers.clock)
    (hw : P.WellUsed root) (hstep : s.step P (.call root) = some s') :
    Pacing P s.timers.clock s.handlers.length s' := by
  have hserves := hs.step (fun r he => ServiceStep.call.inj he ▸ hw) hstep
  cases Service.step_cases hstep with
  | call hpool =>
    refine ⟨hserves, hclock, by simp, fun h hk hfits => ?_⟩
    rw [List.getElem?_concat_length] at hk
    obtain rfl := Option.some.inj hk
    exact paced_new root _ s.timers hs.notMem_waiting_length

theorem Pacing.step {l : ServiceStep σ} (hp : Pacing P start k s)
    (hw : ∀ r, l = .call r → P.WellUsed r) (hstep : s.step P l = some s') :
    Pacing P start k s' := by
  obtain ⟨standings, hs⟩ | hend := hp.serves
  · have hk := List.getElem?_eq_getElem hp.called
    obtain ⟨h', hk', htrace⟩ := Service.step_handler hstep hk
    have hclock := Service.step_clock hstep
    refine ⟨hs.step hw hstep, hp.clock.trans hclock, (List.getElem?_eq_some_iff.1 hk').1,
      fun h'' hk'' hfits => ?_⟩
    obtain rfl := Option.some.inj (hk'.symm.trans hk'')
    exact (hp.paced _ hk (hfits.mono htrace hclock)).step hs hp.clock hk hstep hk' hfits
  · cases (hend.step_eq l).symm.trans hstep

/-- The handler of a call, in every state that is reached after the call. -/
theorem pacing_of_run {s₀ : Service σ Fx V E} (hn : 0 < n.toNat) (hclock : -2 ^ 63 ≤ clock)
    (hroots : ∀ r, .call r ∈ ls ++ .call root :: ls' → P.WellUsed r)
    (hrun : run (Service.step P) (.new n nextQueue clock) ls = some s₀)
    (hrun' : run (Service.step P) s₀ (.call root :: ls') = some s) :
    Pacing P s₀.timers.clock s₀.handlers.length s := by
  obtain ⟨s₁, hcall, hrun'⟩ := Option.bind_eq_some_iff.1 hrun'
  have hserves := (serves_or_ended hn (fun r hr => hroots r (List.mem_append_left _ hr)) hrun).1
  have hcalled : Pacing P s₀.timers.clock s₀.handlers.length s₁ := by
    obtain ⟨standings, hs⟩ | hend := hserves
    · exact hs.pacing_call (hclock.trans (le_clock_of_run hrun)) (hroots root (by simp)) hcall
    · cases (hend.step_eq _).symm.trans hcall
  refine run_induction (P := fun ls s => (∀ r, .call r ∈ ls → P.WellUsed r) →
    Pacing P s₀.timers.clock s₀.handlers.length s) (fun _ => hcalled)
    (fun ls s l s' ih hl hw => ?_) hrun' fun r hr => hroots r (by simp [hr])
  exact (ih fun r hr => hw r (List.mem_append_left _ hr)).step
    (fun r he => hw r (by simp [he])) hl

/-- A handler takes at least as long as it sleeps.  Let a service with at least one worker call a
coroutine when its clock is at `s₀.timers.clock`, among any other calls, and let the delays of the
handler of this call fit.  In every state reached later, in whatever order the threads take their
turns:

* whatever the handler has shown (an effect, a result of a `co_await`, the beginning of a sleep) came
  when the clock had gone on by all the sleeps before, in the handler itself and in the Tasks that it
  awaits;
* the clock has gone on by all its sleeps, or the timer thread has a job of it for a time that is later
  than the call by all its sleeps;
* if it has completed, the clock has gone on by all its sleeps. -/
theorem sleeps_add_up {s₀ : Service σ Fx V E} (hn : 0 < n.toNat) (hclock : -2 ^ 63 ≤ clock)
    (hroots : ∀ r, .call r ∈ ls ++ .call root :: ls' → P.WellUsed r)
    (hrun : run (Service.step P) (.new n nextQueue clock) ls = some s₀)
    (hrun' : run (Service.step P) s₀ (.call root :: ls') = some s)
    (hk : s.handlers[s₀.handlers.length]? = some h) (hfits : Fits h.trace s.timers.clock) :
    (∀ pre e post, h.trace = pre ++ e :: post →
      s₀.timers.clock + sleepTimes pre ≤ s.timers.clock) ∧
    (s₀.timers.clock + sleepTimes h.trace ≤ s.timers.clock ∨
      ∃ job ∈ s.timers.waiting, ∃ j, job.func = some (s₀.handlers.length, j) ∧
        s₀.timers.clock + sleepTimes h.trace ≤ job.executeTime) ∧
    (h.asyncTask = .destroyed → s₀.timers.clock + sleepTimes h.trace ≤ s.timers.clock) := by
  have hp := (pacing_of_run hn hclock hroots hrun hrun').paced h hk hfits
  refine ⟨hp.shown, ?_, hp.completed⟩
  rcases hp.elapsed with ⟨job, hjob, j, hj⟩ | helapsed
  · exact .inr ⟨job, hjob, j, hj, hp.late job hjob j hj⟩
  · exact .inl helapsed

/-- A call that is left to wait, up to clock reading 7. -/
def waitingCall : List (ServiceStep TopicBody) :=
  [.call logOnly, .pool (.push 1), .pool (.notify 1), .timers (.tick 7)]

/-- What follows the call of a coroutine that sleeps: the worker does this one first. -/
def sleeperFirst : List (ServiceStep TopicBody) :=
  [.pool (.push 1), .pool (.notify 1), .pool (.lock 0), .pool (.enter 0), .invoke 0, .execute 0,
    .execute 0, .execute 0, .execute 0, .execute 0, .execute 0, .timers (.push 0),
    .timers (.notify 0), .execute 0, .finish 0, .pool (.leave 0), .timers (.tick 5000007),
    .timers .test, .timers (.lock 0), .pass, .pool (.push 0), .pool (.notify 0), .pool (.lock 0),
    .pool (.enter 0), .invoke 0, .execute 0, .execute 0, .execute 0, .execute 0, .execute 0,
    .execute 0, .execute 0]

/-- The second call is made at clock reading 7, and its Task sleeps for 5 milliseconds. -/
theorem sleeps_add_up_two :
    ∃ s₀ s h, run (Service.step topicProgram) (.new 1 0 0) waitingCall = some s₀ ∧
      run (Service.step topicProgram) s₀ (.call catchSleeper :: sleeperFirst) = some s ∧
      s.handlers[1]? = some h ∧ h.asyncTask = .destroyed ∧ sleepTimes h.trace = 5000000 ∧
      7 + sleepTimes h.trace ≤ s.timers.clock := by
  obtain ⟨s₀, hs₀, hview₀⟩ := Option.map_eq_some_iff.1
    (show (run (Service.step topicProgram) (.new 1 0 0) waitingCall).map
      (fun s => (s.handlers.length, s.timers.clock)) = some (1, 7) by decide)
  obtain ⟨s, hs, hview⟩ := Option.map_eq_some_iff.1
    (show (run (Service.step topicProgram) (.new 1 0 0)
      (waitingCall ++ .call catchSleeper :: sleeperFirst)).map (fun s =>
        (s.handlers.map Handler.trace, s.handlers.map Handler.asyncTask, s.timers.clock)) =
      some ([[], [.slept 5, .awaited 1 (.exception .outOfRange), .effect (.log []) .void,
        .awaited 0 (.value .void)]], [.notStarted, .destroyed], 5000007) by decide)
  obtain ⟨s₀', hs₀', hs⟩ := run_append_eq_some_iff.1 hs
  obtain rfl := Option.some.inj (hs₀.symm.trans hs₀')
  obtain ⟨hlen, hstart⟩ := Prod.mk.inj hview₀
  obtain ⟨htraces, hview⟩ := Prod.mk.inj hview
  obtain ⟨hasyncs, hclock⟩ := Prod.mk.inj hview
  obtain ⟨h, hk, htrace⟩ := Option.map_eq_some_iff.1 (List.getElem?_map.symm.trans
    (congrArg (·[1]?) htraces))
  have hasync : h.asyncTask = .destroyed := by
    have := congrArg (·[1]?) hasyncs
    rw [List.getElem?_map, hk] at this
    exact Option.some.inj this
  have hroots : ∀ r, .call r ∈ waitingCall ++ .call catchSleeper :: sleeperFirst →
      topicProgram.WellUsed r := fun r hr => by
    have hr' : r = logOnly ∨ r = catchSleeper := by simpa [waitingCall, sleeperFirst] using hr
    rcases hr' with rfl | rfl
    · exact returns_logOnly.wellUsed
    · exact wellUsed_catchSleeper
  have hfits : Fits h.trace s.timers.clock := fun ms hmem => by
    rw [htrace] at hmem
    have hms : ms = 5 := by simpa using hmem
    rw [hms, hclock]
    decide
  have hdone := (sleeps_add_up (by decide) (by decide) hroots hs₀ hs (hlen ▸ hk) hfits).2.2 hasync
  rw [hstart] at hdone
  exact ⟨s₀, s, h, hs₀, hs, hk, hasync, by rw [htrace]; rfl, hdone⟩

/-- The handler of a call belongs to the coroutine that was called. -/
theorem root_of_run {s₀ : Service σ Fx V E} (hn : 0 < n.toNat)
    (hroots : ∀ r, .call r ∈ ls ++ .call root :: ls' → P.WellUsed r)
    (hrun : run (Service.step P) (.new n nextQueue clock) ls = some s₀)
    (hrun' : run (Service.step P) s₀ (.call root :: ls') = some s)
    (hk : s.handlers[s₀.handlers.length]? = some h) : h.root = root := by
  have hmap₀ := (serves_or_ended hn (fun r hr => hroots r (List.mem_append_left _ hr)) hrun).2
  have hmap := (serves_or_ended hn hroots (run_append_eq_some_iff.2 ⟨s₀, hrun, hrun'⟩)).2
  have hcalled : (ServiceStep.call root :: ls').filterMap ServiceStep.called =
      root :: ls'.filterMap ServiceStep.called := rfl
  have hroot := congrArg (·[s₀.handlers.length]?) hmap
  rw [List.filterMap_append, ← hmap₀, List.getElem?_map, hk, hcalled,
    List.getElem?_append_right (List.length_map _).le, List.length_map, Nat.sub_self] at hroot
  exact Option.some.inj hroot

/-! ## `task.hello` -/

/-- What a completed handler has shown. -/
theorem Serves.trace_of_completed (hs : Serves P s standings) (hk : s.handlers[k]? = some h)
    (hd : h.asyncTask = .destroyed) {j : ℕ} {c : Completion V E} {m : Memory σ Fx V E}
    (hplain : P.run h.root j = .done c m) : h.trace = m.trace ++ [.awaited 0 c] := by
  obtain ⟨st, hst⟩ := hs.exists_standing hk
  obtain ⟨a, hsound⟩ := Handler.exists_sound (hs.phase k h st hk hst)
  obtain ⟨v, m', hend, hc⟩ := hsound.exists_completed hd
  obtain ⟨rfl, rfl⟩ := Program.run_unique hplain (Program.run_of_after hend)
  exact hc.trace

/-- The handler shows something and sleeps for a second. -/
theorem sleepTimes_second (m : Memory σ Fx V E) (e : Fx) (answer : V) :
    sleepTimes ((m.emit (.effect e answer)).emit (.slept 1000)).trace =
      sleepTimes m.trace + 1000000000 := by
  have heffect : sleepTime (.effect e answer : Calls.Event Fx V E) = 0 := rfl
  rw [Memory.emit, sleepTimes_concat, Memory.emit, sleepTimes_concat, heffect, Int.add_zero]
  rfl

namespace Hello

/-- Each of the iterations sleeps for a second. -/
theorem call_loop (rest : TopicBody) (n i j : ℕ)
    (m : Memory TopicBody TopicEffect TopicValue StdException) : ∃ m',
    topicProgram.call (j + 2 * n) m (loop rest n i) = topicProgram.call j m' rest ∧
      sleepTimes m'.trace = sleepTimes m.trace + n * 1000000000 ∧
      ∀ ms, .slept ms ∈ m'.trace → .slept ms ∈ m.trace ∨ ms = 1000 := by
  induction n generalizing i m with
  | zero => exact ⟨m, rfl, by simp, fun ms hmem => .inl hmem⟩
  | succ n ih =>
    let e : TopicEffect :=
      .log [.str (bytes "[Handler] Sleeping for 1 second, iteration "), .int (i + 1)]
    let m₁ := (m.emit (.effect e (topicProgram.answer m.trace e))).emit (.slept 1000)
    obtain ⟨m', hcall, htimes, hslept⟩ := ih (i + 1) m₁
    refine ⟨m', hcall, ?_, fun ms hmem => ?_⟩
    · have hsecond : sleepTimes m₁.trace = sleepTimes m.trace + 1000000000 := sleepTimes_second ..
      rw [htimes, hsecond]
      omega
    · rcases hslept ms hmem with hmem | rfl
      · rcases List.mem_append.1 hmem with hmem | hmem
        · rcases List.mem_append.1 hmem with hmem | hmem
          · exact .inl hmem
          · cases List.mem_singleton.1 hmem
        · exact .inr (Event.slept.inj (List.mem_singleton.1 hmem))
      · exact .inr rfl

theorem run_onCall (name payload : Str) : ∃ m,
    topicProgram.run (onCall name payload) 26 = .done (.value .void) m ∧
      sleepTimes m.trace = 10000000000 ∧ ∀ ms, .slept ms ∈ m.trace → ms = 1000 := by
  let first : List LogItem := [.str (bytes "Execute topic "), .str name]
  let second : List LogItem :=
    [.str (bytes "[Handler] Task started with payload: "), .str payload]
  let m₀ : Memory TopicBody TopicEffect TopicValue StdException :=
    ⟨[.running], [.effect (.log first) .void, .effect (.log second) .void,
      .effect (.log [.str (bytes "[Handler] About to sleep")]) .void]⟩
  obtain ⟨m, hcall, htimes, hslept⟩ := call_loop
    (log [.str (bytes "[Handler] Sleep completed")] <|
      log [.str (bytes "[Handler] Task completed successfully")] <| .ret .void) 10 0 3 m₀
  have hfirst : sleepTimes m₀.trace = 0 := rfl
  refine ⟨(m.emit (.effect (.log [.str (bytes "[Handler] Sleep completed")]) .void)).emit
    (.effect (.log [.str (bytes "[Handler] Task completed successfully")]) .void), hcall, ?_,
    fun ms hmem => ?_⟩
  · rw [Memory.emit, sleepTimes_concat, Memory.emit, sleepTimes_concat, htimes, hfirst]
    rfl
  · have hmem' : .slept ms ∈ m.trace := by
      rcases List.mem_append.1 hmem with hmem | hmem
      · rcases List.mem_append.1 hmem with hmem | hmem
        · exact hmem
        · cases List.mem_singleton.1 hmem
      · cases List.mem_singleton.1 hmem
    exact (hslept ms hmem').resolve_left fun hmem => by simp [m₀] at hmem

/-- `task.hello` completes ten seconds after its call at the earliest, however many handlers share the
pool and the timer thread with it. -/
theorem lasts {ls ls' : List (ServiceStep TopicBody)}
    {s₀ s : Service TopicBody TopicEffect TopicValue StdException}
    {h : Handler TopicBody TopicEffect TopicValue StdException} {name payload : Str}
    (hn : 0 < n.toNat) (hclock : -2 ^ 63 ≤ clock)
    (hroots : ∀ r, .call r ∈ ls ++ .call (onCall name payload) :: ls' → topicProgram.WellUsed r)
    (hrun : run (Service.step topicProgram) (.new n nextQueue clock) ls = some s₀)
    (hrun' : run (Service.step topicProgram) s₀ (.call (onCall name payload) :: ls') = some s)
    (hend : s.timers.clock + 1000000000 < 2 ^ 63) (hlive : s.terminated = false)
    (hk : s.handlers[s₀.handlers.length]? = some h) (hd : h.asyncTask = .destroyed) :
    s₀.timers.clock + 10000000000 ≤ s.timers.clock := by
  have hp := pacing_of_run hn hclock hroots hrun hrun'
  obtain ⟨standings, hs⟩ : ∃ standings, Serves topicProgram s standings :=
    hp.serves.resolve_right fun hended => by simp [hended.terminated] at hlive
  have hroot := root_of_run hn hroots hrun hrun' hk
  obtain ⟨m, hplain, htimes, hslept⟩ := run_onCall name payload
  have htrace := hs.trace_of_completed hk hd (hroot ▸ hplain)
  have hfits : Fits h.trace s.timers.clock := fun ms hmem => by
    rw [htrace] at hmem
    obtain rfl : ms = 1000 := hslept ms (by simpa using hmem)
    exact ⟨by decide, by decide, hend⟩
  have hdone := (hp.paced h hk hfits).completed hd
  rwa [htrace, sleepTimes_concat, htimes] at hdone

end Hello

end EllohimMQ
