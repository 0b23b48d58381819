import EllohimMQ.Proof.Coroutines

/-!
# Where the threads are

The simulation says what carries the execution on, and leaves open where the other threads are.
`Ready` says it: which callers are inside `queue_job` and `execute_after`, that a worker has an
activity exactly while it executes a job, and that neither the workers nor the timer thread leave
their loops.  None of this depends on what the coroutines do, so a step inside a job's function is
described only by the threads it moves (`Within`).
-/

namespace EllohimMQ

open Calls Transition

/-- The worker is in `std::invoke`. -/
def Worker.executes {F : Type} : Worker F → Bool
  | .executing _ => true
  | _ => false

/-- The worker is in no job. -/
def Activity.isIdle {σ : Type} : Activity σ → Bool
  | .idle => true
  | _ => false

/-- The job's function ends with an exception, which the worker catches. -/
def Activity.throws {σ : Type} : Activity σ → Bool
  | .ending .threw => true
  | _ => false

/-! ## Where the threads can be -/

namespace ThreadPool

variable {F : Type} {s s' : ThreadPool F} {l : PoolStep F}

/-- No worker leaves its loop while jobs are accepted. -/
theorem lock_worker (ha : s.acceptJobs = true) (i : ℕ) :
    ∃ w, (s.lock i).workers = s.workers.set i w ∧ w.executes = false ∧ w.hasExited = false := by
  unfold lock
  split_ifs with hwait hstop
  · exact ⟨_, rfl, rfl, rfl⟩
  · rw [ha] at hstop
    cases hstop
  · exact ⟨_, rfl, rfl, rfl⟩

/-- An internal step moves only callers that are inside `queue_job`. -/
theorem step_internal_producers (hl : l.internal = true) (h : s.step l = some s') {p : ℕ}
    (hp : s.producers[p]? = some .idle) : s'.producers[p]? = some .idle := by
  have hset : ∀ {q c c'}, s.producers[q]? = some c → c ≠ .idle →
      (s.producers.set q c')[p]? = some .idle := fun {q c c'} hq hc => by
    refine (List.getElem?_set_ne ?_).trans hp
    rintro rfl
    exact hc (Option.some.inj (hq.symm.trans hp))
  cases step_cases h with
  | push hq =>
    unfold push
    split <;> exact hset hq nofun
  | notify hq => exact hset hq nofun
  | lock hw =>
    rw [lock_producers]
    exact hp
  | wake | enter | leave => exact hp
  | queueJob | invoke | finish | destroyStop | destroyNotify | destroyClear => cases hl

theorem step_internal_producers_length (hl : l.internal = true) (h : s.step l = some s') :
    s'.producers.length = s.producers.length := by
  cases step_cases h with
  | push hq =>
    unfold push
    split <;> exact List.length_set ..
  | notify hq => exact List.length_set ..
  | lock hw => rw [lock_producers]
  | wake | enter | leave => rfl
  | queueJob | invoke | finish | destroyStop | destroyNotify | destroyClear => cases hl

/-- An internal step neither begins nor ends the execution of a job, and ends no loop. -/
theorem step_internal_workers (ha : s.acceptJobs = true) (hl : l.internal = true)
    (h : s.step l = some s') {i : ℕ} {w' : Worker F} (hw' : s'.workers[i]? = some w') :
    ∃ w, s.workers[i]? = some w ∧ w'.executes = w.executes ∧
      (w.hasExited = false → w'.hasExited = false) := by
  have hset : ∀ {k v v'}, s.workers[k]? = some v → (s.workers.set k v')[i]? = some w' →
      v'.executes = v.executes → (v.hasExited = false → v'.hasExited = false) →
      ∃ w, s.workers[i]? = some w ∧ w'.executes = w.executes ∧
        (w.hasExited = false → w'.hasExited = false) := fun {k v v'} hv hi he hx => by
    rw [List.getElem?_set] at hi
    split_ifs at hi with hk
    · cases hi
      exact ⟨v, hk ▸ hv, he, hx⟩
    · exact ⟨w', hi, rfl, id⟩
  cases step_cases h with
  | @push p index job hq =>
    have : (s.push p job index).workers = s.workers := by
      unfold push
      split <;> rfl
    rw [this] at hw'
    exact ⟨w', hw', rfl, id⟩
  | notify hq =>
    change (notifyAll s.workers)[i]? = some w' at hw'
    rw [notifyAll, List.getElem?_map] at hw'
    obtain ⟨w, hw, rfl⟩ := Option.map_eq_some_iff.1 hw'
    exact ⟨w, hw, by cases w <;> rfl, fun hx => by cases w <;> first | rfl | exact hx⟩
  | @lock k hw =>
    obtain ⟨v, hv, he, hx⟩ := lock_worker ha k
    rw [hv] at hw'
    exact hset hw hw' he fun _ => hx
  | wake hw => exact hset hw hw' rfl id
  | enter hw => exact hset hw hw' rfl id
  | leave hw => exact hset hw hw' rfl id
  | queueJob | invoke | finish | destroyStop | destroyNotify | destroyClear => cases hl

end ThreadPool

namespace Scheduler

variable {F : Type} {s s' : Scheduler F} {l : SchedulerStep F}

/-- While the scheduler runs, its thread does not leave its loop, and it comes to a place outside
`queue_job` from such a place, or by the test that follows the call. -/
theorem step_internal_thread (hr : s.running = true) (ht : s.thread ≠ .exited)
    (hl : l.internal = true ∨ l = .test) (h : s.step l = some s') :
    s'.running = true ∧ s'.thread ≠ .exited ∧
      (s'.thread ≠ .testing → s.thread ≠ .testing ∨ l = .test) := by
  cases l with
  | tick now =>
    simp only [step] at h
    split_ifs at h
    cases h
    exact ⟨hr, ht, .inl⟩
  | push p =>
    simp only [step] at h
    split at h <;> cases h
    exact ⟨hr, ht, .inl⟩
  | notify p =>
    simp only [step] at h
    split at h <;> cases h
    refine ⟨hr, ?_, fun hne => .inl fun e => hne (congrArg notified e)⟩
    revert ht
    cases s.thread <;> simp [notified]
  | test =>
    simp only [step, hr, if_true] at h
    split at h <;> cases h
    exact ⟨rfl, by simp, fun _ => .inr rfl⟩
  | lock top =>
    simp only [step] at h
    split at h
    · next hlocking =>
      have hne : s.thread ≠ .testing := by simp [hlocking]
      unfold lock at h
      rw [hr] at h
      split at h
      · cases h
        exact ⟨rfl, by simp, fun _ => .inl hne⟩
      · split at h
        · cases h
        · split_ifs at h
          · cases h
            exact ⟨rfl, by simp, fun _ => .inl hne⟩
          · cases h
            exact ⟨rfl, by simp, fun _ => .inl hne⟩
    · cases h
  | wake =>
    simp only [step] at h
    split at h <;> cases h
    · next hw => exact ⟨hr, by simp, fun _ => .inl (by simp [hw])⟩
    · next hw => exact ⟨hr, by simp, fun hne => absurd rfl hne⟩
  | relock =>
    simp only [step, hr] at h
    split at h
    · next hw =>
      cases h
      refine ⟨rfl, ?_, fun _ => .inl (by simp [hw])⟩
      dsimp only
      split_ifs <;> simp
    · cases h
  | executeAt | executeAfter | pass | destroyStop | destroyNotify | destroyJoin =>
    rcases hl with hl | hl <;> cases hl

/-- An internal step puts no thread inside `execute_after`. -/
theorem step_internal_submitters (hl : l.internal = true ∨ l = .test) (h : s.step l = some s') :
    s'.submitters.length = s.submitters.length ∧ ∀ (i : ℕ) (u' : Submitter F),
      s'.submitters[i]? = some u' → ∃ u, s.submitters[i]? = some u ∧ (u = .idle → u' = .idle) := by
  have hset : ∀ {p : ℕ} {v v' : Submitter F}, s.submitters[p]? = some v → v ≠ .idle →
      ∀ (i : ℕ) (u' : Submitter F), (s.submitters.set p v')[i]? = some u' →
        ∃ u, s.submitters[i]? = some u ∧ (u = .idle → u' = .idle) := fun {p v v'} hv hne i u' hi => by
    rw [List.getElem?_set] at hi
    split_ifs at hi with hk
    · exact ⟨v, hk ▸ hv, fun e => absurd e hne⟩
    · exact ⟨u', hi, id⟩
  cases step_cases h with
  | push hp => exact ⟨List.length_set .., hset hp nofun⟩
  | notify hp => exact ⟨List.length_set .., hset hp nofun⟩
  | tick | test | empty | pop | waitUntil | wake | wakeUntil | relock =>
    exact ⟨rfl, fun i u' hu' => ⟨u', hu', id⟩⟩
  | executeAt | executeAfter | pass | destroyStop | destroyNotify | destroyJoin =>
    rcases hl with hl | hl <;> cases hl

end Scheduler

variable {σ Fx V E : Type} {P : Program σ Fx V E} {root : σ} {s s' : Process σ Fx V E} {i t : ℕ}

/-- Worker `i` stays inside its job's function and touches only coroutines. -/
structure Within (s s' : Process σ Fx V E) (i : ℕ) : Prop where
  pool : s'.pool = s.pool
  timers : s'.timers = s.timers
  called : s'.called = s.called
  activities : s'.activities = s.activities ∨
    ∃ a, a.isIdle = false ∧ a.throws = false ∧ s'.activities = s.activities.set i a

theorem within_destroy (s : Process σ Fx V E) (t i : ℕ) : Within s (s.destroy t) i := by
  unfold Process.destroy
  split <;> exact ⟨rfl, rfl, rfl, .inl rfl⟩

/-- `await_resume` touches no thread. -/
theorem within_awaitResume {r : Completion V E} (h : s.awaitResume P t = some (r, s')) :
    s'.pool = s.pool ∧ s'.timers = s.timers ∧ s'.called = s.called ∧
      s'.activities = s.activities := by
  unfold Process.awaitResume at h
  split at h
  · cases h
  · split at h
    · cases h
    · obtain ⟨r, -, hr⟩ := Option.map_eq_some_iff.1 h
      cases hr
      exact ⟨rfl, rfl, rfl, rfl⟩

theorem within_resume (s : Process σ Fx V E) (i : ℕ) (handle : CoroutineHandle) :
    Within s (s.resume P i handle) i := by
  have hfault : Within s s.fault i := ⟨rfl, rfl, rfl, .inl rfl⟩
  cases handle with
  | noop => exact ⟨rfl, rfl, rfl, .inr ⟨_, rfl, rfl, rfl⟩⟩
  | asyncTask =>
    rw [Process.resume]
    split
    · split
      · exact hfault
      · next v s' h =>
        obtain ⟨hp, ht, hc, ha⟩ := within_awaitResume h
        have hd := within_destroy s' ‹ℕ› i
        exact ⟨hd.pool.trans hp, hd.timers.trans ht, hd.called.trans hc,
          .inr ⟨_, rfl, rfl, congrArg (List.set · i _) ha⟩⟩
      · next e s' h =>
        obtain ⟨hp, ht, hc, ha⟩ := within_awaitResume h
        exact ⟨hp, ht, hc, .inl ha⟩
    · exact hfault
  | task t =>
    rw [Process.resume]
    split
    · exact ⟨rfl, rfl, rfl, .inr ⟨_, rfl, rfl, rfl⟩⟩
    · split
      · exact hfault
      · next r s' h =>
        obtain ⟨hp, ht, hc, ha⟩ := within_awaitResume h
        exact ⟨hp, ht, hc, .inr ⟨_, rfl, rfl, congrArg (List.set · i _) ha⟩⟩
    · exact ⟨rfl, rfl, rfl, .inr ⟨_, rfl, rfl, rfl⟩⟩
    · exact hfault

theorem within_awaitTask (s : Process σ Fx V E) (i t u : ℕ) (rest : Completion V E → σ) :
    Within s (s.awaitTask P i t u rest) i := by
  have hfault : Within s s.fault i := ⟨rfl, rfl, rfl, .inl rfl⟩
  unfold Process.awaitTask
  split
  · exact hfault
  · exact hfault
  · split
    · exact hfault
    · next r s' h =>
      obtain ⟨hp, ht, hc, ha⟩ := within_awaitResume h
      exact ⟨hp, ht, hc, .inl ha⟩
  · exact ⟨rfl, rfl, rfl, .inr ⟨_, rfl, rfl, rfl⟩⟩

theorem within_finalSuspend (s : Process σ Fx V E) (i t : ℕ)
    (g : TaskFrame σ V E → TaskFrame σ V E) : Within s (s.finalSuspend i t g) i := by
  unfold Process.finalSuspend
  split
  · exact ⟨rfl, rfl, rfl, .inl rfl⟩
  · exact ⟨rfl, rfl, rfl, .inr ⟨_, rfl, rfl, rfl⟩⟩

/-- Inside a job's function a worker touches coroutines, or it calls `execute_after`. -/
theorem within_runBody {b : σ} (h : s.runBody P i t b = some s') :
    Within s s' i ∨ ∃ ms job, s.timers.step (.executeAfter i ms job) = some s'.timers ∧
      s'.pool = s.pool ∧ s'.called = s.called ∧ s'.activities = s.activities.set i .inTimer := by
  unfold Process.runBody at h
  generalize P.next b = act at h
  cases act with
  | effect e rest | task body rest =>
    obtain rfl := Option.some.inj h
    exact .inl ⟨rfl, rfl, rfl, .inl rfl⟩
  | drop u rest =>
    obtain rfl := Option.some.inj h
    obtain ⟨hp, ht, hc, ha⟩ := within_destroy s u i
    exact .inl ⟨hp, ht, hc, ha⟩
  | await u rest =>
    obtain rfl := Option.some.inj h
    exact .inl (within_awaitTask ..)
  | sleep ms rest =>
    obtain ⟨timers, ht, rfl⟩ := Option.map_eq_some_iff.1 h
    exact .inr ⟨_, _, ht, rfl, rfl, rfl⟩
  | ret v | throw e =>
    obtain rfl := Option.some.inj h
    exact .inl (within_finalSuspend ..)

theorem within_execute (h : s.execute P i = some s') :
    ∃ a, s.activities[i]? = some a ∧ a.isIdle = false ∧
      ((Within s s' i ∧ (a = .inTimer → s.timers.submitters[i]? = some .idle)) ∨
        ∃ ms job, s.timers.step (.executeAfter i ms job) = some s'.timers ∧ s'.pool = s.pool ∧
          s'.called = s.called ∧ s'.activities = s.activities.set i .inTimer) := by
  unfold Process.execute at h
  split at h
  · next coro ha =>
    obtain rfl := Option.some.inj h
    exact ⟨_, ha, rfl, .inl ⟨⟨rfl, rfl, rfl, .inr ⟨_, rfl, rfl, rfl⟩⟩, nofun⟩⟩
  · next handle ha =>
    obtain rfl := Option.some.inj h
    exact ⟨_, ha, rfl, .inl ⟨within_resume .., nofun⟩⟩
  · next t ha =>
    refine ⟨_, ha, rfl, ?_⟩
    split at h
    · rcases within_runBody h with hw | hsleep
      · exact .inl ⟨hw, nofun⟩
      · exact .inr hsleep
    · obtain rfl := Option.some.inj h
      exact .inl ⟨⟨rfl, rfl, rfl, .inl rfl⟩, nofun⟩
  · next ha =>
    split at h
    · next hidle =>
      obtain rfl := Option.some.inj h
      exact ⟨_, ha, rfl, .inl ⟨⟨rfl, rfl, rfl, .inr ⟨_, rfl, rfl, rfl⟩⟩, fun _ => hidle⟩⟩
    · cases h
  · cases h

/-- Where the threads are: the timer thread and the workers run; the caller of the consumer, and the
timer thread outside `queue_job`, are not among the callers that the pool knows of; a worker has an
activity while it executes a job, and is in `execute_after` only when that is its activity; and no
function of a job ends with an exception. -/
structure Ready (s : Process σ Fx V E) : Prop where
  running : s.timers.running = true
  thread : s.timers.thread ≠ .exited
  workers : ∀ (i : ℕ) (w : Worker (CoroutineJob σ)), s.pool.workers[i]? = some w →
    w.hasExited = false
  submitters_length : s.timers.submitters.length = s.pool.allocatedThreadCount.toNat
  producers_length : s.pool.producers.length = 2
  caller : s.called = false → s.pool.producers[1]? = some .idle
  timerThread : s.timers.thread ≠ .testing → s.pool.producers[(0 : ℕ)]? = some .idle
  working : ∀ (i : ℕ) (w : Worker (CoroutineJob σ)) (a : Activity σ),
    s.pool.workers[i]? = some w → s.activities[i]? = some a → w.executes = !a.isIdle
  sleeping : ∀ (i : ℕ) (u : Submitter (CoroutineJob σ)) (a : Activity σ),
    s.timers.submitters[i]? = some u → s.activities[i]? = some a → a ≠ .inTimer → u = .idle
  catches : ∀ a ∈ s.activities, a.throws = false

theorem ready_new {n nextQueue : BitVec 64} {clock : TimePoint} :
    Ready (.new n nextQueue clock : Process σ Fx V E) where
  running := rfl
  thread := nofun
  workers i w hw := by
    rw [List.eq_of_mem_replicate (List.mem_of_getElem? hw)]
    rfl
  submitters_length := List.length_replicate
  producers_length := rfl
  caller _ := rfl
  timerThread _ := rfl
  working i w a hw ha := by
    rw [List.eq_of_mem_replicate (List.mem_of_getElem? hw),
      List.eq_of_mem_replicate (List.mem_of_getElem? ha)]
    rfl
  sleeping i u a hu _ _ := List.eq_of_mem_replicate (List.mem_of_getElem? hu)
  catches a ha := by
    rw [List.eq_of_mem_replicate ha]
    rfl

namespace Ready

/-- `queue_job` is called with a job: the caller is moved, and nothing else. -/
theorem queueJob (h : Ready s) {pool : ThreadPool (CoroutineJob σ)} {p : ℕ}
    {func : Option (CoroutineJob σ)} (hs : s.pool.step (.queueJob p func) = some pool) :
    pool.workers = s.pool.workers ∧ pool.allocatedThreadCount = s.pool.allocatedThreadCount ∧
      pool.producers.length = 2 ∧ ∀ q, q ≠ p → pool.producers[q]? = s.pool.producers[q]? := by
  cases ThreadPool.step_cases hs with
  | queueJob _ hp =>
    cases func with
    | none => exact ⟨rfl, rfl, h.producers_length, fun _ _ => rfl⟩
    | some func =>
      rw [ThreadPool.queueJob]
      split_ifs
      · exact ⟨rfl, rfl, (List.length_set ..).trans h.producers_length, fun q hq =>
          List.getElem?_set_ne hq.symm⟩
      · exact ⟨rfl, rfl, (List.length_set ..).trans h.producers_length, fun q hq =>
          List.getElem?_set_ne hq.symm⟩

/-- A worker begins or ends the execution of a job, and its activity begins or ends with it. -/
theorem setWorker (h : Ready s) {pool : ThreadPool (CoroutineJob σ)}
    {w' : Worker (CoroutineJob σ)} {a' : Activity σ}
    (hsub : ∀ a, s.activities[i]? = some a → a ≠ .inTimer)
    (hworkers : pool.workers = s.pool.workers.set i w')
    (hcount : pool.allocatedThreadCount = s.pool.allocatedThreadCount)
    (hproducers : pool.producers = s.pool.producers) (hx : w'.hasExited = false)
    (he : w'.executes = !a'.isIdle) (hthrows : a'.throws = false) :
    Ready { s with pool, activities := s.activities.set i a' } where
  running := h.running
  thread := h.thread
  workers k v hv := by
    rw [hworkers, List.getElem?_set] at hv
    split_ifs at hv
    · cases hv
      exact hx
    · exact h.workers k v hv
  submitters_length := hcount ▸ h.submitters_length
  producers_length := hproducers ▸ h.producers_length
  caller hc := hproducers ▸ h.caller hc
  timerThread ht := hproducers ▸ h.timerThread ht
  working k v a hv ha := by
    rw [hworkers, List.getElem?_set] at hv
    rw [List.getElem?_set] at ha
    split_ifs at hv ha
    · cases hv
      cases ha
      exact he
    · exact h.working k v a hv ha
  sleeping k u a hu ha hne := by
    rw [List.getElem?_set] at ha
    split_ifs at ha with hk hlt
    · subst hk
      exact h.sleeping i u _ hu (List.getElem?_eq_getElem hlt)
        (hsub _ (List.getElem?_eq_getElem hlt))
    · exact h.sleeping k u a hu ha hne
  catches := Table.forall_mem_set h.catches hthrows

/-- A worker touches only coroutines. -/
theorem within (h : Ready s) (hw : Within s s' i) {a : Activity σ}
    (ha : s.activities[i]? = some a) (hbusy : a.isIdle = false)
    (hidle : a = .inTimer → s.timers.submitters[i]? = some .idle) : Ready s' := by
  obtain ⟨hp, ht, hc, hact⟩ := hw
  have hother : ∀ k b, s'.activities[k]? = some b → k ≠ i → s.activities[k]? = some b :=
    fun k b hb hk => by
      rcases hact with hact | ⟨a', -, -, hact⟩
      · rwa [hact] at hb
      · rwa [hact, List.getElem?_set_ne hk.symm] at hb
  have hself : ∀ b, s'.activities[i]? = some b → b.isIdle = false := fun b hb => by
    rcases hact with hact | ⟨a', hbusy', -, hact⟩
    · rw [hact, ha] at hb
      cases hb
      exact hbusy
    · rw [hact, List.getElem?_set_self (List.getElem?_eq_some_iff.1 ha).1] at hb
      cases hb
      exact hbusy'
  refine ⟨ht ▸ h.running, ht ▸ h.thread, hp ▸ h.workers, by rw [ht, hp, h.submitters_length],
    hp ▸ h.producers_length, by rw [hc, hp]; exact h.caller, by rw [ht, hp]; exact h.timerThread,
    fun k w b hw hb => ?_, fun k u b hu hb hne => ?_, ?_⟩
  · rw [hp] at hw
    by_cases hk : k = i
    · subst hk
      rw [hself b hb, h.working k w a hw ha, hbusy]
    · exact h.working k w b hw (hother k b hb hk)
  · rw [ht] at hu
    by_cases hk : k = i
    · subst hk
      by_cases hin : a = .inTimer
      · exact Option.some.inj (hu.symm.trans (hidle hin))
      · exact h.sleeping k u a hu ha hin
    · exact h.sleeping k u b hu (hother k b hb hk) hne
  · rcases hact with hact | ⟨a', -, hthrows, hact⟩
    · exact hact ▸ h.catches
    · exact hact ▸ Table.forall_mem_set h.catches hthrows

/-- A worker calls `execute_after`. -/
theorem sleep (h : Ready s) {ms : ℤ} {job : Option (CoroutineJob σ)} {a : Activity σ}
    (ha : s.activities[i]? = some a) (hbusy : a.isIdle = false)
    (hs : s.timers.step (.executeAfter i ms job) = some s'.timers) (hp : s'.pool = s.pool)
    (hc : s'.called = s.called) (hact : s'.activities = s.activities.set i .inTimer) :
    Ready s' := by
  obtain ⟨time, ht⟩ : ∃ time, s'.timers = s.timers.executeAt i time job := by
    simp only [Scheduler.step] at hs
    split at hs
    · exact ⟨_, (Option.some.inj hs).symm⟩
    · cases hs
  refine ⟨ht ▸ h.running, ht ▸ h.thread, hp ▸ h.workers, ?_, hp ▸ h.producers_length,
    by rw [hc, hp]; exact h.caller, by rw [ht, hp]; exact h.timerThread,
    fun k w b hw hb => ?_, fun k u b hu hb hne => ?_, hact ▸ Table.forall_mem_set h.catches rfl⟩
  · rw [ht, hp, ← h.submitters_length]
    exact List.length_set ..
  · rw [hp] at hw
    rw [hact, List.getElem?_set] at hb
    split_ifs at hb with hk hlt
    · cases hb
      subst hk
      rw [h.working i w a hw ha, hbusy]
      rfl
    · exact h.working k w b hw hb
  · rw [hact, List.getElem?_set] at hb
    rw [ht] at hu
    change (s.timers.submitters.set i _)[k]? = some u at hu
    split_ifs at hb with hk hlt
    · cases hb
      exact absurd rfl hne
    · rw [List.getElem?_set_ne hk] at hu
      exact h.sleeping k u b hu hb hne

/-- A worker moves on inside its job's function. -/
theorem execute (h : Ready s) (hs : s.execute P i = some s') : Ready s' := by
  obtain ⟨a, ha, hbusy, ⟨hw, hidle⟩ | ⟨ms, job, ht, hp, hc, hact⟩⟩ := within_execute hs
  · exact h.within hw ha hbusy hidle
  · exact h.sleep ha hbusy ht hp hc hact

/-- An internal step of the pool. -/
theorem poolStep (h : Ready s) (ha : s.pool.acceptJobs = true) {l : PoolStep (CoroutineJob σ)}
    {pool : ThreadPool (CoroutineJob σ)} (hl : l.internal = true)
    (hs : s.pool.step l = some pool) : Ready { s with pool } :=
  { h with
    workers := fun i w' hw' => by
      obtain ⟨w, hw, -, hx⟩ := ThreadPool.step_internal_workers ha hl hs hw'
      exact hx (h.workers i w hw)
    submitters_length := by
      rw [ThreadPool.step_allocatedThreadCount hs]
      exact h.submitters_length
    producers_length :=
      (ThreadPool.step_internal_producers_length hl hs).trans h.producers_length
    caller := fun hc => ThreadPool.step_internal_producers hl hs (h.caller hc)
    timerThread := fun ht => ThreadPool.step_internal_producers hl hs (h.timerThread ht)
    working := fun i w' a hw' hact => by
      obtain ⟨w, hw, he, -⟩ := ThreadPool.step_internal_workers ha hl hs hw'
      exact he.trans (h.working i w a hw hact) }

/-- An internal step of the scheduler, or the test that follows a call of `queue_job`. -/
theorem timersStep (h : Ready s) {l : SchedulerStep (CoroutineJob σ)}
    {timers : Scheduler (CoroutineJob σ)} (hl : l.internal = true ∨ l = .test)
    (hidle : l = .test → s.pool.producers[(0 : ℕ)]? = some .idle)
    (hs : s.timers.step l = some timers) : Ready { s with timers } := by
  obtain ⟨hr, hx, htest⟩ := Scheduler.step_internal_thread h.running h.thread hl hs
  obtain ⟨hlen, hsub⟩ := Scheduler.step_internal_submitters hl hs
  exact { h with
    running := hr
    thread := hx
    submitters_length := hlen.trans h.submitters_length
    timerThread := fun hne => (htest hne).elim h.timerThread hidle
    sleeping := fun i u' a hu' hact hne => by
      obtain ⟨u, hu, hwas⟩ := hsub i u' hu'
      exact hwas (h.sleeping i u a hu hact hne) }

/-- The consumer's thread calls `queue_job`. -/
theorem call (h : Ready s) {pool : ThreadPool (CoroutineJob σ)}
    {func : Option (CoroutineJob σ)} (hs : s.pool.step (.queueJob 1 func) = some pool) :
    Ready { s with pool, called := true } := by
  obtain ⟨hw, hc, hp, hother⟩ := h.queueJob hs
  exact { h with
    workers := hw ▸ h.workers
    submitters_length := hc ▸ h.submitters_length
    producers_length := hp
    caller := nofun
    timerThread := fun ht => (hother 0 (by decide)).trans (h.timerThread ht)
    working := hw ▸ h.working }

/-- The timer thread calls `queue_job`. -/
theorem pass (h : Ready s) {job : ScheduledJob (CoroutineJob σ)}
    {timers : Scheduler (CoroutineJob σ)} {pool : ThreadPool (CoroutineJob σ)}
    {func : Option (CoroutineJob σ)} (hjob : s.timers.thread = .popped job)
    (htimers : s.timers.step .pass = some timers)
    (hs : s.pool.step (.queueJob 0 func) = some pool) : Ready { s with timers, pool } := by
  obtain ⟨hw, hc, hp, hother⟩ := h.queueJob hs
  simp only [Scheduler.step, hjob] at htimers
  obtain rfl := Option.some.inj htimers
  exact { h with
    thread := by simp
    workers := hw ▸ h.workers
    submitters_length := hc ▸ h.submitters_length
    producers_length := hp
    caller := fun hcalled => (hother 1 (by decide)).trans (h.caller hcalled)
    timerThread := fun hne => absurd rfl hne
    working := hw ▸ h.working }

/-- A worker invokes a job; it is not an empty function, since no such job is queued. -/
theorem invoke (h : Ready s) (hc : s.pool.Conserved) {job : ThreadPoolJob (CoroutineJob σ)}
    {pool : ThreadPool (CoroutineJob σ)} (hw : s.pool.workers[i]? = some (.entered job))
    (hs : s.pool.step (.invoke i) = some pool) :
    Ready { s with pool, activities := s.activities.set i (Activity.ofJob job.func) } := by
  simp only [ThreadPool.step, hw] at hs
  obtain rfl := Option.some.inj hs
  have hfunc := hc.func job (hc.mem_called (hc.mem_queued hw (List.mem_singleton_self job)))
  refine h.setWorker (fun a ha hin => ?_) rfl rfl rfl rfl ?_ ?_
  · have := h.working i _ a hw ha
    rw [hin] at this
    cases this
  · rcases job.func with _ | coro | handle <;> rfl
  · rcases hj : job.func with _ | coro | handle
    · rw [hj] at hfunc
      cases hfunc
    · rfl
    · rfl

theorem finish (h : Ready s) {outcome : Outcome} {pool : ThreadPool (CoroutineJob σ)}
    (ha : s.activities[i]? = some (.ending outcome))
    (hs : s.pool.step (.finish i outcome) = some pool) :
    Ready { s with pool, activities := s.activities.set i .idle } := by
  simp only [ThreadPool.step] at hs
  split at hs
  · obtain rfl := Option.some.inj hs
    refine h.setWorker (fun a ha' hin => ?_) rfl rfl rfl rfl rfl rfl
    rw [ha, hin] at ha'
    cases ha'
  · cases hs

/-- Every step keeps the threads where they can be. -/
theorem step (h : Ready s) (hc : s.pool.Conserved) {l : ProcessStep σ}
    (hs : s.step P root l = some s') : Ready s' := by
  cases (Process.step_cases hs).2 with
  | call _ hpool => exact h.call hpool
  | pool hl hpool => exact h.poolStep hc.acceptJobs hl hpool
  | timers hl hidle htimers => exact h.timersStep hl hidle htimers
  | pass hjob htimers hpool => exact h.pass hjob htimers hpool
  | invoke hw hpool => exact h.invoke hc hw hpool
  | execute hexecute => exact h.execute hexecute
  | finish ha hpool => exact h.finish ha hpool

end Ready

end EllohimMQ
