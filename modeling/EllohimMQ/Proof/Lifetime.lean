import EllohimMQ.Model.PoolLifetime
import EllohimMQ.Proof.PoolJobs

/-!
# Calls of `queue_job` over the lifetime of the pool

`queue_job` divides by the number of deques and later pushes to one of them.  Both depend on two
things only: whether the pool was made for at least one thread, and whether `destroy` has cleared the
deques.  `Built` says so for every state, and `queueJobSafe_iff` turns it into the condition under
which a step of a run is safe.
-/

namespace EllohimMQ

open Transition

variable {F : Type}

/-- The function that the timer thread is about to queue. -/
def TimerThread.func : TimerThread F → Option F
  | .popped job => job.func
  | _ => none

/-- The index that a caller of `queue_job` has computed. -/
def Producer.index : Producer F → Option ℕ
  | .indexed _ index => some index
  | _ => none

/-- The steps that only a thread with the pool takes. -/
def PoolStep.needsPool : PoolStep F → Bool
  | .queueJob _ _ => true
  | .destroyStop => true
  | _ => false

theorem ThreadPool.lock_jobStack_length (s : ThreadPool F) (i : ℕ) :
    (s.lock i).jobStack.length = s.jobStack.length := by
  unfold ThreadPool.lock
  split_ifs
  · rfl
  · rfl
  · change (s.takeJob i).2.length = _
    unfold ThreadPool.takeJob
    split
    · apply List.length_set
    · split_ifs
      · split
        · apply List.length_set
        · rfl
      · rfl

/-- The callers after one of them has gone on to `b`. -/
theorem Producer.index_lt_of_mem_set {l : List (Producer F)} {p n : ℕ} {b c : Producer F}
    (hc : c ∈ l.set p b) (hb : ∀ index ∈ b.index, index < n) :
    c ∈ l ∨ ∀ index ∈ c.index, index < n := by
  refine (List.mem_or_eq_of_mem_set hc).imp_right fun heq => ?_
  rwa [heq]

namespace PoolLifetime

/-- The step calls `queue_job` with a function that is not empty. -/
def queuing (s : PoolLifetime F) : LifetimeStep F → Bool
  | .pool (.queueJob _ func) => func.isSome
  | .pass => s.timers.thread.func.isSome
  | _ => false

/-- The index that the step pushes at. -/
def pushing (s : PoolLifetime F) : LifetimeStep F → Option ℕ
  | .pool (.push p) => s.pool.producers[p]?.bind Producer.index
  | _ => none

/-- The remainder is not taken with divisor zero, and the index is one of `m_job_stack` when the job is
pushed. -/
def QueueJobSafe (s : PoolLifetime F) (l : LifetimeStep F) : Prop :=
  (s.queuing l → s.pool.jobStack.length ≠ 0) ∧
  ∀ index ∈ s.pushing l, index < s.pool.jobStack.length

/-- A call of `queue_job` finds a pool that was made for at least one thread and whose deques `destroy`
has not cleared; a push finds deques that are not cleared. -/
def PoolAlive (s : PoolLifetime F) (l : LifetimeStep F) : Prop :=
  (s.queuing l → s.pool.allocatedThreadCount ≠ 0 ∧ s.pool.destroyer ≠ .cleared) ∧
  ((s.pushing l).isSome → s.pool.destroyer ≠ .cleared)

instance (s : PoolLifetime F) (l : LifetimeStep F) : Decidable (s.QueueJobSafe l) :=
  inferInstanceAs (Decidable (_ ∧ _))

instance (s : PoolLifetime F) (l : LifetimeStep F) : Decidable (s.PoolAlive l) :=
  inferInstanceAs (Decidable (_ ∧ _))

/-! ## What a step does -/

/-- The steps, with what each needs of the constructor and of the pool. -/
inductive Moves (s : PoolLifetime F) : LifetimeStep F → PoolLifetime F → Prop
  | resize (hp : s.phase = .entered) :
    Moves s .resize
      { s with
        phase := .spawning
        pool := { s.pool with
          jobStack := List.replicate s.pool.allocatedThreadCount.toNat [] } }
  | spawn (hp : s.phase = .spawning) :
    Moves s .spawn { s with pool := { s.pool with workers := s.pool.workers ++ [.ready] } }
  | publish (hp : s.phase = .spawning) : Moves s .publish { s with phase := .returned }
  | throw : Moves s .throw { s with phase := .threw }
  | pool {l : PoolStep F} {pool : ThreadPool F} (hs : s.pool.step l = some pool)
    (hl : l.needsPool → s.phase = .returned) : Moves s (.pool l) { s with pool }
  | timers (l : SchedulerStep F) (timers : Scheduler F) : Moves s (.timers l) { s with timers }
  | pass {func : Option F} {pool : ThreadPool F} (timers : Scheduler F)
    (hf : s.timers.thread.func = func) (hp : s.phase = .returned)
    (hs : s.pool.step (.queueJob 0 func) = some pool) : Moves s .pass { s with timers, pool }

theorem stepPool_eq_some {s : PoolLifetime F} {l : PoolStep F} {pool : ThreadPool F}
    (h : s.stepPool l = some pool) :
    s.pool.step l = some pool ∧ (l.needsPool → s.phase = .returned) := by
  cases l with
  | queueJob p func =>
    cases p with
    | zero => cases h
    | succ p =>
      simp only [stepPool] at h
      split_ifs at h with hp
      exact ⟨h, fun _ => hp⟩
  | destroyStop =>
    simp only [stepPool] at h
    split_ifs at h with hp
    exact ⟨h, fun _ => hp⟩
  | _ => exact ⟨h, fun hl => by cases hl⟩

theorem step_cases {s s' : PoolLifetime F} {l : LifetimeStep F} (h : s.step l = some s') :
    s.Moves l s' ∧ s.phase ≠ .threw := by
  unfold step at h
  split_ifs at h with hthrew
  refine ⟨?_, hthrew⟩
  cases l <;> simp only [stepLive] at h
  · split_ifs at h with hp
    cases h
    exact .resize hp
  · split_ifs at h with hp
    cases h
    exact .spawn hp.1
  · split_ifs at h with hp
    cases h
    exact .publish hp.1
  · split_ifs at h
    cases h
    exact .throw
  · obtain ⟨pool, hpool, rfl⟩ := Option.map_eq_some_iff.1 h
    have hstep := stepPool_eq_some hpool
    exact .pool hstep.1 hstep.2
  · obtain ⟨timers, -, rfl⟩ := Option.map_eq_some_iff.1 h
    exact .timers _ timers
  · unfold pass at h
    split at h
    · next job hjob =>
      split_ifs at h with hp
      obtain ⟨timers, -, hmap⟩ := Option.bind_eq_some_iff.1 h
      obtain ⟨pool, hpool, rfl⟩ := Option.map_eq_some_iff.1 hmap
      exact .pass timers (by rw [hjob]; rfl) hp hpool
    · cases h

/-! ## The invariant -/

/-- The deques are there from the constructor's first step on until `destroy` clears them, and an
index is below their number; before the constructor has returned nobody has the pool. -/
structure Built (s : PoolLifetime F) : Prop where
  length : s.phase = .spawning ∨ s.phase = .returned →
    s.pool.jobStack.length =
      if s.pool.destroyer = .cleared then 0 else s.pool.allocatedThreadCount.toNat
  index : ∀ c ∈ s.pool.producers, ∀ index ∈ c.index, index < s.pool.allocatedThreadCount.toNat
  destroyer : s.phase ≠ .returned → s.pool.destroyer = .notCalled
  producers : s.phase ≠ .returned → ∀ c ∈ s.pool.producers, c = .idle

variable {s s' : PoolLifetime F} {l : LifetimeStep F}

theorem Built.returned (h : s.Built) {p : ℕ} {c : Producer F} (hc : s.pool.producers[p]? = some c)
    (hne : c ≠ .idle) : s.phase = .returned := by
  by_contra hp
  exact hne (h.producers hp c (List.mem_of_getElem? hc))

theorem Built.called (h : s.Built) (hd : s.pool.destroyer ≠ .notCalled) : s.phase = .returned := by
  by_contra hp
  exact hd (h.destroyer hp)

/-- A step of the pool that leaves the deques' number and the destroyer as they are, in which caller
`p` goes on to `c`. -/
theorem Built.call (h : s.Built) (hp : s.phase = .returned) {pool : ThreadPool F}
    (hlen : pool.jobStack.length = s.pool.jobStack.length)
    (hd : pool.destroyer = s.pool.destroyer)
    (hn : pool.allocatedThreadCount = s.pool.allocatedThreadCount)
    (hc : ∀ c ∈ pool.producers, c ∈ s.pool.producers ∨
      ∀ index ∈ c.index, index < s.pool.allocatedThreadCount.toNat) :
    ({ s with pool } : PoolLifetime F).Built where
  length hphase := by
    change pool.jobStack.length = if pool.destroyer = _ then 0 else pool.allocatedThreadCount.toNat
    rw [hlen, hd, hn]
    exact h.length hphase
  index c hmem index hindex := by
    change index < pool.allocatedThreadCount.toNat
    rw [hn]
    rcases hc c hmem with hold | hnew
    · exact h.index c hold index hindex
    · exact hnew index hindex
  destroyer hne := absurd hp hne
  producers hne := absurd hp hne

theorem Built.queueJob (h : s.Built) (hp : s.phase = .returned) (p : ℕ) (func : Option F) :
    ({ s with pool := s.pool.queueJob p func } : PoolLifetime F).Built := by
  cases func with
  | none => exact h
  | some f =>
    by_cases hzero : s.pool.jobStack.length = 0
    · rw [ThreadPool.queueJob, if_pos hzero]
      exact h.call hp rfl rfl rfl fun c hc =>
        Producer.index_lt_of_mem_set hc (by simp [Producer.index])
    · rw [ThreadPool.queueJob, if_neg hzero]
      refine h.call hp rfl rfl rfl fun c hc => Producer.index_lt_of_mem_set hc ?_
      intro index hindex
      cases hindex
      have hlen := h.length (.inr hp)
      have hmod := Nat.mod_lt s.pool.nextQueue.toNat (Nat.pos_of_ne_zero hzero)
      split_ifs at hlen <;> omega

theorem Built.push (h : s.Built) {p index : ℕ} {job : ThreadPoolJob F}
    (hc : s.pool.producers[p]? = some (.indexed job index)) :
    ({ s with pool := s.pool.push p job index } : PoolLifetime F).Built := by
  have hp := h.returned hc (by simp)
  have hlen : (s.pool.push p job index).jobStack.length = s.pool.jobStack.length := by
    unfold ThreadPool.push
    split
    · rfl
    · apply List.length_set
  apply h.call hp hlen (ThreadPool.push_destroyer ..) (ThreadPool.push_allocatedThreadCount ..)
  intro c hmem
  unfold ThreadPool.push at hmem
  split at hmem
  · exact Producer.index_lt_of_mem_set hmem (by simp [Producer.index])
  · exact Producer.index_lt_of_mem_set hmem (by simp [Producer.index])

/-- A step that changes neither the number of the deques nor the callers. -/
theorem Built.inner (h : s.Built) {pool : ThreadPool F}
    (hlen : pool.jobStack.length = s.pool.jobStack.length) (hd : pool.destroyer = s.pool.destroyer)
    (hn : pool.allocatedThreadCount = s.pool.allocatedThreadCount)
    (hc : pool.producers = s.pool.producers) : ({ s with pool } : PoolLifetime F).Built where
  length := by
    change _ → pool.jobStack.length = if pool.destroyer = _ then 0 else pool.allocatedThreadCount.toNat
    rw [hlen, hd, hn]
    exact h.length
  index := by
    change ∀ c ∈ pool.producers, ∀ index ∈ c.index, index < pool.allocatedThreadCount.toNat
    rw [hc, hn]
    exact h.index
  destroyer hne := hd.trans (h.destroyer hne)
  producers hne := by
    change ∀ c ∈ pool.producers, _
    rw [hc]
    exact h.producers hne

theorem Built.stepPool (h : s.Built) {l : PoolStep F} {pool : ThreadPool F}
    (hs : s.pool.step l = some pool) (hl : l.needsPool → s.phase = .returned) :
    ({ s with pool } : PoolLifetime F).Built := by
  cases ThreadPool.step_cases hs with
  | queueJob func hp => exact h.queueJob (hl rfl) _ func
  | push hp => exact h.push hp
  | notify hp =>
    exact h.call (h.returned hp (by simp)) rfl rfl rfl fun c hc =>
      Producer.index_lt_of_mem_set hc (by simp [Producer.index])
  | lock hw =>
    exact h.inner (ThreadPool.lock_jobStack_length ..) (ThreadPool.lock_destroyer ..)
      (ThreadPool.lock_allocatedThreadCount ..) (ThreadPool.lock_producers ..)
  | wake => exact h.inner rfl rfl rfl rfl
  | enter => exact h.inner rfl rfl rfl rfl
  | invoke => exact h.inner rfl rfl rfl rfl
  | finish => exact h.inner rfl rfl rfl rfl
  | leave => exact h.inner rfl rfl rfl rfl
  | destroyStop hd =>
    have hp := hl rfl
    refine ⟨fun _ => ?_, h.index, fun hne => absurd hp hne, fun hne => absurd hp hne⟩
    simpa [hd] using h.length (.inr hp)
  | destroyNotify hd =>
    have hp := h.called (by simp [hd])
    refine ⟨fun _ => ?_, h.index, fun hne => absurd hp hne, fun hne => absurd hp hne⟩
    simpa [hd] using h.length (.inr hp)
  | destroyClear hd =>
    have hp := h.called (by simp [hd])
    exact ⟨fun _ => rfl, h.index, fun hne => absurd hp hne, fun hne => absurd hp hne⟩

theorem built_new (n nextQueue : BitVec 64) (callers : ℕ) (clock : TimePoint) (submitters : ℕ) :
    (new n nextQueue callers clock submitters : PoolLifetime F).Built where
  length hp := by simp [new] at hp
  index c hc index hindex := by
    rw [List.eq_of_mem_replicate hc] at hindex
    cases hindex
  destroyer _ := rfl
  producers _ c hc := List.eq_of_mem_replicate hc

/-- Steps of the constructor keep `Built`, a step that throws has no next one. -/
theorem Built.step (h : s.Built) (hs : s.step l = some s') (hp' : s'.phase ≠ .threw) : s'.Built := by
  cases (step_cases hs).1 with
  | resize hp =>
    have hne : s.phase ≠ .returned := by simp [hp]
    refine ⟨fun _ => ?_, h.index, fun _ => h.destroyer hne, fun _ => h.producers hne⟩
    simp [h.destroyer hne]
  | spawn hp => exact h.inner rfl rfl rfl rfl
  | publish hp =>
    exact ⟨fun _ => h.length (.inl hp), h.index, fun hne => absurd rfl hne, fun hne => absurd rfl hne⟩
  | throw => exact absurd rfl hp'
  | pool hpool hl => exact h.stepPool hpool hl
  | timers => exact ⟨h.length, h.index, h.destroyer, h.producers⟩
  | pass timers hf hp hpool =>
    have hbuilt := h.stepPool hpool fun _ => hp
    exact ⟨hbuilt.length, hbuilt.index, hbuilt.destroyer, hbuilt.producers⟩

/-! ## Safe steps -/

/-- A step that calls `queue_job` is one of a thread that has the pool. -/
theorem returned_of_queuing (hs : s.step l = some s') (hq : s.queuing l) : s.phase = .returned := by
  cases (step_cases hs).1 with
  | pool hpool hl =>
    next l _ =>
      cases l with
      | queueJob p func => exact hl rfl
      | _ => cases hq
  | pass _ _ hp => exact hp
  | _ => cases hq

theorem Built.index_lt (h : s.Built) {index : ℕ} (hi : index ∈ s.pushing l) :
    index < s.pool.allocatedThreadCount.toNat ∧ s.phase = .returned := by
  unfold pushing at hi
  split at hi
  · obtain ⟨c, hc, hindex⟩ := Option.bind_eq_some_iff.1 hi
    refine ⟨h.index c (List.mem_of_getElem? hc) index hindex, h.returned hc ?_⟩
    rintro rfl
    cases hindex
  · cases hi

/-- In a state of a run, a step is safe exactly when the pool has a worker and is not cleared. -/
theorem Built.queueJobSafe_iff (h : s.Built) (hs : s.step l = some s') :
    s.QueueJobSafe l ↔ s.PoolAlive l := by
  apply and_congr
  · refine imp_congr_right fun hq => ?_
    rw [h.length (.inr (returned_of_queuing hs hq)), ← BitVec.toNat_ne_iff_ne]
    simp [and_comm]
  · constructor
    · intro hsafe hsome
      obtain ⟨index, hindex⟩ := Option.isSome_iff_exists.1 hsome
      have hlt := hsafe index hindex
      rw [h.length (.inr (h.index_lt hindex).2)] at hlt
      intro hd
      simp [hd] at hlt
    · intro halive index hindex
      have hlt := h.index_lt hindex
      rw [h.length (.inr hlt.2), if_neg (halive (Option.isSome_iff_exists.2 ⟨index, hindex⟩))]
      exact hlt.1

theorem notMem_set_iff {α : Type} {l : List α} {p : ℕ} {a : α} (h : l[p]? = some a) {x : α}
    (ha : a ≠ x) (b : α) : x ∉ l.set p b ↔ x ∉ l ∧ x ≠ b := by
  have hp := (List.getElem?_eq_some_iff.1 h).1
  constructor
  · refine fun hset => ⟨fun hx => hset (Table.mem_set_of_mem h hx ha.symm), ?_⟩
    rintro rfl
    exact hset (List.mem_set hp x)
  · rintro ⟨hx, hb⟩ hmem
    exact (List.mem_or_eq_of_mem_set hmem).elim hx hb

/-- A caller faults in an unsafe step, and in no other. -/
theorem stepPool_faulted {s pool : ThreadPool F} {l : PoolStep F} (hs : s.step l = some pool) :
    .faulted ∉ pool.producers ↔ .faulted ∉ s.producers ∧
      (∀ p f, l = .queueJob p (some f) → s.jobStack.length ≠ 0) ∧
      ∀ p, l = .push p → ∀ index ∈ s.producers[p]?.bind Producer.index, index < s.jobStack.length := by
  cases ThreadPool.step_cases hs with
  | @queueJob p func hp =>
    cases func with
    | none => simp [ThreadPool.queueJob]
    | some f =>
      by_cases hzero : s.jobStack.length = 0
      · rw [ThreadPool.queueJob, if_pos hzero, notMem_set_iff hp (by simp)]
        simp [hzero]
      · rw [ThreadPool.queueJob, if_neg hzero, notMem_set_iff hp (by simp)]
        simp [hzero]
  | @push p index job hp =>
    unfold ThreadPool.push
    split
    · next hnone =>
      rw [notMem_set_iff hp (by simp)]
      simpa [hp, Producer.index] using fun _ => List.getElem?_eq_none_iff.1 hnone
    · next jobs hsome =>
      rw [notMem_set_iff hp (by simp)]
      simpa [hp, Producer.index] using fun _ => (List.getElem?_eq_some_iff.1 hsome).1
  | notify hp =>
    rw [notMem_set_iff hp (by simp)]
    simp
  | lock hw => simp
  | _ => simp

theorem step_faulted (hs : s.step l = some s') :
    .faulted ∉ s'.pool.producers ↔ .faulted ∉ s.pool.producers ∧ s.QueueJobSafe l := by
  cases (step_cases hs).1 with
  | @pool l pool hpool hl =>
    rw [stepPool_faulted hpool]
    refine and_congr_right fun _ => ?_
    cases l with
    | queueJob p func => cases func <;> simp [QueueJobSafe, queuing, pushing]
    | push p => simp [QueueJobSafe, queuing, pushing]
    | _ => simp [QueueJobSafe, queuing, pushing]
  | pass timers hf hp hpool =>
    rw [stepPool_faulted hpool]
    refine and_congr_right fun _ => ?_
    subst hf
    cases hfunc : s.timers.thread.func <;> simp [QueueJobSafe, queuing, pushing, hfunc]
  | _ => simp [QueueJobSafe, queuing, pushing]

/-- For every constructor argument and every run of the constructor, the callers, the timer thread and
`destroy`: each division has a divisor other than zero and each push is at one of the deques (so no
caller faults) if and only if

* each call of `queue_job` with a function that is not empty finds a pool that was made for at least
  one thread and whose deques `destroy` has not cleared;
* each push finds deques that `destroy` has not cleared. -/
theorem queue_job_safe_iff {n nextQueue : BitVec 64} {callers submitters : ℕ} {clock : TimePoint}
    {ls : List (LifetimeStep F)} (h : run step (new n nextQueue callers clock submitters) ls = some s) :
    (Admissible step QueueJobSafe (new n nextQueue callers clock submitters) ls ↔
      Admissible step PoolAlive (new n nextQueue callers clock submitters) ls) ∧
    (.faulted ∉ s.pool.producers ↔
      Admissible step PoolAlive (new n nextQueue callers clock submitters) ls) := by
  have hsafe : Admissible step QueueJobSafe (new n nextQueue callers clock submitters) ls ↔
      Admissible step PoolAlive (new n nextQueue callers clock submitters) ls := by
    apply admissible_congr (P := fun s => s.phase ≠ .threw → s.Built) _ _ _ h
    · intro s l s' hb hs hp
      exact (hb (step_cases hs).2).step hs hp
    · intro s l s' hb hs
      exact (hb (step_cases hs).2).queueJobSafe_iff hs
    · exact fun _ => built_new n nextQueue callers clock submitters
  refine ⟨hsafe, ?_⟩
  rw [iff_admissible (P := fun s => .faulted ∉ s.pool.producers) (fun s l s' => step_faulted) h, hsafe]
  apply and_iff_right
  intro hmem
  cases List.eq_of_mem_replicate hmem

/-- One worker; the timer thread queues a job that becomes due before `destroy` is called. -/
theorem queue_job_safe_iff_timer :
    ∃ s : PoolLifetime ℕ, run step (new 1 0 0 0 1)
        [.resize, .spawn, .publish, .timers (.executeAfter 0 5 (some 7)), .timers (.push 0),
          .timers (.tick 5000000), .timers .test, .timers (.lock 0), .pass, .pool .destroyStop,
          .pool (.push 0)] = some s ∧
      .faulted ∉ s.pool.producers := by
  obtain ⟨s, hs, -⟩ := Option.map_eq_some_iff.1 (show (run step (new 1 0 0 0 1 : PoolLifetime ℕ)
    [.resize, .spawn, .publish, .timers (.executeAfter 0 5 (some 7)), .timers (.push 0),
      .timers (.tick 5000000), .timers .test, .timers (.lock 0), .pass, .pool .destroyStop,
      .pool (.push 0)]).map (fun _ => ()) = some () by decide)
  exact ⟨s, hs, (queue_job_safe_iff hs).2.2 (by decide)⟩

/-- Three runs with an unsafe step: a pool made for no threads; a job that becomes due and is passed
on after `destroy`; a call that has its index when `destroy` clears the deques. -/
theorem queue_job_unsafe :
    (let ls : List (LifetimeStep ℕ) := [.resize, .publish, .pool (.queueJob 1 (some 7))];
      (run step (new 0 0 1 0 0) ls).isSome ∧ ¬ Admissible step QueueJobSafe (new 0 0 1 0 0) ls) ∧
    (let ls : List (LifetimeStep ℕ) := [.resize, .spawn, .publish,
        .timers (.executeAfter 0 5 (some 7)), .timers (.push 0), .timers (.tick 5000000),
        .timers .test, .timers (.lock 0), .pool .destroyStop, .pool .destroyNotify, .pool (.lock 0),
        .pool .destroyClear, .pass];
      (run step (new 1 0 0 0 1) ls).isSome ∧ ¬ Admissible step QueueJobSafe (new 1 0 0 0 1) ls) ∧
    (let ls : List (LifetimeStep ℕ) := [.resize, .spawn, .publish, .pool (.queueJob 1 (some 7)),
        .pool .destroyStop, .pool .destroyNotify, .pool (.lock 0), .pool .destroyClear,
        .pool (.push 1)];
      (run step (new 1 0 1 0 0) ls).isSome ∧ ¬ Admissible step QueueJobSafe (new 1 0 1 0 0) ls) := by
  decide

end PoolLifetime

end EllohimMQ
