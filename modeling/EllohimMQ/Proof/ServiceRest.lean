import EllohimMQ.Proof.PoolLife
import EllohimMQ.Proof.ServiceRuns
import EllohimMQ.Proof.TimersRest

/-!
# The service comes to rest

The pool and the timer thread of the service are reached by steps of their own, so they come to rest
as they do by themselves.  A service that rests has no handler in a worker's hands and no job in the
pool, and what is left in the heap is not due.  A handler whose plain function returns has only so
many steps to take, so the threads come to rest in any case, and with all handlers completed when the
clock goes on as well.
-/

namespace EllohimMQ

open Calls Transition

variable {F : Type}

namespace ThreadPool

theorem step_producers_length {s s' : ThreadPool F} {l : PoolStep F} (h : s.step l = some s') :
    s'.producers.length = s.producers.length := by
  cases step_cases h with
  | queueJob func hp =>
    cases func with
    | none => rfl
    | some func =>
      rw [queueJob]
      split_ifs <;> exact List.length_set ..
  | push hp =>
    unfold push
    split <;> exact List.length_set ..
  | notify hp => exact List.length_set ..
  | lock hw => rw [lock_producers]
  | wake | enter | invoke | finish | leave | destroyStop | destroyNotify | destroyClear => rfl

end ThreadPool

namespace Scheduler

variable {s s' : Scheduler F} {l : SchedulerStep F}

theorem step_submitters_length (h : s.step l = some s') :
    s'.submitters.length = s.submitters.length := by
  cases step_cases h with
  | executeAt | executeAfter | push | notify => exact List.length_set ..
  | tick | test | empty | pop | waitUntil | wake | wakeUntil | relock | pass => rfl
  | destroyStop | destroyNotify | destroyJoin => rfl

/-- `destroy` begins with its first step. -/
theorem step_destroyer (hl : l ≠ .destroyStop) (hd : s.destroyer = .notCalled)
    (h : s.step l = some s') : s'.destroyer = .notCalled := by
  cases step_cases h with
  | destroyStop => exact absurd rfl hl
  | destroyNotify hd' | destroyJoin hd' =>
    rw [hd] at hd'
    cases hd'
  | tick | executeAt | executeAfter | push | notify => exact hd
  | test | empty | pop | waitUntil | wake | wakeUntil | relock | pass => exact hd

/-- The jobs whose time has not come, with those that are about to be inserted. -/
def sleepers (s : Scheduler F) : ℕ :=
  s.pending.length + s.jobs.countP fun job => s.clock < job.executeTime

/-- What the timer thread and its callers have left to do, the clock included. -/
def toil (s : Scheduler F) : ℕ := s.energy + 4 * s.sleepers

theorem pending_set {p : ℕ} {u : Submitter F} (hp : s.submitters[p]? = some u) (u' : Submitter F) :
    ((s.submitters.set p u').flatMap Submitter.pending).length + u.pending.length =
      s.pending.length + u'.pending.length := by
  have := Table.sum_map_set hp u' fun u => u.pending.length
  simpa only [pending, List.length_flatMap] using this

theorem sleepers_executeAt {p : ℕ} (hp : s.submitters[p]? = some .idle) (time : TimePoint)
    (func : Option F) : (s.executeAt p time func).sleepers = s.sleepers + 1 := by
  have hset := pending_set hp (.calling ⟨time, func, s.called.length⟩)
  have hpending : (s.executeAt p time func).pending.length = s.pending.length + 1 := hset
  rw [sleepers, hpending, Nat.add_right_comm]
  rfl

/-- Only a call of `execute_at` or `execute_after` makes more jobs sleep. -/
theorem sleepers_step (hl : l.submits = false) (h : s.step l = some s') :
    s'.sleepers ≤ s.sleepers := by
  cases step_cases h with
  | executeAt | executeAfter => cases hl
  | @tick now hnow =>
    refine Nat.add_le_add_left (List.countP_mono_left fun job _ hlt => ?_) _
    simp only [decide_eq_true_eq] at hlt ⊢
    exact hnow.trans_lt hlt
  | @push p job hp =>
    have := pending_set hp .pushed
    simp only [Submitter.pending, List.length_nil, List.length_singleton] at this
    simp only [sleepers, pending, List.countP_cons] at this ⊢
    split_ifs <;> omega
  | @notify p hp =>
    have := pending_set hp .idle
    simp only [Submitter.pending, List.length_nil] at this
    simp only [sleepers, pending] at this ⊢
    omega
  | pop => exact Nat.add_le_add_left (List.eraseIdx_sublist ..).countP_le _
  | test | empty | waitUntil | wake | wakeUntil | relock | pass => exact Nat.le_refl _
  | destroyStop | destroyNotify | destroyJoin => exact Nat.le_refl _

/-- The clock reaches the time of a job. -/
def Reaches (s : Scheduler F) (now : TimePoint) : Prop :=
  ∃ job ∈ s.jobs, s.clock < job.executeTime ∧ job.executeTime ≤ now

theorem sleepers_tick {now : TimePoint} (hnow : s.Reaches now) (h : s.step (.tick now) = some s') :
    s'.sleepers < s.sleepers := by
  obtain ⟨job, hjob, hlt, hle⟩ := hnow
  simp only [step] at h
  split_ifs at h with hclock
  obtain rfl := Option.some.inj h
  refine Nat.add_lt_add_left ?_ _
  dsimp only
  obtain ⟨i, hi⟩ := List.getElem?_of_mem hjob
  obtain ⟨rest, hperm, -⟩ := Table.exists_perm_set hi
  rw [hperm.countP_eq, hperm.countP_eq, List.countP_cons, List.countP_cons]
  have hmono : rest.countP (fun job => now < job.executeTime) ≤
      rest.countP fun job => s.clock < job.executeTime :=
    List.countP_mono_left fun job _ hlt => by
      simp only [decide_eq_true_eq] at hlt ⊢
      exact hclock.trans_lt hlt
  simp only [hlt, decide_true, if_true, Int.not_lt.2 hle, decide_false, Bool.false_eq_true, if_false]
  omega

theorem toil_lt (hl : s.Proceeds l ∨ ∃ now, l = .tick now ∧ s.Reaches now)
    (h : s.step l = some s') : s'.toil < s.toil := by
  simp only [toil]
  rcases hl with hl | ⟨now, rfl, hnow⟩
  · have hsub : l.submits = false := by
      cases l <;> first | rfl | cases hl
    have := energy_lt hl h
    have := sleepers_step hsub h
    omega
  · have hle := energy_step h
    have := sleepers_tick hnow h
    change s'.energy + 0 ≤ s.energy + 3 at hle
    omega

theorem toil_executeAfter {p : ℕ} {ms : ℤ} {func : Option F}
    (h : s.step (.executeAfter p ms func) = some s') : s'.toil ≤ s.toil + 12 := by
  simp only [step] at h
  split at h
  · next hp =>
    obtain rfl := Option.some.inj h
    simp only [executeAfter, toil, energy_executeAt hp, sleepers_executeAt hp]
    omega
  · cases h

end Scheduler

/-! ## The threads of the service -/

variable {σ Fx V E : Type} {P : Program σ Fx V E} {s s' : Service σ Fx V E}
  {standings : List (Standing σ)} {n nextQueue : BitVec 64} {clock : TimePoint}
  {ls : List (ServiceStep σ)}

namespace Service

/-- The steps that the threads take of their own accord. -/
def Proceeds (s : Service σ Fx V E) : ServiceStep σ → Prop
  | .call _ => False
  | .pool l => l.proceeds = true
  | .timers l => s.timers.Proceeds l
  | _ => True

/-- A step of the threads' own, or the clock reaches the time of a job. -/
def GoesOn (s : Service σ Fx V E) (l : ServiceStep σ) : Prop :=
  s.Proceeds l ∨ ∃ now, l = .timers (.tick now) ∧ s.timers.Reaches now

/-- A step of the service is no step of the pool, or one, and the same for the timer thread. -/
theorem step_threads {l : ServiceStep σ} (h : s.step P l = some s') :
    (s'.pool = s.pool ∨ ∃ l, s.pool.step l = some s'.pool) ∧
      (s'.timers = s.timers ∨ ∃ l, l ≠ .destroyStop ∧ s.timers.step l = some s'.timers) := by
  cases step_cases h with
  | call hpool | pool _ hpool | invoke _ hpool | finish _ hpool =>
    exact ⟨.inr ⟨_, hpool⟩, .inl rfl⟩
  | @timers l _ hl htimers =>
    refine ⟨.inl rfl, .inr ⟨_, ?_, htimers⟩⟩
    rintro rfl
    rcases hl with hl | hl <;> cases hl
  | pass _ htimers hpool => exact ⟨.inr ⟨_, hpool⟩, .inr ⟨_, by simp, htimers⟩⟩
  | slept _ _ _ htimers => exact ⟨.inl rfl, .inr ⟨_, by simp, htimers⟩⟩
  | returned | turned => exact ⟨.inl rfl, .inl rfl⟩

/-- The pool and the timer thread are where runs of their own may bring them, and are not destroyed. -/
structure Manned (n nextQueue : BitVec 64) (clock : TimePoint) (s : Service σ Fx V E) : Prop where
  pool : Reachable ThreadPool.step (.new n nextQueue 2) s.pool
  timers : Reachable Scheduler.step (.init clock n.toNat) s.timers
  destroyer : s.timers.destroyer = .notCalled
  allocated : s.pool.allocatedThreadCount = n
  producers_length : s.pool.producers.length = 2
  submitters_length : s.timers.submitters.length = n.toNat

theorem Manned.step (h : Manned n nextQueue clock s) {l : ServiceStep σ}
    (hs : s.step P l = some s') : Manned n nextQueue clock s' := by
  obtain ⟨hpool, htimers⟩ := step_threads hs
  refine ⟨?_, ?_, ?_, ?_, ?_, ?_⟩
  · rcases hpool with hpool | ⟨l, hpool⟩
    · exact hpool ▸ h.pool
    · exact h.pool.tail hpool
  · rcases htimers with htimers | ⟨l, -, htimers⟩
    · exact htimers ▸ h.timers
    · exact h.timers.tail htimers
  · rcases htimers with htimers | ⟨l, hl, htimers⟩
    · exact htimers ▸ h.destroyer
    · exact Scheduler.step_destroyer hl h.destroyer htimers
  · rcases hpool with hpool | ⟨l, hpool⟩
    · exact hpool ▸ h.allocated
    · exact (ThreadPool.step_allocatedThreadCount hpool).trans h.allocated
  · rcases hpool with hpool | ⟨l, hpool⟩
    · exact hpool ▸ h.producers_length
    · exact (ThreadPool.step_producers_length hpool).trans h.producers_length
  · rcases htimers with htimers | ⟨l, -, htimers⟩
    · exact htimers ▸ h.submitters_length
    · exact (Scheduler.step_submitters_length htimers).trans h.submitters_length

theorem manned_of_run (hrun : run (Service.step P) (.new n nextQueue clock) ls = some s) :
    Manned n nextQueue clock s :=
  Steps.invariant (fun _ _ _ h hs => h.step hs) ⟨ls, hrun⟩
    ⟨.refl _, .refl _, rfl, rfl, rfl, List.length_replicate⟩

end Service

/-! ## At rest -/

/-- A worker in the body of a coroutine can take its step. -/
theorem Handler.exists_execute {h : Handler σ Fx V E} {a : Activity σ} (ha : a.passive = false)
    (hsleep : h.sleeps P a = none) : ∃ p, (h.process a).execute P 0 = some p := by
  cases a with
  | starting | resuming => exact ⟨_, rfl⟩
  | inBody t =>
    simp only [sleeps] at hsleep
    simp only [Process.execute, process, List.getElem?_cons_zero]
    split
    · next b hb =>
      rw [hb] at hsleep
      unfold Process.runBody
      cases hn : P.next b with
      | sleep ms rest => simp [hn] at hsleep
      | effect | task | drop | await | ret | throw => exact ⟨_, rfl⟩
    · exact ⟨_, rfl⟩
  | idle | inTimer | ending => cases ha

section

variable (hs : Serves P s standings) (hm : s.Manned n nextQueue clock)
  (hrest : Resting (Service.step P) Service.Proceeds s)

include hs hm hrest

omit hm hrest in
theorem Serves.step_live (l : ServiceStep σ) : s.step P l = s.stepLive P l := by
  rw [Service.step, if_neg]
  simp [hs.faulted, hs.terminated]

omit hm in
theorem Serves.pool_none {l : PoolStep (ℕ × CoroutineJob σ)} (hl : l.internal = true)
    (hp : l.proceeds = true) : s.pool.step l = none := by
  have h := hrest (.pool l) hp
  rw [hs.step_live, Service.stepLive, if_pos hl] at h
  exact Option.map_eq_none_iff.1 h

omit hm in
theorem Serves.timers_none {l : SchedulerStep (ℕ × CoroutineJob σ)} (hl : l.internal = true)
    (hp : s.timers.Proceeds l) : s.timers.step l = none := by
  have h := hrest (.timers l) hp
  rw [hs.step_live] at h
  cases l with
  | test => cases hl
  | _ =>
    simp only [Service.stepLive] at h
    rw [if_pos hl] at h
    exact Option.map_eq_none_iff.1 h

omit hm in
/-- No worker is in `execute_after`. -/
theorem Serves.submitter_idle {u : Submitter (ℕ × CoroutineJob σ)} (hu : u ∈ s.timers.submitters) :
    u = .idle := by
  obtain ⟨p, hp⟩ := List.getElem?_of_mem hu
  cases u with
  | idle => rfl
  | calling job => simpa [Scheduler.step, hp] using hs.timers_none hrest (l := .push p) rfl trivial
  | pushed => simpa [Scheduler.step, hp] using hs.timers_none hrest (l := .notify p) rfl trivial

/-- No worker executes a job. -/
theorem Serves.not_executing {i : ℕ} {job : ThreadPoolJob (ℕ × CoroutineJob σ)}
    (hw : s.pool.workers[i]? = some (.executing job)) : False := by
  obtain ⟨⟨k, a⟩, hi, hbusy⟩ : ∃ x, s.activities[i]? = some x ∧ x.2.isIdle = false := by
    have := congrArg (·[i]?) hs.working
    simp only [List.getElem?_map, hw, Option.map_some, Worker.executes] at this
    obtain ⟨x, hx, hidle⟩ := Option.map_eq_some_iff.1 this.symm
    exact ⟨x, hx, by simpa using hidle⟩
  have hu : s.timers.submitters[i]? = some .idle := by
    have hlt : i < s.timers.submitters.length := by
      have := (List.getElem?_eq_some_iff.1 hi).1
      rw [hs.activities_length, hm.allocated] at this
      rwa [hm.submitters_length]
    rw [List.getElem?_eq_getElem hlt, hs.submitter_idle hrest (List.getElem_mem hlt)]
  have hexecute := hrest (.execute i) trivial
  rw [hs.step_live, Service.stepLive] at hexecute
  cases ha : a with
  | idle =>
    rw [ha] at hbusy
    cases hbusy
  | ending outcome =>
    rw [ha] at hi
    have hfinish := hrest (.finish i) trivial
    rw [hs.step_live] at hfinish
    simp [Service.stepLive, hi, ThreadPool.step, hw] at hfinish
  | inTimer =>
    rw [ha] at hi
    simp [Service.execute, hi, hu] at hexecute
  | starting | resuming | inBody =>
    have hpassive : a.passive = false := by rw [ha]; rfl
    obtain ⟨m, hst⟩ := (hs.paired i k a).1 ⟨hi, hpassive⟩
    obtain ⟨h, hk, -⟩ := hs.exists_handler hst
    have hin : s.execute P i = s.executeIn P i k a := by
      rw [Service.execute, hi, ha]
    rw [hin, Service.executeIn, hk] at hexecute
    dsimp only at hexecute
    split at hexecute
    · next t ms rest hsleep =>
      rw [Option.map_eq_none_iff] at hexecute
      simp [Scheduler.step, hu] at hexecute
    · next hsleep =>
      obtain ⟨p, hp⟩ := Handler.exists_execute hpassive hsleep
      rw [hp] at hexecute
      cases hexecute

/-- The pool rests. -/
theorem Serves.pool_resting : Resting ThreadPool.step ThreadPool.Proceeds s.pool := by
  intro l hl
  cases l with
  | queueJob | wake | destroyStop | destroyNotify | destroyClear => cases hl
  | push | notify | lock | enter | leave => exact hs.pool_none hrest rfl rfl
  | invoke i =>
    have h := hrest (.invoke i) trivial
    rw [hs.step_live] at h
    simp only [Service.stepLive] at h
    split at h
    · exact Option.map_eq_none_iff.1 h
    · next hne => simp only [ThreadPool.step]
  | finish i outcome =>
    simp only [ThreadPool.step]
    split
    · next job hw => exact (hs.not_executing hm hrest hw).elim
    · rfl

/-- No caller is in `queue_job`. -/
theorem Serves.producer_idle {c : Producer (ℕ × CoroutineJob σ)} (hc : c ∈ s.pool.producers) :
    c = .idle := by
  refine (ThreadPool.producer_of_resting (hs.pool_resting hm hrest) hc).resolve_right ?_
  rintro rfl
  exact hs.ledger.conserved.faulted hc

/-- The timer thread rests. -/
theorem Serves.timers_resting : Resting Scheduler.step Scheduler.Proceeds s.timers := by
  have hidle : s.pool.producers[(0 : ℕ)]? = some .idle := by
    have hlt : 0 < s.pool.producers.length := by rw [hm.producers_length]; decide
    rw [List.getElem?_eq_getElem hlt, hs.producer_idle hm hrest (List.getElem_mem hlt)]
  intro l hl
  cases l with
  | tick | executeAt | executeAfter | destroyStop | destroyNotify | destroyJoin => cases hl
  | push | notify | lock | relock | wake => exact hs.timers_none hrest rfl hl
  | test =>
    have h := hrest (.timers .test) trivial
    rw [hs.step_live] at h
    simp only [Service.stepLive, hidle] at h
    exact Option.map_eq_none_iff.1 h
  | pass =>
    simp only [Scheduler.step]
    split
    · next job hjob =>
      have h := hrest .pass trivial
      rw [hs.step_live] at h
      simp [Service.stepLive, hjob, Scheduler.step, ThreadPool.step, hidle] at h
    · rfl

/-- All that is on its way is in the heap, and not due. -/
theorem Serves.heap : underway s.pool s.timers = s.timers.jobs.map ScheduledJob.func ∧
    (∀ w ∈ s.pool.workers, w = .asleep) ∧
    (∀ job ∈ s.timers.jobs, s.timers.clock < job.executeTime) := by
  obtain ⟨hasleep, hempty⟩ := (ThreadPool.kept_of_reachable hm.pool).empty_of_resting
    hs.ledger.conserved (ThreadPool.exited_of_reachable hm.pool) (hs.pool_resting hm hrest)
  obtain ⟨hpending, hflight, hdue, -⟩ :=
    (Scheduler.watchful_of_reachable hm.timers).heap_of_resting hm.destroyer
      (hs.timers_resting hm hrest)
  have hcalling : s.pool.calling = [] := List.flatMap_eq_nil_iff.2 fun c hc => by
    rw [hs.producer_idle hm hrest hc]
    rfl
  have htaken : s.pool.workers.flatMap Worker.taken = [] :=
    List.flatMap_eq_nil_iff.2 fun w hw => by
      rw [hasleep w hw]
      rfl
  refine ⟨?_, hasleep, hdue⟩
  simp [underway, hpending, hflight, hcalling, hempty, htaken]

/-- A handler that no worker can take on has completed, or its job is in the heap. -/
theorem Serves.standing_of_resting {k : ℕ} {h : Handler σ Fx V E} {st : Standing σ}
    (hk : s.handlers[k]? = some h) (hst : standings[k]? = some st) :
    h.asyncTask = .destroyed ∨ ∃ job ∈ s.timers.jobs, ∃ t f rest,
      job.func = some (k, .resume (.task t)) ∧ h.frames[t]? = some f ∧
      f.point = .timerAwaiter rest := by
  obtain ⟨hunderway, hasleep, -⟩ := hs.heap hm hrest
  have hphase := hs.phase k h st hk hst
  obtain ⟨holder, m⟩ := st
  cases holder with
  | nobody => exact .inl ((Handler.destroyed_iff hphase).2 rfl)
  | worker i a =>
    obtain ⟨hi, hbusy⟩ := (hs.paired i k a).2 ⟨m, hst⟩
    -- its thread is asleep, and is in no job
    have hworking := congrArg (·[i]?) hs.working
    simp only [List.getElem?_map, hi, Option.map_some] at hworking
    obtain ⟨w, hw, hexecutes⟩ := Option.map_eq_some_iff.1 hworking
    rw [hasleep w (List.mem_of_getElem? hw)] at hexecutes
    cases a with
    | idle => cases hbusy
    | starting | resuming | inBody | inTimer | ending => cases hexecutes
  | job j =>
    have hmem := hs.ledger.underway_perm.mem_iff.2
      (List.mem_map_of_mem (f := some) (mem_carrying.2 ⟨m, hst⟩))
    rw [hunderway] at hmem
    obtain ⟨job, hjob, hfunc⟩ := List.mem_map.1 hmem
    have hcalled : job ∈ s.timers.called := hs.ledger.timely.called.mem_iff.2
      (List.mem_append_right _ (hs.ledger.timely.places.mem_iff.2 (by simp [hjob])))
    obtain ⟨k', handle, hresume⟩ := hs.resumes job hcalled
    cases hfunc.symm.trans hresume
    generalize hc : P.after h.root m = c at hphase
    cases hphase with
    | sleeping hl hf hpoint => exact .inr ⟨job, hjob, _, _, _, hfunc, hf, hpoint⟩

end

/-! ## What is left to do -/

/-- What a step of the timer thread is worth when the pool has `n` workers: the job that it passes on
makes that many steps. -/
def timersWorth (n : ℕ) : ℕ := 6 * n + 43

/-- What a step of a plain function is worth. -/
def handlerWorth (n : ℕ) : ℕ := 12 * timersWorth n + 6

/-- What the threads have left to do while no plain function takes a step. -/
def Service.toil (n : ℕ) (s : Service σ Fx V E) : ℕ :=
  6 * s.pool.energy n + timersWorth n * s.timers.toil + (s.activities.map fun a => a.2.weight).sum

/-- The steps that the plain functions have left, when that of handler `k` has `left k` of them. -/
def toGo (left : ℕ → ℕ) (standings : List (Standing σ)) : ℕ :=
  ((standings.map Standing.steps).mapIdx fun k m => left k - m).sum

theorem toGo_set (left : ℕ → ℕ) {k : ℕ} {st : Standing σ} (hst : standings[k]? = some st)
    (st' : Standing σ) :
    toGo left (standings.set k st') + (left k - st.steps) =
      toGo left standings + (left k - st'.steps) := by
  have hk : ((standings.map Standing.steps).mapIdx fun k m => left k - m)[k]? =
      some (left k - st.steps) := by
    rw [List.getElem?_mapIdx, List.getElem?_map, hst]
    rfl
  have := Table.sum_map_set hk (left k - st'.steps) id
  rw [toGo, toGo, List.map_set, List.mapIdx_set]
  simpa only [List.map_id, id_eq] using this

/-- The plain function of each handler has ended when it has taken its steps. -/
def Bounded (P : Program σ Fx V E) (left : ℕ → ℕ) (s : Service σ Fx V E) : Prop :=
  ∀ (k : ℕ) (h : Handler σ Fx V E), s.handlers[k]? = some h →
    ∃ r m, P.after h.root (left k) = ⟨.done r, [], m⟩

theorem Bounded.lt {left : ℕ → ℕ} (h : Bounded P left s) {k m : ℕ} {g : Handler σ Fx V E}
    (hk : s.handlers[k]? = some g) (hne : ∀ r mem, P.after g.root m ≠ ⟨.done r, [], mem⟩) :
    m < left k := by
  obtain ⟨r, mem, hend⟩ := h k g hk
  by_contra hle
  refine hne r mem ?_
  rw [← hend]
  exact Program.iterate_eq (Program.step_after_done hend) (Nat.not_lt.1 hle)

/-- The plain function of a handler takes a step, and the threads get at most `c` more to do. -/
theorem toil_lt_of_onward {left : ℕ → ℕ} {k m c : ℕ} {holder holder' : Holder σ}
    (hst : standings[k]? = some ⟨holder, m⟩) (hlt : m < left k)
    (htoil : s'.toil n.toNat ≤ s.toil n.toNat + c) (hc : c < handlerWorth n.toNat) :
    s'.toil n.toNat + handlerWorth n.toNat * toGo left (standings.set k ⟨holder', m + 1⟩) <
      s.toil n.toNat + handlerWorth n.toNat * toGo left standings := by
  have hset := toGo_set left hst ⟨holder', m + 1⟩
  dsimp only at hset
  have hgo : toGo left standings = toGo left (standings.set k ⟨holder', m + 1⟩) + 1 := by omega
  rw [hgo, Nat.mul_add, Nat.mul_one]
  omega

/-- The timer thread takes a step, and may pass a job on to the pool. -/
theorem toil_lt_of_timers {n : ℕ} {timers : Scheduler (ℕ × CoroutineJob σ)}
    {pool : ThreadPool (ℕ × CoroutineJob σ)} (htimers : timers.toil < s.timers.toil)
    (hpool : pool.energy n ≤ s.pool.energy n + (n + 7)) :
    ({ s with timers, pool } : Service σ Fx V E).toil n < s.toil n := by
  have hworth : timersWorth n = 6 * n + 43 := rfl
  have hmul := Nat.mul_le_mul_left (timersWorth n) (Nat.succ_le_of_lt htimers)
  rw [Nat.succ_eq_add_one, Nat.mul_add] at hmul
  simp only [Service.toil]
  omega

theorem Serves.goesOn {left : ℕ → ℕ} (hs : Serves P s standings) (hm : s.Manned n nextQueue clock)
    (hleft : Bounded P left s) {l : ServiceStep σ} (hl : s.GoesOn l) (hstep : s.step P l = some s') :
    (∃ standings', Serves P s' standings' ∧
      s'.toil n.toNat + handlerWorth n.toNat * toGo left standings' <
        s.toil n.toNat + handlerWorth n.toNat * toGo left standings) ∨
      Ended P s' ∧ 0 < s.toil n.toNat := by
  have hlen : s.pool.workers.length ≤ n.toNat := by
    rw [hs.ledger.conserved.workers_length, hm.allocated]
  have hworth : timersWorth n.toNat = 6 * n.toNat + 43 := rfl
  have hproceeds : (∀ now, l ≠ .timers (.tick now)) → s.Proceeds l := fun hne =>
    hl.resolve_right fun ⟨now, he, _⟩ => hne now he
  cases Service.step_cases hstep with
  | call => exact (hproceeds (by simp)).elim
  | pool hint hpool =>
    refine .inl ⟨standings, hs.poolStep hint hpool, Nat.add_lt_add_right ?_ _⟩
    have := (ThreadPool.energy_lt hlen (hproceeds (by simp)) hpool).2
    simp only [Service.toil]
    omega
  | @timers l timers hint htimers =>
    have hlt : timers.toil < s.timers.toil := by
      refine Scheduler.toil_lt (hl.imp id ?_) htimers
      rintro ⟨now, he, hnow⟩
      exact ⟨now, ServiceStep.timers.inj he, hnow⟩
    exact .inl ⟨standings, hs.timersStep hint htimers,
      Nat.add_lt_add_right (toil_lt_of_timers hlt (Nat.le_add_right ..)) _⟩
  | @pass job timers pool hjob htimers hpool =>
    have hlt : timers.toil < s.timers.toil := Scheduler.toil_lt (l := .pass) (.inl trivial) htimers
    have hpool' := (ThreadPool.energy_step hlen hpool).2
    exact .inl ⟨standings, hs.pass hjob htimers hpool,
      Nat.add_lt_add_right (toil_lt_of_timers hlt hpool') _⟩
  | @invoke i job pool hw hpool =>
    obtain ⟨standings', hs', hsteps⟩ := hs.invoke hw hpool
    refine .inl ⟨standings', hs', ?_⟩
    have hgo : toGo left standings' = toGo left standings := by rw [toGo, hsteps, toGo]
    rw [hgo]
    refine Nat.add_lt_add_right ?_ _
    have hlt := (ThreadPool.energy_lt hlen rfl hpool).2
    obtain ⟨x, hx⟩ : ∃ x, s.activities[i]? = some x := by
      refine ⟨_, List.getElem?_eq_getElem ?_⟩
      rw [hs.activities_length, ← hs.ledger.conserved.workers_length]
      exact (List.getElem?_eq_some_iff.1 hw).1
    have hset := Table.sum_map_set hx (Service.begin job.func) fun a => a.2.weight
    have hbegin : (Service.begin job.func).2.weight ≤ 5 := by
      rcases job.func with _ | ⟨k, coro | handle⟩ <;> simp [Service.begin, Activity.ofJob,
        Activity.weight]
    simp only [Service.toil]
    omega
  | @returned i k ha hidle =>
    refine .inl ⟨standings, hs.returned ha, Nat.add_lt_add_right ?_ _⟩
    have hset := Table.sum_map_set ha (k, .ending .returned) fun a => a.2.weight
    change _ + 2 = _ + 1 at hset
    simp only [Service.toil, Service.setActivity]
    omega
  | @slept i k t a h ms rest timers ha hk hsleep htimers =>
    obtain ⟨m, hst, hne, hs'⟩ := hs.slept ha hk hsleep htimers
    refine .inl ⟨_, hs', toil_lt_of_onward (c := 12 * timersWorth n.toNat + 2) hst
      (hleft.lt hk hne) ?_ (by rw [handlerWorth]; omega)⟩
    have htoil := Nat.mul_le_mul_left (timersWorth n.toNat) (Scheduler.toil_executeAfter htimers)
    have hset := Table.sum_map_set ha (k, .inTimer) fun a => a.2.weight
    change _ + a.weight = _ + 2 at hset
    rw [Nat.mul_add, Nat.mul_comm _ 12] at htoil
    simp only [Service.toil, Service.setActivity, Service.setHandler]
    omega
  | @turned i k a h p ha hne hk hsleep hx =>
    obtain ⟨hend, hpos⟩ | ⟨m, m', a', hst, ha', hsteps, hs'⟩ := hs.turned ha hne hk hsleep hx
    · have hset := Table.sum_map_set ha (k, .idle) fun a => a.2.weight
      change _ + a.weight = _ + 0 at hset
      refine .inr ⟨hend, ?_⟩
      simp only [Service.toil]
      omega
    have hset := Table.sum_map_set ha (k, a') fun a => a.2.weight
    have htoil : (s.absorb i k h.root p).toil n.toNat + a.weight = s.toil n.toNat + a'.weight := by
      simp only [Service.toil, Service.absorb, Service.setHandler, ha', List.headD_cons]
      dsimp only at hset
      omega
    rcases hsteps with ⟨rfl, hlt⟩ | ⟨rfl, hne⟩
    · refine .inl ⟨_, hs', ?_⟩
      have hgo := toGo_set left hst ⟨Handler.carrier i a', m'⟩
      rw [Nat.add_right_cancel hgo]
      omega
    · have hweight : a'.weight ≤ 5 := by cases a' <;> simp [Activity.weight]
      exact .inl ⟨_, hs', toil_lt_of_onward (c := 5) hst (hleft.lt hk hne) (by omega)
        (by rw [handlerWorth]; omega)⟩
  | @finish i k outcome pool ha hpool =>
    refine .inl ⟨standings, hs.finish ha hpool, Nat.add_lt_add_right ?_ _⟩
    have hlt := (ThreadPool.energy_lt hlen rfl hpool).2
    have hset := Table.sum_map_set ha (k, .idle) fun a => a.2.weight
    change _ + 1 = _ + 0 at hset
    simp only [Service.toil]
    omega

/-! ## Every run -/

/-- The threads call no coroutine. -/
theorem Service.GoesOn.called {l : ServiceStep σ} (hl : s.GoesOn l) : l.called = none := by
  cases l with
  | call =>
    rcases hl with hproceeds | ⟨now, he, -⟩
    · exact hproceeds.elim
    · cases he
  | pool | timers | pass | invoke | execute | finish => rfl

theorem Bounded.step {left : ℕ → ℕ} (hleft : Bounded P left s) {l : ServiceStep σ}
    (hl : s.GoesOn l) (hstep : s.step P l = some s') : Bounded P left s' := by
  intro k h hk
  have hroot := Service.step_roots hstep
  rw [hl.called, Option.toList_none, List.append_nil] at hroot
  have hget := congrArg (·[k]?) hroot
  simp only [List.getElem?_map, hk, Option.map_some] at hget
  obtain ⟨g, hg, he⟩ := Option.map_eq_some_iff.1 hget.symm
  exact he ▸ hleft k g hg

/-- When the plain functions end, each has so many steps to take. -/
theorem exists_bounded (hroots : ∀ root, .call root ∈ ls → P.Ends root)
    (hmap : s.handlers.map Handler.root = ls.filterMap ServiceStep.called) :
    ∃ left, Bounded P left s := by
  have hend : ∀ k : ℕ, ∃ left, ∀ h : Handler σ Fx V E, s.handlers[k]? = some h →
      ∃ r m, P.after h.root left = ⟨.done r, [], m⟩ := fun k => by
    rcases hk : s.handlers[k]? with _ | h
    · exact ⟨0, fun h hh => by cases hh⟩
    · have hmem : h.root ∈ ls.filterMap ServiceStep.called := by
        rw [← hmap]
        exact List.mem_map_of_mem (List.mem_of_getElem? hk)
      obtain ⟨j, c, m, hplain⟩ := hroots h.root (ServiceStep.mem_called.1 hmem)
      obtain ⟨left, hleft⟩ := Program.after_of_run hplain
      exact ⟨left, fun g hg => ⟨_, _, Option.some.inj hg ▸ hleft⟩⟩
  choose left hleft using hend
  exact ⟨left, hleft⟩

/-- What the threads have left to do in a service whose plain functions end. -/
inductive Potential (P : Program σ Fx V E) (n nextQueue : BitVec 64) (clock : TimePoint)
    (left : ℕ → ℕ) : ℕ → Service σ Fx V E → Prop where
  | intro {standings : List (Standing σ)} {s : Service σ Fx V E} (hs : Serves P s standings)
    (hm : s.Manned n nextQueue clock) (hleft : Bounded P left s) :
    Potential P n nextQueue clock left
      (s.toil n.toNat + handlerWorth n.toNat * toGo left standings) s
  | ended {s : Service σ Fx V E} (h : Ended P s) : Potential P n nextQueue clock left 0 s

theorem Potential.goesOn {left : ℕ → ℕ} {m : ℕ} (h : Potential P n nextQueue clock left m s)
    {l : ServiceStep σ} (hl : s.GoesOn l) (hstep : s.step P l = some s') :
    ∃ m' < m, Potential P n nextQueue clock left m' s' := by
  cases h with
  | intro hs hm hleft =>
    obtain ⟨standings', hs', hlt⟩ | ⟨hend, hpos⟩ := hs.goesOn hm hleft hl hstep
    · exact ⟨_, hlt, .intro hs' (hm.step hstep) (hleft.step hl hstep)⟩
    · exact ⟨0, Nat.add_pos_left hpos _, .ended hend⟩
  | ended hend => cases (hend.step_eq l).symm.trans hstep

/-- When nothing goes on, every handler has completed. -/
theorem Serves.completed_of_resting (hs : Serves P s standings) (hm : s.Manned n nextQueue clock)
    (hrest : Resting (Service.step P) Service.GoesOn s) :
    ∀ h ∈ s.handlers, h.asyncTask = .destroyed ∧
      ∃ j v m, plainRun P h.root j = .done (.value v) m ∧ h.trace = m.trace := by
  intro h hh
  have hproceeds : Resting (Service.step P) Service.Proceeds s := fun l hl => hrest l (.inl hl)
  have hheap : s.timers.jobs = [] := by
    by_contra hne
    obtain ⟨job, hjob⟩ := List.exists_mem_of_ne_nil _ hne
    have hdue := (hs.heap hm hproceeds).2.2 job hjob
    have hnone := hrest (.timers (.tick job.executeTime))
      (.inr ⟨_, rfl, job, hjob, hdue, Int.le_refl _⟩)
    rw [hs.step_live] at hnone
    simp [Service.stepLive, SchedulerStep.internal, Scheduler.step, hdue.le] at hnone
  obtain ⟨k, hk⟩ := List.getElem?_of_mem hh
  obtain ⟨st, hst⟩ := hs.exists_standing hk
  have hd : h.asyncTask = .destroyed := by
    obtain hd | ⟨job, hjob, -⟩ := hs.standing_of_resting hm hproceeds hk hst
    · exact hd
    · rw [hheap] at hjob
      cases hjob
  obtain ⟨a, hsound⟩ := Handler.exists_sound (hs.phase k h st hk hst)
  obtain ⟨v, m, hplain, htrace, -⟩ := hsound.completed hd
  exact ⟨hd, st.steps, v, m, hplain, htrace⟩

/-- The coroutines that are given to `consumer::call` share the pool and the timer thread.  Let each of
them be a body that, read as plain calls, returns.  From every state that a service with at least one
worker reaches:

* the threads, and the clock when a coroutine sleeps, take no more than a certain number of steps, in
  whatever order, unless the consumer is called again;
* when no thread can go on, every handler has completed, or its coroutine sleeps and the job that
  resumes it is in the heap, where no job is due;
* when the clock has nothing to wait for either, every handler has completed, and showed what its plain
  function shows. -/
theorem handlers_complete (hn : 0 < n.toNat) (hroots : ∀ root, .call root ∈ ls → P.Returns root)
    (hrun : run (Service.step P) (.new n nextQueue clock) ls = some s) :
    (∃ m, ∀ ls' s', Admissible (Service.step P) Service.GoesOn s ls' →
      run (Service.step P) s ls' = some s' → ls'.length ≤ m) ∧
    (Resting (Service.step P) Service.Proceeds s →
      (∀ job ∈ s.timers.jobs, s.timers.clock < job.executeTime) ∧
      ∀ (k : ℕ) (h : Handler σ Fx V E), s.handlers[k]? = some h →
        h.asyncTask = .destroyed ∨ ∃ job ∈ s.timers.jobs, ∃ t f rest,
          job.func = some (k, .resume (.task t)) ∧ h.frames[t]? = some f ∧
          f.point = .timerAwaiter rest) ∧
    (Resting (Service.step P) Service.GoesOn s → ∀ h ∈ s.handlers, h.asyncTask = .destroyed ∧
      ∃ j v m, plainRun P h.root j = .done (.value v) m ∧ h.trace = m.trace) := by
  have hsane : ∀ root, .call root ∈ ls → P.WellUsed root ∧ ¬ P.Escapes root := fun root hmem =>
    ⟨(hroots root hmem).wellUsed, (hroots root hmem).not_escapes⟩
  obtain ⟨⟨standings, hs⟩, hmap⟩ := exists_serves hn hsane hrun
  have hm := Service.manned_of_run hrun
  refine ⟨?_, fun hrest => ⟨(hs.heap hm hrest).2.2, fun k h hk => ?_⟩, hs.completed_of_resting hm⟩
  · obtain ⟨left, hleft⟩ := exists_bounded (fun root hmem => (hroots root hmem).ends) hmap
    exact ⟨_, fun ls' s' hown hrun' => length_le_of_potential (fun _ _ _ _ hp => hp.goesOn)
      (Potential.intro hs hm hleft) hown hrun'⟩
  · obtain ⟨st, hst⟩ := hs.exists_standing hk
    exact hs.standing_of_resting hm hrest hk hst

theorem returns_catchSleeper : topicProgram.Returns catchSleeper := ⟨6, .void, _, rfl⟩

/-- When the workers, the callers and the timer thread wait, and no job is in the heap, nothing goes
on. -/
theorem Service.resting_of_idle (hw : ∀ w ∈ s.pool.workers, w = .asleep)
    (hc : ∀ c ∈ s.pool.producers, c = .idle) (hu : ∀ u ∈ s.timers.submitters, u = .idle)
    (ht : s.timers.thread = .waiting) (hj : s.timers.jobs = [])
    (ha : ∀ a ∈ s.activities, a.2 = .idle) : Resting (Service.step P) Service.GoesOn s := by
  intro l hl
  rcases hstep : s.step P l with _ | s'
  · rfl
  have hpool := ThreadPool.resting_of_asleep hw hc
  have htimers := Scheduler.resting_of_waiting hu (.inl ht)
  have hidle : ∀ {i : ℕ} {k : ℕ} {a : Activity σ}, s.activities[i]? = some (k, a) → a = .idle :=
    fun hi => ha _ (List.mem_of_getElem? hi)
  cases Service.step_cases hstep with
  | call => cases hl.called
  | pool _ hstep' =>
    rcases hl with hl | ⟨now, he, -⟩
    · cases (hpool _ hl).symm.trans hstep'
    · cases he
  | @timers l _ _ hstep' =>
    rcases hl with hl | ⟨now, he, job, hjob, -⟩
    · cases (htimers l hl).symm.trans hstep'
    · rw [hj] at hjob
      cases hjob
  | pass hjob =>
    rw [ht] at hjob
    cases hjob
  | invoke hi => cases hw _ (List.mem_of_getElem? hi)
  | returned hi | finish hi => cases hidle hi
  | slept hi _ hsleep =>
    rw [hidle hi] at hsleep
    cases hsleep
  | turned hi _ _ _ hx =>
    rw [hidle hi] at hx
    cases hx

/-- The first handler wakes up, and catches what the coroutine throws that it awaits. -/
def wakeUp : List (ServiceStep TopicBody) :=
  [.timers (.tick 5000000), .timers .wake, .timers .test, .timers (.lock 0), .pass,
    .pool (.push 0), .pool (.notify 0), .pool (.lock 0), .pool (.enter 0), .invoke 0, .execute 0,
    .execute 0, .execute 0, .execute 0, .execute 0, .execute 0, .execute 0, .finish 0,
    .pool (.leave 0), .pool (.lock 0), .timers .test, .timers (.lock 0)]

theorem handlers_complete_two :
    ∃ s, run (Service.step topicProgram) (.new 1 0 0) (sleepThenLog ++ wakeUp) = some s ∧
      s.handlers.length = 2 ∧ ∀ h ∈ s.handlers, h.asyncTask = .destroyed := by
  obtain ⟨s, hs, hview⟩ := Option.map_eq_some_iff.1
    (show (run (Service.step topicProgram) (.new 1 0 0) (sleepThenLog ++ wakeUp)).map
        (fun s => (s.pool.workers, s.pool.producers, s.timers.submitters, s.timers.thread,
          s.timers.jobs.length, s.activities, s.handlers.length)) =
      some ([.asleep], [.idle, .idle], [.idle], .waiting, 0, [(0, .idle)], 2) by rfl)
  simp only [Prod.mk.injEq] at hview
  obtain ⟨hworkers, hproducers, hsubmitters, hthread, hjobs, hactivities, hlength⟩ := hview
  have hrest := Service.resting_of_idle (P := topicProgram) (s := s) (by simp [hworkers])
    (by simp [hproducers]) (by simp [hsubmitters]) hthread (List.eq_nil_of_length_eq_zero hjobs)
    (by simp [hactivities])
  refine ⟨s, hs, hlength, fun h hh => ((handlers_complete (by decide) (fun root hmem => ?_)
    hs).2.2 hrest h hh).1⟩
  rcases roots_sleepThenLog (by simpa [wakeUp] using hmem) with rfl | rfl
  · exact returns_catchSleeper
  · exact returns_logOnly

end EllohimMQ
