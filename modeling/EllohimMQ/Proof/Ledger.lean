import EllohimMQ.Proof.CoroutineJobs

/-!
# What the pool and the timer thread owe

The jobs that a pool is asked for come from its own callers (`asked`) and from the timer thread, which
passes on what was submitted to it.  `owed` are those that were asked for or submitted and that no
worker has invoked yet.  Every step of the two keeps `Ledger`: neither of them loses a job, makes one
up, or invokes one twice.  What the functions of the jobs do is left open.
-/

namespace EllohimMQ

open Transition

variable {F : Type}

/-- The books of the pool and the timer thread: each job that the pool was called for was asked for
or passed on by the timer thread, and of all that were asked for or submitted, those not in `owed`
were invoked. -/
structure Ledger (asked : List F) (pool : ThreadPool F) (timers : Scheduler F) (owed : List F) :
    Prop where
  threads : 0 < pool.allocatedThreadCount.toNat
  destroyer : pool.destroyer = .notCalled
  conserved : pool.Conserved
  timely : timers.Timely
  funcs : ∀ job ∈ timers.called, job.func.isSome
  linked : (pool.called.map ThreadPoolJob.func).Perm
    (asked.map some ++ timers.passed.map ScheduledJob.func)
  owes : (asked.map some ++ timers.called.map ScheduledJob.func).Perm
    (pool.invoked.map ThreadPoolJob.func ++ owed.map some)

theorem ledger_new {n nextQueue : BitVec 64} {callers : ℕ} {clock : TimePoint} {k : ℕ}
    (hn : 0 < n.toNat) :
    Ledger ([] : List F) (.new n nextQueue callers) (.init clock k) [] where
  threads := hn
  destroyer := rfl
  conserved := ThreadPool.conserved_new ..
  timely := Scheduler.timely_init ..
  funcs _ h := by cases h
  linked := .refl []
  owes := .refl []

/-- The functions of the jobs between `queue_job` or `execute_after` and `std::invoke`. -/
def underway (pool : ThreadPool F) (timers : Scheduler F) : List (Option F) :=
  (timers.pending ++ timers.jobs ++ timers.thread.inFlight).map ScheduledJob.func ++
    (pool.calling ++ pool.jobStack.flatten ++ pool.workers.flatMap Worker.taken).map
      ThreadPoolJob.func

namespace Ledger

variable {asked owed : List F} {pool pool' : ThreadPool F} {timers timers' : Scheduler F}

/-- The order of what is owed does not matter. -/
theorem congr (h : Ledger asked pool timers owed) {owed' : List F} (hperm : owed.Perm owed') :
    Ledger asked pool timers owed' :=
  { h with owes := h.owes.trans ((hperm.map some).append_left _) }

theorem jobStack_length (h : Ledger asked pool timers owed) : pool.jobStack.length ≠ 0 := by
  rw [h.conserved.jobStack_length]
  exact Nat.ne_of_gt h.threads

open Classical in
/-- What is owed is on its way, once each. -/
theorem underway_perm (h : Ledger asked pool timers owed) :
    (underway pool timers).Perm (owed.map some) := by
  have hheld : ∀ x, (pool.held.map ThreadPoolJob.func).count x =
      ((pool.workers.flatMap Worker.taken).map ThreadPoolJob.func).count x +
        (pool.running.map ThreadPoolJob.func).count x := fun x => by
    simp only [ThreadPool.held, ThreadPool.running, List.map_flatMap, List.count_flatMap]
    rw [← List.sum_map_add]
    congr 2
    funext w
    cases w <;> simp [Worker.held, Worker.taken, Worker.running]
  refine List.perm_iff_count.2 fun x => ?_
  have h₁ := h.owes.count_eq x
  have h₂ := h.linked.count_eq x
  have h₃ := (h.timely.called.map ScheduledJob.func).count_eq x
  have h₄ := (h.timely.places.map ScheduledJob.func).count_eq x
  have h₅ := (h.conserved.called.map ThreadPoolJob.func).count_eq x
  have h₆ := (h.conserved.places.map ThreadPoolJob.func).count_eq x
  have h₇ := (h.conserved.invoked.map ThreadPoolJob.func).count_eq x
  have h₈ := hheld x
  simp only [underway, List.map_append, List.count_append] at h₁ h₂ h₃ h₄ h₅ h₆ h₇ ⊢
  omega

/-- A step of the pool, with what it changes in the lists. -/
theorem ofPool (h : Ledger asked pool timers owed) {l : PoolStep F} (hs : pool.step l = some pool')
    (hd : pool'.destroyer = pool.destroyer) {asked' owed' : List F} (ht : timers'.Timely)
    (hf : ∀ job ∈ timers'.called, job.func.isSome)
    (hl : (pool'.called.map ThreadPoolJob.func).Perm
      (asked'.map some ++ timers'.passed.map ScheduledJob.func))
    (ho : (asked'.map some ++ timers'.called.map ScheduledJob.func).Perm
      (pool'.invoked.map ThreadPoolJob.func ++ owed'.map some)) :
    Ledger asked' pool' timers' owed' where
  threads := by
    rw [ThreadPool.step_allocatedThreadCount hs]
    exact h.threads
  destroyer := hd.trans h.destroyer
  conserved := h.conserved.step h.threads hs (hd.trans h.destroyer)
  timely := ht
  funcs := hf
  linked := hl
  owes := ho

/-- A caller asks for a job. -/
theorem call (h : Ledger asked pool timers owed) {p : ℕ} {func : F}
    (hs : pool.step (.queueJob p (some func)) = some pool') :
    Ledger (asked ++ [func]) pool' timers (owed ++ [func]) := by
  obtain ⟨hc, hi, hd⟩ := ThreadPool.step_queueJob h.jobStack_length hs
  classical
  refine h.ofPool hs hd h.timely h.funcs (List.perm_iff_count.2 fun x => ?_)
    (List.perm_iff_count.2 fun x => ?_)
  · have hl := h.linked.count_eq x
    simp only [hc, List.map_append, List.map_cons, List.map_nil, List.count_append] at hl ⊢
    omega
  · have ho := h.owes.count_eq x
    simp only [hi, List.map_append, List.map_cons, List.map_nil, List.count_append] at ho ⊢
    omega

theorem poolStep (h : Ledger asked pool timers owed) {l : PoolStep F} (hl : l.internal = true)
    (hs : pool.step l = some pool') : Ledger asked pool' timers owed := by
  obtain ⟨hc, hi, hd⟩ := ThreadPool.step_internal hl hs
  exact h.ofPool hs hd h.timely h.funcs (hc ▸ h.linked) (hi ▸ h.owes)

theorem timersStep (h : Ledger asked pool timers owed) {l : SchedulerStep F}
    (hl : l.internal = true ∨ l = .test) (hs : timers.step l = some timers') :
    Ledger asked pool timers' owed := by
  obtain ⟨hc, hp⟩ := Scheduler.step_internal hl hs
  exact { h with
    timely := h.timely.step hs
    funcs := hc ▸ h.funcs
    linked := hp ▸ h.linked
    owes := hc ▸ h.owes }

/-- The timer thread passes a job on to the pool. -/
theorem pass (h : Ledger asked pool timers owed) {p : ℕ} {job : ScheduledJob F}
    (ht : timers.thread = .popped job) (hs : timers.step .pass = some timers')
    (hs' : pool.step (.queueJob p job.func) = some pool') : Ledger asked pool' timers' owed := by
  obtain ⟨htc, hp⟩ := Scheduler.step_pass ht hs
  have hmem : job ∈ timers.called := by
    have hjob : job ∈ timers.submitted := by
      refine h.timely.places.mem_iff.2 ?_
      simp [ht, TimerThread.inFlight]
    exact h.timely.called.mem_iff.2 (List.mem_append_right _ hjob)
  obtain ⟨func, hfunc⟩ := Option.isSome_iff_exists.1 (h.funcs job hmem)
  rw [hfunc] at hs'
  obtain ⟨hc, hi, hd⟩ := ThreadPool.step_queueJob h.jobStack_length hs'
  refine h.ofPool hs' hd (h.timely.step hs) (htc ▸ h.funcs) ?_ ?_
  · rw [hc, hp, List.map_append, List.map_append, ← List.append_assoc]
    simpa [hfunc] using h.linked.append_right [job.func]
  · rw [hi, htc]
    exact h.owes

/-- A worker invokes one of the jobs that are owed. -/
theorem invoke (h : Ledger asked pool timers owed) {i : ℕ} {job : ThreadPoolJob F}
    (hw : pool.workers[i]? = some (.entered job)) (hs : pool.step (.invoke i) = some pool') :
    ∃ func ∈ owed, job.func = some func ∧
      ∀ owed', owed.Perm (func :: owed') → Ledger asked pool' timers owed' := by
  obtain ⟨hc, hi, hd⟩ := ThreadPool.step_invoke hw hs
  have hmem : job.func ∈ owed.map some := by
    have hconserved := h.conserved.step h.threads hs (hd.trans h.destroyer)
    have hsub := hconserved.invoked_subperm
    rw [hc, hi] at hsub
    have hcalled := (Table.subperm_map hsub ThreadPoolJob.func).trans h.linked.subperm
    have hpassed := Table.subperm_map h.timely.passed_subperm ScheduledJob.func
    rw [List.map_append] at hcalled
    have howed := hcalled.trans (((List.subperm_append_left _).2 hpassed).trans h.owes.subperm)
    exact List.singleton_subperm_iff.1 ((List.subperm_append_left _).1 howed)
  obtain ⟨func, hfunc, hjob⟩ := List.mem_map.1 hmem
  refine ⟨func, hfunc, hjob.symm, fun owed' hperm => ?_⟩
  refine h.ofPool hs hd h.timely h.funcs (hc ▸ h.linked) ?_
  rw [hi, List.map_append, List.append_assoc]
  refine h.owes.trans ((hperm.map some).append_left _ |>.trans ?_)
  simp [hjob]

theorem finish (h : Ledger asked pool timers owed) {i : ℕ} {outcome : Outcome}
    (hs : pool.step (.finish i outcome) = some pool') : Ledger asked pool' timers owed := by
  obtain ⟨hc, hi, hd⟩ := ThreadPool.step_finish hs
  exact h.ofPool hs hd h.timely h.funcs (hc ▸ h.linked) (hi ▸ h.owes)

/-- A job is submitted to the timer thread. -/
theorem sleep (h : Ledger asked pool timers owed) {i : ℕ} {ms : ℤ} {func : F}
    (hs : timers.step (.executeAfter i ms (some func)) = some timers') :
    Ledger asked pool timers' (owed ++ [func]) := by
  obtain ⟨time, hc, hp⟩ := Scheduler.step_executeAfter hs
  refine { h with
    timely := h.timely.step hs, funcs := fun job hjob => ?_, linked := ?_, owes := ?_ }
  · rw [hc] at hjob
    rcases List.mem_append.1 hjob with hjob | hjob
    · exact h.funcs job hjob
    · rw [List.mem_singleton.1 hjob]
      rfl
  · rw [hp]
    exact h.linked
  · rw [hc, List.map_append, List.map_append, ← List.append_assoc, ← List.append_assoc]
    exact h.owes.append_right _

end Ledger

end EllohimMQ
