import EllohimMQ.Proof.PoolEnergy

/-!
# The whole life of the pool

`Kept` holds from the constructor to the end of `destroy`.  A job that was queued is in a deque, held
by a worker, finished, or thrown away by `destroy` with the deque it was in.  A worker that sleeps
although its deque is not empty will be woken, because the caller who filled the deque has not
notified yet; and after the notification of `destroy` nobody sleeps.  So the pool comes to rest with
every job done (`jobs_complete`), and `destroy` comes to its end (`destroy_ends`).
-/

namespace EllohimMQ

open Transition

variable {F : Type}

namespace ThreadPool

/-- What all steps keep, those of `destroy` too: no worker sleeps on a job without a notification to
come, and each job is in one place or was thrown away. -/
structure Kept (s : ThreadPool F) : Prop where
  accept : s.acceptJobs = true ↔ s.destroyer = .notCalled
  alert : ∀ i, s.workers[i]? = some .asleep → s.jobStack.getD i [] ≠ [] → .pushed ∈ s.producers
  awake : s.destroyer = .joining → .asleep ∉ s.workers
  cleared : s.destroyer = .cleared → s.workers = [] ∧ s.jobStack = []
  tickets : s.called.map ThreadPoolJob.ticket = List.range s.called.length
  func : ∀ job ∈ s.called, job.func.isSome
  called : (s.calling ++ s.queued).Subperm s.called
  places : s.queued.Perm (s.jobStack.flatten ++ s.held ++ s.finished ++ s.discarded)
  invoked : s.invoked.Perm (s.running ++ s.finished)

theorem kept_new (n nextQueue : BitVec 64) (k : ℕ) : (new n nextQueue k : ThreadPool F).Kept where
  accept := by simp [new]
  alert i hi := by
    have hmem := List.mem_of_getElem? hi
    cases List.eq_of_mem_replicate hmem
  awake hd := by cases hd
  cleared hd := by cases hd
  tickets := rfl
  func _ h := by cases h
  called := by simp [new, calling, Producer.calling]
  places := by simp [new, held, Worker.held]
  invoked := by simp [new, running, Worker.running]

variable {s s' : ThreadPool F} {l : PoolStep F}

theorem Kept.nodup_called (h : s.Kept) : s.called.Nodup :=
  List.Nodup.of_map ThreadPoolJob.ticket (h.tickets ▸ List.nodup_range)

theorem Kept.nodup_queued (h : s.Kept) : s.queued.Nodup := by
  obtain ⟨l, hperm, hsub⟩ := h.called
  have hnodup := hperm.nodup_iff.1 (hsub.nodup h.nodup_called)
  exact (List.nodup_append.1 hnodup).2.1

theorem Kept.mem_called (h : s.Kept) {job : ThreadPoolJob F} (hj : job ∈ s.queued) :
    job ∈ s.called := h.called.subset (List.mem_append_right _ hj)

theorem Kept.mem_queued (h : s.Kept) {i : ℕ} {w : Worker F} (hw : s.workers[i]? = some w)
    {job : ThreadPoolJob F} (hj : job ∈ w.held) : job ∈ s.queued := by
  have hheld : job ∈ s.held := List.mem_flatMap.2 ⟨w, List.mem_of_getElem? hw, hj⟩
  exact h.places.mem_iff.2 (by simp [hheld])

/-! ## The steps -/

theorem Kept.not_cleared (h : s.Kept) {i : ℕ} {w : Worker F} (hw : s.workers[i]? = some w) :
    s.destroyer ≠ .cleared := by
  intro hd
  rw [(h.cleared hd).1] at hw
  cases hw

/-- A sleeper other than the worker that moved was asleep before. -/
theorem asleep_of_set {i j : ℕ} {w : Worker F} (hne : w ≠ .asleep)
    (hj : (s.workers.set i w)[j]? = some .asleep) : s.workers[j]? = some .asleep := by
  rw [List.getElem?_set] at hj
  split_ifs at hj with hij hi
  · exact absurd (Option.some.inj hj) hne
  · exact hj

open Classical in
/-- A step of a worker outside the lock: `started` and `ended` are the jobs whose functions begin
and end with it. -/
theorem Kept.worker (h : s.Kept) {i : ℕ} {w : Worker F} (hw : s.workers[i]? = some w)
    (w' : Worker F) (hne : w' ≠ .asleep) (busyThreads : BitVec 64)
    (started ended : List (ThreadPoolJob F)) (hheld : w.held.Perm (w'.held ++ ended))
    (hrun : (w.running ++ started).Perm (w'.running ++ ended)) :
    ({ s with
      busyThreads
      workers := s.workers.set i w'
      invoked := s.invoked ++ started
      finished := s.finished ++ ended } : ThreadPool F).Kept := by
  refine { h with
    alert := fun j hj => h.alert j (asleep_of_set hne hj)
    awake := fun hd hmem => ?_
    cleared := fun hd => absurd hd (h.not_cleared hw)
    places := List.perm_iff_count.2 fun x => ?_
    invoked := List.perm_iff_count.2 fun x => ?_ }
  · rcases List.mem_or_eq_of_mem_set hmem with hmem | rfl
    · exact h.awake hd hmem
    · exact hne rfl
  · have hplaces := h.places.count_eq x
    have hset := Table.count_flatMap_set hw w' Worker.held x
    have hx := hheld.count_eq x
    simp only [held, List.count_append] at hplaces hset hx ⊢
    omega
  · have hinvoked := h.invoked.count_eq x
    have hset := Table.count_flatMap_set hw w' Worker.running x
    have hx := hrun.count_eq x
    simp only [running, List.count_append] at hinvoked hset hx ⊢
    omega

/-- A worker goes to another place with what it has. -/
theorem Kept.moveWorker (h : s.Kept) {i : ℕ} {w : Worker F} (hw : s.workers[i]? = some w)
    (w' : Worker F) (hne : w' ≠ .asleep) (busyThreads : BitVec 64) (hheld : w'.held = w.held)
    (hrun : w'.running = w.running) :
    ({ s with busyThreads, workers := s.workers.set i w' } : ThreadPool F).Kept := by
  have := h.worker hw w' hne busyThreads [] [] (by simp [hheld]) (by simp [hrun])
  simpa only [List.append_nil] using this

open Classical in
theorem Kept.lock (h : s.Kept) {i : ℕ} (hw : s.workers[i]? = some .ready) : (s.lock i).Kept := by
  obtain ⟨haccept, hown, hlock⟩ | ⟨-, hlock⟩ | ⟨job, jobs, -, hjobs, hlock⟩ := s.lock_cases i <;>
    rw [hlock]
  · have hd := h.accept.1 haccept
    refine { h with
      alert := fun j hj hne => ?_
      awake := fun hd' => by rw [hd] at hd'; cases hd'
      cleared := fun hd' => by rw [hd] at hd'; cases hd'
      places := ?_, invoked := ?_ }
    · have hji : j ≠ i := fun hji => hne (hji ▸ hown)
      rw [List.getElem?_set_ne hji.symm] at hj
      exact h.alert j hj hne
    · refine List.perm_iff_count.2 fun x => ?_
      have hplaces := h.places.count_eq x
      have hset := Table.count_flatMap_set hw .asleep Worker.held x
      simp only [held, Worker.held, List.count_append, List.count_nil] at hplaces hset ⊢
      omega
    · refine List.perm_iff_count.2 fun x => ?_
      have hinvoked := h.invoked.count_eq x
      have hset := Table.count_flatMap_set hw .asleep Worker.running x
      simp only [running, Worker.running, List.count_append, List.count_nil] at hinvoked hset ⊢
      omega
  · exact h.moveWorker hw .exited (by simp) s.busyThreads rfl rfl
  · refine { h with
      alert := fun j hj hne => ?_
      awake := fun hd hmem => ?_
      cleared := fun hd => absurd hd (h.not_cleared hw)
      places := List.perm_iff_count.2 fun x => ?_
      invoked := List.perm_iff_count.2 fun x => ?_ }
    · have hji : j ≠ i := by
        rintro rfl
        have hi := (List.getElem?_eq_some_iff.1 hw).1
        rw [List.getElem?_set_self hi, Option.some.injEq] at hj
        cases hj
      refine h.alert j (asleep_of_set (by simp) hj) ?_
      rwa [List.getD_eq_getElem?_getD, List.getElem?_set_ne hji.symm,
        ← List.getD_eq_getElem?_getD] at hne
    · rcases List.mem_or_eq_of_mem_set hmem with hmem | heq
      · exact h.awake hd hmem
      · cases heq
    · have hplaces := h.places.count_eq x
      have hset := Table.count_flatten_set hjobs jobs x
      have hheld := Table.count_flatMap_set hw (.holding job) Worker.held x
      simp only [held, Worker.held, List.count_append, List.count_cons, List.count_nil]
        at hplaces hset hheld ⊢
      omega
    · have hinvoked := h.invoked.count_eq x
      have hset := Table.count_flatMap_set hw (.holding job) Worker.running x
      simp only [running, Worker.running, List.count_append, List.count_nil] at hinvoked hset ⊢
      omega

/-- A caller of `queue_job` goes to another place: what it gives up is in no list yet. -/
theorem Kept.moveProducer (h : s.Kept) {p : ℕ} {c : Producer F} (hp : s.producers[p]? = some c)
    (c' : Producer F) (hc : c ≠ .pushed) (hc' : c'.calling.Sublist c.calling) :
    ({ s with producers := s.producers.set p c' } : ThreadPool F).Kept := by
  refine { h with
    alert := fun i hi hne => Table.mem_set_of_mem hp (h.alert i hi hne) hc.symm
    called := ?_ }
  refine List.Subperm.trans ?_ h.called
  refine (List.subperm_append_right _).2 ?_
  obtain ⟨rest, hl, hset⟩ := Table.exists_perm_set hp
  have h₁ := (hset c').flatMap_right Producer.calling
  have h₂ := hl.flatMap_right Producer.calling
  refine (h₁.subperm.trans ?_).trans h₂.symm.subperm
  exact (hc'.append_right _).subperm

open Classical in
theorem Kept.queueJob (h : s.Kept) {p : ℕ} (hp : s.producers[p]? = some .idle)
    (func : Option F) : (s.queueJob p func).Kept := by
  rcases func with _ | f
  · exact h
  unfold ThreadPool.queueJob
  dsimp only
  split_ifs with hlen
  · exact h.moveProducer hp .faulted (by simp) List.Sublist.slnil
  · refine { h with
      alert := fun i hi hne => Table.mem_set_of_mem hp (h.alert i hi hne) (by simp)
      tickets := ?_, func := fun job hj => ?_, called := ?_ }
    · simp [h.tickets, List.range_succ]
    · rcases List.mem_append.1 hj with hj | hj
      · exact h.func job hj
      · rw [List.mem_singleton.1 hj]
        rfl
    · refine List.subperm_ext_iff.2 fun x hx => ?_
      have hcalled := List.subperm_iff_count.1 h.called x
      have hset := Table.count_flatMap_set hp
        (.indexed ⟨some f, s.called.length⟩ (s.nextQueue.toNat % s.jobStack.length))
        Producer.calling x
      simp only [calling, Producer.calling, List.count_append, List.count_nil] at hcalled hset ⊢
      omega

open Classical in
theorem Kept.push (h : s.Kept) {p index : ℕ} {job : ThreadPoolJob F}
    (hp : s.producers[p]? = some (.indexed job index)) : (s.push p job index).Kept := by
  unfold ThreadPool.push
  split
  · exact h.moveProducer hp .faulted (by simp) (List.nil_sublist _)
  next jobs hjobs =>
    have hlt := (List.getElem?_eq_some_iff.1 hp).1
    refine { h with
      alert := fun _ _ _ => List.mem_of_getElem? (i := p) (by simp [hlt])
      cleared := fun hd => ?_
      called := List.subperm_ext_iff.2 fun x hx => ?_
      places := List.perm_iff_count.2 fun x => ?_ }
    · rw [(h.cleared hd).2] at hjobs
      cases hjobs
    · have hcalled := List.subperm_iff_count.1 h.called x
      have hset := Table.count_flatMap_set hp .pushed Producer.calling x
      simp only [calling, Producer.calling, List.count_append, List.count_nil] at hcalled hset ⊢
      omega
    · have hplaces := h.places.count_eq x
      have hset := Table.count_flatten_set hjobs (job :: jobs) x
      simp only [held, List.count_append, List.count_cons, List.count_nil] at hplaces hset ⊢
      omega

theorem asleep_notMem_notifyAll (workers : List (Worker F)) : .asleep ∉ notifyAll workers := by
  intro hmem
  obtain ⟨w, -, hw⟩ := List.mem_map.1 hmem
  cases w <;> cases hw

/-- Waking the sleepers, for whatever reason and with whatever else that moves no job. -/
theorem Kept.wakeAll (h : s.Kept) (producers : List (Producer F)) (destroyer : Destroyer)
    (hproducers : (producers.flatMap Producer.calling).Perm s.calling)
    (hd : s.destroyer = .notCalled ↔ destroyer = .notCalled)
    (hcleared : destroyer = .cleared → s.destroyer = .cleared) :
    ({ s with workers := notifyAll s.workers, producers, destroyer } : ThreadPool F).Kept := by
  refine { h with
    accept := h.accept.trans hd
    alert := fun i hi _ => absurd (List.mem_of_getElem? hi) (asleep_notMem_notifyAll _)
    awake := fun _ => asleep_notMem_notifyAll _
    cleared := fun hd => ?_
    called := ?_, places := ?_, invoked := ?_ }
  · obtain ⟨hworkers, hstack⟩ := h.cleared (hcleared hd)
    exact ⟨by rw [hworkers]; rfl, hstack⟩
  · exact (hproducers.append_right s.queued).subperm.trans h.called
  · rw [held, notifyAll_flatMap _ _ rfl]
    exact h.places
  · rw [running, notifyAll_flatMap _ _ rfl]
    exact h.invoked

theorem held_of_hasExited (hw : s.workers.all Worker.hasExited = true) :
    s.held = [] ∧ s.running = [] := by
  rw [List.all_eq_true] at hw
  refine ⟨List.flatMap_eq_nil_iff.2 fun w hmem => ?_, List.flatMap_eq_nil_iff.2 fun w hmem => ?_⟩
  all_goals
    have := hw w hmem
    cases w <;> first | rfl | cases this

open Classical in
/-- The deques are thrown away when all workers have exited, with what is left in them. -/
theorem Kept.destroyClear (h : s.Kept) (hd : s.destroyer = .joining)
    (hw : s.workers.all Worker.hasExited = true) :
    ({ s with
      jobStack := []
      workers := []
      destroyer := .cleared
      discarded := s.discarded ++ s.jobStack.flatten } : ThreadPool F).Kept := by
  obtain ⟨hheld, hrunning⟩ := held_of_hasExited hw
  refine { h with
    accept := by rw [h.accept, hd]; simp
    alert := fun i hi => by cases hi
    awake := fun hd => by cases hd
    cleared := fun _ => ⟨rfl, rfl⟩
    places := List.perm_iff_count.2 fun x => ?_
    invoked := ?_ }
  · have hplaces := h.places.count_eq x
    rw [hheld] at hplaces
    simp only [held, List.flatMap_nil, List.flatten_nil, List.count_append, List.count_nil]
      at hplaces ⊢
    omega
  · have hinvoked := h.invoked
    rwa [hrunning] at hinvoked

theorem Kept.step (h : s.Kept) (hs : s.step l = some s') : s'.Kept := by
  cases step_cases hs with
  | queueJob func hp => exact h.queueJob hp func
  | push hp => exact h.push hp
  | @notify p hp =>
    refine h.wakeAll _ _ ?_ .rfl id
    obtain ⟨rest, hl, hset⟩ := Table.exists_perm_set hp
    exact ((hset .idle).flatMap_right _).trans (hl.flatMap_right Producer.calling).symm
  | lock hw => exact h.lock hw
  | wake hw => exact h.moveWorker hw .ready (by simp) s.busyThreads rfl rfl
  | @enter i job hw => exact h.moveWorker hw (.entered job) (by simp) _ rfl rfl
  | @invoke i job hw =>
    have := h.worker hw (.executing job) (by simp) s.busyThreads [job] [] (by simp [Worker.held])
      (by simp [Worker.running])
    rwa [List.append_nil] at this
  | @finish i job outcome hw =>
    have := h.worker hw .leaving (by simp) s.busyThreads [] [job] (by simp [Worker.held])
      (by simp [Worker.running])
    rwa [List.append_nil] at this
  | leave hw => exact h.moveWorker hw .ready (by simp) _ rfl rfl
  | destroyStop hd =>
    exact { h with
      accept := by simp
      awake := fun hd' => by cases hd'
      cleared := fun hd' => by cases hd' }
  | destroyNotify hd => exact h.wakeAll s.producers .joining (.refl _) (by simp [hd]) (by simp)
  | destroyClear hd hw => exact h.destroyClear hd hw

theorem kept_of_reachable {n nextQueue : BitVec 64} {k : ℕ}
    (h : Reachable ThreadPool.step (new n nextQueue k) s) : s.Kept :=
  h.invariant (fun _ _ _ hk hs => hk.step hs) (kept_new n nextQueue k)

/-! ## At rest -/

/-- A worker leaves the loop only when the pool accepts no more jobs. -/
theorem exited_step (h : s.step l = some s') (hs : .exited ∈ s.workers → s.acceptJobs = false) :
    .exited ∈ s'.workers → s'.acceptJobs = false := by
  intro hmem
  have hset : ∀ {i : ℕ} {w : Worker F}, .exited ∈ s.workers.set i w → w ≠ .exited →
      s.acceptJobs = false := fun hm hne =>
    (List.mem_or_eq_of_mem_set hm).elim hs fun heq => absurd heq.symm hne
  cases step_cases h with
  | queueJob func hp =>
    rcases func with _ | func
    · exact hs hmem
    · unfold queueJob at hmem ⊢
      dsimp only at hmem ⊢
      split_ifs at hmem ⊢ <;> exact hs hmem
  | push hp =>
    unfold push at hmem ⊢
    split at hmem <;> exact hs hmem
  | lock hw =>
    obtain ⟨-, -, hlock⟩ | ⟨haccept, hlock⟩ | ⟨job, jobs, -, -, hlock⟩ := s.lock_cases _ <;>
      rw [hlock] at hmem ⊢
    · exact hset hmem (by simp)
    · exact haccept
    · exact hset hmem (by simp)
  | notify | destroyNotify =>
    obtain ⟨w, hw, heq⟩ := List.mem_map.1 hmem
    refine hs ?_
    cases w <;> first | exact hw | cases heq
  | wake | enter | invoke | finish | leave => exact hset hmem (by simp)
  | destroyStop => rfl
  | destroyClear => cases hmem

/-- Where a worker is when no thread can go on. -/
theorem worker_of_resting (h : Resting ThreadPool.step Proceeds s) {i : ℕ} {w : Worker F}
    (hw : s.workers[i]? = some w) : w = .asleep ∨ w = .exited := by
  cases w with
  | asleep => exact .inl rfl
  | exited => exact .inr rfl
  | ready => simpa [ThreadPool.step, hw] using h (.lock i) rfl
  | holding job => simpa [ThreadPool.step, hw] using h (.enter i) rfl
  | entered job => simpa [ThreadPool.step, hw] using h (.invoke i) rfl
  | executing job => simpa [ThreadPool.step, hw] using h (.finish i .returned) rfl
  | leaving => simpa [ThreadPool.step, hw] using h (.leave i) rfl

theorem producer_of_resting (h : Resting ThreadPool.step Proceeds s) {c : Producer F}
    (hc : c ∈ s.producers) : c = .idle ∨ c = .faulted := by
  obtain ⟨p, hp⟩ := List.getElem?_of_mem hc
  cases c with
  | idle => exact .inl rfl
  | faulted => exact .inr rfl
  | indexed job index => simpa [ThreadPool.step, hp] using h (.push p) rfl
  | pushed => simpa [ThreadPool.step, hp] using h (.notify p) rfl

/-- A pool that accepts jobs, and in which no thread can go on: nothing is in a deque, and every worker
sleeps. -/
theorem Kept.empty_of_resting (hk : s.Kept) (hc : s.Conserved)
    (hexited : .exited ∈ s.workers → s.acceptJobs = false)
    (hrest : Resting ThreadPool.step Proceeds s) :
    (∀ w ∈ s.workers, w = .asleep) ∧ s.jobStack.flatten = [] := by
  have hasleep : ∀ w ∈ s.workers, w = .asleep := fun w hw => by
    obtain ⟨i, hi⟩ := List.getElem?_of_mem hw
    refine (worker_of_resting hrest hi).resolve_right fun hexit => ?_
    have hfalse := hexited (hexit ▸ hw)
    rw [hc.acceptJobs] at hfalse
    cases hfalse
  refine ⟨hasleep, List.flatten_eq_nil_iff.2 fun jobs hjobs => ?_⟩
  obtain ⟨i, hi, rfl⟩ := List.mem_iff_getElem.1 hjobs
  have hlt : i < s.workers.length := by
    rw [hc.workers_length, ← hc.jobStack_length]
    exact hi
  by_contra hne
  -- the worker of this deque sleeps, so some caller has not notified
  have hw : s.workers[i]? = some .asleep := by
    rw [List.getElem?_eq_getElem hlt, hasleep _ (List.getElem_mem hlt)]
  have hown : s.jobStack.getD i [] ≠ [] := by
    rwa [List.getD_eq_getElem?_getD, List.getElem?_eq_getElem hi]
  rcases producer_of_resting hrest (hk.alert i hw hown) with hc | hc <;> cases hc

section

variable {n nextQueue : BitVec 64} {k : ℕ}

theorem exited_of_reachable (h : Reachable ThreadPool.step (new n nextQueue k) s) :
    .exited ∈ s.workers → s.acceptJobs = false := by
  refine h.invariant (P := fun s => .exited ∈ s.workers → s.acceptJobs = false)
    (fun _ _ _ hs hl => exited_step hl hs) fun hmem => ?_
  cases List.eq_of_mem_replicate hmem

theorem workers_length_le (h : Reachable ThreadPool.step (new n nextQueue k) s) :
    s.workers.length ≤ n.toNat := by
  refine h.invariant (P := fun s => s.workers.length ≤ n.toNat)
    (fun _ _ _ hs hl => (energy_step hs hl).1) ?_
  simp [new]

/-- When no thread can go on, nothing is in a deque, and every worker sleeps. -/
theorem empty_of_resting (hn : 0 < n.toNat)
    (h : Reachable ThreadPool.step (new n nextQueue k) s) (hd : s.destroyer = .notCalled)
    (hrest : Resting ThreadPool.step Proceeds s) :
    (∀ w ∈ s.workers, w = .asleep) ∧ s.jobStack.flatten = [] :=
  (kept_of_reachable h).empty_of_resting (conserved_of_reachable hn h hd) (exited_of_reachable h)
    hrest

/-- When all workers sleep and no caller is in `queue_job`, no thread can go on. -/
theorem resting_of_asleep (hw : ∀ w ∈ s.workers, w = .asleep) (hc : ∀ c ∈ s.producers, c = .idle) :
    Resting ThreadPool.step Proceeds s := by
  have hworker : ∀ (i : ℕ) (w : Worker F), s.workers[i]? = some w → w = .asleep :=
    fun i w hi => hw w (List.mem_of_getElem? hi)
  have hproducer : ∀ (p : ℕ) (c : Producer F), s.producers[p]? = some c → c = .idle :=
    fun p c hp => hc c (List.mem_of_getElem? hp)
  intro l hl
  cases l with
  | queueJob | wake | destroyStop | destroyNotify | destroyClear => cases hl
  | push p | notify p =>
    simp only [ThreadPool.step]
    split
    · next hp => cases hproducer p _ hp
    · rfl
  | lock i | enter i | invoke i | finish i | leave i =>
    simp only [ThreadPool.step]
    split
    · next hi => cases hworker i _ hi
    · rfl

/-- A pool of at least one worker does all its work, in whatever order its threads take their steps:

* up to any state the threads have taken no more steps than the calls of `queue_job` and the spurious
  wake-ups account for, and without more of these they come to rest;
* when no thread can go on and `destroy` has not been called, all workers sleep, all deques are empty,
  and the jobs that `queue_job` was called for are exactly those that are finished, once each. -/
theorem jobs_complete (hn : 0 < n.toNat) {ls : List (PoolStep F)}
    (hrun : run ThreadPool.step (new n nextQueue k) ls = some s) :
    ls.length ≤ 2 * n.toNat + 3 + 2 * ls.countP PoolStep.wakes +
      (n.toNat + 8) * ls.countP PoolStep.calls ∧
    (∃ ls' s', Admissible ThreadPool.step Proceeds s ls' ∧ run ThreadPool.step s ls' = some s' ∧
      Resting ThreadPool.step Proceeds s') ∧
    (s.destroyer = .notCalled → Resting ThreadPool.step Proceeds s →
      (∀ w ∈ s.workers, w = .asleep) ∧ s.jobStack.flatten = [] ∧ s.called.Nodup ∧
        s.finished.Perm s.called) := by
  refine ⟨?_, ?_, fun hd hrest => ?_⟩
  · have := length_le (workers_length_le (.refl _)) hrun
    rwa [energy_new] at this
  · exact exists_resting (I := fun s => s.workers.length ≤ n.toNat) (m := energy n.toNat)
      (fun _ _ _ hs hl hstep => energy_lt hs hl hstep) (workers_length_le ⟨ls, hrun⟩)
  · obtain ⟨hasleep, hempty⟩ := empty_of_resting hn ⟨ls, hrun⟩ hd hrest
    have hc := conserved_of_reachable hn ⟨ls, hrun⟩ hd
    have hheld : s.held = [] := List.flatMap_eq_nil_iff.2 fun w hw => by rw [hasleep w hw]; rfl
    have hcalling : s.calling = [] := List.flatMap_eq_nil_iff.2 fun c hmem => by
      rcases producer_of_resting hrest hmem with rfl | rfl <;> rfl
    refine ⟨hasleep, hempty, hc.nodup_called, ?_⟩
    have hcalled := hc.called
    have hplaces := hc.places
    rw [hcalling, List.nil_append] at hcalled
    rw [hempty, hheld, List.nil_append, List.nil_append] at hplaces
    exact (hcalled.trans hplaces).symm

/-- Two workers and one job, whose function throws. -/
theorem jobs_complete_two :
    ∃ s : ThreadPool ℕ, run ThreadPool.step (new 2 0 1)
        [.lock 0, .lock 1, .queueJob 0 (some 7), .push 0, .notify 0, .lock 1, .lock 0, .enter 0,
          .invoke 0, .finish 0 .threw, .leave 0, .lock 0] = some s ∧
      s.finished.Perm s.called ∧ s.called = [⟨some 7, 0⟩] := by
  obtain ⟨s, hs, hview⟩ := Option.map_eq_some_iff.1
    (show (run ThreadPool.step (new 2 0 1 : ThreadPool ℕ)
      [.lock 0, .lock 1, .queueJob 0 (some 7), .push 0, .notify 0, .lock 1, .lock 0, .enter 0,
        .invoke 0, .finish 0 .threw, .leave 0, .lock 0]).map
          (fun s => (s.workers, s.producers, s.destroyer, s.called)) =
        some ([Worker.asleep, .asleep], [Producer.idle], .notCalled, [⟨some 7, 0⟩]) by decide)
  simp only [Prod.mk.injEq] at hview
  obtain ⟨hworkers, hproducers, hd, hcalled⟩ := hview
  have hrest := resting_of_asleep (s := s) (by simp [hworkers]) (by simp [hproducers])
  exact ⟨s, hs, ((jobs_complete (by decide) hs).2.2 hd hrest).2.2.2, hcalled⟩

/-! ## The end of `destroy` -/

theorem mem_held {i : ℕ} {w : Worker F} {job : ThreadPoolJob F} (hw : s.workers[i]? = some w)
    (hj : job ∈ w.held) : job ∈ s.held :=
  List.mem_flatMap.2 ⟨w, List.mem_of_getElem? hw, hj⟩

theorem mem_held_of_set {i : ℕ} {w : Worker F} {job : ThreadPoolJob F}
    (hw : s.workers[i]? = some w) (w' : Worker F) (hsub : w'.held ⊆ w.held)
    (hj : job ∈ (s.workers.set i w').flatMap Worker.held) : job ∈ s.held := by
  obtain ⟨v, hv, hj⟩ := List.mem_flatMap.1 hj
  rcases List.mem_or_eq_of_mem_set hv with hv | heq
  · exact List.mem_flatMap.2 ⟨v, hv, hj⟩
  · exact mem_held hw (hsub (heq ▸ hj))

/-- Once the pool accepts no more jobs, a worker that has none gets none. -/
structure Closing (s₀ s : ThreadPool F) : Prop where
  accept : s.acceptJobs = false
  started : ∀ job, job ∈ s.invoked ∨ job ∈ s.held → job ∈ s₀.invoked ∨ job ∈ s₀.held

theorem Closing.move {s₀ : ThreadPool F} (h : Closing s₀ s) (haccept : s'.acceptJobs = s.acceptJobs)
    (hstarted : ∀ job, job ∈ s'.invoked ∨ job ∈ s'.held → job ∈ s.invoked ∨ job ∈ s.held) :
    Closing s₀ s' :=
  ⟨haccept.trans h.accept, fun job hj => h.started job (hstarted job hj)⟩

theorem Closing.step {s₀ : ThreadPool F} (h : Closing s₀ s) (hs : s.step l = some s') :
    Closing s₀ s' := by
  cases step_cases hs with
  | queueJob func hp =>
    rcases func with _ | func
    · exact h
    · unfold queueJob
      dsimp only
      split_ifs <;> exact h.move rfl fun _ => id
  | push hp =>
    unfold push
    split <;> exact h.move rfl fun _ => id
  | notify | destroyNotify =>
    refine h.move rfl fun job hj => hj.imp_right fun hj => ?_
    rwa [held, notifyAll_flatMap _ _ rfl] at hj
  | lock hw =>
    obtain ⟨haccept, -, -⟩ | ⟨-, hlock⟩ | ⟨job, jobs, haccept, -, -⟩ := s.lock_cases _
    · rw [h.accept] at haccept
      cases haccept
    · rw [hlock]
      exact h.move rfl fun job hj => hj.imp_right (mem_held_of_set hw .exited (List.nil_subset _))
    · rw [h.accept] at haccept
      cases haccept
  | wake hw | leave hw =>
    exact h.move rfl fun job hj => hj.imp_right (mem_held_of_set hw .ready (List.nil_subset _))
  | @enter i job hw =>
    exact h.move rfl fun _ hj => hj.imp_right (mem_held_of_set hw (.entered job) fun _ => id)
  | @invoke i job hw =>
    refine h.move rfl fun _ hj => hj.elim (fun hj => ?_) fun hj => .inr ?_
    · exact (List.mem_append.1 hj).imp_right (mem_held hw)
    · exact mem_held_of_set hw (.executing job) (fun _ => id) hj
  | finish _ hw =>
    exact h.move rfl fun job hj => hj.imp_right (mem_held_of_set hw .leaving (List.nil_subset _))
  | destroyStop => exact ⟨rfl, h.started⟩
  | destroyClear => exact h.move rfl fun job hj => hj.imp_right fun hj => absurd hj List.not_mem_nil

open Classical in
/-- A job that a worker holds and does not execute was not invoked. -/
theorem Kept.notMem_invoked (h : s.Kept) {i : ℕ} {job : ThreadPoolJob F}
    (hw : s.workers[i]? = some (.entered job)) : job ∉ s.invoked := by
  intro hmem
  have hq := List.nodup_iff_count_le_one.1 h.nodup_queued job
  have hp := h.places.count_eq job
  have hi := h.invoked.count_eq job
  have hpos := List.count_pos_iff.2 hmem
  -- after its step the worker executes the job, and holds it as before
  have hheld := Table.count_flatMap_set hw (.executing job) Worker.held job
  have hrun := Table.count_flatMap_set hw (.executing job) Worker.running job
  have hle : ((s.workers.set i (.executing job)).flatMap Worker.running).count job ≤
      ((s.workers.set i (.executing job)).flatMap Worker.held).count job := by
    simp only [List.count_flatMap]
    refine List.sum_le_sum fun w _ => ?_
    cases w <;> simp [Worker.running, Worker.held]
  simp only [held, running, Worker.held, Worker.running, List.count_append, List.count_singleton_self,
    List.count_nil] at hp hi hheld hrun
  omega

/-- In every state that a pool of any size reaches in its whole life, `destroy` included:

* the queued jobs are pairwise different, and each is in one position of one deque, held by one
  worker, finished, or thrown away by `destroy`, and in only one of these places;
* the next function that a worker invokes is that of a queued job that was not invoked before, and is
  not empty;
* once `destroy` has been called, no job is ever invoked that was not in a worker's hands by then;
* when `destroy` joins and no other thread can go on, it goes on itself: all workers have exited;
* after `destroy`, each queued job was finished or thrown away. -/
theorem destroy_ends (h : Reachable ThreadPool.step (new n nextQueue k) s) :
    (s.queued.Nodup ∧
      s.queued.Perm (s.jobStack.flatten ++ s.held ++ s.finished ++ s.discarded)) ∧
    (∀ i s', s.step (.invoke i) = some s' → ∃ job, s'.invoked = s.invoked ++ [job] ∧
      job ∈ s.queued ∧ job ∉ s.invoked ∧ job.func.isSome) ∧
    (s.destroyer ≠ .notCalled → ∀ s', Steps ThreadPool.step s s' → ∀ job ∈ s'.invoked,
      job ∈ s.invoked ∨ job ∈ s.held) ∧
    (s.destroyer = .joining → Resting ThreadPool.step Proceeds s →
      (s.step .destroyClear).isSome) ∧
    (s.destroyer = .cleared → s.queued.Perm (s.finished ++ s.discarded)) := by
  have hk := kept_of_reachable h
  refine ⟨⟨hk.nodup_queued, hk.places⟩, fun i s' hs => ?_, fun hd s' hs job hj => ?_,
    fun hd hrest => ?_, fun hd => ?_⟩
  · cases step_cases hs with
    | @invoke i job hw =>
      have hq : job ∈ s.queued := hk.mem_queued hw (List.mem_singleton_self job)
      exact ⟨job, rfl, hq, hk.notMem_invoked hw, hk.func job (hk.mem_called hq)⟩
  · have haccept : s.acceptJobs = false := Bool.eq_false_iff.2 fun ht => hd (hk.accept.1 ht)
    have hclosing := hs.invariant (P := Closing s) (fun _ _ _ hc hl => hc.step hl)
      ⟨haccept, fun _ => id⟩
    exact hclosing.started job (.inl hj)
  · have hexited : s.workers.all Worker.hasExited = true := List.all_eq_true.2 fun w hw => by
      obtain ⟨i, hi⟩ := List.getElem?_of_mem hw
      rcases worker_of_resting hrest hi with rfl | rfl
      · exact absurd hw (hk.awake hd)
      · rfl
    simp [ThreadPool.step, hd, hexited]
  · obtain ⟨hworkers, hstack⟩ := hk.cleared hd
    simpa [held, hworkers, hstack] using hk.places

/-- The worker finishes the job it has; the one in its deque is thrown away. -/
theorem destroy_ends_two :
    ∃ s : ThreadPool ℕ, run ThreadPool.step (new 1 0 1)
        [.queueJob 0 (some 7), .push 0, .notify 0, .queueJob 0 (some 8), .lock 0, .push 0,
          .destroyStop, .destroyNotify, .enter 0, .invoke 0, .finish 0 .returned, .leave 0, .lock 0,
          .destroyClear] = some s ∧
      s.queued.Perm (s.finished ++ s.discarded) ∧ s.discarded = [⟨some 8, 1⟩] := by
  obtain ⟨s, hs, hview⟩ := Option.map_eq_some_iff.1
    (show (run ThreadPool.step (new 1 0 1 : ThreadPool ℕ)
      [.queueJob 0 (some 7), .push 0, .notify 0, .queueJob 0 (some 8), .lock 0, .push 0,
        .destroyStop, .destroyNotify, .enter 0, .invoke 0, .finish 0 .returned, .leave 0, .lock 0,
        .destroyClear]).map (fun s => (s.destroyer, s.discarded)) =
        some (.cleared, [⟨some 8, 1⟩]) by decide)
  obtain ⟨hd, hdiscarded⟩ := Prod.mk.inj hview
  exact ⟨s, hs, (destroy_ends ⟨_, hs⟩).2.2.2.2 hd, hdiscarded⟩

end

end ThreadPool

end EllohimMQ
