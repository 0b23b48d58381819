import EllohimMQ.Proof.PoolLife

/-!
# Which worker does a job, and when

`next_queue` gives every job a deque, and only the worker of that deque takes it, because no worker
steals.  So a pool is as many pools of one worker as it has threads.  Each of these does its jobs newest
first: of two jobs that wait in one deque, the one that was queued later is invoked earlier.
-/

namespace EllohimMQ

open Transition

variable {F : Type}

/-- The worker of a job, in a pool of `n` threads that was made when `next_queue` was `nextQueue`. -/
def ThreadPoolJob.home (n nextQueue : BitVec 64) (job : ThreadPoolJob F) : ℕ :=
  (nextQueue + BitVec.ofNat 64 job.ticket).toNat % n.toNat

/-- The job that a worker has taken and not invoked. -/
def Worker.uninvoked : Worker F → Option (ThreadPoolJob F)
  | .holding job => some job
  | .entered job => some job
  | _ => none

namespace ThreadPool

variable {s s' : ThreadPool F} {l : PoolStep F} {n nextQueue : BitVec 64} {k : ℕ}

/-! ## The place of a job -/

/-- The jobs are where they belong, and each deque has the jobs that were queued last in front. -/
structure Housed (n nextQueue : BitVec 64) (s : ThreadPool F) : Prop where
  jobStack_length : s.jobStack.length ≠ 0 → s.jobStack.length = n.toNat
  counter : s.nextQueue = nextQueue + BitVec.ofNat 64 s.called.length
  calling : ∀ job index, .indexed job index ∈ s.producers → index = job.home n nextQueue
  stacked : ∀ (i : ℕ) (jobs : List (ThreadPoolJob F)), s.jobStack[i]? = some jobs →
    (∀ job ∈ jobs, i = job.home n nextQueue) ∧ jobs.Sublist s.queued.reverse
  held : ∀ (i : ℕ) (w : Worker F), s.workers[i]? = some w → ∀ job ∈ w.held,
    i = job.home n nextQueue

theorem housed_new (n nextQueue : BitVec 64) (k : ℕ) :
    (new n nextQueue k : ThreadPool F).Housed n nextQueue where
  jobStack_length _ := List.length_replicate
  counter := (BitVec.add_zero nextQueue).symm
  calling job index hmem := by cases List.eq_of_mem_replicate hmem
  stacked i jobs hi := by
    obtain rfl := List.eq_of_mem_replicate (List.mem_of_getElem? hi)
    exact ⟨fun job hj => absurd hj List.not_mem_nil, List.nil_sublist _⟩
  held i w hi job hj := by
    obtain rfl := List.eq_of_mem_replicate (List.mem_of_getElem? hi)
    cases hj

/-- A worker goes to another place, and takes no job with it that it did not have. -/
theorem held_of_set {p : ℕ → ThreadPoolJob F → Prop}
    (h : ∀ (j : ℕ) (w : Worker F), s.workers[j]? = some w → ∀ job ∈ w.held, p j job) {i : ℕ}
    {w' : Worker F} (hw : ∀ job ∈ w'.held, p i job) (j : ℕ) (v : Worker F)
    (hv : (s.workers.set i w')[j]? = some v) : ∀ job ∈ v.held, p j job := by
  rw [List.getElem?_set] at hv
  split_ifs at hv with hij
  · subst hij
    exact Option.some.inj hv ▸ hw
  · exact h j v hv

theorem held_of_notifyAll {p : ℕ → ThreadPoolJob F → Prop}
    (h : ∀ (j : ℕ) (w : Worker F), s.workers[j]? = some w → ∀ job ∈ w.held, p j job) (j : ℕ)
    (v : Worker F) (hv : (notifyAll s.workers)[j]? = some v) : ∀ job ∈ v.held, p j job := by
  rw [notifyAll, List.getElem?_map] at hv
  obtain ⟨w, hw, rfl⟩ := Option.map_eq_some_iff.1 hv
  cases w with
  | asleep => exact h j .asleep hw
  | ready | holding job | entered job | executing job | leaving | exited => exact h j _ hw

theorem Housed.queueJob (h : s.Housed n nextQueue) (p : ℕ) (func : Option F) :
    (s.queueJob p func).Housed n nextQueue := by
  cases func with
  | none => exact h
  | some func =>
    unfold ThreadPool.queueJob
    dsimp only
    split_ifs with hlen
    · refine { h with calling := fun job index hmem => ?_ }
      rcases List.mem_or_eq_of_mem_set hmem with hmem | heq
      · exact h.calling job index hmem
      · cases heq
    · refine { h with counter := ?_, calling := fun job index hmem => ?_ }
      · rw [h.counter, List.length_append, List.length_singleton, BitVec.ofNat_add,
          ← BitVec.add_assoc]
        rfl
      · rcases List.mem_or_eq_of_mem_set hmem with hmem | heq
        · exact h.calling job index hmem
        · obtain ⟨rfl, rfl⟩ := Producer.indexed.inj heq
          dsimp only [ThreadPoolJob.home]
          rw [h.counter, h.jobStack_length hlen]

theorem Housed.push (h : s.Housed n nextQueue) {p index : ℕ} {job : ThreadPoolJob F}
    (hp : s.producers[p]? = some (.indexed job index)) :
    (s.push p job index).Housed n nextQueue := by
  have hcalling : ∀ c : Producer F, (∀ job index, c ≠ .indexed job index) → ∀ job index,
      .indexed job index ∈ s.producers.set p c → index = job.home n nextQueue :=
    fun c hc job index hmem => (List.mem_or_eq_of_mem_set hmem).elim (h.calling job index)
      fun heq => absurd heq.symm (hc job index)
  unfold ThreadPool.push
  split
  · exact { h with calling := hcalling .faulted (by simp) }
  next jobs hjobs =>
    refine { h with
      jobStack_length := by simpa using h.jobStack_length
      calling := hcalling .pushed (by simp)
      stacked := fun i jobs' hi => ?_ }
    rw [List.reverse_append, List.reverse_singleton, List.singleton_append]
    rw [List.getElem?_set] at hi
    split_ifs at hi with hindex
    · subst hindex
      obtain rfl := Option.some.inj hi
      obtain ⟨hhome, hsub⟩ := h.stacked index jobs hjobs
      refine ⟨fun job' hj => ?_, hsub.cons_cons job⟩
      rcases List.mem_cons.1 hj with rfl | hj
      · exact h.calling job' index (List.mem_of_getElem? hp)
      · exact hhome job' hj
    · obtain ⟨hhome, hsub⟩ := h.stacked i jobs' hi
      exact ⟨hhome, hsub.cons job⟩

theorem Housed.lock (h : s.Housed n nextQueue) (i : ℕ) : (s.lock i).Housed n nextQueue := by
  obtain ⟨-, -, hlock⟩ | ⟨-, hlock⟩ | ⟨job, jobs, -, hjobs, hlock⟩ := s.lock_cases i <;> rw [hlock]
  · exact { h with held := held_of_set h.held fun _ hj => by cases hj }
  · exact { h with held := held_of_set h.held fun _ hj => by cases hj }
  · obtain ⟨hhome, hsub⟩ := h.stacked i _ hjobs
    refine { h with
      jobStack_length := by simpa using h.jobStack_length
      stacked := fun j jobs' hj => ?_
      held := held_of_set h.held fun job' hj => ?_ }
    · rw [List.getElem?_set] at hj
      split_ifs at hj with hij
      · subst hij
        obtain rfl := Option.some.inj hj
        exact ⟨fun job' hj' => hhome job' (List.mem_cons_of_mem _ hj'),
          (List.sublist_cons_self job jobs).trans hsub⟩
      · exact h.stacked j jobs' hj
    · rw [List.mem_singleton.1 hj]
      exact hhome job List.mem_cons_self

theorem Housed.step (h : s.Housed n nextQueue) (hs : s.step l = some s') :
    s'.Housed n nextQueue := by
  cases step_cases hs with
  | queueJob func => exact h.queueJob _ func
  | push hp => exact h.push hp
  | notify hp =>
    refine { h with calling := fun job index hmem => ?_, held := held_of_notifyAll h.held }
    rcases List.mem_or_eq_of_mem_set hmem with hmem | heq
    · exact h.calling job index hmem
    · cases heq
  | lock => exact h.lock _
  | wake | leave | finish => exact { h with held := held_of_set h.held fun _ hj => by cases hj }
  | @enter i job hw =>
    exact { h with held := held_of_set h.held (h.held i (.holding job) hw) }
  | @invoke i job hw =>
    exact { h with held := held_of_set h.held (h.held i (.entered job) hw) }
  | destroyStop => exact { h with }
  | destroyNotify => exact { h with held := held_of_notifyAll h.held }
  | destroyClear =>
    exact { h with
      jobStack_length := fun hne => absurd rfl hne
      stacked := fun i jobs hi => by cases hi
      held := fun i w hi => by cases hi }

theorem housed_of_reachable (h : Reachable ThreadPool.step (new n nextQueue k) s) :
    s.Housed n nextQueue :=
  h.invariant (fun _ _ _ hh hs => hh.step hs) (housed_new n nextQueue k)

theorem Housed.deque (h : s.Housed n nextQueue) (i : ℕ) :
    (∀ job ∈ s.jobStack.getD i [], i = job.home n nextQueue) ∧
      (s.jobStack.getD i []).Sublist s.queued.reverse := by
  rcases hi : s.jobStack[i]? with _ | jobs <;> rw [List.getD_eq_getElem?_getD, hi]
  · exact ⟨fun job hj => absurd hj List.not_mem_nil, List.nil_sublist _⟩
  · exact h.stacked i jobs hi

/-! ## Two jobs of one deque -/

/-- `a` waits behind `b`, in deque `i` or, once the worker has taken `b`, for the worker. -/
structure Behind (i : ℕ) (b a : ThreadPoolJob F) (s : ThreadPool F) : Prop where
  notMem_invoked : a ∉ s.invoked
  notMem_held : a ∉ s.held
  place : (∃ jobs, s.jobStack[i]? = some jobs ∧ [b, a].Sublist jobs) ∨
    (∃ jobs w, s.jobStack[i]? = some jobs ∧ a ∈ jobs ∧ s.workers[i]? = some w ∧
      w.uninvoked = some b) ∨
    s.workers = []

/-- `b` was invoked, and `a` is not invoked before it. -/
def Before (b a : ThreadPoolJob F) (s : ThreadPool F) : Prop :=
  b ∈ s.invoked ∧ (a ∈ s.invoked → [b, a].Sublist s.invoked)

variable {i : ℕ} {a b : ThreadPoolJob F}

theorem Behind.exists_mem (h : Behind i b a s) {j : ℕ} {w : Worker F}
    (hw : s.workers[j]? = some w) : ∃ jobs, s.jobStack[i]? = some jobs ∧ a ∈ jobs := by
  rcases h.place with ⟨jobs, hjobs, hsub⟩ | ⟨jobs, -, hjobs, ha, -⟩ | hnil
  · exact ⟨jobs, hjobs, hsub.subset (by simp)⟩
  · exact ⟨jobs, hjobs, ha⟩
  · rw [hnil] at hw
    cases hw

/-- A worker goes to another place, and `b` is not the job that it loses. -/
theorem Behind.moveWorker (h : Behind i b a s) {j : ℕ} {w : Worker F} (w' : Worker F)
    (hw : s.workers[j]? = some w)
    (hkeep : w.uninvoked = some b → w'.uninvoked = some b) (hheld : w'.held ⊆ w.held)
    (hworkers : s'.workers = s.workers.set j w') (hstack : s'.jobStack = s.jobStack)
    (hinvoked : a ∉ s'.invoked) : Behind i b a s' where
  notMem_invoked := hinvoked
  notMem_held ha := by
    rw [held, hworkers] at ha
    exact h.notMem_held (mem_held_of_set hw w' hheld ha)
  place := by
    rw [hstack, hworkers]
    refine h.place.imp_right (Or.imp ?_ fun hnil => by rw [hnil, List.set_nil])
    rintro ⟨jobs, v, hjobs, ha, hv, hb⟩
    rcases eq_or_ne i j with rfl | hij
    · obtain rfl := Option.some.inj (hw.symm.trans hv)
      refine ⟨jobs, w', hjobs, ha, ?_, hkeep hb⟩
      rw [List.getElem?_set_self (List.getElem?_eq_some_iff.1 hw).1]
    · exact ⟨jobs, v, hjobs, ha, by rwa [List.getElem?_set_ne hij.symm], hb⟩

theorem Behind.wakeAll (h : Behind i b a s) (hworkers : s'.workers = ThreadPool.notifyAll s.workers)
    (hstack : s'.jobStack = s.jobStack) (hinvoked : s'.invoked = s.invoked) : Behind i b a s' where
  notMem_invoked := hinvoked ▸ h.notMem_invoked
  notMem_held ha := by
    rw [held, hworkers, notifyAll_flatMap _ _ rfl] at ha
    exact h.notMem_held ha
  place := by
    rw [hstack, hworkers]
    refine h.place.imp_right (Or.imp ?_ fun hnil => by rw [hnil]; rfl)
    rintro ⟨jobs, v, hjobs, ha, hv, hb⟩
    refine ⟨jobs, v, hjobs, ha, ?_, hb⟩
    rw [ThreadPool.notifyAll, List.getElem?_map, hv]
    cases v with
    | asleep => cases hb
    | ready | holding job | entered job | executing job | leaving | exited => rfl

theorem Behind.push (h : Behind i b a s) (p index : ℕ) (job : ThreadPoolJob F) :
    Behind i b a (s.push p job index) := by
  unfold ThreadPool.push
  split
  · exact ⟨h.notMem_invoked, h.notMem_held, h.place⟩
  next jobs hjobs =>
    -- the deque only grows, and in front
    have hgrow : ∀ jobs', s.jobStack[i]? = some jobs' → ∃ jobs'',
        (s.jobStack.set index (job :: jobs))[i]? = some jobs'' ∧ jobs'.Sublist jobs'' := by
      intro jobs' hi
      rcases eq_or_ne index i with rfl | hne
      · obtain rfl := Option.some.inj (hjobs.symm.trans hi)
        exact ⟨job :: jobs, List.getElem?_set_self (List.getElem?_eq_some_iff.1 hi).1,
          List.sublist_cons_self job jobs⟩
      · exact ⟨jobs', by rwa [List.getElem?_set_ne hne], .refl _⟩
    refine ⟨h.notMem_invoked, h.notMem_held, ?_⟩
    rcases h.place with ⟨jobs', hi, hsub⟩ | ⟨jobs', w, hi, ha, hw⟩ | hnil
    · obtain ⟨jobs'', hi', hle⟩ := hgrow jobs' hi
      exact .inl ⟨jobs'', hi', hsub.trans hle⟩
    · obtain ⟨jobs'', hi', hle⟩ := hgrow jobs' hi
      exact .inr (.inl ⟨jobs'', w, hi', hle.subset ha, hw⟩)
    · exact .inr (.inr hnil)

/-- The next job that the worker takes is before `a` in the deque, and `b` is not behind `a`. -/
theorem Behind.front (h : Behind i b a s) (hw : s.workers[i]? = some .ready)
    {job : ThreadPoolJob F} {jobs : List (ThreadPoolJob F)}
    (hjobs : s.jobStack[i]? = some (job :: jobs)) : a ∈ jobs ∧ ([b, a].Sublist jobs ∨ job = b) := by
  rcases h.place with ⟨jobs', hi, hsub⟩ | ⟨-, w, -, -, hw', hb⟩ | hnil
  · obtain rfl := Option.some.inj (hjobs.symm.trans hi)
    rcases List.sublist_cons_iff.1 hsub with hsub | ⟨l, heq, ha⟩
    · exact ⟨hsub.subset (by simp), .inl hsub⟩
    · obtain ⟨rfl, rfl⟩ := List.cons.inj heq
      exact ⟨List.singleton_sublist.1 ha, .inr rfl⟩
  · obtain rfl := Option.some.inj (hw.symm.trans hw')
    cases hb
  · rw [hnil] at hw
    cases hw

/-- A worker takes another job than `a`. -/
theorem Behind.notMem_held_take (h : Behind i b a s) {j : ℕ} {job : ThreadPoolJob F}
    (hne : a ≠ job) : a ∉ (s.workers.set j (.holding job)).flatMap Worker.held := by
  intro ha
  obtain ⟨w, hw, ha⟩ := List.mem_flatMap.1 ha
  rcases List.mem_or_eq_of_mem_set hw with hw | rfl
  · exact h.notMem_held (List.mem_flatMap.2 ⟨w, hw, ha⟩)
  · exact hne (List.mem_singleton.1 ha)

theorem Behind.lock (h : Behind i b a s) (hh : s.Housed n nextQueue) (hnodup : s.queued.Nodup)
    {j : ℕ} (hw : s.workers[j]? = some .ready) : Behind i b a (s.lock j) := by
  obtain ⟨-, -, hlock⟩ | ⟨-, hlock⟩ | ⟨job, jobs, -, hjobs, hlock⟩ := s.lock_cases j <;> rw [hlock]
  · exact h.moveWorker .asleep hw (fun hb => by cases hb) (List.nil_subset _) rfl rfl
      h.notMem_invoked
  · exact h.moveWorker .exited hw (fun hb => by cases hb) (List.nil_subset _) rfl rfl
      h.notMem_invoked
  obtain ⟨hhome, hsub⟩ := hh.stacked j _ hjobs
  rcases eq_or_ne j i with rfl | hji
  · have hnotMem : job ∉ jobs :=
      (List.nodup_cons.1 (hsub.nodup (List.nodup_reverse.2 hnodup))).1
    have hset : (s.jobStack.set j jobs)[j]? = some jobs :=
      List.getElem?_set_self (List.getElem?_eq_some_iff.1 hjobs).1
    obtain ⟨ha, hfront⟩ := h.front hw hjobs
    refine ⟨h.notMem_invoked, h.notMem_held_take fun heq => hnotMem (heq ▸ ha), ?_⟩
    rcases hfront with hba | rfl
    · exact .inl ⟨jobs, hset, hba⟩
    · exact .inr (.inl ⟨jobs, .holding job, hset, ha,
        List.getElem?_set_self (List.getElem?_eq_some_iff.1 hw).1, rfl⟩)
  · -- the job of another deque is not `a`
    obtain ⟨jobs', hi, ha⟩ := h.exists_mem hw
    have hne : a ≠ job := fun heq => hji <|
      (hhome job List.mem_cons_self).trans (heq ▸ ((hh.stacked i jobs' hi).1 a ha).symm)
    refine ⟨h.notMem_invoked, h.notMem_held_take hne, ?_⟩
    dsimp only
    rw [List.getElem?_set_ne hji, List.getElem?_set_ne hji]
    exact h.place.imp_right (Or.imp_right fun hnil => by rw [hnil, List.set_nil])

theorem Behind.invoke (h : Behind i b a s) {j : ℕ} {job : ThreadPoolJob F}
    (hw : s.workers[j]? = some (.entered job))
    (hworkers : s'.workers = s.workers.set j (.executing job)) (hstack : s'.jobStack = s.jobStack)
    (hinvoked : s'.invoked = s.invoked ++ [job]) : Behind i b a s' ∨ Before b a s' := by
  have hne : a ≠ job := fun heq =>
    h.notMem_held (mem_held hw (heq ▸ List.mem_singleton_self job))
  have hnotMem : a ∉ s'.invoked := by
    rw [hinvoked, List.mem_append, List.mem_singleton]
    exact not_or.2 ⟨h.notMem_invoked, hne⟩
  by_cases hb : job = b
  · exact .inr ⟨by simp [hinvoked, hb], fun ha => absurd ha hnotMem⟩
  · exact .inl (h.moveWorker (.executing job) hw (fun heq => absurd (Option.some.inj heq) hb)
      (fun _ => id) hworkers hstack hnotMem)

theorem Behind.step (h : Behind i b a s) (hh : s.Housed n nextQueue) (hnodup : s.queued.Nodup)
    (hs : s.step l = some s') : Behind i b a s' ∨ Before b a s' := by
  cases step_cases hs with
  | queueJob func =>
    unfold queueJob
    split
    · exact .inl h
    · split_ifs <;> exact .inl ⟨h.notMem_invoked, h.notMem_held, h.place⟩
  | @push p index job => exact .inl (h.push p index job)
  | notify | destroyNotify => exact .inl (h.wakeAll rfl rfl rfl)
  | lock hw => exact .inl (h.lock hh hnodup hw)
  | wake hw | leave hw =>
    exact .inl (h.moveWorker .ready hw (fun hb => by cases hb) (List.nil_subset _) rfl rfl
      h.notMem_invoked)
  | @enter j job hw =>
    exact .inl (h.moveWorker (.entered job) hw id (fun _ => id) rfl rfl h.notMem_invoked)
  | invoke hw => exact h.invoke hw rfl rfl rfl
  | finish _ hw =>
    exact .inl (h.moveWorker .leaving hw (fun hb => by cases hb) (List.nil_subset _) rfl rfl
      h.notMem_invoked)
  | destroyStop => exact .inl ⟨h.notMem_invoked, h.notMem_held, h.place⟩
  | destroyClear => exact .inl ⟨h.notMem_invoked, List.not_mem_nil, .inr (.inr rfl)⟩

theorem invoked_step (hs : s.step l = some s') : s.invoked <+: s'.invoked := by
  cases step_cases hs with
  | queueJob func =>
    unfold queueJob
    split
    · exact List.prefix_rfl
    · split_ifs <;> exact List.prefix_rfl
  | push =>
    unfold push
    split <;> exact List.prefix_rfl
  | @lock j =>
    have hinvoked : (s.lock j).invoked = s.invoked := by
      obtain ⟨-, -, hlock⟩ | ⟨-, hlock⟩ | ⟨job, jobs, -, -, hlock⟩ := s.lock_cases j <;> rw [hlock]
    exact hinvoked ▸ List.prefix_rfl
  | invoke => exact List.prefix_append ..
  | notify | wake | enter | finish | leave | destroyStop | destroyNotify | destroyClear =>
    exact List.prefix_rfl

theorem Before.later (h : Before b a s) (hle : s.invoked <+: s'.invoked) :
    Before b a s' := by
  obtain ⟨jobs, hjobs⟩ := hle
  rw [Before, ← hjobs]
  refine ⟨List.mem_append_left _ h.1, fun ha => ?_⟩
  rcases List.mem_append.1 ha with ha | ha
  · exact (h.2 ha).trans (List.sublist_append_left ..)
  · exact (List.singleton_sublist.2 h.1).append (List.singleton_sublist.2 ha)

/-- What waits in a deque is in no worker's hands and was not invoked. -/
theorem Kept.behind (h : s.Kept) {jobs : List (ThreadPoolJob F)} (hi : s.jobStack[i]? = some jobs)
    (hsub : [b, a].Sublist jobs) : Behind i b a s := by
  have ha : a ∈ s.jobStack.flatten :=
    List.mem_flatten.2 ⟨jobs, List.mem_of_getElem? hi, hsub.subset (by simp)⟩
  have hnodup := h.places.nodup_iff.1 h.nodup_queued
  have hplaces := (List.nodup_append.1 hnodup).1
  have hdisjoint := List.disjoint_of_nodup_append (List.append_assoc .. ▸ hplaces)
  have hheld : a ∉ s.held := fun hmem => hdisjoint ha (List.mem_append_left _ hmem)
  refine ⟨fun hmem => ?_, hheld, .inl ⟨jobs, hi, hsub⟩⟩
  rcases List.mem_append.1 (h.invoked.mem_iff.1 hmem) with hrun | hfinished
  · obtain ⟨w, hw, hj⟩ := List.mem_flatMap.1 hrun
    refine hheld (List.mem_flatMap.2 ⟨w, hw, ?_⟩)
    cases w with
    | executing job => exact hj
    | ready | asleep | holding job | entered job | leaving | exited => cases hj
  · exact hdisjoint ha (List.mem_append_right _ hfinished)

/-- In every state that a pool reaches in its whole life, `destroy` included:

* a job in deque `i`, or in the hands of worker `i`, is one whose turn of `next_queue` was `i`: no
  worker ever gets a job of another;
* each deque has its jobs in the opposite order to that in which they were queued;
* of two jobs in one deque, the one in front is invoked first, whatever happens later. -/
theorem jobs_housed (h : Reachable ThreadPool.step (new n nextQueue k) s) :
    (∀ (i : ℕ) (job : ThreadPoolJob F), (job ∈ s.jobStack.getD i [] ∨
      ∃ w, s.workers[i]? = some w ∧ job ∈ w.held) → i = job.home n nextQueue) ∧
    (∀ i, (s.jobStack.getD i []).Sublist s.queued.reverse) ∧
    ∀ (i : ℕ) (a b : ThreadPoolJob F), [b, a].Sublist (s.jobStack.getD i []) →
      ∀ s', Steps ThreadPool.step s s' → a ∈ s'.invoked → [b, a].Sublist s'.invoked := by
  have hh := housed_of_reachable h
  have hk := kept_of_reachable h
  refine ⟨fun i job hmem => ?_, fun i => (hh.deque i).2, fun i a b hsub s' hs => ?_⟩
  · rcases hmem with hmem | ⟨w, hw, hmem⟩
    · exact (hh.deque i).1 job hmem
    · exact hh.held i w hw job hmem
  · rcases hi : s.jobStack[i]? with _ | jobs <;> rw [List.getD_eq_getElem?_getD, hi] at hsub
    · cases hsub
    have hlater : Behind i b a s' ∨ Before b a s' := by
      refine (hs.invariant (P := fun s => s.Housed n nextQueue ∧ s.Kept ∧
        (Behind i b a s ∨ Before b a s)) ?_ ⟨hh, hk, .inl (hk.behind hi hsub)⟩).2.2
      rintro s l s' ⟨hh, hk, hbehind | hbefore⟩ hl
      · exact ⟨hh.step hl, hk.step hl, hbehind.step hh hk.nodup_queued hl⟩
      · exact ⟨hh.step hl, hk.step hl, .inr (hbefore.later (invoked_step hl))⟩
    exact fun ha => hlater.elim (fun hbehind => absurd ha hbehind.notMem_invoked) fun hb => hb.2 ha

/-- The first and the third job are for worker 0, which does the third before the first. -/
theorem jobs_housed_two :
    ∃ s : ThreadPool ℕ, run ThreadPool.step (new 2 0 1)
        [.queueJob 0 (some 7), .push 0, .notify 0, .queueJob 0 (some 8), .push 0, .notify 0,
          .queueJob 0 (some 9), .push 0, .notify 0] = some s ∧
      s.jobStack = [[⟨some 9, 2⟩, ⟨some 7, 0⟩], [⟨some 8, 1⟩]] ∧
      ∀ s', Steps ThreadPool.step s s' → ⟨some 7, 0⟩ ∈ s'.invoked →
        [⟨some 9, 2⟩, ⟨some 7, 0⟩].Sublist s'.invoked := by
  obtain ⟨s, hs, hview⟩ := Option.map_eq_some_iff.1
    (show (run ThreadPool.step (new 2 0 1 : ThreadPool ℕ)
      [.queueJob 0 (some 7), .push 0, .notify 0, .queueJob 0 (some 8), .push 0, .notify 0,
        .queueJob 0 (some 9), .push 0, .notify 0]).map ThreadPool.jobStack =
      some [[⟨some 9, 2⟩, ⟨some 7, 0⟩], [⟨some 8, 1⟩]] by decide)
  refine ⟨s, hs, hview, (jobs_housed ⟨_, hs⟩).2.2 0 _ _ ?_⟩
  rw [hview]
  exact .refl _

end ThreadPool

end EllohimMQ
