import EllohimMQ.Proof.ServiceSteps

/-!
# Every run of the service

Any number of handlers share the pool and the timer thread, and each of them is carried out as a
plain function would be.  A handler that has not completed is carried on by one job or one worker, so
none of them is forgotten, and none is resumed by two workers.
-/

namespace EllohimMQ

open Calls Transition

variable {σ Fx V E : Type} {P : Program σ Fx V E} {s : Service σ Fx V E}
  {standings : List (Standing σ)} {k : ℕ} {h : Handler σ Fx V E} {st : Standing σ}
  {n nextQueue : BitVec 64} {clock : TimePoint} {ls : List (ServiceStep σ)}

/-! ## What carries a handler on -/

/-- The jobs and the workers that carry handler `k` on. -/
def Service.carriers (s : Service σ Fx V E) (k : ℕ) : ℕ :=
  (underway s.pool s.timers).countP (fun func => func.map Prod.fst = some k) +
    s.activities.countP fun a => a.1 = k && !a.2.passive

theorem countP_carrying (standings : List (Standing σ)) (k : ℕ) :
    (carrying standings).countP (·.1 = k) =
      ((standings[k]?).map fun st => st.holder.jobs.length).getD 0 := by
  induction standings using List.reverseRecOn with
  | nil => rfl
  | append_singleton standings st ih =>
    rw [carrying_append, List.countP_append, ih, List.countP_map]
    rcases Nat.lt_trichotomy k standings.length with hk | rfl | hk
    · have hne : standings.length ≠ k := Nat.ne_of_gt hk
      rw [List.getElem?_append_left hk]
      simp [Function.comp_def, hne]
    · rw [List.getElem?_concat_length, List.getElem?_eq_none (Nat.le_refl _)]
      simp [Function.comp_def]
    · have hne : standings.length ≠ k := Nat.ne_of_lt hk
      rw [List.getElem?_eq_none hk.le,
        List.getElem?_eq_none (by rw [List.length_append]; exact hk)]
      simp [Function.comp_def, hne]

/-- The workers inside handler `k`. -/
theorem Paired.countP {activities : List (ℕ × Activity σ)} (hp : Paired activities standings)
    (hst : standings[k]? = some st) :
    activities.countP (fun a => a.1 = k && !a.2.passive) =
      match st.holder with
      | .worker _ _ => 1
      | _ => 0 := by
  have hzero : ∀ {st : Standing σ} {activities : List (ℕ × Activity σ)},
      Paired activities (standings.set k st) → (∀ i a, st.holder ≠ .worker i a) →
      activities.countP (fun a => a.1 = k && !a.2.passive) = 0 := fun {st activities} hp hst' => by
    refine List.countP_eq_zero.2 fun x hx hcount => ?_
    obtain ⟨i, hi⟩ := List.getElem?_of_mem hx
    obtain ⟨l, a⟩ := x
    obtain ⟨rfl, hbusy⟩ : l = k ∧ a.passive = false := by simpa using hcount
    obtain ⟨m, hm⟩ := (hp i l a).1 ⟨hi, hbusy⟩
    rw [List.getElem?_set_self (List.getElem?_eq_some_iff.1 hst).1] at hm
    obtain rfl := Option.some.inj hm
    exact hst' i a rfl
  obtain ⟨holder, m⟩ := st
  cases holder with
  | nobody => exact hzero (Table.set_self hst ▸ hp) (by simp)
  | job j => exact hzero (Table.set_self hst ▸ hp) (by simp)
  | worker i a =>
    obtain ⟨hi, hbusy⟩ := (hp i k a).2 ⟨m, hst⟩
    -- the worker leaves the handler
    have hset := Table.countP_set hi (k, .idle) fun a => a.1 = k && !a.2.passive
    have hleft := hp.set .idle ⟨.nobody, m⟩ hi hst (.inr rfl) (by simp) (by
      intro j b
      constructor
      · intro he
        cases he
      · rintro ⟨-, rfl, hb⟩
        cases hb)
    have hidle : (Activity.idle : Activity σ).passive = true := rfl
    rw [hzero hleft (by simp)] at hset
    simpa [hbusy, hidle] using hset.symm

theorem Serves.carriers_eq (hs : Serves P s standings) (hst : standings[k]? = some st) :
    s.carriers k = match st.holder with
      | .nobody => 0
      | _ => 1 := by
  have hjobs := hs.ledger.underway_perm.countP_eq fun func => func.map Prod.fst = some k
  rw [List.countP_map] at hjobs
  have hcomp : ((fun func : Option (ℕ × CoroutineJob σ) => decide (func.map Prod.fst = some k)) ∘
      some) = fun x => decide (x.1 = k) := by
    funext x
    simp
  rw [hcomp, countP_carrying, hst] at hjobs
  rw [Service.carriers, hjobs, hs.paired.countP hst]
  obtain ⟨holder, m⟩ := st
  cases holder <;> rfl

/-! ## What a handler has done -/

namespace Handler

variable {holder : Holder σ} {c : Config σ Fx V E}

/-- Nothing carries a handler on that has completed, and only such a one. -/
theorem destroyed_iff (hp : Phase h.root h.view holder c) :
    h.asyncTask = .destroyed ↔ holder = .nobody := by
  have hasync : h.view.asyncTask = h.asyncTask := rfl
  cases hp with
  | fresh hc => cases hc
  | queued _ hn | starting _ hn => simp [← hasync, hn.asyncTask]
  | running hl | resuming hl | sleeping hl | returning hl => simp [← hasync, hl.asyncTask]
  | completed _ _ hd => simp [← hasync, hd]
  | terminated ht => cases ht

/-- A handler is as a process of its own would be. -/
theorem exists_sound (hp : Phase h.root h.view holder c) : ∃ a, Sound h.root (h.housed a) c := by
  cases holder with
  | nobody =>
    exact ⟨.idle, .nobody, ⟨rfl, accounts_finishedPool h.root, .refl _,
      fun j b hb _ => by rcases j with _ | j <;> cases hb; rfl, rfl⟩, hp.congr rfl rfl rfl rfl rfl⟩
  | job j => exact ⟨_, _, holds_housed h _, phase_housed (begun 0 hp)⟩
  | worker i a => exact ⟨a, _, holds_housed h a, phase_housed hp⟩

/-- A job or a worker will resume a coroutine that sleeps. -/
theorem resumed_of_sleeping (hp : Phase h.root h.view holder c) {t : ℕ} {f : TaskFrame σ V E}
    {rest : σ} (hf : h.frames[t]? = some f) (hpoint : f.point = .timerAwaiter rest) :
    holder = .job (.resume (.task t)) ∨ ∃ i, holder = .worker i (.resuming (.task t)) := by
  have hframes : h.view.frames = h.frames := rfl
  rw [← hframes] at hf
  cases hp with
  | fresh _ hn | queued _ hn | starting _ hn =>
    rw [hn.frames] at hf
    cases hf
  | running hl hf' hp' | returning hl hf' hp' =>
    rw [hl.tree.eq_top hf hpoint, hf'] at hf
    cases hf
    rw [hpoint] at hp'
    cases hp'
  | resuming hl =>
    obtain rfl := hl.tree.eq_top hf hpoint
    exact .inr ⟨_, rfl⟩
  | sleeping hl =>
    obtain rfl := hl.tree.eq_top hf hpoint
    exact .inl rfl
  | completed _ _ _ _ hlen _ hagrees =>
    have hlt := (List.getElem?_eq_some_iff.1 hf).1
    rw [hlen, ← List.length_set] at hlt
    obtain ⟨hm, hne⟩ := hagrees t f _ hf (List.getElem?_eq_getElem hlt)
    exact absurd (hm.eq_running hpoint) hne
  | terminated ht => cases ht

end Handler

/-- A handler has shown the beginning of what its plain function shows. -/
theorem Serves.trace_prefix (hs : Serves P s standings) (hk : s.handlers[k]? = some h) :
    ∃ j, h.trace <+: (plainRun P h.root j).trace := by
  obtain ⟨st, hst⟩ := hs.exists_standing hk
  obtain ⟨a, hsound⟩ := Handler.exists_sound (hs.phase k h st hk hst)
  exact ⟨st.steps, hsound.trace_prefix_plainRun (hs.sane h (List.mem_of_getElem? hk)) rfl⟩

/-! ## Every run -/

/-- After the end of the process there is no step. -/
theorem Ended.step_eq (h : Ended P s) (l : ServiceStep σ) : s.step P l = none := by
  rw [Service.step, if_pos (.inl h.terminated)]

/-- The state after a run in which the called coroutines misuse no Task. -/
theorem serves_or_ended (hn : 0 < n.toNat) (hroots : ∀ root, .call root ∈ ls → P.WellUsed root)
    (hrun : run (Service.step P) (.new n nextQueue clock) ls = some s) :
    ((∃ standings, Serves P s standings) ∨ Ended P s) ∧
      s.handlers.map Handler.root = ls.filterMap ServiceStep.called := by
  refine run_induction (P := fun ls s => (∀ root, .call root ∈ ls → P.WellUsed root) →
      ((∃ standings, Serves P s standings) ∨ Ended P s) ∧
        s.handlers.map Handler.root = ls.filterMap ServiceStep.called)
    (fun _ => ⟨.inl ⟨_, serves_new hn⟩, rfl⟩) (fun ls s l s' ih hl hroots => ?_) hrun hroots
  obtain ⟨⟨standings, hs⟩ | hend, hmap⟩ := ih fun root hmem =>
    hroots root (List.mem_append_left _ hmem)
  · refine ⟨hs.step (fun root he => hroots root (by simp [he])) hl, ?_⟩
    rw [Service.step_roots hl, hmap, List.filterMap_append]
    cases l <;> rfl
  · cases (hend.step_eq l).symm.trans hl

/-- The process does not end when, besides, none of the coroutines ends with an exception. -/
theorem exists_serves (hn : 0 < n.toNat)
    (hroots : ∀ root, .call root ∈ ls → P.WellUsed root ∧ ¬ P.Escapes root)
    (hrun : run (Service.step P) (.new n nextQueue clock) ls = some s) :
    (∃ standings, Serves P s standings) ∧
      s.handlers.map Handler.root = ls.filterMap ServiceStep.called := by
  obtain ⟨hs, hmap⟩ := serves_or_ended hn (fun root hmem => (hroots root hmem).1) hrun
  refine ⟨hs.resolve_right fun hend => ?_, hmap⟩
  obtain ⟨h, hh, hesc⟩ := hend.escapes
  refine (hroots h.root ?_).2 hesc
  have hmem : h.root ∈ ls.filterMap ServiceStep.called := hmap ▸ List.mem_map_of_mem hh
  exact ServiceStep.mem_called.1 hmem

/-- The coroutines that are given to `consumer::call` share the pool and the timer thread.  Let each of
them be a body that, read as plain calls, awaits and destroys only Tasks that it may, and ends with no
exception.  In every state that a service with at least one worker reaches, in whatever order the
calls, the workers and the timer thread take their turns:

* no coroutine was resumed that is not suspended, no result was taken that was not there, and the
  process was not terminated;
* there is one handler for each call, in the order of the calls;
* a handler that has not completed is carried on by exactly one job or worker, and one that has by
  none;
* the effects and the completions that a handler shows are the beginning of what its plain function
  shows, and when it has completed they are all of it;
* every suspension of every coroutine, but for one that is pending, was resumed exactly once, and the
  job or the worker that carries the handler on will resume the one that sleeps;
* when a handler has completed, its coroutines are as the plain function left its Tasks. -/
theorem handlers_as_calls (hn : 0 < n.toNat)
    (hroots : ∀ root, .call root ∈ ls → P.WellUsed root ∧ ¬ P.Escapes root)
    (hrun : run (Service.step P) (.new n nextQueue clock) ls = some s) :
    (s.faulted = false ∧ s.terminated = false) ∧
    s.handlers.map Handler.root = ls.filterMap ServiceStep.called ∧
    ∀ (k : ℕ) (h : Handler σ Fx V E), s.handlers[k]? = some h →
      s.carriers k = (if h.asyncTask = .destroyed then 0 else 1) ∧
      (∃ j, h.trace <+: (plainRun P h.root j).trace) ∧
      (∀ f ∈ h.frames, f.suspensions = f.resumptions + f.pending) ∧
      (∀ (t : ℕ) (f : TaskFrame σ V E) (rest : σ), h.frames[t]? = some f →
        f.point = .timerAwaiter rest → some (k, .resume (.task t)) ∈ underway s.pool s.timers ∨
          ∃ i : ℕ, s.activities[i]? = some (k, .resuming (.task t))) ∧
      (h.asyncTask = .destroyed → ∃ j v m, plainRun P h.root j = .done (.value v) m ∧
        h.trace = m.trace ∧ h.frames.length = m.tasks.length ∧
        ∀ (t : ℕ) (f : TaskFrame σ V E) (d : Deferred σ V E), h.frames[t]? = some f →
          m.tasks[t]? = some d → f.Matches d ∧ d ≠ .running ∧ f.suspensions = f.resumptions) := by
  obtain ⟨⟨standings, hs⟩, hmap⟩ := exists_serves hn hroots hrun
  refine ⟨⟨hs.faulted, hs.terminated⟩, hmap, fun k h hk => ?_⟩
  obtain ⟨st, hst⟩ := hs.exists_standing hk
  have hphase := hs.phase k h st hk hst
  obtain ⟨a, hsound⟩ := Handler.exists_sound hphase
  refine ⟨?_, hs.trace_prefix hk, hsound.balanced rfl, fun t f rest hf hpoint => ?_, fun hd => ?_⟩
  · rw [hs.carriers_eq hst]
    have hiff := Handler.destroyed_iff hphase
    obtain ⟨holder, m⟩ := st
    cases holder <;> simp [hiff]
  · obtain ⟨holder, m⟩ := st
    rcases Handler.resumed_of_sleeping hphase hf hpoint with rfl | ⟨i, rfl⟩
    · refine .inl (hs.ledger.underway_perm.mem_iff.2 (List.mem_map_of_mem ?_))
      exact mem_carrying.2 ⟨m, hst⟩
    · exact .inr ⟨i, ((hs.paired i k _).2 ⟨m, hst⟩).1⟩
  · obtain ⟨v, m, hplain, hrest⟩ := hsound.completed hd
    exact ⟨_, v, m, hplain, hrest⟩

/-- A coroutine that only logs. -/
def logOnly : TopicBody := log [] (.ret .void)

theorem returns_logOnly : topicProgram.Returns logOnly := ⟨2, .void, _, rfl⟩

/-- The first handler goes to sleep, and its worker carries out the second one. -/
def sleepThenLog : List (ServiceStep TopicBody) :=
  [.call catchSleeper, .pool (.push 1), .pool (.notify 1), .pool (.lock 0), .pool (.enter 0),
    .invoke 0, .execute 0, .execute 0, .execute 0, .execute 0, .execute 0, .execute 0,
    .timers (.push 0), .timers (.notify 0), .execute 0, .finish 0, .pool (.leave 0),
    .pool (.lock 0), .timers .test, .timers (.lock 0), .call logOnly, .pool (.push 1),
    .pool (.notify 1), .pool (.lock 0), .pool (.enter 0), .invoke 0, .execute 0, .execute 0,
    .execute 0, .execute 0, .execute 0, .finish 0, .pool (.leave 0), .pool (.lock 0)]

theorem roots_sleepThenLog {root : TopicBody} (h : .call root ∈ sleepThenLog) :
    root = catchSleeper ∨ root = logOnly := by simpa [sleepThenLog] using h

theorem handlers_as_calls_two :
    ∃ s, run (Service.step topicProgram) (.new 1 0 0) sleepThenLog = some s ∧
      s.handlers.map Handler.trace =
        [[.slept 5], [.effect (.log []) .void, .awaited 0 (.value .void)]] ∧
      s.carriers 0 = 1 ∧ s.carriers 1 = 0 := by
  obtain ⟨s, hs, hview⟩ := Option.map_eq_some_iff.1
    (show (run (Service.step topicProgram) (.new 1 0 0) sleepThenLog).map
        (fun s => (s.handlers.map Handler.trace, s.handlers.map Handler.asyncTask)) =
      some ([[.slept 5], [.effect (.log []) .void, .awaited 0 (.value .void)]],
        [.taskAwaiter 0, .destroyed]) by decide)
  obtain ⟨htrace, hasync⟩ := Prod.mk.inj hview
  have hroots : ∀ root, .call root ∈ sleepThenLog →
      topicProgram.WellUsed root ∧ ¬ topicProgram.Escapes root := fun root hmem => by
    rcases roots_sleepThenLog hmem with rfl | rfl
    · exact ⟨wellUsed_catchSleeper, not_escapes_catchSleeper⟩
    · exact ⟨returns_logOnly.wellUsed, returns_logOnly.not_escapes⟩
  obtain ⟨-, -, hall⟩ := handlers_as_calls (by decide) hroots hs
  have hcarriers : ∀ (k : ℕ) (point : AsyncPoint),
      (s.handlers.map Handler.asyncTask)[k]? = some point →
        s.carriers k = if point = .destroyed then 0 else 1 := fun k point hk => by
    rw [List.getElem?_map] at hk
    obtain ⟨h, hget, rfl⟩ := Option.map_eq_some_iff.1 hk
    exact (hall k h hget).1
  rw [hasync] at hcarriers
  exact ⟨s, hs, htrace, hcarriers 0 _ rfl, hcarriers 1 _ rfl⟩

end EllohimMQ
