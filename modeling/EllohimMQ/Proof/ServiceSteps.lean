import EllohimMQ.Proof.Handlers

/-!
# The steps of the service

Each handler has a `Standing`: what carries it on, and how far its plain execution is.  A job that is
on its way belongs to the handler that it carries on, and to no other (`Serves.ledger`); so does a
worker that is inside a handler (`Paired`).  A step of the service moves at most one handler, or ends
the process with the exception of one (`Ended`).
-/

namespace EllohimMQ

open Calls Transition

variable {σ Fx V E : Type} {P : Program σ Fx V E}

namespace Service

variable {s s' : Service σ Fx V E}

/-- What a step of the service is, by its label.  Inside `std::invoke` there are three kinds. -/
inductive Moves (P : Program σ Fx V E) (s : Service σ Fx V E) :
    ServiceStep σ → Service σ Fx V E → Prop
  | call {root : σ} {pool : ThreadPool (ℕ × CoroutineJob σ)}
    (hpool : s.pool.step (.queueJob 1 (some (s.handlers.length, .asyncRun root))) = some pool) :
    Moves P s (.call root) { s with pool, handlers := s.handlers ++ [.new root] }
  | pool {l : PoolStep (ℕ × CoroutineJob σ)} {pool : ThreadPool (ℕ × CoroutineJob σ)}
    (hl : l.internal = true) (hpool : s.pool.step l = some pool) :
    Moves P s (.pool l) { s with pool }
  | timers {l : SchedulerStep (ℕ × CoroutineJob σ)} {timers : Scheduler (ℕ × CoroutineJob σ)}
    (hl : l.internal = true ∨ l = .test) (htimers : s.timers.step l = some timers) :
    Moves P s (.timers l) { s with timers }
  | pass {job : ScheduledJob (ℕ × CoroutineJob σ)} {timers : Scheduler (ℕ × CoroutineJob σ)}
    {pool : ThreadPool (ℕ × CoroutineJob σ)} (hjob : s.timers.thread = .popped job)
    (htimers : s.timers.step .pass = some timers)
    (hpool : s.pool.step (.queueJob 0 job.func) = some pool) :
    Moves P s .pass { s with timers, pool }
  | invoke {i : ℕ} {job : ThreadPoolJob (ℕ × CoroutineJob σ)}
    {pool : ThreadPool (ℕ × CoroutineJob σ)} (hw : s.pool.workers[i]? = some (.entered job))
    (hpool : s.pool.step (.invoke i) = some pool) :
    Moves P s (.invoke i) { s with pool, activities := s.activities.set i (begin job.func) }
  | returned {i k : ℕ} (ha : s.activities[i]? = some (k, .inTimer))
    (hidle : s.timers.submitters[i]? = some .idle) :
    Moves P s (.execute i) (s.setActivity i k (.ending .returned))
  | slept {i k t : ℕ} {a : Activity σ} {h : Handler σ Fx V E} {ms : ℤ} {rest : σ}
    {timers : Scheduler (ℕ × CoroutineJob σ)} (ha : s.activities[i]? = some (k, a))
    (hk : s.handlers[k]? = some h) (hsleep : h.sleeps P a = some (t, ms, rest))
    (htimers : s.timers.step (.executeAfter i (timerDelay ms) (some (k, .resume (.task t)))) =
      some timers) :
    Moves P s (.execute i)
      (({ s with timers }.setHandler k (h.suspend t ms rest)).setActivity i k .inTimer)
  | turned {i k : ℕ} {a : Activity σ} {h : Handler σ Fx V E} {p : Process σ Fx V E}
    (ha : s.activities[i]? = some (k, a)) (hne : a ≠ .inTimer) (hk : s.handlers[k]? = some h)
    (hsleep : h.sleeps P a = none) (hx : (h.process a).execute P 0 = some p) :
    Moves P s (.execute i) (s.absorb i k h.root p)
  | finish {i k : ℕ} {outcome : Outcome} {pool : ThreadPool (ℕ × CoroutineJob σ)}
    (ha : s.activities[i]? = some (k, .ending outcome))
    (hpool : s.pool.step (.finish i outcome) = some pool) :
    Moves P s (.finish i) { s with pool, activities := s.activities.set i (k, .idle) }

theorem moves_execute {i : ℕ} (hs : s.execute P i = some s') : s.Moves P (.execute i) s' := by
  unfold execute at hs
  split at hs
  · next k ha =>
    split at hs
    · next hidle =>
      obtain rfl := Option.some.inj hs
      exact .returned ha hidle
    · cases hs
  · next k a hne ha =>
    unfold executeIn at hs
    split at hs
    · cases hs
    next h hk =>
      split at hs
      · next t ms rest hsleep =>
        obtain ⟨timers, htimers, rfl⟩ := Option.map_eq_some_iff.1 hs
        exact .slept ha hk hsleep htimers
      · next hsleep =>
        obtain ⟨p, hx, rfl⟩ := Option.map_eq_some_iff.1 hs
        exact .turned ha (fun e => hne (e ▸ rfl)) hk hsleep hx
  · cases hs

theorem step_cases {l : ServiceStep σ} (hs : s.step P l = some s') : s.Moves P l s' := by
  rw [step] at hs
  split_ifs at hs with hend
  cases l with
  | call root =>
    obtain ⟨pool, hpool, rfl⟩ := Option.map_eq_some_iff.1 hs
    exact .call hpool
  | pool l =>
    rw [stepLive] at hs
    split_ifs at hs with hl
    obtain ⟨pool, hpool, rfl⟩ := Option.map_eq_some_iff.1 hs
    exact .pool hl hpool
  | timers l =>
    cases l with
    | test =>
      simp only [stepLive] at hs
      split at hs
      · obtain ⟨timers, htimers, rfl⟩ := Option.map_eq_some_iff.1 hs
        exact .timers (.inr rfl) htimers
      · cases hs
    | _ =>
      simp only [stepLive] at hs
      split_ifs at hs with hl
      obtain ⟨timers, htimers, rfl⟩ := Option.map_eq_some_iff.1 hs
      exact .timers (.inl hl) htimers
  | pass =>
    rw [stepLive] at hs
    split at hs
    · next job hjob =>
      obtain ⟨timers, htimers, hs⟩ := Option.bind_eq_some_iff.1 hs
      obtain ⟨pool, hpool, rfl⟩ := Option.map_eq_some_iff.1 hs
      exact .pass hjob htimers hpool
    · cases hs
  | invoke i =>
    rw [stepLive] at hs
    split at hs
    · next job hw =>
      obtain ⟨pool, hpool, rfl⟩ := Option.map_eq_some_iff.1 hs
      exact .invoke hw hpool
    · cases hs
  | execute i => exact moves_execute hs
  | finish i =>
    rw [stepLive] at hs
    split at hs
    · next k outcome ha =>
      obtain ⟨pool, hpool, rfl⟩ := Option.map_eq_some_iff.1 hs
      exact .finish ha hpool
    · cases hs

end Service

/-! ## The standings of the handlers -/

/-- What carries a handler on, and how many steps its plain execution has taken. -/
structure Standing (σ : Type) where
  holder : Holder σ
  steps : ℕ

variable {standings : List (Standing σ)} {k : ℕ} {st st' : Standing σ}

/-- The jobs that carry handlers on. -/
def carrying (standings : List (Standing σ)) : List (ℕ × CoroutineJob σ) :=
  (standings.mapIdx fun k st => st.holder.jobs.map (k, ·)).flatten

theorem carrying_set (hk : standings[k]? = some st) : ∃ rest,
    (carrying standings).Perm (st.holder.jobs.map (k, ·) ++ rest) ∧
    ∀ st', (carrying (standings.set k st')).Perm (st'.holder.jobs.map (k, ·) ++ rest) := by
  have hk' : (standings.mapIdx fun k st => st.holder.jobs.map ((k, ·) : _ → ℕ × _))[k]? =
      some (st.holder.jobs.map (k, ·)) := by
    rw [List.getElem?_mapIdx, hk]
    rfl
  obtain ⟨rest, hl, hset⟩ := Table.exists_perm_set hk'
  refine ⟨rest.flatten, hl.flatten, fun st' => ?_⟩
  rw [carrying, List.mapIdx_set]
  exact (hset _).flatten

theorem carrying_append (standings : List (Standing σ)) (st : Standing σ) :
    carrying (standings ++ [st]) = carrying standings ++ st.holder.jobs.map (standings.length, ·) := by
  simp [carrying, List.mapIdx_append]

theorem mem_carrying {j : CoroutineJob σ} :
    (k, j) ∈ carrying standings ↔ ∃ n, standings[k]? = some ⟨.job j, n⟩ := by
  rw [carrying, List.mem_flatten]
  constructor
  · rintro ⟨jobs, hjobs, hj⟩
    obtain ⟨i, hi, rfl⟩ := List.mem_mapIdx.1 hjobs
    obtain ⟨j', hj', he⟩ := List.mem_map.1 hj
    cases he
    have hi' := List.getElem?_eq_getElem hi
    generalize standings[k] = st at hi' hj'
    obtain ⟨holder, n⟩ := st
    cases holder with
    | job j' =>
      obtain rfl := List.mem_singleton.1 hj'
      exact ⟨n, hi'⟩
    | nobody | worker => cases hj'
  · rintro ⟨n, hn⟩
    obtain ⟨hk, he⟩ := List.getElem?_eq_some_iff.1 hn
    exact ⟨_, List.mem_mapIdx.2 ⟨k, hk, rfl⟩, by rw [he]; exact List.mem_singleton_self _⟩

/-- A worker is inside a handler if and only if it carries the handler on. -/
def Paired (activities : List (ℕ × Activity σ)) (standings : List (Standing σ)) : Prop :=
  ∀ (i k : ℕ) (a : Activity σ), (activities[i]? = some (k, a) ∧ a.passive = false) ↔
    ∃ n, standings[k]? = some ⟨.worker i a, n⟩

namespace Paired

variable {activities : List (ℕ × Activity σ)} {i k' : ℕ} {a a' : Activity σ}

/-- Worker `i`, which is free or inside handler `k`, takes handler `k` on to `a'`. -/
theorem set (h : Paired activities standings) (a' : Activity σ) (st' : Standing σ)
    (hi : activities[i]? = some (k', a))
    (hk : standings[k]? = some st) (hfree : a.passive = true ∨ k' = k)
    (hst : ∀ j b, st.holder = .worker j b → j = i)
    (hst' : ∀ j b, st'.holder = .worker j b ↔ j = i ∧ b = a' ∧ b.passive = false) :
    Paired (activities.set i (k, a')) (standings.set k st') := by
  have hi' := (List.getElem?_eq_some_iff.1 hi).1
  have hk' := (List.getElem?_eq_some_iff.1 hk).1
  intro j l b
  rw [List.getElem?_set, List.getElem?_set, if_pos hi', if_pos hk']
  split_ifs with hji hlk hlk
  · subst hji hlk
    rw [Option.some.injEq, Prod.mk.injEq]
    constructor
    · rintro ⟨⟨-, rfl⟩, hb⟩
      exact ⟨st'.steps, by rw [← (hst' i a').2 ⟨rfl, rfl, hb⟩]⟩
    · rintro ⟨n, he⟩
      obtain rfl := Option.some.inj he
      obtain ⟨-, rfl, hb⟩ := (hst' i b).1 rfl
      exact ⟨⟨rfl, rfl⟩, hb⟩
  · subst hji
    rw [Option.some.injEq, Prod.mk.injEq]
    constructor
    · rintro ⟨⟨rfl, -⟩, -⟩
      exact absurd rfl hlk
    · intro hl
      obtain ⟨hb, hbusy⟩ := (h i l b).2 hl
      cases hi.symm.trans hb
      rcases hfree with hfree | rfl
      · rw [hbusy] at hfree
        cases hfree
      · exact absurd rfl hlk
  · subst hlk
    rw [h j k b, hk]
    constructor
    · rintro ⟨n, he⟩
      cases Option.some.inj he
      exact absurd (hst j b rfl) (Ne.symm hji)
    · rintro ⟨n, he⟩
      obtain rfl := Option.some.inj he
      exact absurd ((hst' j b).1 rfl).1 (Ne.symm hji)
  · exact h j l b

/-- A worker that is in no handler goes on outside the handlers. -/
theorem setPassive (h : Paired activities standings) (hi : activities[i]? = some (k', a))
    (ha : a.passive = true) (ha' : a'.passive = true) :
    Paired (activities.set i (k, a')) standings := by
  have hi' := (List.getElem?_eq_some_iff.1 hi).1
  intro j l b
  rw [← h j l b, List.getElem?_set, if_pos hi']
  split_ifs with hji
  · subst hji
    constructor
    · rintro ⟨he, hb⟩
      cases Option.some.inj he
      rw [ha'] at hb
      cases hb
    · rintro ⟨he, hb⟩
      cases hi.symm.trans he
      rw [ha] at hb
      cases hb
  · rfl

/-- A handler comes that no worker is in. -/
theorem append (h : Paired activities standings) (hst : ∀ i a, st.holder ≠ .worker i a) :
    Paired activities (standings ++ [st]) := by
  intro i k a
  rw [h i k a]
  refine exists_congr fun n => ?_
  rcases Nat.lt_trichotomy k standings.length with hk | rfl | hk
  · rw [List.getElem?_append_left hk]
  · rw [List.getElem?_concat_length, List.getElem?_eq_none (Nat.le_refl _), Option.some.injEq]
    constructor
    · intro he
      cases he
    · rintro rfl
      exact absurd rfl (hst i a)
  · rw [List.getElem?_eq_none hk.le, List.getElem?_eq_none (by rw [List.length_append]; exact hk)]

end Paired

/-! ## What every step keeps -/

/-- The jobs that `consumer::call` asked for. -/
def asked (handlers : List (Handler σ Fx V E)) : List (ℕ × CoroutineJob σ) :=
  handlers.mapIdx fun k h => (k, .asyncRun h.root)

theorem asked_set {handlers : List (Handler σ Fx V E)} {h h' : Handler σ Fx V E}
    (hk : handlers[k]? = some h) (hroot : h'.root = h.root) :
    asked (handlers.set k h') = asked handlers := by
  rw [asked, asked, List.mapIdx_set, hroot]
  exact Table.set_self (by rw [List.getElem?_mapIdx, hk]; rfl)

theorem asked_append (handlers : List (Handler σ Fx V E)) (h : Handler σ Fx V E) :
    asked (handlers ++ [h]) = asked handlers ++ [(handlers.length, .asyncRun h.root)] := by
  simp [asked, List.mapIdx_append]

/-- The handlers are where their standings say, and what carries them on is there once. -/
structure Serves (P : Program σ Fx V E) (s : Service σ Fx V E) (standings : List (Standing σ)) :
    Prop where
  faulted : s.faulted = false
  terminated : s.terminated = false
  sane : ∀ h ∈ s.handlers, P.WellUsed h.root
  ledger : Ledger (asked s.handlers) s.pool s.timers (carrying standings)
  resumes : ∀ job ∈ s.timers.called, ∃ k handle, job.func = some (k, .resume handle)
  length_eq : standings.length = s.handlers.length
  phase : ∀ (k : ℕ) (h : Handler σ Fx V E) (st : Standing σ), s.handlers[k]? = some h →
    standings[k]? = some st → Phase h.root h.view st.holder (P.after h.root st.steps)
  paired : Paired s.activities standings
  working : s.pool.workers.map Worker.executes = s.activities.map fun a => !a.2.isIdle

/-- The exception of a handler has ended the process. -/
structure Ended (P : Program σ Fx V E) (s : Service σ Fx V E) : Prop where
  terminated : s.terminated = true
  faulted : s.faulted = false
  escapes : ∃ h ∈ s.handlers, P.Escapes h.root

theorem serves_new {n nextQueue : BitVec 64} {clock : TimePoint} (hn : 0 < n.toNat) :
    Serves P (.new n nextQueue clock) [] where
  faulted := rfl
  terminated := rfl
  sane _ h := by cases h
  ledger := ledger_new hn
  resumes _ h := by cases h
  length_eq := rfl
  phase k h st hk := by cases hk
  paired i k a := by
    constructor
    · rintro ⟨ha, hbusy⟩
      have := List.eq_of_mem_replicate (List.mem_of_getElem? ha)
      cases this
      cases hbusy
    · rintro ⟨n, hn⟩
      cases hn
  working := by simp [Service.new, ThreadPool.new, Worker.executes, Activity.isIdle]

namespace ThreadPool

variable {F : Type} {s s' : ThreadPool F} {l : PoolStep F}

/-- An internal step neither begins nor ends the execution of a job. -/
theorem step_internal_executes (ha : s.acceptJobs = true) (hl : l.internal = true)
    (h : s.step l = some s') (hlen : s'.workers.length = s.workers.length) :
    s'.workers.map Worker.executes = s.workers.map Worker.executes := by
  refine List.ext_getElem? fun i => ?_
  rw [List.getElem?_map, List.getElem?_map]
  rcases hi : s'.workers[i]? with _ | w'
  · rw [List.getElem?_eq_none_iff, hlen] at hi
    rw [List.getElem?_eq_none hi]
  · obtain ⟨w, hw, he, -⟩ := step_internal_workers ha hl h hi
    rw [hw, Option.map_some, Option.map_some, he]

theorem step_queueJob_workers {p : ℕ} {func : Option F} (h : s.step (.queueJob p func) = some s') :
    s'.workers = s.workers := by
  cases step_cases h with
  | queueJob func hp =>
    cases func with
    | none => rfl
    | some func =>
      rw [queueJob]
      split_ifs <;> rfl

end ThreadPool

namespace Serves

variable {s s' : Service σ Fx V E} {i : ℕ} {a a' : Activity σ} {h h' : Handler σ Fx V E}

theorem activities_length (hs : Serves P s standings) :
    s.activities.length = s.pool.allocatedThreadCount.toNat := by
  have := congrArg List.length hs.working
  rw [List.length_map, List.length_map] at this
  rw [← this, hs.ledger.conserved.workers_length]

/-- Every handler has a standing, and the other way round. -/
theorem exists_standing (hs : Serves P s standings) {k : ℕ} (hk : s.handlers[k]? = some h) :
    ∃ st, standings[k]? = some st := by
  have hlt := (List.getElem?_eq_some_iff.1 hk).1
  exact ⟨_, List.getElem?_eq_getElem (hs.length_eq ▸ hlt)⟩

theorem exists_handler (hs : Serves P s standings) {k : ℕ} (hk : standings[k]? = some st) :
    ∃ h, s.handlers[k]? = some h ∧ h ∈ s.handlers := by
  have hlt := (List.getElem?_eq_some_iff.1 hk).1
  have hget := List.getElem?_eq_getElem (hs.length_eq ▸ hlt : k < s.handlers.length)
  exact ⟨_, hget, List.mem_of_getElem? hget⟩

/-- Nothing but the pool and the timer thread changes, and they keep their books. -/
theorem threads (hs : Serves P s standings) {pool : ThreadPool (ℕ × CoroutineJob σ)}
    {timers : Scheduler (ℕ × CoroutineJob σ)}
    (hledger : Ledger (asked s.handlers) pool timers (carrying standings))
    (hcalled : timers.called = s.timers.called)
    (hworking : pool.workers.map Worker.executes = s.pool.workers.map Worker.executes) :
    Serves P { s with pool, timers } standings :=
  { hs with
    ledger := hledger
    resumes := hcalled ▸ hs.resumes
    working := hworking.trans hs.working }

/-- `consumer::call` -/
theorem call (hs : Serves P s standings) {root : σ} (hw : P.WellUsed root)
    {pool : ThreadPool (ℕ × CoroutineJob σ)}
    (hpool : s.pool.step (.queueJob 1 (some (s.handlers.length, .asyncRun root))) = some pool) :
    Serves P { s with pool, handlers := s.handlers ++ [.new root] }
      (standings ++ [⟨.job (.asyncRun root), 0⟩]) where
  faulted := hs.faulted
  terminated := hs.terminated
  sane h hh := by
    rcases List.mem_append.1 hh with hh | hh
    · exact hs.sane h hh
    · rw [List.mem_singleton.1 hh]
      exact hw
  ledger := by
    rw [carrying_append, hs.length_eq, asked_append]
    exact hs.ledger.call hpool
  resumes := hs.resumes
  length_eq := by rw [List.length_append, List.length_append, hs.length_eq]; rfl
  phase k h st hk hst := by
    rcases Nat.lt_or_ge k s.handlers.length with hlt | hge
    · rw [List.getElem?_append_left hlt] at hk
      rw [List.getElem?_append_left (hs.length_eq ▸ hlt)] at hst
      exact hs.phase k h st hk hst
    · obtain rfl : k = s.handlers.length := by
        have := (List.getElem?_eq_some_iff.1 hk).1
        rw [List.length_append, List.length_singleton] at this
        omega
      rw [List.getElem?_concat_length] at hk
      rw [← hs.length_eq, List.getElem?_concat_length] at hst
      obtain rfl := Option.some.inj hk
      obtain rfl := Option.some.inj hst
      exact .queued rfl ⟨rfl, rfl, rfl, rfl⟩
  paired := hs.paired.append (by simp)
  working := by
    rw [ThreadPool.step_queueJob_workers hpool]
    exact hs.working

/-- Worker `i` moves handler `k`. -/
theorem move (hs : Serves P s standings) (h' : Handler σ Fx V E) (a' : Activity σ) {k' : ℕ}
    (hi : s.activities[i]? = some (k', a))
    (hk : s.handlers[k]? = some h) (hst : standings[k]? = some st)
    (hhandlers : s'.handlers = s.handlers.set k h') (hroot : h'.root = h.root)
    (hactivities : s'.activities = s.activities.set i (k, a'))
    (hfaulted : s'.faulted = false) (hterminated : s'.terminated = false)
    (hfree : a.passive = true ∨ k' = k) (hown : ∀ j b, st.holder = .worker j b → j = i)
    (hst' : ∀ j b, st'.holder = .worker j b ↔ j = i ∧ b = a' ∧ b.passive = false)
    (hphase : Phase h'.root h'.view st'.holder (P.after h'.root st'.steps))
    (hledger : Ledger (asked s.handlers) s'.pool s'.timers (carrying (standings.set k st')))
    (hresumes : ∀ job ∈ s'.timers.called, ∃ k handle, job.func = some (k, .resume handle))
    (hworking : s'.pool.workers.map Worker.executes = s'.activities.map fun a => !a.2.isIdle) :
    Serves P s' (standings.set k st') where
  faulted := hfaulted
  terminated := hterminated
  sane := by
    rw [hhandlers]
    exact Table.forall_mem_set hs.sane (hroot ▸ hs.sane h (List.mem_of_getElem? hk))
  ledger := by
    rw [hhandlers, asked_set hk hroot]
    exact hledger
  resumes := hresumes
  length_eq := by rw [hhandlers, List.length_set, List.length_set, hs.length_eq]
  phase l g x hl hx := by
    rw [hhandlers, List.getElem?_set, if_pos (List.getElem?_eq_some_iff.1 hk).1] at hl
    rw [List.getElem?_set, if_pos (List.getElem?_eq_some_iff.1 hst).1] at hx
    split_ifs at hl hx
    · obtain rfl := Option.some.inj hl
      obtain rfl := Option.some.inj hx
      exact hphase
    · exact hs.phase l g x hl hx
  paired := by
    rw [hactivities]
    exact hs.paired.set a' st' hi hst hfree hown hst'
  working := hworking

/-- A worker invokes a job. -/
theorem invoke (hs : Serves P s standings) {job : ThreadPoolJob (ℕ × CoroutineJob σ)}
    {pool : ThreadPool (ℕ × CoroutineJob σ)} (hw : s.pool.workers[i]? = some (.entered job))
    (hpool : s.pool.step (.invoke i) = some pool) :
    ∃ standings', Serves P { s with pool, activities := s.activities.set i (Service.begin job.func) }
        standings' ∧ standings'.map Standing.steps = standings.map Standing.steps := by
  obtain ⟨⟨k, j⟩, hmem, hfunc, hledger⟩ := hs.ledger.invoke hw hpool
  obtain ⟨n, hst⟩ := mem_carrying.1 hmem
  obtain ⟨h, hk, -⟩ := hs.exists_handler hst
  have hphase := hs.phase k h _ hk hst
  have hbegun := Handler.begun i hphase
  -- the worker is outside `std::invoke`
  obtain ⟨⟨k', a⟩, hi, hidle⟩ : ∃ x, s.activities[i]? = some x ∧ x.2.isIdle = true := by
    have := congrArg (·[i]?) hs.working
    simp only [List.getElem?_map, hw, Option.map_some, Worker.executes] at this
    obtain ⟨x, hx, hidle⟩ := Option.map_eq_some_iff.1 this.symm
    exact ⟨x, hx, by simpa using hidle⟩
  obtain ⟨rest, hdue, hset⟩ := carrying_set hst
  refine ⟨standings.set k ⟨.worker i (Activity.ofJob (some j)), n⟩, hs.move h (Activity.ofJob (some j))
    hi hk hst (Table.set_self hk).symm rfl ?_ hs.faulted hs.terminated
    (.inl ?_) (by simp) (fun l b => ?_) hbegun (hledger _ (hdue.trans ?_)) hs.resumes ?_, ?_⟩
  · rw [hfunc]
    rfl
  · cases a <;> first | rfl | cases hidle
  · constructor
    · intro he
      cases he
      exact ⟨rfl, rfl, hbegun.not_passive⟩
    · rintro ⟨rfl, rfl, -⟩
      rfl
  · exact ((hset ⟨.worker i (Activity.ofJob (some j)), n⟩).symm.cons (k, j))
  · simp only [ThreadPool.step, hw] at hpool
    obtain rfl := Option.some.inj hpool
    rw [List.map_set, List.map_set, hs.working, hfunc]
    congr 1
    cases j <;> rfl
  · rw [List.map_set]
    exact Table.set_self (by rw [List.getElem?_map, hst]; rfl)

/-- A worker that is in no handler goes on. -/
theorem setPassive (hs : Serves P s standings) {k' : ℕ} (hi : s.activities[i]? = some (k', a))
    (ha : a.passive = true) (ha' : a'.passive = true) {pool : ThreadPool (ℕ × CoroutineJob σ)}
    (hledger : Ledger (asked s.handlers) pool s.timers (carrying standings))
    (hworking : pool.workers.map Worker.executes =
      (s.activities.set i (k, a')).map fun a => !a.2.isIdle) :
    Serves P { s with pool, activities := s.activities.set i (k, a') } standings :=
  { hs with
    ledger := hledger
    paired := hs.paired.setPassive hi ha ha'
    working := hworking }

/-- A worker returns from `execute_after`. -/
theorem returned (hs : Serves P s standings) (hi : s.activities[i]? = some (k, .inTimer)) :
    Serves P (s.setActivity i k (.ending .returned)) standings := by
  refine hs.setPassive hi rfl rfl hs.ledger ?_
  rw [List.map_set, hs.working]
  exact (Table.set_self (by rw [List.getElem?_map, hi]; rfl)).symm

/-- The function of a job ends. -/
theorem finish (hs : Serves P s standings) {outcome : Outcome}
    (hi : s.activities[i]? = some (k, .ending outcome)) {pool : ThreadPool (ℕ × CoroutineJob σ)}
    (hpool : s.pool.step (.finish i outcome) = some pool) :
    Serves P { s with pool, activities := s.activities.set i (k, .idle) } standings := by
  refine hs.setPassive hi rfl rfl (hs.ledger.finish hpool) ?_
  simp only [ThreadPool.step] at hpool
  split at hpool
  · obtain rfl := Option.some.inj hpool
    rw [List.map_set, List.map_set, hs.working]
    rfl
  · cases hpool

/-- The worker stays inside `std::invoke`. -/
theorem working_set (hs : Serves P s standings) (hi : s.activities[i]? = some (k, a))
    (ha : a.isIdle = false) (ha' : a'.isIdle = false) :
    s.pool.workers.map Worker.executes =
      (s.activities.set i (k, a')).map fun a => !a.2.isIdle := by
  rw [List.map_set, hs.working]
  refine (Table.set_self ?_).symm
  rw [List.getElem?_map, hi, Option.map_some, ha, ha']

/-- A worker hands its coroutine over to the timer thread. -/
theorem slept (hs : Serves P s standings) {t : ℕ} {ms : ℤ} {rest : σ}
    {timers : Scheduler (ℕ × CoroutineJob σ)} (hi : s.activities[i]? = some (k, a))
    (hk : s.handlers[k]? = some h) (hsleep : h.sleeps P a = some (t, ms, rest))
    (htimers : s.timers.step (.executeAfter i (timerDelay ms) (some (k, .resume (.task t)))) =
      some timers) :
    ∃ n, standings[k]? = some ⟨.worker i a, n⟩ ∧
      (∀ r m, P.after h.root n ≠ ⟨.done r, [], m⟩) ∧
      Serves P (({ s with timers }.setHandler k (h.suspend t ms rest)).setActivity i k .inTimer)
        (standings.set k ⟨.job (.resume (.task t)), n + 1⟩) := by
  obtain ⟨u, rfl⟩ : ∃ u, a = .inBody u := by
    cases a with
    | inBody u => exact ⟨u, rfl⟩
    | idle | starting | resuming | inTimer | ending => cases hsleep
  obtain ⟨n, hst⟩ := (hs.paired i k _).1 ⟨hi, rfl⟩
  obtain ⟨hphase, hne⟩ := Handler.slept (hs.phase k h _ hk hst) hsleep
  obtain ⟨rest', hdue, hset⟩ := carrying_set hst
  refine ⟨n, hst, hne, hs.move _ _ hi hk hst rfl rfl rfl hs.faulted hs.terminated
    (.inr rfl) (fun j b hb => ?_) (fun j b => ?_) hphase ?_ (fun job hjob => ?_)
    (hs.working_set hi rfl rfl)⟩
  · cases hb
    rfl
  · constructor
    · intro hb
      cases hb
    · rintro ⟨-, rfl, hb⟩
      cases hb
  · refine (hs.ledger.sleep htimers).congr ?_
    refine (List.Perm.append_right _ hdue).trans (List.perm_append_comm.trans ?_)
    exact (hset ⟨.job (.resume (.task t)), n + 1⟩).symm
  · obtain ⟨time, hcalled, -⟩ := Scheduler.step_executeAfter htimers
    change job ∈ timers.called at hjob
    rw [hcalled] at hjob
    rcases List.mem_append.1 hjob with hjob | hjob
    · exact hs.resumes job hjob
    · rw [List.mem_singleton.1 hjob]
      exact ⟨k, .task t, rfl⟩

/-- A worker goes on inside a handler, or ends the process. -/
theorem turned (hs : Serves P s standings) {p : Process σ Fx V E}
    (hi : s.activities[i]? = some (k, a)) (hne : a ≠ .inTimer) (hk : s.handlers[k]? = some h)
    (hsleep : h.sleeps P a = none) (hx : (h.process a).execute P 0 = some p) :
    Ended P (s.absorb i k h.root p) ∧ 0 < a.weight ∨
    ∃ n n' a', standings[k]? = some ⟨.worker i a, n⟩ ∧ p.activities = [a'] ∧
      (n' = n ∧ a'.weight < a.weight ∨ n' = n + 1 ∧ ∀ r m, P.after h.root n ≠ ⟨.done r, [], m⟩) ∧
      Serves P (s.absorb i k h.root p) (standings.set k ⟨Handler.carrier i a', n'⟩) := by
  have hbusy : a.passive = false ∧ a.isIdle = false ∧ 0 < a.weight := by
    cases a with
    | starting | resuming | inBody => exact ⟨rfl, rfl, by simp [Activity.weight]⟩
    | inTimer => exact absurd rfl hne
    | idle | ending => cases hx
  obtain ⟨n, hst⟩ := (hs.paired i k a).1 ⟨hi, hbusy.1⟩
  have hmem := List.mem_of_getElem? hk
  obtain ⟨hf, ⟨ht, hesc⟩ | ⟨ht, a', n', ha', hbusy', hphase, hsteps⟩⟩ :=
    Handler.turn (hs.sane h hmem) (hs.phase k h _ hk hst) hsleep hx
  · have hlt := (List.getElem?_eq_some_iff.1 hk).1
    exact .inl ⟨⟨ht, hf, _, List.mem_of_getElem? (List.getElem?_set_self hlt), hesc⟩, hbusy.2.2⟩
  obtain ⟨rest, hdue, hset⟩ := carrying_set hst
  have hactivities : (s.absorb i k h.root p).activities = s.activities.set i (k, a') := by
    simp [Service.absorb, ha']
  refine .inr ⟨n, n', a', hst, ha', hsteps, hs.move _ _ hi hk hst rfl rfl hactivities hf ht
    (.inr rfl) (fun j b hb => ?_) (fun j b => ?_) hphase ?_ hs.resumes ?_⟩
  · cases hb
    rfl
  · rw [Handler.carrier]
    split_ifs with hpass
    · constructor
      · intro hb
        cases hb
      · rintro ⟨-, rfl, hb⟩
        rw [hpass] at hb
        cases hb
    · constructor
      · intro hb
        cases hb
        exact ⟨rfl, rfl, by simpa using hpass⟩
      · rintro ⟨rfl, rfl, -⟩
        rfl
  · have hcarrier : (Handler.carrier i a').jobs = [] := by
      rw [Handler.carrier]
      split_ifs <;> rfl
    refine hs.ledger.congr (hdue.trans ?_)
    have := hset ⟨Handler.carrier i a', n'⟩
    rw [hcarrier] at this
    exact this.symm
  · rw [hactivities]
    exact hs.working_set hi hbusy.2.1 hbusy'

theorem poolStep (hs : Serves P s standings) {l : PoolStep (ℕ × CoroutineJob σ)}
    (hl : l.internal = true) {pool : ThreadPool (ℕ × CoroutineJob σ)}
    (hpool : s.pool.step l = some pool) : Serves P { s with pool } standings := by
  have hledger := hs.ledger.poolStep hl hpool
  refine hs.threads hledger rfl (ThreadPool.step_internal_executes hs.ledger.conserved.acceptJobs hl
    hpool ?_)
  rw [hledger.conserved.workers_length, hs.ledger.conserved.workers_length,
    ThreadPool.step_allocatedThreadCount hpool]

theorem timersStep (hs : Serves P s standings) {l : SchedulerStep (ℕ × CoroutineJob σ)}
    (hl : l.internal = true ∨ l = .test) {timers : Scheduler (ℕ × CoroutineJob σ)}
    (htimers : s.timers.step l = some timers) : Serves P { s with timers } standings :=
  hs.threads (hs.ledger.timersStep hl htimers) (Scheduler.step_internal hl htimers).1 rfl

theorem pass (hs : Serves P s standings) {job : ScheduledJob (ℕ × CoroutineJob σ)}
    {timers : Scheduler (ℕ × CoroutineJob σ)} {pool : ThreadPool (ℕ × CoroutineJob σ)}
    (hjob : s.timers.thread = .popped job) (htimers : s.timers.step .pass = some timers)
    (hpool : s.pool.step (.queueJob 0 job.func) = some pool) :
    Serves P { s with timers, pool } standings :=
  hs.threads (hs.ledger.pass hjob htimers hpool) (Scheduler.step_pass hjob htimers).1
    (congrArg _ (ThreadPool.step_queueJob_workers hpool))

/-- What is called may not misuse a Task. -/
theorem step (hs : Serves P s standings) {l : ServiceStep σ}
    (hcall : ∀ root, l = .call root → P.WellUsed root) (hstep : s.step P l = some s') :
    (∃ standings', Serves P s' standings') ∨ Ended P s' := by
  cases Service.step_cases hstep with
  | call hpool => exact .inl ⟨_, hs.call (hcall _ rfl) hpool⟩
  | pool hl hpool => exact .inl ⟨_, hs.poolStep hl hpool⟩
  | timers hl htimers => exact .inl ⟨_, hs.timersStep hl htimers⟩
  | pass hjob htimers hpool => exact .inl ⟨_, hs.pass hjob htimers hpool⟩
  | invoke hw hpool =>
    obtain ⟨standings', hs', -⟩ := hs.invoke hw hpool
    exact .inl ⟨_, hs'⟩
  | returned ha => exact .inl ⟨_, hs.returned ha⟩
  | slept ha hk hsleep htimers =>
    obtain ⟨n, -, -, hs'⟩ := hs.slept ha hk hsleep htimers
    exact .inl ⟨_, hs'⟩
  | turned ha hne hk hsleep hx =>
    obtain ⟨hend, -⟩ | ⟨n, n', a', -, -, -, hs'⟩ := hs.turned ha hne hk hsleep hx
    · exact .inr hend
    · exact .inl ⟨_, hs'⟩
  | finish ha hpool => exact .inl ⟨_, hs.finish ha hpool⟩

end Serves

/-- The coroutine that is given to `consumer::call`. -/
def ServiceStep.called : ServiceStep σ → Option σ
  | .call root => some root
  | _ => none

theorem ServiceStep.mem_called {ls : List (ServiceStep σ)} {root : σ} :
    root ∈ ls.filterMap ServiceStep.called ↔ .call root ∈ ls := by
  rw [List.mem_filterMap]
  constructor
  · rintro ⟨l, hl, hcalled⟩
    cases l with
    | call root' => exact Option.some.inj hcalled ▸ hl
    | pool | timers | pass | invoke | execute | finish => cases hcalled
  · exact fun hmem => ⟨_, hmem, rfl⟩

/-- The handlers are those that were called, in the order of the calls. -/
theorem Service.step_roots {s s' : Service σ Fx V E} {l : ServiceStep σ}
    (hstep : s.step P l = some s') :
    s'.handlers.map Handler.root = s.handlers.map Handler.root ++ l.called.toList := by
  have hset : ∀ {k : ℕ} {h h' : Handler σ Fx V E}, s.handlers[k]? = some h → h'.root = h.root →
      (s.handlers.set k h').map Handler.root = s.handlers.map Handler.root ++ [] :=
    fun {k h h'} hk hroot => by
      rw [List.append_nil, List.map_set]
      exact Table.set_self (by rw [List.getElem?_map, hk, Option.map_some, hroot])
  cases Service.step_cases hstep with
  | call hpool => exact List.map_append
  | slept ha hk => exact hset hk rfl
  | turned ha hne hk => exact hset hk rfl
  | pool | timers | pass | invoke | returned | finish => exact (List.append_nil _).symm

end EllohimMQ
