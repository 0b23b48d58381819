import EllohimMQ.Proof.PlainCalls

/-!
# Exceptions that escape from a message handler

`consumer::call` queues `async_run` on the coroutine that `on_call` returns.  The functor of
`async_run` is an `AsyncTask`, whose `unhandled_exception` ends the process, so no exception of a
handler comes to the `catch` of `thread_pool::run`.  What remains is which handlers let an exception
escape.
-/

namespace EllohimMQ

open Calls Transition

/-- The worker is in its wait loop. -/
def Worker.waits {F : Type} : Worker F → Bool
  | .ready => true
  | .asleep => true
  | _ => false

variable {σ Fx V E : Type}

/-- The functor has completed, and every worker is back in its wait loop. -/
structure Process.Settled (s : Process σ Fx V E) : Prop where
  asyncTask : s.asyncTask = .destroyed
  acceptJobs : s.pool.acceptJobs = true
  waits : ∀ w ∈ s.pool.workers, w.waits = true

variable {P : Program σ Fx V E} {root : σ} {s : Process σ Fx V E} {n nextQueue : BitVec 64}
  {clock : TimePoint} {c : Config σ Fx V E} {i : ℕ}

/-! ## The workers return -/

/-- When nothing carries the execution on, a worker that does not wait is on its way to its loop. -/
theorem lighter_of_busy (h : Holds root s .nobody) (hr : Ready s) (ht : s.terminated = false)
    {w : Worker (CoroutineJob σ)} (hw : s.pool.workers[i]? = some w) (hbusy : w.waits = false) :
    Lighter P root s := by
  have hlen := owes_length h.accounts h.owes
  have hle := running_le_held s.pool
  simp only [Holder.jobs, List.length_nil] at hlen
  have hworkers := h.accounts.conserved.workers_length
  have hlt := (List.getElem?_eq_some_iff.1 hw).1
  cases w with
  | ready | asleep => cases hbusy
  | holding job | entered job =>
    have := running_of_held (show s.pool.held.length = s.pool.running.length by omega) hw
    cases this
  | executing job =>
    obtain ⟨a, ha⟩ : ∃ a, s.activities[i]? = some a :=
      ⟨_, List.getElem?_eq_getElem (by rwa [h.activities_length, ← hworkers])⟩
    exact lighter_of_passive h.faulted ht hr (by rwa [hr.submitters_length, ← hworkers])
      (List.eq_nil_of_length_eq_zero (by omega)) hw ha (h.active i a ha (by simp))
  | leaving =>
    exact lighter_pool h.faulted ht (.leave i) rfl (by simp only [ThreadPool.step, hw]; rfl)
      (ThreadPool.weight_worker hw (by simp [Worker.weight]) _)
  | exited =>
    have := hr.workers i _ hw
    cases this

/-- When the plain execution has returned, the functor completes and the workers return. -/
theorem exists_settled {v : V} {m : Memory σ Fx V E} (h : Sound root s ⟨.done (.value v), [], m⟩)
    (hr : Ready s) : ∃ s', Steps (Process.step P root) s s' ∧ s'.Settled := by
  -- on the weight, as in `exists_advance`
  induction hw : s.weight using Nat.strong_induction_on generalizing s with
  | _ w ih =>
    by_cases hsettled : s.Settled
    · exact ⟨s, .refl s, hsettled⟩
    have hlighter : Lighter P root s := by
      obtain ⟨holder, hh, hp⟩ := h
      cases hp with
      | @returning i _ _ _ f hl hfr hpoint hres =>
        have ha := hh.active.1
        obtain ⟨f', hf', hcont⟩ := hl.tree.linked
        cases hfr.symm.trans hf'
        rw [hcont] at ha
        have hs : s.execute P i = some (s.resume P i .asyncTask) := by
          simp only [Process.execute, ha]
        have hwithin := within_resume (P := P) s i .asyncTask
        refine lighter_activity hh.faulted hl.terminated (.ending .returned) hs ha
          (by simp [Activity.weight]) hwithin.pool hwithin.timers hwithin.called ?_
        simp only [Process.resume, hl.asyncTask, awaitResume_eq (P := P) (t := 0) hfr hpoint hres]
        rfl
      | completed _ hterm hasync =>
        by_contra hnot
        refine hsettled ⟨hasync, hh.accounts.conserved.acceptJobs, fun w hw => ?_⟩
        obtain ⟨k, hk⟩ := List.getElem?_of_mem hw
        exact Bool.of_not_eq_false fun hbusy => hnot (lighter_of_busy hh hr hterm hk hbusy)
    obtain ⟨l, s₁, hs, hlt⟩ := hlighter
    have h₁ : Sound root s₁ ⟨.done (.value v), [], m⟩ := (h.step hs fun he => by cases he).elim id id
    obtain ⟨holder, hh, -⟩ := h
    obtain ⟨s', hsteps, hsettled'⟩ :=
      ih s₁.weight (hw ▸ hlt) h₁ (hr.step hh.accounts.conserved hs) rfl
    exact ⟨s', .head hs hsteps, hsettled'⟩

/-! ## Handlers -/

/-- The handler `root`, on a pool of `n` workers, never ends the process, and in every state the
threads can go on until it has completed and the workers wait. -/
def Contained (P : Program σ Fx V E) (root : σ) (n nextQueue : BitVec 64) (clock : TimePoint) :
    Prop :=
  ∀ s, Reachable (Process.step P root) (.new n nextQueue clock) s →
    s.terminated = false ∧ ∃ s', Steps (Process.step P root) s s' ∧ s'.Settled

/-- A handler that returns is contained. -/
theorem contained_of_returns (hn : 0 < n.toNat) (h : P.Returns root) :
    Contained P root n nextQueue clock := by
  intro s hs
  have hw := h.wellUsed
  obtain ⟨k, hsound⟩ := sound_of_reachable hn hw hs
  have hr := ready_of_reachable hn hw hs
  refine ⟨Bool.eq_false_iff.2 fun ht => h.not_escapes (hsound.escapes ht), ?_⟩
  obtain ⟨j, v, m, hrun⟩ := h
  obtain ⟨s₁, hsteps, h₁, hr₁⟩ := exists_sound_done hsound hr hrun
  obtain ⟨s', hsteps', hsettled⟩ := exists_settled h₁ hr₁
  exact ⟨s', hsteps.trans hsteps', hsettled⟩

/-- The functor of a handler that throws never completes. -/
theorem Sound.asyncTask_ne {k : ℕ} (h : Sound root s (P.after root k)) (hesc : P.Escapes root) :
    s.asyncTask ≠ .destroyed := by
  intro hasync
  obtain ⟨v, m, hend, -⟩ := h.exists_completed hasync
  obtain ⟨j, e, m', hj⟩ := hesc
  cases (Program.run_unique hj (Program.run_of_after hend)).1

/-- The process of a handler that throws can be brought to its end. -/
theorem exists_terminated {k : ℕ} (h : Sound root s (P.after root k)) (hr : Ready s)
    (hesc : P.Escapes root) : ∃ s', Steps (Process.step P root) s s' ∧ s'.terminated = true := by
  obtain ⟨j, e, m, hrun⟩ := hesc
  obtain ⟨s₁, hsteps, h₁, -⟩ := exists_sound_done h hr hrun
  obtain ⟨s', hsteps', h', hended⟩ := exists_end (P := P) h₁
  refine ⟨s', hsteps.trans hsteps', hended.resolve_left fun hasync => ?_⟩
  obtain ⟨v, m', hend, -⟩ := h'.exists_completed hasync
  cases hend

/-! ## The topics -/

namespace Math

/-- The payload has no comma, or `std::stoi` accepts what is before the first comma and what is after
it. -/
def parses (payload : Str) : Bool :=
  match payload.idxOf? 44 with
  | none => true
  | some pos => (stoi (payload.take pos)).isOk && (stoi (payload.drop (pos + 1))).isOk

theorem exists_call_add {payload : Str} (h : parses payload = true) (v : ℤ)
    (m : Memory TopicBody TopicEffect TopicValue StdException) :
    ∃ m', topicProgram.call 8 m (add payload v) = .done (.value .void) m' := by
  unfold parses at h
  unfold add
  cases hpos : payload.idxOf? 44 with
  | none => exact ⟨_, rfl⟩
  | some pos =>
    rw [hpos] at h
    dsimp only at h ⊢
    cases ha : stoi (payload.take pos) with
    | error e =>
      rw [ha] at h
      cases h
    | ok a =>
      cases hb : stoi (payload.drop (pos + 1)) with
      | error e =>
        rw [hb, Bool.and_comm] at h
        cases h
      | ok b =>
        dsimp only [addInt]
        split_ifs <;> exact ⟨_, rfl⟩

/-- `math.add` returns on a payload that it can parse. -/
theorem returns_onCall {payload : Str} (h : parses payload = true) :
    topicProgram.Returns (onCall payload) := by
  obtain ⟨m, hm⟩ := exists_call_add h 11 _
  exact ⟨13, .void, m, hm⟩

end Math

/-- `task.hello` returns on every payload. -/
theorem Hello.returns_onCall (name payload : Str) :
    topicProgram.Returns (Hello.onCall name payload) := ⟨26, .void, _, rfl⟩

/-- Let `root` be a handler that awaits and destroys only Tasks that it may, and that is queued on a
pool of at least one worker.

* No exception of it comes to the `catch` of a worker, in any order of steps.
* The process is terminated only when the handler lets an exception escape.  It can then go on to its
  end from every state, and the handler never completes.
* A handler that returns is contained; `task.hello` always returns, and `math.add` does on every
  payload that it can parse. -/
theorem handlers_end (hn : 0 < n.toNat) (hw : P.WellUsed root) :
    (∀ s, Reachable (Process.step P root) (.new n nextQueue clock) s →
      (∀ a ∈ s.activities, a.throws = false) ∧ (s.terminated = true → P.Escapes root) ∧
      (P.Escapes root → s.asyncTask ≠ .destroyed ∧
        ∃ s', Steps (Process.step P root) s s' ∧ s'.terminated = true)) ∧
    (P.Returns root → Contained P root n nextQueue clock) ∧
    (∀ name payload : Str,
      Contained topicProgram (Hello.onCall name payload) n nextQueue clock) ∧
    ∀ payload : Str, Math.parses payload = true →
      Contained topicProgram (Math.onCall payload) n nextQueue clock := by
  refine ⟨fun s hs => ?_, contained_of_returns hn,
    fun name payload => contained_of_returns hn (Hello.returns_onCall name payload),
    fun payload h => contained_of_returns hn (Math.returns_onCall h)⟩
  obtain ⟨k, hsound⟩ := sound_of_reachable hn hw hs
  have hr := ready_of_reachable hn hw hs
  exact ⟨hr.catches, hsound.escapes, fun hesc =>
    ⟨hsound.asyncTask_ne hesc, exists_terminated hsound hr hesc⟩⟩

/-- A handler that throws after a timer has resumed it, and `math.add` on `1,2`. -/
theorem handlers_end_one_worker :
    (∃ s' : Process TopicBody TopicEffect TopicValue StdException,
      Steps (Process.step topicProgram (.sleep 5 (.throw .outOfRange))) (.new 1 0 0) s' ∧
        s'.terminated = true) ∧
    Contained topicProgram (Math.onCall (bytes "1,2")) 1 0 0 := by
  have hrun : topicProgram.run (.sleep 5 (.throw .outOfRange)) 2 =
    .done (.exception .outOfRange) ⟨[.running], [.slept 5]⟩ := rfl
  have hw := Program.wellUsed_of_run hrun
  exact ⟨(((handlers_end (by decide) hw).1 _ (.refl _)).2.2 ⟨2, _, _, hrun⟩).2,
    (handlers_end (by decide) hw).2.2.2 _ (by decide)⟩

/-- `math.add` on `a,b` terminates the process. -/
theorem add_terminates :
    ∃ s, Reachable (Process.step topicProgram (Math.onCall (bytes "a,b"))) (.new 1 0 0) s ∧
      s.terminated = true := by
  obtain ⟨s, hs, hterm⟩ := Option.map_eq_some_iff.1 (show
    (run (Process.step topicProgram (Math.onCall (bytes "a,b"))) (.new 1 0 0)
      ([.call, .pool (.push 1), .pool (.lock 0), .pool (.enter 0), .invoke 0] ++
        List.replicate 15 (.execute 0))).map Process.terminated = some true by decide)
  exact ⟨s, ⟨_, hs⟩, hterm⟩

end EllohimMQ
