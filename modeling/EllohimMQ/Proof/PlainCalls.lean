import EllohimMQ.Model.Topics
import EllohimMQ.Proof.CoroutineProgress

/-!
# Coroutines are plain calls

What can be seen of a coroutine that `async_run` starts on the pool, its effects and the completion
of each of its `co_await`s in order, is what a recursive function shows that reads every `co_await`
of a Task as a call.
-/

namespace EllohimMQ

open Calls Transition

variable {σ Fx V E : Type}

/-- `async_run(root)` read as a plain function: the root is called, and its Task is destroyed.  The
depth of the calls is at most `n`. -/
def plainRun (P : Program σ Fx V E) (root : σ) (n : ℕ) : Result σ Fx V E :=
  match P.run root n with
  | .done c m => .done c ((m.set 0 .dropped).emit (.awaited 0 c))
  | r => r

variable {P : Program σ Fx V E} {root : σ} {s : Process σ Fx V E} {n nextQueue : BitVec 64}
  {clock : TimePoint}

theorem run_trace_prefix_plainRun (P : Program σ Fx V E) (root : σ) (k : ℕ) :
    (P.run root k).trace <+: (plainRun P root k).trace := by
  unfold plainRun
  cases P.run root k with
  | done c m => exact List.prefix_append ..
  | misuse => exact List.prefix_rfl
  | exhausted m => exact List.prefix_rfl

/-- A process that has not come back to the functor shows what its configuration shows. -/
theorem Sound.trace_eq {c : Config σ Fx V E} (h : Sound root s c) (ht : s.terminated = false) :
    s.trace = c.memory.trace ∧ s.asyncTask ≠ .destroyed ∨
      ∃ v m, c = ⟨.done (.value v), [], m⟩ ∧ s.trace = m.trace ++ [.awaited 0 (.value v)] := by
  rcases h.cases with ⟨hn, rfl⟩ | ⟨stack, hl⟩ | ⟨v, m, rfl, hc⟩ | ⟨e, m, rfl, hterm, -⟩
  · exact .inl ⟨hn.trace, by rw [hn.asyncTask]; nofun⟩
  · exact .inl ⟨hl.trace, by rw [hl.asyncTask]; nofun⟩
  · exact .inr ⟨v, m, rfl, hc.trace⟩
  · rw [hterm] at ht
    cases ht

/-- A process that was terminated ran a program that ends with an exception. -/
theorem Sound.escapes {k : ℕ} (h : Sound root s (P.after root k)) (ht : s.terminated = true) :
    P.Escapes root := by
  have hne : ¬ s.terminated = false := by simp [ht]
  rcases h.cases with ⟨hn, -⟩ | ⟨stack, hl⟩ | ⟨v, m, -, hc⟩ | ⟨e, m, hend, -⟩
  · exact absurd hn.terminated hne
  · exact absurd hl.terminated hne
  · exact absurd hc.terminated hne
  · exact ⟨k, e, m, Program.run_of_after hend⟩

/-- All suspensions but the pending ones were resumed once. -/
theorem Sound.balanced {c : Config σ Fx V E} (h : Sound root s c) (ht : s.terminated = false) :
    ∀ f ∈ s.frames, f.Balanced := by
  rcases h.cases with ⟨hn, -⟩ | ⟨stack, hl⟩ | ⟨v, m, -, hc⟩ | ⟨e, m, -, hterm, -⟩
  · rw [hn.frames]
    exact List.forall_mem_nil _
  · exact hl.tree.balanced
  · exact hc.balanced
  · rw [hterm] at ht
    cases ht

/-- A functor that has completed ran a program that returns. -/
theorem Sound.exists_completed {c : Config σ Fx V E} (h : Sound root s c)
    (hasync : s.asyncTask = .destroyed) :
    ∃ v m, c = ⟨.done (.value v), [], m⟩ ∧ Completed s v m := by
  rcases h.cases with ⟨hn, -⟩ | ⟨stack, hl⟩ | hc | ⟨e, m, -, -, hne⟩
  · rw [hn.asyncTask] at hasync
    cases hasync
  · rw [hl.asyncTask] at hasync
    cases hasync
  · exact hc
  · exact absurd hasync hne

/-- When the functor has completed, so has the plain function, and every frame is as the function
left its Task: destroyed, done, or never awaited. -/
theorem Sound.completed {k : ℕ} (h : Sound root s (P.after root k))
    (hasync : s.asyncTask = .destroyed) :
    ∃ v m, plainRun P root k = .done (.value v) m ∧ s.trace = m.trace ∧
      s.frames.length = m.tasks.length ∧ ∀ (t : ℕ) (f : TaskFrame σ V E) (d : Deferred σ V E),
        s.frames[t]? = some f → m.tasks[t]? = some d →
        f.Matches d ∧ d ≠ .running ∧ f.suspensions = f.resumptions := by
  obtain ⟨v, m, hend, hc⟩ := h.exists_completed hasync
  refine ⟨v, (m.set 0 .dropped).emit (.awaited 0 (.value v)), ?_, hc.trace, ?_, ?_⟩
  · rw [plainRun, Program.run_of_after hend]
  · exact hc.length_eq.trans (List.length_set ..).symm
  · intro t f d hf hd
    obtain ⟨hm, hne⟩ := hc.agrees t f d hf hd
    refine ⟨hm, hne, (hc.balanced f (List.mem_of_getElem? hf)).eq ?_⟩
    cases d with
    | ready body =>
      rw [show f = .new body from hm]
      rfl
    | running => exact absurd rfl hne
    | finished c => rw [TaskFrame.pending, hm.1]
    | dropped => rw [TaskFrame.pending, show f.point = .destroyed from hm]

/-- What the process shows, a plain function of some depth shows as well. -/
theorem Sound.trace_prefix_plainRun {k : ℕ} (h : Sound root s (P.after root k))
    (hw : P.WellUsed root) (ht : s.terminated = false) :
    s.trace <+: (plainRun P root k).trace := by
  rcases h.trace_eq ht with ⟨htrace, -⟩ | ⟨v, m, hc, htrace⟩
  · rw [htrace]
    exact (Program.after_trace hw k).trans (run_trace_prefix_plainRun P root k)
  · rw [plainRun, Program.run_of_after hc, htrace]
    exact List.prefix_rfl

/-- From every state the threads can bring out what the plain function of depth `j` shows. -/
theorem exists_plainRun {k : ℕ} (h : Sound root s (P.after root k)) (hr : Ready s)
    (hw : P.WellUsed root) (hesc : ¬ P.Escapes root) (j : ℕ) :
    ∃ s', Steps (Process.step P root) s s' ∧ (plainRun P root j).trace <+: s'.trace ∧
      ∀ c m, plainRun P root j = .done c m → s'.asyncTask = .destroyed := by
  have hterm : ∀ {s : Process σ Fx V E} {k : ℕ}, Sound root s (P.after root k) →
      s.terminated = false := fun hs => Bool.eq_false_iff.2 fun ht => hesc (hs.escapes ht)
  cases hrun : P.run root j with
  | done c m =>
    obtain ⟨i, hi⟩ := Program.after_of_run hrun
    obtain ⟨s₁, hsteps, h₁, -⟩ := exists_sound_done h hr hrun
    obtain ⟨s', hsteps', h', hended⟩ := exists_end (P := P) h₁
    rw [← hi] at h'
    have hasync := hended.resolve_right (by rw [hterm h']; nofun)
    refine ⟨s', hsteps.trans hsteps', ?_, fun _ _ _ => hasync⟩
    obtain ⟨v, m', hplain, htrace, -⟩ := h'.completed hasync
    rw [plainRun, Program.run_of_after hi] at hplain
    rw [htrace, plainRun, hrun, hplain]
    exact List.prefix_rfl
  | misuse => exact absurd hrun (hw j)
  | exhausted m =>
    obtain ⟨i, hi⟩ := Program.exists_after hw j
    obtain ⟨s₁, hsteps, h₁, -⟩ := exists_sound_after hw h hr i
    have hm : (P.after root i).memory.trace = m.trace := by rw [hi, hrun]; rfl
    have hle : m.trace <+: (P.after root (k + i)).memory.trace := by
      rw [← hm]
      exact Program.trace_iterate (Nat.le_add_left i k)
    refine ⟨s₁, hsteps, ?_, fun c m' hplain => ?_⟩
    · rw [plainRun, hrun]
      rcases h₁.trace_eq (hterm h₁) with ⟨htrace, -⟩ | ⟨v, m', hc, htrace⟩
      · rw [htrace]
        exact hle
      · rw [htrace]
        rw [hc] at hle
        exact hle.trans (List.prefix_append ..)
    · rw [plainRun, hrun] at hplain
      cases hplain

/-! ## Sleeping coroutines -/

/-- The job resumes Task `t`. -/
def CoroutineJob.resumes (t : ℕ) : Option (CoroutineJob σ) → Bool
  | some (.resume (.task u)) => t = u
  | _ => false

/-- The worker is about to resume Task `t`. -/
def Activity.resumes (t : ℕ) : Activity σ → Bool
  | .resuming (.task u) => t = u
  | _ => false

/-- The jobs and the workers that will resume Task `t`. -/
def Process.resumers (s : Process σ Fx V E) (t : ℕ) : ℕ :=
  (onTheWay s.pool s.timers).countP (CoroutineJob.resumes t) +
    s.activities.countP (Activity.resumes t)

theorem Quiet.countP_resumes {activities : List (Activity σ)} (h : Quiet activities none) (t : ℕ) :
    activities.countP (Activity.resumes t) = 0 := by
  refine List.countP_eq_zero.2 fun a ha hres => ?_
  obtain ⟨i, hi⟩ := List.getElem?_of_mem ha
  have := h i a hi nofun
  cases a with
  | resuming => cases this
  | idle | starting | inBody | inTimer | ending => cases hres

/-- A coroutine that sleeps has one job or one worker that resumes it. -/
theorem Sound.resumers_eq_one {c : Config σ Fx V E} (h : Sound root s c) (ht : s.terminated = false)
    {t : ℕ} {f : TaskFrame σ V E} {rest : σ} (hf : s.frames[t]? = some f)
    (hp : f.point = .timerAwaiter rest) : s.resumers t = 1 := by
  obtain ⟨holder, hh, hphase⟩ := h
  have hjobs := (hh.accounts.onTheWay_perm hh.owes).countP_eq (CoroutineJob.resumes t)
  rw [Process.resumers, hjobs]
  cases hphase with
  | fresh _ hn | queued _ hn | starting _ hn =>
    rw [hn.frames] at hf
    cases hf
  | running hl hf' hp' | returning hl hf' hp' =>
    rw [hl.tree.eq_top hf hp, hf'] at hf
    cases hf
    rw [hp] at hp'
    cases hp'
  | @resuming i b stack m f' hl hf' hp' hclean =>
    obtain rfl := hl.tree.eq_top hf hp
    have hset := Table.countP_set hh.active.1 .idle (Activity.resumes (top stack))
    have hzero := (hh.active.2.release (a := .idle) rfl).countP_resumes (top stack)
    simpa [hzero, Activity.resumes, Holder.jobs] using hset.symm
  | @sleeping b stack m f' hl hf' hp' hclean =>
    obtain rfl := hl.tree.eq_top hf hp
    rw [Quiet.countP_resumes hh.active]
    simp [Holder.jobs, CoroutineJob.resumes]
  | completed _ _ _ _ hlen _ hagrees =>
    have hlt := (List.getElem?_eq_some_iff.1 hf).1
    rw [hlen, ← List.length_set] at hlt
    obtain ⟨hm, hne⟩ := hagrees t f _ hf (List.getElem?_eq_getElem hlt)
    exact absurd (hm.eq_running hp) hne
  | terminated hterm =>
    rw [hterm] at ht
    cases ht

/-- Let `root` be a body that, read as plain calls, awaits and destroys only Tasks that it may, and
ends with no exception.  In every state that the process reaches when `async_run(root)` is queued on
a pool of at least one worker, however the workers and the timer thread take turns:

* no coroutine was resumed while it was running, after it had ended or after it was destroyed, no
  result was taken that was not there, and the process was not terminated;
* the effects and the completions of the `co_await`s so far are the beginning of what the plain
  function shows;
* every suspension of every coroutine, but for one that is pending, was resumed exactly once;
* when the functor of `async_run` has completed, the plain function has returned and showed the same,
  every coroutine is destroyed, done or was never awaited, as the function left its Task, and no
  suspension is pending;
* the threads can go on to where they show all that the plain function shows at any depth, and to the
  end when it has ended. -/
theorem coroutines_as_calls (hn : 0 < n.toNat) (hw : P.WellUsed root) (hesc : ¬ P.Escapes root)
    (h : Reachable (Process.step P root) (.new n nextQueue clock) s) :
    (s.faulted = false ∧ s.terminated = false) ∧
    (∃ k, s.trace <+: (plainRun P root k).trace) ∧
    (∀ f ∈ s.frames, f.suspensions = f.resumptions + f.pending) ∧
    (∀ (t : ℕ) (f : TaskFrame σ V E) (rest : σ), s.frames[t]? = some f →
      f.point = .timerAwaiter rest → s.resumers t = 1) ∧
    (s.asyncTask = .destroyed → ∃ k v m, plainRun P root k = .done (.value v) m ∧
      s.trace = m.trace ∧ s.frames.length = m.tasks.length ∧
      ∀ (t : ℕ) (f : TaskFrame σ V E) (d : Deferred σ V E), s.frames[t]? = some f →
        m.tasks[t]? = some d → f.Matches d ∧ d ≠ .running ∧ f.suspensions = f.resumptions) ∧
    ∀ j, ∃ s', Steps (Process.step P root) s s' ∧ (plainRun P root j).trace <+: s'.trace ∧
      ∀ c m, plainRun P root j = .done c m → s'.asyncTask = .destroyed := by
  obtain ⟨k, hs⟩ := sound_of_reachable hn hw h
  have hr := ready_of_reachable hn hw h
  have ht : s.terminated = false := Bool.eq_false_iff.2 fun ht => hesc (hs.escapes ht)
  refine ⟨⟨?_, ht⟩, ⟨k, hs.trace_prefix_plainRun hw ht⟩, hs.balanced ht,
    fun _ _ _ => hs.resumers_eq_one ht, fun hasync => ?_, exists_plainRun hs hr hw hesc⟩
  · obtain ⟨holder, hh, -⟩ := hs
    exact hh.faulted
  · obtain ⟨v, m, hplain, hrest⟩ := hs.completed hasync
    exact ⟨k, v, m, hplain, hrest⟩

/-- A coroutine that catches what a sleeping one throws. -/
def catchSleeper : TopicBody :=
  .task (.sleep 5 (.throw .outOfRange)) fun t =>
  .await t fun
    | .exception _ => .drop t (log [] (.ret .void))
    | .value v => .ret v

theorem wellUsed_catchSleeper : topicProgram.WellUsed catchSleeper := by
  intro n
  rcases n with _ | _ | _ | _ | _ | _ | _ | n <;> nofun

theorem not_escapes_catchSleeper : ¬ topicProgram.Escapes catchSleeper := by
  rintro ⟨n, e, m, h⟩
  rcases n with _ | _ | _ | _ | _ | _ | _ | n <;> cases h

/-- One worker starts the coroutine, and the other one resumes it while the first is still in
`execute_after`. -/
theorem coroutines_as_calls_catchSleeper :
    ∃ s, run (Process.step topicProgram catchSleeper) (.new 2 0 0)
        [.call, .pool (.push 1), .pool (.lock 0), .pool (.enter 0), .invoke 0, .execute 0,
          .execute 0, .execute 0, .execute 0, .execute 0, .execute 0, .timers (.push 0),
          .timers .test, .timers (.tick 5000000), .timers (.lock 0), .pass, .pool (.push 0),
          .pool (.lock 1), .pool (.enter 1), .invoke 1, .execute 1, .timers (.notify 0),
          .execute 0, .execute 1, .finish 0, .execute 1, .execute 1, .execute 1, .execute 1,
          .execute 1] = some s ∧
      s.trace = [.slept 5, .awaited 1 (.exception .outOfRange), .effect (.log []) .void,
        .awaited 0 (.value .void)] ∧
      (s.faulted = false ∧ s.terminated = false) ∧
      ∃ k v m, plainRun topicProgram catchSleeper k = .done (.value v) m ∧ s.trace = m.trace := by
  obtain ⟨s, hs, hview⟩ := Option.map_eq_some_iff.1 (show
    (run (Process.step topicProgram catchSleeper) (.new 2 0 0)
      [.call, .pool (.push 1), .pool (.lock 0), .pool (.enter 0), .invoke 0, .execute 0,
        .execute 0, .execute 0, .execute 0, .execute 0, .execute 0, .timers (.push 0),
        .timers .test, .timers (.tick 5000000), .timers (.lock 0), .pass, .pool (.push 0),
        .pool (.lock 1), .pool (.enter 1), .invoke 1, .execute 1, .timers (.notify 0),
        .execute 0, .execute 1, .finish 0, .execute 1, .execute 1, .execute 1, .execute 1,
        .execute 1]).map (fun s => (s.trace, s.asyncTask)) =
      some ([.slept 5, .awaited 1 (.exception .outOfRange), .effect (.log []) .void,
        .awaited 0 (.value .void)], .destroyed) by decide)
  obtain ⟨hlive, -, -, -, hdone, -⟩ := coroutines_as_calls (by decide) wellUsed_catchSleeper
    not_escapes_catchSleeper ⟨_, hs⟩
  obtain ⟨k, v, m, hplain, htrace, -⟩ := hdone (congrArg Prod.snd hview)
  exact ⟨s, hs, congrArg Prod.fst hview, hlive, k, v, m, hplain, htrace⟩

end EllohimMQ
