import EllohimMQ.Model.Service
import EllohimMQ.Proof.PlainCalls
import EllohimMQ.Proof.Ledger

/-!
# A handler by itself

The steps that a worker takes in a handler do not look at the pool and the timer thread (`rehouse`), so
what the simulation of one root says about them holds for a handler of the service as well.
-/

namespace EllohimMQ

open Calls Transition

variable {σ Fx V E : Type}

/-! ## Other pools and timer threads -/

namespace Process

variable {P : Program σ Fx V E} {s s' : Process σ Fx V E} {i t u : ℕ}
  {pool : ThreadPool (CoroutineJob σ)} {timers : Scheduler (CoroutineJob σ)}

/-- The same coroutines on another pool with another timer thread. -/
def rehouse (pool : ThreadPool (CoroutineJob σ)) (timers : Scheduler (CoroutineJob σ))
    (s : Process σ Fx V E) : Process σ Fx V E := { s with pool, timers }

@[simp] theorem rehouse_frames : (s.rehouse pool timers).frames = s.frames := rfl

@[simp] theorem rehouse_asyncTask : (s.rehouse pool timers).asyncTask = s.asyncTask := rfl

@[simp] theorem rehouse_activities : (s.rehouse pool timers).activities = s.activities := rfl

theorem awaitResume_rehouse (t : ℕ) :
    (s.rehouse pool timers).awaitResume P t =
      (s.awaitResume P t).map fun r => (r.1, r.2.rehouse pool timers) := by
  rcases hf : s.frames[t]? with _ | f
  · simp only [awaitResume, rehouse_frames, hf, Option.map_none]
  · cases hp : f.point <;>
      simp only [awaitResume, rehouse_frames, hf, hp, Option.map_map, Option.map_none] <;> rfl

theorem destroy_rehouse (t : ℕ) :
    (s.rehouse pool timers).destroy t = (s.destroy t).rehouse pool timers := by
  rcases hf : (s.frames[t]?).map TaskFrame.point with _ | point
  · simp only [destroy, rehouse_frames, hf]
    rfl
  · cases point <;> simp only [destroy, rehouse_frames, hf] <;> rfl

theorem resume_rehouse (i : ℕ) (handle : CoroutineHandle) :
    (s.rehouse pool timers).resume P i handle = (s.resume P i handle).rehouse pool timers := by
  cases handle with
  | noop => rfl
  | asyncTask =>
    cases ha : s.asyncTask with
    | notStarted | destroyed =>
      simp only [resume, rehouse_asyncTask, ha]
      rfl
    | taskAwaiter t =>
      rcases hr : s.awaitResume P t with _ | ⟨_ | _, s'⟩ <;>
        simp only [resume, rehouse_asyncTask, ha, awaitResume_rehouse, hr, Option.map_none,
          Option.map_some, destroy_rehouse] <;> rfl
  | task t =>
    rcases hf : (s.frames[t]?).map TaskFrame.point with _ | point
    · simp only [resume, rehouse_frames, hf]
      rfl
    · cases point with
      | taskAwaiter u rest =>
        rcases hr : s.awaitResume P u with _ | ⟨c, s'⟩ <;>
          simp only [resume, rehouse_frames, hf, awaitResume_rehouse, hr, Option.map_none,
            Option.map_some] <;> rfl
      | initialSuspend | running | timerAwaiter | finalSuspend | destroyed =>
        simp only [resume, rehouse_frames, hf]
        rfl

theorem awaitTask_rehouse (i t u : ℕ) (rest : Completion V E → σ) :
    (s.rehouse pool timers).awaitTask P i t u rest =
      (s.awaitTask P i t u rest).rehouse pool timers := by
  rcases hf : (s.frames[u]?).map TaskFrame.point with _ | point
  · simp only [awaitTask, rehouse_frames, hf]
    rfl
  · cases point with
    | finalSuspend =>
      rcases hr : s.awaitResume P u with _ | ⟨c, s'⟩ <;>
        simp only [awaitTask, rehouse_frames, hf, awaitResume_rehouse, hr, Option.map_none,
          Option.map_some] <;> rfl
    | initialSuspend | running | timerAwaiter | taskAwaiter | destroyed =>
      simp only [awaitTask, rehouse_frames, hf]
      rfl

theorem finalSuspend_rehouse (i t : ℕ) (g : TaskFrame σ V E → TaskFrame σ V E) :
    (s.rehouse pool timers).finalSuspend i t g = (s.finalSuspend i t g).rehouse pool timers := by
  rcases hf : s.frames[t]? with _ | f <;> simp only [finalSuspend, rehouse_frames, hf] <;> rfl

/-- The body does anything but sleep. -/
theorem runBody_rehouse {b : σ} (hb : ∀ ms rest, P.next b ≠ .sleep ms rest) (i t : ℕ) :
    (s.rehouse pool timers).runBody P i t b =
      (s.runBody P i t b).map (Process.rehouse pool timers) := by
  cases hn : P.next b with
  | sleep ms rest => exact absurd hn (hb ms rest)
  | effect | task =>
    simp only [runBody, hn]
    rfl
  | drop u rest =>
    simp only [runBody, hn, destroy_rehouse]
    rfl
  | await u rest => simp only [runBody, hn, awaitTask_rehouse, Option.map_some]
  | ret v => simp only [runBody, hn, finalSuspend_rehouse, Option.map_some]
  | throw e => simp only [runBody, hn, finalSuspend_rehouse, Option.map_some]

end Process

/-! ## The steps of a handler -/

variable {P : Program σ Fx V E} {root : σ} {i n : ℕ} {a : Activity σ}

/-- A pool that has finished the job of `root`, and has no other. -/
def finishedPool (root : σ) : ThreadPool (CoroutineJob σ) :=
  { ThreadPool.new 1 0 2 with
    called := [⟨some (.asyncRun root), 0⟩]
    queued := [⟨some (.asyncRun root), 0⟩]
    invoked := [⟨some (.asyncRun root), 0⟩]
    finished := [⟨some (.asyncRun root), 0⟩] }

theorem accounts_finishedPool (root : σ) : Accounts root true (finishedPool root) (.init 0 1) where
  threads := by
    change 0 < (1 : BitVec 64).toNat
    decide
  destroyer := rfl
  conserved :=
    { ThreadPool.conserved_new (F := CoroutineJob σ) 1 0 2 with
      tickets := rfl
      func := fun job hjob => by
        rw [List.mem_singleton.1 hjob]
        rfl
      called := .refl _
      places := .refl _
      invoked := .refl _ }
  timely := Scheduler.timely_init ..
  funcs _ h := by cases h
  linked := .refl _

namespace Handler

variable {h : Handler σ Fx V E}

/-- The handler with a worker at `a`, on a pool that owes nothing. -/
def housed (h : Handler σ Fx V E) (a : Activity σ) : Process σ Fx V E :=
  (h.process a).rehouse (finishedPool h.root) (.init 0 1)

/-- What `Phase` looks at. -/
def view (h : Handler σ Fx V E) : Process σ Fx V E := h.process .idle

theorem execute_housed (hsleep : h.sleeps P a = none) (ha : a ≠ .inTimer) :
    (h.housed a).execute P 0 =
      ((h.process a).execute P 0).map (Process.rehouse (finishedPool h.root) (.init 0 1)) := by
  cases a with
  | inTimer => exact absurd rfl ha
  | idle | ending => rfl
  | starting coro => rfl
  | resuming handle => exact congrArg some (Process.resume_rehouse 0 handle)
  | inBody t =>
    rcases hf : (h.frames[t]?).map TaskFrame.point with _ | point
    · simp only [housed, Process.execute, process, Process.rehouse, List.getElem?_cons_zero, hf]
      rfl
    · cases point with
      | running b =>
        have hb : ∀ ms rest, P.next b ≠ .sleep ms rest := fun ms rest hb => by
          simp [sleeps, hf, hb] at hsleep
        have hrun :
            ((h.process (.inBody t)).rehouse (finishedPool h.root) (.init 0 1)).runBody P 0 t b =
              ((h.process (.inBody t)).runBody P 0 t b).map
                (Process.rehouse (finishedPool h.root) (.init 0 1)) :=
          Process.runBody_rehouse hb 0 t
        simpa only [housed, Process.execute, process, Process.rehouse, List.getElem?_cons_zero, hf]
          using hrun
      | initialSuspend | taskAwaiter | timerAwaiter | finalSuspend | destroyed =>
        simp only [housed, Process.execute, process, Process.rehouse, List.getElem?_cons_zero, hf]
        rfl

/-- What carries the handler on when a worker has come to `a` in it. -/
def carrier (i : ℕ) (a : Activity σ) : Holder σ := if a.passive then .nobody else .worker i a

theorem holds_housed (h : Handler σ Fx V E) (a : Activity σ) :
    Holds h.root (h.housed a) (.worker 0 a) where
  faulted := rfl
  accounts := accounts_finishedPool h.root
  owes := .refl _
  active := by
    refine ⟨rfl, fun k b hb hk => ?_⟩
    rcases k with _ | k
    · exact absurd rfl hk
    · cases hb
  activities_length := rfl

/-- The number of the worker does not matter. -/
theorem phase_rename {s : Process σ Fx V E} {c : Config σ Fx V E} (h : Phase root s (.worker i a) c)
    (j : ℕ) : Phase root s (.worker j a) c := by
  cases h with
  | starting hc hn => exact .starting hc hn
  | running hl hf hp hclean => exact .running hl hf hp hclean
  | resuming hl hf hp hclean => exact .resuming hl hf hp hclean
  | returning hl hf hp hr => exact .returning hl hf hp hr
  | terminated ht hasync => exact .terminated ht hasync

theorem phase_housed {c : Config σ Fx V E} (hp : Phase h.root h.view (.worker i a) c) :
    Phase h.root (h.housed a) (.worker 0 a) c := by
  have hp' : Phase h.root (h.housed a) (.worker i a) c := hp.congr rfl rfl rfl rfl rfl
  exact phase_rename hp' 0

/-- What the simulation says of the handler after a step, as the service sees it. -/
theorem phase_of_sound {p : Process σ Fx V E} {c : Config σ Fx V E} {a' : Activity σ} (i : ℕ)
    (hs : Sound root (p.rehouse (finishedPool root) (.init 0 1)) c) (hcalled : p.called = true)
    (ha : p.activities = [a']) (ht : p.terminated = false) :
    p.faulted = false ∧
      Phase root (view ⟨root, p.frames, p.asyncTask, p.trace⟩) (carrier i a') c := by
  obtain ⟨holder, hh, hp⟩ := hs
  refine ⟨hh.faulted, ?_⟩
  have hactive : holder.Active [a'] := by
    have := hh.active
    rwa [Process.rehouse_activities, ha] at this
  cases holder with
  | nobody =>
    have hpassive : a'.passive = true := hactive 0 a' rfl (by simp)
    rw [carrier, if_pos hpassive]
    exact hp.congr hcalled.symm rfl rfl rfl ht.symm
  | job j =>
    -- this pool and timer thread owe nothing
    have hlen := hh.owes.length_eq
    simp [Process.rehouse, finishedPool, Holder.jobs, Scheduler.init, hcalled, rootJob] at hlen
  | worker k b =>
    obtain ⟨hk, -⟩ := hactive
    rcases k with _ | k
    · obtain rfl := Option.some.inj hk
      have hp' : Phase root (view ⟨root, p.frames, p.asyncTask, p.trace⟩) (.worker 0 a') c :=
        hp.congr hcalled.symm rfl rfl rfl ht.symm
      rw [carrier, if_neg (by simp [hp.not_passive])]
      exact phase_rename hp' i
    · cases hk

/-! ## What a worker does in a handler -/

/-- The worker has gone on in the handler, and comes to one place in it. -/
theorem exists_activity {p : Process σ Fx V E} (hx : (h.process a).execute P 0 = some p) :
    p.called = true ∧ ∃ a', p.activities = [a'] ∧ a'.isIdle = false := by
  obtain ⟨b, hb, hbusy, ⟨⟨-, -, hc, hact⟩, -⟩ | ⟨ms, job, ht, -⟩⟩ := within_execute hx
  · obtain rfl := Option.some.inj hb
    refine ⟨hc, ?_⟩
    obtain hact | ⟨a', hbusy', -, hact⟩ := hact
    · exact ⟨a, hact, hbusy⟩
    · exact ⟨a', hact, hbusy'⟩
  · -- nobody submits a job to this timer thread
    simp [process, Scheduler.init, Scheduler.step] at ht

/-- A step that stays at the configuration brings the worker nearer to the end of the job. -/
theorem sound_execute {p : Process σ Fx V E} {c : Config σ Fx V E}
    (hp : Phase h.root h.view (.worker i a) c) (hsleep : h.sleeps P a = none)
    (hx : (h.process a).execute P 0 = some p) (hc : (P.step c).control ≠ .misuse) :
    (Sound h.root (p.rehouse (finishedPool h.root) (.init 0 1)) c ∧
      (p.terminated = true ∨ ∀ a', p.activities = [a'] → a'.weight < a.weight)) ∨
    (Sound h.root (p.rehouse (finishedPool h.root) (.init 0 1)) (P.step c) ∧
      ∀ r m, c ≠ ⟨.done r, [], m⟩) := by
  have hh := holds_housed h a
  have hp' := phase_housed hp
  have hhoused : (h.housed a).execute P 0 =
      some (p.rehouse (finishedPool h.root) (.init 0 1)) := by
    rw [execute_housed hsleep, hx]
    · rfl
    · rintro rfl
      cases hp
  cases hp' with
  | starting hcalled hn =>
    obtain rfl := Option.some.inj hx
    obtain hs := Option.some.inj hhoused
    refine .inl ⟨hs ▸ Sound.asyncRun hh (.starting hcalled hn), .inr fun a' ha' => ?_⟩
    obtain rfl := (List.cons.inj ha').1
    simp [Activity.weight]
  | @resuming _ b stack m f hl hf hpoint hclean =>
    obtain rfl := Option.some.inj hx
    obtain hs := Option.some.inj hhoused
    refine .inl ⟨hs ▸ Sound.resumeTop hh hl hf hpoint hclean, .inr fun a' ha' => ?_⟩
    have hf' : h.frames[top stack]? = some f := hf
    have : a' = .inBody (top stack) := by
      rcases hpoint with hpoint | hpoint <;>
        simp only [Process.resume, process, hf', Option.map_some, hpoint, Process.setActivity,
          Process.modifyFrame, List.set_cons_zero, List.cons.injEq, and_true] at ha' <;>
        exact ha'.symm
    simp [this, Activity.weight]
  | @running _ b stack m f hl hf hpoint hclean =>
    have hrun : (h.housed (.inBody (top stack))).runBody P 0 (top stack) b =
        some (p.rehouse (finishedPool h.root) (.init 0 1)) := by
      rw [← hhoused]
      have hf' : (h.housed (.inBody (top stack))).frames[top stack]? = some f := hf
      simp only [Process.execute, hh.active.1, hf', Option.map_some, hpoint]
    exact .inr ⟨Sound.runBody hh hl hf hpoint hclean hrun hc, fun r m e => by cases e⟩
  | @returning _ r stack m f hl hf hpoint hr =>
    obtain rfl := Option.some.inj hx
    obtain hs := Option.some.inj hhoused
    generalize hhandle : f.continuation = handle at hh hs hl hf hsleep hp hhoused hx ⊢
    cases stack with
    | nil =>
      obtain ⟨f', hf', hcont⟩ := hl.tree.linked
      cases hf.symm.trans hf'
      obtain rfl := hhandle.symm.trans hcont
      refine .inl ⟨hs ▸ Sound.rootEnds hh hl hf hpoint hr, ?_⟩
      have hasync : (h.process (.resuming .asyncTask)).asyncTask = .taskAwaiter 0 := hl.asyncTask
      have hresume := awaitResume_eq (P := P) (s := h.process (.resuming .asyncTask)) (t := 0) hf
        hpoint hr
      simp only [Process.resume, hasync, hresume]
      cases r with
      | value v =>
        refine .inr fun a' ha' => ?_
        obtain rfl := (List.cons.inj ha').1
        simp [Activity.weight]
      | exception e => exact .inl rfl
    | cons entry stack =>
      obtain ⟨t, rest⟩ := entry
      obtain ⟨f', hf', hcont⟩ := hl.tree.linked.1
      cases hf.symm.trans hf'
      obtain rfl := hhandle.symm.trans hcont
      exact .inr ⟨hs ▸ Sound.leave hh hl hf hpoint hr, fun r m e => by cases e⟩
  | terminated hterm => cases hterm

section

variable (hw : P.WellUsed h.root) (hp : Phase h.root h.view (.worker i a) (P.after h.root n))

include hw hp

/-- A worker takes a step in the handler: it comes nearer to the end of its job, or the plain execution
takes a step, or an exception ends the process. -/
theorem turn {p : Process σ Fx V E} (hsleep : h.sleeps P a = none)
    (hx : (h.process a).execute P 0 = some p) :
    p.faulted = false ∧ (p.terminated = true ∧ P.Escapes h.root ∨ p.terminated = false ∧
      ∃ a' k, p.activities = [a'] ∧ a'.isIdle = false ∧
        Phase h.root (view ⟨h.root, p.frames, p.asyncTask, p.trace⟩) (carrier i a')
          (P.after h.root k) ∧
        (k = n ∧ a'.weight < a.weight ∨
          k = n + 1 ∧ ∀ r m, P.after h.root n ≠ ⟨.done r, [], m⟩)) := by
  obtain ⟨hcalled, a', ha', hbusy⟩ := exists_activity hx
  have hnext := Program.after_succ P h.root n
  have hend : ∀ {k : ℕ}, Sound h.root (p.rehouse (finishedPool h.root) (.init 0 1))
      (P.after h.root k) → p.terminated = true →
        p.faulted = false ∧ p.terminated = true ∧ P.Escapes h.root := fun {k} hs ht => by
    obtain ⟨holder, hh, hp'⟩ := id hs
    exact ⟨hh.faulted, ht, hs.escapes ht⟩
  rcases sound_execute hp hsleep hx (hnext ▸ hw.control_ne (n + 1)) with ⟨hs, hlt⟩ | ⟨hs, hne⟩
  · cases ht : p.terminated with
    | true => exact ⟨(hend hs ht).1, .inl ⟨rfl, (hend hs ht).2.2⟩⟩
    | false =>
      obtain ⟨hf, hp'⟩ := phase_of_sound i hs hcalled ha' ht
      exact ⟨hf, .inr ⟨rfl, a', n, ha', hbusy, hp',
        .inl ⟨rfl, hlt.resolve_left (by simp [ht]) a' ha'⟩⟩⟩
  · rw [← hnext] at hs
    cases ht : p.terminated with
    | true => exact ⟨(hend hs ht).1, .inl ⟨rfl, (hend hs ht).2.2⟩⟩
    | false =>
      obtain ⟨hf, hp'⟩ := phase_of_sound i hs hcalled ha' ht
      exact ⟨hf, .inr ⟨rfl, a', n + 1, ha', hbusy, hp', .inr ⟨rfl, hne⟩⟩⟩

omit hw in
/-- The coroutine on top is handed over to the timer thread. -/
theorem slept {t : ℕ} {ms : ℤ} {rest : σ} (hsleep : h.sleeps P a = some (t, ms, rest)) :
    Phase h.root (h.suspend t ms rest).view (.job (.resume (.task t))) (P.after h.root (n + 1)) ∧
      ∀ r m, P.after h.root n ≠ ⟨.done r, [], m⟩ := by
  rw [Program.after_succ]
  generalize P.after h.root n = c at hp
  cases hp with
  | @running _ b stack m f hl hf hpoint hclean =>
    have hf' : h.frames[top stack]? = some f := hf
    obtain ⟨ms', rest', hn⟩ : ∃ ms rest, P.next b = .sleep ms rest := by
      by_contra hne
      push Not at hne
      cases hb : P.next b <;> simp_all [sleeps]
    simp only [sleeps, hf', Option.map_some, hpoint, hn, Option.some.injEq, Prod.mk.injEq] at hsleep
    obtain ⟨rfl, rfl, rfl⟩ := hsleep
    have hbal := hl.tree.balanced f (List.mem_of_getElem? hf)
    refine ⟨?_, fun r m e => by cases e⟩
    rw [Program.step, Program.stepBody, hn]
    refine .sleeping (f := f.suspend (.timerAwaiter rest')) ⟨hl.called, hl.terminated, hl.asyncTask,
      congrArg (· ++ [_]) hl.trace, hl.tree.modifyTop hf rfl ?_⟩ ?_ rfl hclean
    · simpa [TaskFrame.Balanced, TaskFrame.pending, TaskFrame.suspend, hpoint] using hbal
    · exact (List.getElem?_modify_eq ..).trans (by rw [hf']; rfl)
  | starting | resuming | returning | terminated => cases hsleep

end

/-- A worker invokes the job that carries the handler on. -/
theorem begun {j : CoroutineJob σ} {c : Config σ Fx V E} (i : ℕ)
    (hp : Phase h.root h.view (.job j) c) :
    Phase h.root h.view (.worker i (Activity.ofJob (some j))) c := by
  cases hp with
  | queued hc hn => exact .starting hc hn
  | sleeping hl hf hpoint hclean => exact .resuming hl hf (.inr hpoint) hclean

end Handler

end EllohimMQ
