import EllohimMQ.Lib.Transition
import EllohimMQ.Proof.CoroutineFrames
import EllohimMQ.Proof.CoroutineJobs

/-!
# The process simulates the plain execution

At every moment one thing carries the execution on: a job that is on its way through the timer thread
and the pool, or one worker, while all the other workers are on their way out of an earlier job
(`Holder`, `Holds`).  `Phase` ties the coroutine frames to a configuration of the plain execution of
the root; `Sound.step` shows that every step of the process either stays at that configuration or
goes on to the next one.
-/

namespace EllohimMQ

open Calls Transition

variable {σ Fx V E : Type}

/-- The worker does not run a coroutine, or has handed it over. -/
def Activity.passive : Activity σ → Bool
  | .idle => true
  | .inTimer => true
  | .ending _ => true
  | _ => false

/-- Every worker but `active` is passive. -/
def Quiet (activities : List (Activity σ)) (active : Option ℕ) : Prop :=
  ∀ (k : ℕ) (a : Activity σ), activities[k]? = some a → some k ≠ active → a.passive = true

theorem Quiet.set {activities : List (Activity σ)} {active : Option ℕ} (h : Quiet activities active)
    (i : ℕ) {a : Activity σ} (ha : a.passive = true) : Quiet (activities.set i a) active := by
  intro k b hb hk
  rw [List.getElem?_set] at hb
  split_ifs at hb
  · cases hb
    exact ha
  · exact h k b hb hk

/-- The worker that is not passive takes another activity. -/
theorem Quiet.setActive {activities : List (Activity σ)} {i : ℕ} (h : Quiet activities (some i))
    (a : Activity σ) : Quiet (activities.set i a) (some i) := by
  intro k b hb hk
  rw [List.getElem?_set_ne (fun e => hk (congrArg some e.symm))] at hb
  exact h k b hb hk

/-- The worker that was not passive becomes so. -/
theorem Quiet.release {activities : List (Activity σ)} {i : ℕ} (h : Quiet activities (some i))
    {a : Activity σ} (ha : a.passive = true) : Quiet (activities.set i a) none := by
  intro k b hb _
  rw [List.getElem?_set] at hb
  split_ifs at hb with hk
  · cases hb
    exact ha
  · exact h k b hb fun e => hk (Option.some.inj e).symm

theorem Quiet.mono {activities : List (Activity σ)} (h : Quiet activities none) (i : ℕ) :
    Quiet activities (some i) := fun k a ha _ => h k a ha nofun

/-- What carries the execution on. -/
inductive Holder (σ : Type) where
  | nobody
  | job (j : CoroutineJob σ)
  | worker (i : ℕ) (a : Activity σ)

namespace Holder

/-- The jobs that are on their way. -/
def jobs : Holder σ → List (CoroutineJob σ)
  | .job j => [j]
  | _ => []

/-- The holder, if it is a worker, is the only one that is in a job. -/
def Active (activities : List (Activity σ)) : Holder σ → Prop
  | .worker i a => activities[i]? = some a ∧ Quiet activities (some i)
  | _ => Quiet activities none

end Holder

/-- The jobs and the activities of the workers are as `holder` says. -/
structure Holds (root : σ) (s : Process σ Fx V E) (holder : Holder σ) : Prop where
  faulted : s.faulted = false
  accounts : Accounts root s.called s.pool s.timers
  owes : Owes root s.called s.pool s.timers holder.jobs
  active : holder.Active s.activities
  activities_length : s.activities.length = s.pool.allocatedThreadCount.toNat

namespace Holds

variable {root : σ} {s s' : Process σ Fx V E} {holder : Holder σ} {i : ℕ} {a a' : Activity σ}

/-- The worker in charge goes on, and only coroutine frames change. -/
theorem goOn (h : Holds root s (.worker i a)) (hf : s'.faulted = s.faulted)
    (hp : s'.pool = s.pool) (ht : s'.timers = s.timers) (hc : s'.called = s.called)
    (ha : s'.activities = s.activities.set i a') : Holds root s' (.worker i a') where
  faulted := hf.trans h.faulted
  accounts := by
    rw [hc, hp, ht]
    exact h.accounts
  owes := by
    rw [hc, hp, ht]
    exact h.owes
  active := by
    have hlt : i < s.activities.length := (List.getElem?_eq_some_iff.1 h.active.1).1
    rw [ha]
    exact ⟨List.getElem?_set_self hlt, h.active.2.setActive a'⟩
  activities_length := by
    rw [ha, hp, List.length_set]
    exact h.activities_length

/-- The worker in charge stays at its place. -/
theorem stay (h : Holds root s (.worker i a)) (hf : s'.faulted = s.faulted)
    (hp : s'.pool = s.pool) (ht : s'.timers = s.timers) (hc : s'.called = s.called)
    (ha : s'.activities = s.activities) : Holds root s' (.worker i a) := by
  refine h.goOn hf hp ht hc ?_
  obtain ⟨hlt, rfl⟩ := List.getElem?_eq_some_iff.1 h.active.1
  rw [ha, List.set_getElem_self]

/-- A step of the pool leaves it as wide as it is. -/
theorem width (h : Holds root s holder) {l : PoolStep (CoroutineJob σ)}
    {pool : ThreadPool (CoroutineJob σ)} (hs : s.pool.step l = some pool) :
    s.activities.length = pool.allocatedThreadCount.toNat := by
  rw [ThreadPool.step_allocatedThreadCount hs, h.activities_length]

end Holds

/-- Nothing of the coroutine has happened. -/
structure NotStarted (s : Process σ Fx V E) : Prop where
  terminated : s.terminated = false
  frames : s.frames = []
  asyncTask : s.asyncTask = .notStarted
  trace : s.trace = []

/-- The root has started, and has not come back to the functor. -/
structure Live (s : Process σ Fx V E) (stack : Stack σ V E) (m : Memory σ Fx V E) : Prop where
  called : s.called = true
  terminated : s.terminated = false
  asyncTask : s.asyncTask = .taskAwaiter 0
  trace : s.trace = m.trace
  tree : CallTree s.frames m.tasks stack

/-- Where the root is, by what carries it on and by the configuration of its plain execution. -/
inductive Phase (root : σ) (s : Process σ Fx V E) : Holder σ → Config σ Fx V E → Prop
  | fresh (hc : s.called = false) (hn : NotStarted s) : Phase root s .nobody (.start root)
  | queued (hc : s.called = true) (hn : NotStarted s) :
    Phase root s (.job (.asyncRun root)) (.start root)
  | starting {i : ℕ} (hc : s.called = true) (hn : NotStarted s) :
    Phase root s (.worker i (.starting root)) (.start root)
  | running {i : ℕ} {b : σ} {stack : Stack σ V E} {m : Memory σ Fx V E} {f : TaskFrame σ V E}
    (h : Live s stack m) (hf : s.frames[top stack]? = some f) (hp : f.point = .running b)
    (hclean : f.Clean) : Phase root s (.worker i (.inBody (top stack))) ⟨.body b, stack, m⟩
  | resuming {i : ℕ} {b : σ} {stack : Stack σ V E} {m : Memory σ Fx V E} {f : TaskFrame σ V E}
    (h : Live s stack m) (hf : s.frames[top stack]? = some f)
    (hp : f.point = .initialSuspend b ∨ f.point = .timerAwaiter b) (hclean : f.Clean) :
    Phase root s (.worker i (.resuming (.task (top stack)))) ⟨.body b, stack, m⟩
  | sleeping {b : σ} {stack : Stack σ V E} {m : Memory σ Fx V E} {f : TaskFrame σ V E}
    (h : Live s stack m) (hf : s.frames[top stack]? = some f) (hp : f.point = .timerAwaiter b)
    (hclean : f.Clean) : Phase root s (.job (.resume (.task (top stack)))) ⟨.body b, stack, m⟩
  | returning {i : ℕ} {r : Completion V E} {stack : Stack σ V E} {m : Memory σ Fx V E}
    {f : TaskFrame σ V E} (h : Live s stack m) (hf : s.frames[top stack]? = some f)
    (hp : f.point = .finalSuspend) (hr : f.result = some r) :
    Phase root s (.worker i (.resuming f.continuation)) ⟨.done r, stack, m⟩
  | completed {v : V} {m : Memory σ Fx V E} (hc : s.called = true) (ht : s.terminated = false)
    (hasync : s.asyncTask = .destroyed) (htrace : s.trace = m.trace ++ [.awaited 0 (.value v)])
    (hlen : s.frames.length = m.tasks.length) (hbalanced : ∀ f ∈ s.frames, f.Balanced)
    (hagrees : ∀ (t : ℕ) (f : TaskFrame σ V E) (d : Deferred σ V E), s.frames[t]? = some f →
      (m.tasks.set 0 .dropped)[t]? = some d → f.Matches d ∧ d ≠ .running) :
    Phase root s .nobody ⟨.done (.value v), [], m⟩
  | terminated {i : ℕ} {e : E} {m : Memory σ Fx V E} (ht : s.terminated = true)
    (hasync : s.asyncTask ≠ .destroyed) :
    Phase root s (.worker i (.resuming .asyncTask)) ⟨.done (.exception e), [], m⟩

/-- The phase does not depend on the pool, the timers and the activities. -/
theorem Phase.congr {root : σ} {s s' : Process σ Fx V E} {holder : Holder σ} {c : Config σ Fx V E}
    (h : Phase root s holder c) (hc : s'.called = s.called) (hf : s'.frames = s.frames)
    (ha : s'.asyncTask = s.asyncTask) (htr : s'.trace = s.trace)
    (ht : s'.terminated = s.terminated) : Phase root s' holder c := by
  have hn : NotStarted s → NotStarted s' := fun h =>
    ⟨ht.trans h.terminated, hf.trans h.frames, ha.trans h.asyncTask, htr.trans h.trace⟩
  have hl : ∀ {stack m}, Live s stack m → Live s' stack m := fun h =>
    ⟨hc.trans h.called, ht.trans h.terminated, ha.trans h.asyncTask, htr.trans h.trace,
      hf.symm ▸ h.tree⟩
  cases h with
  | fresh hcalled h => exact .fresh (hc.trans hcalled) (hn h)
  | queued hcalled h => exact .queued (hc.trans hcalled) (hn h)
  | starting hcalled h => exact .starting (hc.trans hcalled) (hn h)
  | running h hfr hp hclean => exact .running (hl h) (hf ▸ hfr) hp hclean
  | resuming h hfr hp hclean => exact .resuming (hl h) (hf ▸ hfr) hp hclean
  | sleeping h hfr hp hclean => exact .sleeping (hl h) (hf ▸ hfr) hp hclean
  | returning h hfr hp hr => exact .returning (hl h) (hf ▸ hfr) hp hr
  | completed hcalled hterm hasync htrace hlen hbalanced hagrees =>
    rw [← hf] at hlen hbalanced hagrees
    exact .completed (hc.trans hcalled) (ht.trans hterm) (ha.trans hasync) (htr.trans htrace) hlen
      hbalanced hagrees
  | terminated hterm hasync => exact .terminated (ht.trans hterm) (ha ▸ hasync)

/-- The process carries out the plain execution of the root, which is at `c`. -/
def Sound (root : σ) (s : Process σ Fx V E) (c : Config σ Fx V E) : Prop :=
  ∃ holder, Holds root s holder ∧ Phase root s holder c

/-! ## What a worker does with the coroutines -/

section

variable {P : Program σ Fx V E} {root b : σ} {s s' : Process σ Fx V E} {i t : ℕ}
  {stack : Stack σ V E} {m : Memory σ Fx V E} {f : TaskFrame σ V E} {c : Config σ Fx V E}
  {r : Completion V E}

theorem awaitResume_eq (hf : s.frames[t]? = some f) (hp : f.point = .finalSuspend)
    (hr : f.result = some r) :
    s.awaitResume P t = some (r, (s.modifyFrame t (.take P)).emit (.awaited t r)) := by
  simp only [Process.awaitResume, hf, hp, hr, Option.map_some]

/-- `async_run`: the root is called, and awaited by the functor. -/
theorem Sound.asyncRun (h : Holds root s (.worker i (.starting root)))
    (hp : Phase root s (.worker i (.starting root)) c) : Sound root (s.asyncRun i root) c := by
  cases hp with
  | starting hc hn =>
    have hlive : Live (s.asyncRun i root : Process σ Fx V E) [] ⟨[.running], []⟩ := by
      refine ⟨hc, hn.terminated, ?_, hn.trace, ?_⟩
      · rw [Process.asyncRun, hn.frames]
        rfl
      · rw [Process.asyncRun, Process.pushFrame, hn.frames]
        exact callTree_root root
    refine ⟨.worker i (.resuming (.task 0)), h.goOn rfl rfl rfl rfl ?_,
      .resuming (f := (TaskFrame.new root).setContinuation .asyncTask) hlive ?_ (.inl rfl)
        ⟨rfl, rfl⟩⟩
    · rw [Process.asyncRun, hn.frames]
      rfl
    · rw [Process.asyncRun, Process.pushFrame, hn.frames]
      rfl

/-- A coroutine that has not started, or that was asleep, runs. -/
theorem Sound.resumeTop (h : Holds root s (.worker i (.resuming (.task (top stack)))))
    (hl : Live s stack m) (hf : s.frames[top stack]? = some f)
    (hp : f.point = .initialSuspend b ∨ f.point = .timerAwaiter b) (hclean : f.Clean) :
    Sound root (s.resume P i (.task (top stack))) ⟨.body b, stack, m⟩ := by
  have hbal := hl.tree.balanced f (List.mem_of_getElem? hf)
  refine ⟨.worker i (.inBody (top stack)), ?_⟩
  rcases hp with hp | hp
  · simp only [Process.resume, hf, Option.map_some, hp]
    refine ⟨h.goOn rfl rfl rfl rfl rfl, .running (f := f.moveTo (.running b)) ?_ ?_ rfl hclean⟩
    · refine { hl with tree := hl.tree.modifyTop hf rfl ?_ }
      simpa [TaskFrame.Balanced, TaskFrame.pending, TaskFrame.moveTo, hp] using hbal
    · exact (List.getElem?_modify_eq ..).trans (by rw [hf]; rfl)
  · simp only [Process.resume, hf, Option.map_some, hp]
    refine ⟨h.goOn rfl rfl rfl rfl rfl, .running (f := f.resume (.running b)) ?_ ?_ rfl hclean⟩
    · refine { hl with tree := hl.tree.modifyTop hf rfl ?_ }
      simpa [TaskFrame.Balanced, TaskFrame.pending, TaskFrame.resume, hp] using hbal
    · exact (List.getElem?_modify_eq ..).trans (by rw [hf]; rfl)

/-- The body on top goes on running, after its Tasks and its trace have changed. -/
theorem Sound.runOn (h : Holds root s (.worker i (.inBody (top stack)))) {b' : σ}
    {m' : Memory σ Fx V E} (hl : Live s' stack m') (hf : s'.frames[top stack]? = some f)
    (hp : f.point = .running b) (hclean : f.Clean) (hfault : s'.faulted = s.faulted)
    (hpool : s'.pool = s.pool) (htimers : s'.timers = s.timers) (hcalled : s'.called = s.called)
    (hact : s'.activities = s.activities) :
    Sound root (s'.modifyFrame (top stack) (.moveTo (.running b'))) ⟨.body b', stack, m'⟩ := by
  refine ⟨.worker i (.inBody (top stack)), h.stay hfault hpool htimers hcalled hact,
    .running (f := f.moveTo (.running b')) ?_ ?_ rfl hclean⟩
  · refine { hl with tree := hl.tree.modifyTop hf rfl ?_ }
    have hbal := hl.tree.balanced f (List.mem_of_getElem? hf)
    simpa [TaskFrame.Balanced, TaskFrame.pending, TaskFrame.moveTo, hp] using hbal
  · exact (List.getElem?_modify_eq ..).trans (by rw [hf]; rfl)

/-- `co_await` of a Task that has not started. -/
theorem Sound.awaitReady (h : Holds root s (.worker i (.inBody (top stack)))) (hl : Live s stack m)
    (hf : s.frames[top stack]? = some f) (hp : f.point = .running b) (hclean : f.Clean) {u : ℕ}
    {body : σ} (hu : m.tasks[u]? = some (.ready body)) (rest : Completion V E → σ) :
    Sound root (s.awaitTask P i (top stack) u rest)
      ⟨.body body, (u, rest) :: stack, m.set u .running⟩ := by
  obtain ⟨f', hf', hm⟩ := hl.tree.exists_frame hu
  subst hm
  have hne : top stack ≠ u := fun e => hl.tree.notMem_chain hu nofun (e ▸ List.mem_cons_self ..)
  have hbal := hl.tree.balanced f (List.mem_of_getElem? hf)
  have htop : (s.frames.modify (top stack) (.suspend (.taskAwaiter u rest)))[top stack]? =
      some (f.suspend (.taskAwaiter u rest)) := (List.getElem?_modify_eq ..).trans (by rw [hf]; rfl)
  have htree := (hl.tree.modifyTop hf rfl (by
    simpa [TaskFrame.Balanced, TaskFrame.pending, TaskFrame.suspend, hp] using hbal)).enter hu htop
      rfl hclean
  simp only [Process.awaitTask, hf', Option.map_some, TaskFrame.new]
  refine ⟨.worker i (.resuming (.task u)), h.goOn rfl rfl rfl rfl rfl,
    .resuming (f := (TaskFrame.new body).setContinuation (.task (top stack)))
      (show Live _ ((u, rest) :: stack) (m.set u .running) from ?_) ?_ (.inl rfl) ⟨rfl, rfl⟩⟩
  · exact ⟨hl.called, hl.terminated, hl.asyncTask, hl.trace, htree⟩
  · have hcallee := (List.getElem?_modify_ne (.suspend (.taskAwaiter u rest)) s.frames hne).trans hf'
    exact (List.getElem?_modify_eq ..).trans (congrArg (Option.map _) hcallee)

/-- `co_await` of a Task that has finished. -/
theorem Sound.awaitFinished (h : Holds root s (.worker i (.inBody (top stack))))
    (hl : Live s stack m) (hf : s.frames[top stack]? = some f) (hp : f.point = .running b)
    (hclean : f.Clean) {u : ℕ} (hu : m.tasks[u]? = some (.finished r))
    (rest : Completion V E → σ) :
    Sound root (s.awaitTask P i (top stack) u rest) ⟨.body (rest r), stack, P.awaited m u r⟩ := by
  obtain ⟨f', hf', hp', hr⟩ := hl.tree.exists_frame hu
  have hchain := hl.tree.notMem_chain hu nofun
  simp only [Process.awaitTask, hf', Option.map_some, hp', awaitResume_eq hf' hp' hr]
  refine Sound.runOn h (f := f) ⟨hl.called, hl.terminated, hl.asyncTask, ?_, ?_⟩ ?_ hp hclean rfl
    rfl rfl rfl rfl
  · exact congrArg (· ++ [_]) hl.trace
  · refine hl.tree.modifyOther hchain hf' ?_ nofun ?_
    · exact (hl.tree.balanced f' (List.mem_of_getElem? hf')).take P
    · exact ⟨by rw [TaskFrame.take_point, hp'], TaskFrame.result_take hr⟩
  · refine (List.getElem?_modify_ne _ _ ?_).trans hf
    exact fun e => hchain (e ▸ List.mem_cons_self ..)

/-- The destructor of a Task that has not started or has finished. -/
theorem Sound.drop (h : Holds root s (.worker i (.inBody (top stack)))) (hl : Live s stack m)
    (hf : s.frames[top stack]? = some f) (hp : f.point = .running b) (hclean : f.Clean) {u : ℕ}
    {d : Deferred σ V E} (hu : m.tasks[u]? = some d)
    (hd : (∃ body, d = .ready body) ∨ ∃ r, d = .finished r) (b' : σ) :
    Sound root ((s.destroy u).modifyFrame (top stack) (.moveTo (.running b')))
      ⟨.body b', stack, m.set u .dropped⟩ := by
  obtain ⟨f', hf', hm⟩ := hl.tree.exists_frame hu
  have hbal := hl.tree.balanced f' (List.mem_of_getElem? hf')
  have hchain : u ∉ chain stack := by
    refine hl.tree.notMem_chain hu ?_
    rcases hd with ⟨body, rfl⟩ | ⟨r, rfl⟩ <;> nofun
  -- the coroutine is suspended, before its body or after it
  have hdestroy : s.destroy u = s.modifyFrame u (.moveTo .destroyed) ∧ f'.pending = 0 := by
    rcases hd with ⟨body, rfl⟩ | ⟨r, rfl⟩
    · subst hm
      simp [Process.destroy, hf', TaskFrame.new, TaskFrame.pending]
    · simp [Process.destroy, hf', hm.1, TaskFrame.pending]
  rw [hdestroy.1]
  refine Sound.runOn h (f := f) { hl with tree := ?_ } ?_ hp hclean rfl rfl rfl rfl rfl
  · refine hl.tree.modifyOther hchain hf' ?_ nofun rfl
    exact hbal.eq hdestroy.2
  · refine (List.getElem?_modify_ne _ _ ?_).trans hf
    exact fun e => hchain (e ▸ List.mem_cons_self ..)

/-- The body on top ends with a result. -/
theorem Sound.finalSuspend (h : Holds root s (.worker i (.inBody (top stack))))
    (hl : Live s stack m) (hf : s.frames[top stack]? = some f) (hp : f.point = .running b)
    {g : TaskFrame σ V E → TaskFrame σ V E} (hpoint : (g f).point = .finalSuspend)
    (hcont : (g f).continuation = f.continuation)
    (hbal : (g f).suspensions = f.suspensions ∧ (g f).resumptions = f.resumptions)
    (hr : (g f).result = some r) :
    Sound root (s.finalSuspend i (top stack) g) ⟨.done r, stack, m⟩ := by
  simp only [Process.finalSuspend, hf]
  have hfr : (s.frames.modify (top stack) g)[top stack]? = some (g f) :=
    (List.getElem?_modify_eq ..).trans (by rw [hf]; rfl)
  refine ⟨_, h.goOn rfl rfl rfl rfl (hcont ▸ rfl), .returning { hl with tree := ?_ } hfr hpoint hr⟩
  refine hl.tree.modifyTop hf hcont ?_
  have := hl.tree.balanced f (List.mem_of_getElem? hf)
  rw [TaskFrame.Balanced, hbal.1, hbal.2]
  simpa [TaskFrame.Balanced, TaskFrame.pending, hp, hpoint] using this

/-- `co_await sleepCoro(..)`: the coroutine is handed over to the timer thread. -/
theorem Sound.sleep (h : Holds root s (.worker i (.inBody (top stack)))) (hl : Live s stack m)
    (hf : s.frames[top stack]? = some f) (hp : f.point = .running b) (hclean : f.Clean) {ms : ℤ}
    {timers : Scheduler (CoroutineJob σ)}
    (hs : s.timers.step (.executeAfter i (timerDelay ms) (some (.resume (.task (top stack))))) =
      some timers) (b' : σ) :
    Sound root ((({ s with timers }.modifyFrame (top stack) (.suspend (.timerAwaiter b'))).emit
      (.slept ms)).setActivity i .inTimer) ⟨.body b', stack, m.emit (.slept ms)⟩ := by
  obtain ⟨hacc, howes⟩ := h.accounts.sleep h.owes hs
  refine ⟨.job (.resume (.task (top stack))),
    ⟨h.faulted, hacc, howes, h.active.2.release rfl,
      (List.length_set ..).trans h.activities_length⟩,
    .sleeping (f := f.suspend (.timerAwaiter b'))
      ⟨hl.called, hl.terminated, hl.asyncTask, congrArg (· ++ [_]) hl.trace, ?_⟩ ?_ rfl hclean⟩
  · refine hl.tree.modifyTop hf rfl ?_
    have hbal := hl.tree.balanced f (List.mem_of_getElem? hf)
    simpa [TaskFrame.Balanced, TaskFrame.pending, TaskFrame.suspend, hp] using hbal
  · exact (List.getElem?_modify_eq ..).trans (by rw [hf]; rfl)

/-- One step in the body on top. -/
theorem Sound.runBody (h : Holds root s (.worker i (.inBody (top stack)))) (hl : Live s stack m)
    (hf : s.frames[top stack]? = some f) (hp : f.point = .running b) (hclean : f.Clean)
    (hs : s.runBody P i (top stack) b = some s')
    (hc : (P.stepBody stack m b).control ≠ .misuse) : Sound root s' (P.stepBody stack m b) := by
  unfold Process.runBody at hs
  unfold Program.stepBody at hc ⊢
  generalize P.next b = act at hs hc ⊢
  cases act with
  | effect e rest =>
    obtain rfl := Option.some.inj hs
    rw [hl.trace]
    exact Sound.runOn h { hl with trace := congrArg (· ++ [_]) hl.trace } hf hp hclean rfl rfl rfl
      rfl rfl
  | task body rest =>
    obtain rfl := Option.some.inj hs
    rw [hl.tree.length_eq]
    refine Sound.runOn h { hl with tree := hl.tree.push body } ?_ hp hclean rfl rfl rfl rfl rfl
    exact (List.getElem?_append_left (List.getElem?_eq_some_iff.1 hf).1).trans hf
  | drop u rest =>
    obtain rfl := Option.some.inj hs
    dsimp only at hc ⊢
    split at hc
    · next body hu => exact Sound.drop h hl hf hp hclean hu (.inl ⟨body, rfl⟩) rest
    · next r hu => exact Sound.drop h hl hf hp hclean hu (.inr ⟨r, rfl⟩) rest
    · exact absurd rfl hc
  | await u rest =>
    obtain rfl := Option.some.inj hs
    dsimp only at hc ⊢
    split at hc
    · next body hu => exact Sound.awaitReady h hl hf hp hclean hu rest
    · next r hu => exact Sound.awaitFinished h hl hf hp hclean hu rest
    · exact absurd rfl hc
  | sleep ms rest =>
    obtain ⟨timers, ht, rfl⟩ := Option.map_eq_some_iff.1 hs
    exact Sound.sleep h hl hf hp hclean ht rest
  | ret v =>
    obtain rfl := Option.some.inj hs
    refine Sound.finalSuspend h hl hf hp rfl rfl ⟨rfl, rfl⟩ ?_
    simp [TaskFrame.result, TaskFrame.returnValue, hclean.2]
  | throw e =>
    obtain rfl := Option.some.inj hs
    exact Sound.finalSuspend h hl hf hp rfl rfl ⟨rfl, rfl⟩ rfl

/-- The Task on top has ended: its caller goes on with the completion. -/
theorem Sound.leave {rest : Completion V E → σ}
    (h : Holds root s (.worker i (.resuming (.task (top stack))))) (hl : Live s ((t, rest) :: stack) m)
    (hf : s.frames[t]? = some f) (hp : f.point = .finalSuspend) (hr : f.result = some r) :
    Sound root (s.resume P i (.task (top stack))) ⟨.body (rest r), stack, P.awaited m t r⟩ := by
  obtain ⟨-, ⟨caller, hcaller, hpoint, hclean⟩, -⟩ := hl.tree.linked
  have hne : t ≠ top stack := fun e =>
    (List.nodup_cons.1 hl.tree.nodup).1 (e ▸ List.mem_cons_self ..)
  have hcaller' : (s.frames.modify t (.take P))[top stack]? = some caller :=
    (List.getElem?_modify_ne _ _ hne).trans hcaller
  have hbal := hl.tree.balanced caller (List.mem_of_getElem? hcaller)
  have htree := hl.tree.leave hf
    ((hl.tree.balanced f (List.mem_of_getElem? hf)).take P)
    ⟨by rw [TaskFrame.take_point, hp], TaskFrame.result_take hr⟩
  simp only [Process.resume, hcaller, Option.map_some, hpoint, awaitResume_eq hf hp hr]
  refine ⟨.worker i (.inBody (top stack)), h.goOn rfl rfl rfl rfl rfl,
    .running (f := caller.resume (.running (rest r)))
      (show Live _ stack (P.awaited m t r) from ?_) ?_ rfl hclean⟩
  · refine ⟨hl.called, hl.terminated, hl.asyncTask, congrArg (· ++ [_]) hl.trace,
      htree.modifyTop hcaller' rfl ?_⟩
    simpa [TaskFrame.Balanced, TaskFrame.pending, TaskFrame.resume, hpoint] using hbal
  · exact (List.getElem?_modify_eq ..).trans (congrArg (Option.map _) hcaller')

/-- The root has ended: the functor completes, or the process is terminated. -/
theorem Sound.rootEnds (h : Holds root s (.worker i (.resuming .asyncTask))) (hl : Live s [] m)
    (hf : s.frames[0]? = some f) (hp : f.point = .finalSuspend) (hr : f.result = some r) :
    Sound root (s.resume P i .asyncTask) ⟨.done r, [], m⟩ := by
  have hresume := awaitResume_eq (P := P) hf hp hr
  have hfr : (s.frames.modify 0 (.take P))[0]? = some (f.take P) :=
    (List.getElem?_modify_eq ..).trans (by rw [hf]; rfl)
  have htake := (hl.tree.balanced f (List.mem_of_getElem? hf)).take P
  have htree := hl.tree.modifyTop hf (TaskFrame.take_continuation P f) htake
  have hbal : ((f.take P).moveTo .destroyed).Balanced :=
    htake.eq (by rw [TaskFrame.pending, TaskFrame.take_point, hp])
  have hdropped : ((f.take P).moveTo .destroyed).Matches .dropped := rfl
  cases r with
  | value v =>
    have hdestroy : ((s.modifyFrame 0 (.take P)).emit (.awaited 0 (.value v))).destroy 0 =
        ((s.modifyFrame 0 (.take P)).emit (.awaited 0 (.value v))).modifyFrame 0
          (.moveTo .destroyed) := by
      simp only [Process.destroy, Process.emit, Process.modifyFrame, hfr, Option.map_some,
        TaskFrame.take_point, hp]
    simp only [Process.resume, hl.asyncTask, hresume]
    rw [hdestroy]
    refine ⟨.nobody, ⟨h.faulted, h.accounts, h.owes, h.active.2.release rfl,
        (List.length_set ..).trans h.activities_length⟩,
      .completed hl.called hl.terminated rfl (congrArg (· ++ [_]) hl.trace) ?_ ?_ ?_⟩
    · rw [← hl.tree.length_eq]
      exact (List.length_modify ..).trans (List.length_modify ..)
    · exact htree.balanced_modify hfr hbal
    · intro t f' d hf' hd
      exact ⟨htree.agrees_modify hfr hdropped t f' d hf' hd, htree.close hd⟩
  | exception e =>
    simp only [Process.resume, hl.asyncTask, hresume]
    exact ⟨.worker i (.resuming .asyncTask), h.stay rfl rfl rfl rfl rfl,
      .terminated rfl (show s.asyncTask ≠ .destroyed by rw [hl.asyncTask]; nofun)⟩

/-! ## Every step of the process -/

/-- What a step of the process is, by its label. -/
inductive Process.Moves (P : Program σ Fx V E) (root : σ) (s : Process σ Fx V E) :
    ProcessStep σ → Process σ Fx V E → Prop
  | call {pool : ThreadPool (CoroutineJob σ)} (hc : s.called = false)
    (hpool : s.pool.step (.queueJob 1 (some (.asyncRun root))) = some pool) :
    Moves P root s .call { s with pool, called := true }
  | pool {l : PoolStep (CoroutineJob σ)} {pool : ThreadPool (CoroutineJob σ)}
    (hl : l.internal = true) (hpool : s.pool.step l = some pool) :
    Moves P root s (.pool l) { s with pool }
  | timers {l : SchedulerStep (CoroutineJob σ)} {timers : Scheduler (CoroutineJob σ)}
    (hl : l.internal = true ∨ l = .test)
    (hidle : l = .test → s.pool.producers[(0 : ℕ)]? = some .idle)
    (htimers : s.timers.step l = some timers) : Moves P root s (.timers l) { s with timers }
  | pass {job : ScheduledJob (CoroutineJob σ)} {timers : Scheduler (CoroutineJob σ)}
    {pool : ThreadPool (CoroutineJob σ)} (hjob : s.timers.thread = .popped job)
    (htimers : s.timers.step .pass = some timers)
    (hpool : s.pool.step (.queueJob 0 job.func) = some pool) :
    Moves P root s .pass { s with timers, pool }
  | invoke {i : ℕ} {job : ThreadPoolJob (CoroutineJob σ)} {pool : ThreadPool (CoroutineJob σ)}
    (hw : s.pool.workers[i]? = some (.entered job)) (hpool : s.pool.step (.invoke i) = some pool) :
    Moves P root s (.invoke i)
      { s with pool, activities := s.activities.set i (Activity.ofJob job.func) }
  | execute {i : ℕ} {s' : Process σ Fx V E} (hs : s.execute P i = some s') :
    Moves P root s (.execute i) s'
  | finish {i : ℕ} {outcome : Outcome} {pool : ThreadPool (CoroutineJob σ)}
    (ha : s.activities[i]? = some (.ending outcome))
    (hpool : s.pool.step (.finish i outcome) = some pool) :
    Moves P root s (.finish i) { s with pool, activities := s.activities.set i .idle }

theorem Process.step_cases {l : ProcessStep σ} (hs : s.step P root l = some s') :
    s.terminated = false ∧ s.Moves P root l s' := by
  rw [Process.step] at hs
  split_ifs at hs with hend
  refine ⟨by simpa using (not_or.1 hend).1, ?_⟩
  cases l with
  | call =>
    rw [Process.stepLive] at hs
    split_ifs at hs with hc
    obtain ⟨pool, hpool, rfl⟩ := Option.map_eq_some_iff.1 hs
    exact .call (by simpa using hc) hpool
  | pool l =>
    rw [Process.stepLive] at hs
    split_ifs at hs with hl
    obtain ⟨pool, hpool, rfl⟩ := Option.map_eq_some_iff.1 hs
    exact .pool hl hpool
  | timers l =>
    cases l with
    | test =>
      simp only [Process.stepLive] at hs
      split at hs
      · next hidle =>
        obtain ⟨timers, htimers, rfl⟩ := Option.map_eq_some_iff.1 hs
        exact .timers (.inr rfl) (fun _ => hidle) htimers
      · cases hs
    | _ =>
      simp only [Process.stepLive] at hs
      split_ifs at hs with hl
      obtain ⟨timers, htimers, rfl⟩ := Option.map_eq_some_iff.1 hs
      exact .timers (.inl hl) nofun htimers
  | pass =>
    rw [Process.stepLive] at hs
    split at hs
    · next job hjob =>
      obtain ⟨timers, htimers, hs⟩ := Option.bind_eq_some_iff.1 hs
      obtain ⟨pool, hpool, rfl⟩ := Option.map_eq_some_iff.1 hs
      exact .pass hjob htimers hpool
    · cases hs
  | invoke i =>
    rw [Process.stepLive] at hs
    split at hs
    · next job hw =>
      obtain ⟨pool, hpool, rfl⟩ := Option.map_eq_some_iff.1 hs
      exact .invoke hw hpool
    · cases hs
  | execute i => exact .execute hs
  | finish i =>
    rw [Process.stepLive] at hs
    split at hs
    · next outcome ha =>
      obtain ⟨pool, hpool, rfl⟩ := Option.map_eq_some_iff.1 hs
      exact .finish ha hpool
    · cases hs

variable {holder : Holder σ}

/-- The worker that carries the execution on is not passive. -/
theorem Phase.not_passive {a : Activity σ} (h : Phase root s (.worker i a) c) :
    a.passive = false := by
  cases h <;> rfl

/-- A worker that is not passive carries the execution on. -/
theorem Holds.eq_worker (h : Holds root s holder) {a : Activity σ} (ha : s.activities[i]? = some a)
    (hp : a.passive = false) : holder = .worker i a := by
  have hquiet : ∀ k, some i ≠ k → ¬ Quiet s.activities k := fun k hk hq => by
    have := hq i a ha hk
    rw [hp] at this
    cases this
  cases holder with
  | nobody => exact absurd h.active (hquiet none nofun)
  | job j => exact absurd h.active (hquiet none nofun)
  | worker k b =>
    by_cases hk : k = i
    · subst hk
      have := h.active.1.symm.trans ha
      cases this
      rfl
    · exact absurd h.active.2 (hquiet (some k) fun e => hk (Option.some.inj e).symm)

/-- A passive worker takes another passive activity. -/
theorem Sound.setPassive (h : Holds root s holder) (hp : Phase root s holder c) {a a' : Activity σ}
    (ha : s.activities[i]? = some a) (hpass : a.passive = true) (hpass' : a'.passive = true) :
    holder.Active (s.activities.set i a') := by
  have hactive := h.active
  cases holder with
  | nobody => exact hactive.set i hpass'
  | job j => exact hactive.set i hpass'
  | worker k b =>
    have hk : i ≠ k := by
      rintro rfl
      have hb := hp.not_passive
      rw [Option.some.inj (hactive.1.symm.trans ha), hpass] at hb
      cases hb
    exact ⟨(List.getElem?_set_ne hk).trans hactive.1, hactive.2.set i hpass'⟩

/-- A step inside `std::invoke`. -/
theorem Sound.execute (h : Sound root s c) (hs : s.execute P i = some s')
    (hterm : s.terminated = false) (hc : (P.step c).control ≠ .misuse) :
    Sound root s' c ∨ Sound root s' (P.step c) := by
  obtain ⟨holder, hh, hp⟩ := h
  unfold Process.execute at hs
  split at hs
  · next coro ha =>
    obtain rfl := Option.some.inj hs
    obtain rfl := hh.eq_worker ha rfl
    cases hp with
    | starting hcalled hn => exact .inl (Sound.asyncRun hh (.starting hcalled hn))
  · next handle ha =>
    obtain rfl := Option.some.inj hs
    obtain rfl := hh.eq_worker ha rfl
    cases hp with
    | resuming hl hf hp hclean => exact .inl (Sound.resumeTop hh hl hf hp hclean)
    | @returning _ r stack m f hl hf hp hr =>
      cases stack with
      | nil =>
        obtain ⟨f', hf', hcont⟩ := hl.tree.linked
        cases hf.symm.trans hf'
        rw [hcont] at hh ⊢
        exact .inl (Sound.rootEnds hh hl hf hp hr)
      | cons entry stack =>
        obtain ⟨t, rest⟩ := entry
        obtain ⟨f', hf', hcont⟩ := hl.tree.linked.1
        cases hf.symm.trans hf'
        rw [hcont] at hh ⊢
        exact .inr (Sound.leave hh hl hf hp hr)
    | terminated ht => rw [ht] at hterm; cases hterm
  · next t ha =>
    obtain rfl := hh.eq_worker ha rfl
    cases hp with
    | running hl hf hp hclean =>
      simp only [hf, Option.map_some, hp] at hs
      exact .inr (Sound.runBody hh hl hf hp hclean hs hc)
  · next ha =>
    split at hs
    · obtain rfl := Option.some.inj hs
      exact .inl ⟨holder, ⟨hh.faulted, hh.accounts, hh.owes, Sound.setPassive hh hp ha rfl rfl,
        (List.length_set ..).trans hh.activities_length⟩, hp.congr rfl rfl rfl rfl rfl⟩
    · cases hs
  · cases hs

/-- `async_run(root)` is queued. -/
theorem Sound.call (h : Holds root s holder) (hp : Phase root s holder c) (hc : s.called = false)
    (hterm : s.terminated = false) {pool : ThreadPool (CoroutineJob σ)}
    (hs : s.pool.step (.queueJob 1 (some (.asyncRun root))) = some pool) :
    Sound root { s with pool, called := true } c := by
  cases hp with
  | fresh _ hn =>
    obtain ⟨hacc, howes⟩ := (hc ▸ h.accounts).call (hc ▸ h.owes) hs
    exact ⟨.job (.asyncRun root), ⟨h.faulted, hacc, howes, h.active, h.width hs⟩,
      .queued rfl ⟨hn.terminated, hn.frames, hn.asyncTask, hn.trace⟩⟩
  | queued hcalled | starting hcalled | completed hcalled =>
    rw [hc] at hcalled
    cases hcalled
  | running hl | resuming hl | sleeping hl | returning hl =>
    have hcalled := hl.called
    rw [hc] at hcalled
    cases hcalled
  | terminated ht =>
    rw [ht] at hterm
    cases hterm

/-- A worker invokes the job that carries the execution on. -/
theorem Sound.invoke (h : Holds root s holder) (hp : Phase root s holder c)
    {job : ThreadPoolJob (CoroutineJob σ)} (hw : s.pool.workers[i]? = some (.entered job))
    {pool : ThreadPool (CoroutineJob σ)} (hs : s.pool.step (.invoke i) = some pool) :
    Sound root { s with pool, activities := s.activities.set i (Activity.ofJob job.func) } c := by
  obtain ⟨hacc, hmem, howes⟩ := h.accounts.invoke h.owes hw hs
  obtain ⟨j, rfl, hj⟩ : ∃ j, holder = .job j ∧ job.func = some j := by
    cases holder with
    | job j => exact ⟨j, rfl, List.mem_singleton.1 hmem⟩
    | nobody | worker => cases hmem
  have hlt : i < s.activities.length := by
    rw [h.activities_length, ← h.accounts.conserved.workers_length]
    exact (List.getElem?_eq_some_iff.1 hw).1
  have hholds : ∀ a, Activity.ofJob job.func = a → Holds root
      { s with pool, activities := s.activities.set i (Activity.ofJob job.func) }
      (.worker i a) := fun a ha =>
    ⟨h.faulted, hacc, howes j [] rfl hj,
      ⟨ha ▸ List.getElem?_set_self hlt, (Quiet.mono h.active i).setActive _⟩,
      (List.length_set ..).trans (h.width hs)⟩
  cases hp with
  | queued hcalled hn =>
    exact ⟨_, hholds (.starting root) (by rw [hj]; rfl),
      .starting hcalled ⟨hn.terminated, hn.frames, hn.asyncTask, hn.trace⟩⟩
  | sleeping hl hf hp hclean =>
    exact ⟨_, hholds (.resuming (.task _)) (by rw [hj]; rfl),
      .resuming ⟨hl.called, hl.terminated, hl.asyncTask, hl.trace, hl.tree⟩ hf (.inr hp) hclean⟩

/-- Every step of the process stays at the configuration of the plain execution, or goes on to the
next one. -/
theorem Sound.step {l : ProcessStep σ} (h : Sound root s c) (hs : s.step P root l = some s')
    (hc : (P.step c).control ≠ .misuse) : Sound root s' c ∨ Sound root s' (P.step c) := by
  obtain ⟨hterm, hmoves⟩ := Process.step_cases hs
  have hsound := h
  obtain ⟨holder, hh, hp⟩ := h
  cases hmoves with
  | call hcalled hpool => exact .inl (Sound.call hh hp hcalled hterm hpool)
  | pool hl hpool =>
    obtain ⟨hacc, howes⟩ := hh.accounts.poolStep hh.owes hl hpool
    exact .inl ⟨holder, ⟨hh.faulted, hacc, howes, hh.active, hh.width hpool⟩,
      hp.congr rfl rfl rfl rfl rfl⟩
  | timers hl _ htimers =>
    obtain ⟨hacc, howes⟩ := hh.accounts.timersStep hh.owes hl htimers
    exact .inl ⟨holder, ⟨hh.faulted, hacc, howes, hh.active, hh.activities_length⟩,
      hp.congr rfl rfl rfl rfl rfl⟩
  | pass hjob htimers hpool =>
    obtain ⟨hacc, howes⟩ := hh.accounts.pass hh.owes hjob htimers hpool
    exact .inl ⟨holder, ⟨hh.faulted, hacc, howes, hh.active, hh.width hpool⟩,
      hp.congr rfl rfl rfl rfl rfl⟩
  | invoke hw hpool => exact .inl (Sound.invoke hh hp hw hpool)
  | execute hexecute => exact Sound.execute hsound hexecute hterm hc
  | finish ha hpool =>
    obtain ⟨hacc, howes⟩ := hh.accounts.finish hh.owes hpool
    exact .inl ⟨holder, ⟨hh.faulted, hacc, howes, Sound.setPassive hh hp ha rfl rfl,
      (List.length_set ..).trans (hh.width hpool)⟩, hp.congr rfl rfl rfl rfl rfl⟩

end

/-! ## How far the coroutine is -/

/-- The functor has completed with the root's result `v`, and the frames are as the plain execution
left its Tasks in `m`. -/
structure Completed (s : Process σ Fx V E) (v : V) (m : Memory σ Fx V E) : Prop where
  terminated : s.terminated = false
  asyncTask : s.asyncTask = .destroyed
  trace : s.trace = m.trace ++ [.awaited 0 (.value v)]
  length_eq : s.frames.length = m.tasks.length
  balanced : ∀ f ∈ s.frames, f.Balanced
  agrees : ∀ (t : ℕ) (f : TaskFrame σ V E) (d : Deferred σ V E), s.frames[t]? = some f →
    (m.tasks.set 0 .dropped)[t]? = some d → f.Matches d ∧ d ≠ .running

/-- The root has not started, has not come back to the functor, has returned or has thrown. -/
theorem Sound.cases {root : σ} {s : Process σ Fx V E} {c : Config σ Fx V E} (h : Sound root s c) :
    (NotStarted s ∧ c = .start root) ∨ (∃ stack, Live s stack c.memory) ∨
    (∃ v m, c = ⟨.done (.value v), [], m⟩ ∧ Completed s v m) ∨
    ∃ e m, c = ⟨.done (.exception e), [], m⟩ ∧ s.terminated = true ∧
      s.asyncTask ≠ .destroyed := by
  obtain ⟨holder, -, hp⟩ := h
  cases hp with
  | fresh _ hn | queued _ hn | starting _ hn => exact .inl ⟨hn, rfl⟩
  | running hl | resuming hl | sleeping hl | returning hl => exact .inr (.inl ⟨_, hl⟩)
  | completed _ hterm hasync htrace hlen hbalanced hagrees =>
    exact .inr (.inr (.inl ⟨_, _, rfl, hterm, hasync, htrace, hlen, hbalanced, hagrees⟩))
  | terminated hterm hasync => exact .inr (.inr (.inr ⟨_, _, rfl, hterm, hasync⟩))

/-! ## Every run of the process -/

variable {P : Program σ Fx V E} {root : σ} {s : Process σ Fx V E} {n nextQueue : BitVec 64}
  {clock : TimePoint}

theorem sound_new (hn : 0 < n.toNat) (root : σ) :
    Sound root (.new n nextQueue clock : Process σ Fx V E) (.start root) := by
  refine ⟨.nobody, ⟨rfl, accounts_new hn, .refl [], ?_, List.length_replicate⟩,
    .fresh rfl ⟨rfl, rfl, rfl, rfl⟩⟩
  intro k a ha _
  rw [List.eq_of_mem_replicate (List.mem_of_getElem? ha)]
  rfl

/-- Whatever the threads do, the process is at a configuration that the plain execution reaches. -/
theorem sound_of_reachable (hn : 0 < n.toNat) (hw : P.WellUsed root)
    (h : Reachable (Process.step P root) (.new n nextQueue clock) s) :
    ∃ k, Sound root s (P.after root k) := by
  refine h.invariant (P := fun s => ∃ k, Sound root s (P.after root k)) ?_ ⟨0, sound_new hn root⟩
  rintro s l s' ⟨k, hk⟩ hs
  have hnext := Program.after_succ P root k
  rcases hk.step hs (hnext ▸ hw.control_ne (k + 1)) with h' | h'
  · exact ⟨k, h'⟩
  · exact ⟨k + 1, hnext ▸ h'⟩

end EllohimMQ
