import EllohimMQ.Proof.PoolJobs

/-!
# The branch of `run` that steals

A worker waits until its own deque is not empty or the pool accepts no more jobs.  When it gets past
the wait it leaves the loop in the second case, and in the first it takes a job of its own; so the
branch after these two, which looks for a victim, is never entered.  A worker whose deque is empty
goes round its wait for as long as nobody puts a job there, however long the other deques are.
-/

namespace EllohimMQ

open Transition

variable {F : Type}

/-- The worker that takes the step. -/
def PoolStep.worker : PoolStep F → Option ℕ
  | .lock i => some i
  | .wake i => some i
  | .enter i => some i
  | .invoke i => some i
  | .finish i _ => some i
  | .leave i => some i
  | _ => none

namespace ThreadPool

/-- Between the two states worker `i` has taken the back job of another deque with at least four. -/
def Steals (s s' : ThreadPool F) (i : ℕ) : Prop :=
  ∃ v job, v ≠ i ∧ 4 ≤ (s.jobStack.getD v []).length ∧
    (s.jobStack.getD v []).getLast? = some job ∧
    s'.jobStack.getD v [] = (s.jobStack.getD v []).dropLast ∧ s'.workers[i]? = some (.holding job)

/-- A schedule of the threads in which worker `i` gets past its wait and steals. -/
def CanSteal (s : ThreadPool F) (i : ℕ) : Prop :=
  ∃ ls s₁ s₂, run step s ls = some s₁ ∧ s₁.step (.lock i) = some s₂ ∧ s₁.Steals s₂ i

/-- The pool has two workers or more and accepts jobs; worker `i` holds no job and has none in its
own deque, while another deque has at least four. -/
structure Starved (s : ThreadPool F) (i : ℕ) : Prop where
  workers : 2 ≤ s.workers.length
  acceptJobs : s.acceptJobs = true
  idle : ∃ w, s.workers[i]? = some w ∧ w.held = []
  own : s.jobStack.getD i [] = []
  other : ∃ v, v ≠ i ∧ 4 ≤ (s.jobStack.getD v []).length

theorem getD_set_ne {α : Type} (l : List α) {i v : ℕ} (a d : α) (h : v ≠ i) :
    (l.set i a).getD v d = l.getD v d := by
  rw [List.getD_eq_getElem?_getD, List.getD_eq_getElem?_getD, List.getElem?_set_ne (Ne.symm h)]

/-- The section of a worker touches no deque but its own. -/
theorem lock_jobStack (s : ThreadPool F) {i v : ℕ} (h : v ≠ i) :
    (s.lock i).jobStack.getD v [] = s.jobStack.getD v [] := by
  unfold lock
  split_ifs with hwait haccept
  · rfl
  · rfl
  · rcases hown : s.jobStack.getD i [] with _ | ⟨job, jobs⟩
    · exact absurd ⟨hown, Bool.eq_true_of_not_eq_false haccept⟩ hwait
    · have htake : s.takeJob i = (some job, s.jobStack.set i jobs) := by
        simp only [takeJob, hown]
      simp only [htake]
      exact getD_set_ne _ _ _ h

theorem not_steals_lock (s : ThreadPool F) (i : ℕ) : ¬ s.Steals (s.lock i) i := by
  rintro ⟨v, job, hv, hlen, -, htaken, -⟩
  rw [lock_jobStack s hv] at htaken
  have hlength := congrArg List.length htaken
  rw [List.length_dropLast] at hlength
  omega

/-- No schedule makes a worker steal. -/
theorem not_canSteal (s : ThreadPool F) (i : ℕ) : ¬ s.CanSteal i := by
  rintro ⟨ls, s₁, s₂, -, hs, hsteals⟩
  cases step_cases hs with
  | lock hw => exact not_steals_lock s₁ i hsteals

/-- Where a starved worker stays as long as only it moves: without a job, the deques as they are. -/
structure Looping (s₀ : ThreadPool F) (i : ℕ) (s : ThreadPool F) : Prop where
  acceptJobs : s.acceptJobs = true
  jobStack : s.jobStack = s₀.jobStack
  idle : ∃ w, s.workers[i]? = some w ∧ w.held = []

theorem Looping.step {s₀ s s' : ThreadPool F} {i : ℕ} (hown : s₀.jobStack.getD i [] = [])
    (h : Looping s₀ i s) {l : PoolStep F} (hl : l.worker = some i) (hs : s.step l = some s') :
    Looping s₀ i s' := by
  obtain ⟨w, hw, hheld⟩ := h.idle
  have hset : ∀ w' : Worker F, (s.workers.set i w')[i]? = some w' := by
    obtain ⟨hi, -⟩ := List.getElem?_eq_some_iff.1 hw
    intro w'
    simp [hi]
  cases step_cases hs with
  | queueJob | push | notify | destroyStop | destroyNotify | destroyClear => cases hl
  | @lock j hw' =>
    obtain rfl : j = i := Option.some.inj hl
    have hwait : s.lock j = { s with workers := s.workers.set j .asleep } := by
      rw [lock, if_pos ⟨h.jobStack ▸ hown, h.acceptJobs⟩]
    rw [hwait]
    exact ⟨h.acceptJobs, h.jobStack, _, hset .asleep, rfl⟩
  | enter hw' | invoke hw' | finish _ hw' =>
    -- these need a job in its hands
    obtain rfl := Option.some.inj hl
    obtain rfl := Option.some.inj (hw.symm.trans hw')
    cases hheld
  | wake hw' | leave hw' =>
    obtain rfl := Option.some.inj hl
    exact ⟨h.acceptJobs, h.jobStack, _, hset .ready, rfl⟩

/-- In every state in which an idle worker should steal, no schedule of the threads makes it steal;
and by its own steps it gets no job at all and leaves every deque as it is. -/
theorem stealing_never {s : ThreadPool F} {i : ℕ} (h : s.Starved i) :
    ¬ s.CanSteal i ∧
    ∀ ls s', (∀ l ∈ ls, PoolStep.worker l = some i) → run step s ls = some s' →
      s'.jobStack = s.jobStack ∧ ∃ w, s'.workers[i]? = some w ∧ w.held = [] := by
  refine ⟨s.not_canSteal i, fun ls s' hls hrun => ?_⟩
  have hloop : Looping s i s' := by
    induction ls using List.reverseRecOn generalizing s' with
    | nil => exact Option.some.inj hrun ▸ ⟨h.acceptJobs, rfl, h.idle⟩
    | append_singleton ls l ih =>
      obtain ⟨s₁, hs₁, hl⟩ := run_concat_eq_some_iff.1 hrun
      exact (ih s₁ (fun l' hl' => hls l' (by simp [hl'])) hs₁).step h.own (hls l (by simp)) hl
  exact ⟨hloop.jobStack, hloop.idle⟩

/-- The steps of one caller that queues a job. -/
def queueing : List (PoolStep Unit) := [.queueJob 0 (some ()), .push 0, .notify 0]

/-- The steps of a worker that takes a job and executes it. -/
def working (i : ℕ) : List (PoolStep Unit) :=
  [.lock i, .enter i, .invoke i, .finish i .returned, .leave i]

/-- Ten jobs for two workers: worker 1 starts the first of its five, worker 0 does all of its own and
goes back to its wait. -/
def piledUp : List (PoolStep Unit) :=
  (List.replicate 10 queueing).flatten ++ [.lock 1, .enter 1, .invoke 1] ++
    (List.replicate 5 (working 0)).flatten ++ [.lock 0]

theorem starved_piledUp : ∃ s : ThreadPool Unit, run step (new 2 0 1) piledUp = some s ∧
    s.Starved 0 := by
  obtain ⟨s, hs, hview⟩ := Option.map_eq_some_iff.1 (show
    (run step (new 2 0 1 : ThreadPool Unit) piledUp).map (fun s => (s.acceptJobs,
      s.workers.length, s.workers[0]?, s.jobStack.getD 0 [], (s.jobStack.getD 1 []).length)) =
        some (true, 2, some .asleep, [], 4) by rfl)
  simp only [Prod.mk.injEq] at hview
  obtain ⟨haccept, hworkers, hasleep, hown, hother⟩ := hview
  exact ⟨s, hs, hworkers.ge, haccept, ⟨_, hasleep, rfl⟩, hown, 1, by decide, hother.ge⟩

/-- Worker 0 cannot get a job by itself. -/
theorem stealing_never_piledUp :
    ∃ s : ThreadPool Unit, run step (new 2 0 1) piledUp = some s ∧
      ∀ ls s', (∀ l ∈ ls, PoolStep.worker l = some 0) → run step s ls = some s' →
        s'.jobStack = s.jobStack := by
  obtain ⟨s, hs, hstarved⟩ := starved_piledUp
  exact ⟨s, hs, fun ls s' hls hrun => ((stealing_never hstarved).2 ls s' hls hrun).1⟩

/-- Four jobs wait behind worker 1 and its long job; worker 0 sleeps and never takes one of them. -/
theorem not_stolen :
    ∃ s : ThreadPool Unit, run step (new 2 0 1) piledUp = some s ∧ s.Starved 0 ∧
      ¬ s.CanSteal 0 := by
  obtain ⟨s, hs, hstarved⟩ := starved_piledUp
  exact ⟨s, hs, hstarved, s.not_canSteal 0⟩

end ThreadPool

end EllohimMQ
