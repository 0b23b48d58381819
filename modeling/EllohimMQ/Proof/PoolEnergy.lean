import EllohimMQ.Lib.Progress
import EllohimMQ.Proof.PoolJobs

/-!
# The pool comes to rest

Every step of a worker, of a caller of `queue_job` past its beginning, and of `destroy` uses up
energy; only a new call of `queue_job` and a spurious wake-up supply some.  A notification wakes every
sleeper, and each of them may look at its deque in vain and go back to sleep, so a call has to pay for
all the workers.  `length_le` counts the steps of a run, through the end of `destroy`: the workers
never spin.
-/

namespace EllohimMQ

open Transition

variable {F : Type}

/-! ## Energy -/

/-- The steps that a worker has left before it sleeps or has exited, a new job apart. -/
def Worker.energy : Worker F → ℕ
  | .asleep => 0
  | .exited => 0
  | .ready => 1
  | .leaving => 2
  | .executing _ => 3
  | .entered _ => 4
  | .holding _ => 5

/-- Each of the `n` workers may wake up when the caller notifies. -/
def Producer.energy (n : ℕ) : Producer F → ℕ
  | .idle => 0
  | .faulted => 0
  | .pushed => n + 1
  | .indexed _ _ => n + 7

/-- The steps of `destroy` that are left; the notification may wake each of the `n` workers. -/
def Destroyer.energy (n : ℕ) : Destroyer → ℕ
  | .notCalled => n + 3
  | .stopped => n + 2
  | .joining => 1
  | .cleared => 0

/-- The beginning of a call of `queue_job`. -/
def PoolStep.calls : PoolStep F → Bool
  | .queueJob _ _ => true
  | _ => false

/-- A wake-up without a notification. -/
def PoolStep.wakes : PoolStep F → Bool
  | .wake _ => true
  | _ => false

/-- A step of `destroy`. -/
def PoolStep.destroys : PoolStep F → Bool
  | .destroyStop => true
  | .destroyNotify => true
  | .destroyClear => true
  | _ => false

/-- A step that a thread takes because of where it is: what it has begun goes on. -/
def PoolStep.proceeds (l : PoolStep F) : Bool := !l.calls && !l.wakes && !l.destroys

/-- The steps that the threads of a pool take of their own accord. -/
def ThreadPool.Proceeds (_ : ThreadPool F) (l : PoolStep F) : Prop := l.proceeds = true

namespace ThreadPool

variable {s s' : ThreadPool F} {l : PoolStep F} {n : ℕ}

/-- The steps that the threads have left, new calls and wake-ups for nothing apart. -/
def energy (n : ℕ) (s : ThreadPool F) : ℕ :=
  (s.workers.map Worker.energy).sum + (s.producers.map (Producer.energy n)).sum +
    5 * s.jobStack.flatten.length + s.destroyer.energy n

/-- The section of a worker that has the lock: it sleeps, leaves the loop, or takes the front job of
its own deque. -/
theorem lock_cases (s : ThreadPool F) (i : ℕ) :
    (s.acceptJobs = true ∧ s.jobStack.getD i [] = [] ∧
      s.lock i = { s with workers := s.workers.set i .asleep }) ∨
    (s.acceptJobs = false ∧ s.lock i = { s with workers := s.workers.set i .exited }) ∨
    ∃ job jobs, s.acceptJobs = true ∧ s.jobStack[i]? = some (job :: jobs) ∧
      s.lock i = { s with
        jobStack := s.jobStack.set i jobs
        workers := s.workers.set i (.holding job) } := by
  by_cases haccept : s.acceptJobs = false
  · exact .inr (.inl ⟨haccept, by simp [lock, haccept]⟩)
  rw [Bool.not_eq_false] at haccept
  rcases hown : s.jobStack.getD i [] with _ | ⟨job, jobs⟩
  · exact .inl ⟨haccept, rfl, by rw [lock, if_pos ⟨hown, haccept⟩]⟩
  · refine .inr (.inr ⟨job, jobs, haccept, ?_, ?_⟩)
    · rcases hjobs : s.jobStack[i]? with _ | jobs'
      · simp [List.getD_eq_getElem?_getD, hjobs] at hown
      · simpa [List.getD_eq_getElem?_getD, hjobs] using hown
    · have htake : s.takeJob i = (some job, s.jobStack.set i jobs) := by
        simp only [takeJob, hown]
      rw [lock, if_neg (fun h => by rw [hown] at h; cases h.1), if_neg (by simp [haccept]), htake]
      rfl

/-- A notification costs no more than one step of each worker. -/
theorem sum_energy_notifyAll (workers : List (Worker F)) :
    ((notifyAll workers).map Worker.energy).sum ≤
      (workers.map Worker.energy).sum + workers.length := by
  induction workers with
  | nil => simp [notifyAll]
  | cons w workers ih =>
    simp only [notifyAll, List.map_cons, List.sum_cons, List.length_cons] at ih ⊢
    cases w <;> simp only [Worker.energy] <;> omega

/-- A step of one worker with its job. -/
theorem energy_worker {i : ℕ} {w : Worker F} (hw : s.workers[i]? = some w) (w' : Worker F)
    (hlt : w'.energy < w.energy) :
    ((s.workers.set i w').map Worker.energy).sum < (s.workers.map Worker.energy).sum := by
  have := Table.sum_map_set hw w' Worker.energy
  omega

theorem length_flatten_set {jobs : List (ThreadPoolJob F)} {i : ℕ} (h : s.jobStack[i]? = some jobs)
    (jobs' : List (ThreadPoolJob F)) :
    (s.jobStack.set i jobs').flatten.length + jobs.length =
      s.jobStack.flatten.length + jobs'.length := by
  have := Table.sum_map_set h jobs' List.length
  simpa [List.length_flatten] using this

theorem energy_lock {i : ℕ} (hw : s.workers[i]? = some .ready) :
    (s.lock i).energy n + 1 ≤ s.energy n := by
  obtain ⟨-, -, h⟩ | ⟨-, h⟩ | ⟨job, jobs, -, hjobs, h⟩ := s.lock_cases i <;> rw [h]
  · have := Table.sum_map_set hw .asleep Worker.energy
    simp only [energy]
    simp only [Worker.energy] at this
    omega
  · have := Table.sum_map_set hw .exited Worker.energy
    simp only [energy]
    simp only [Worker.energy] at this
    omega
  · have h₁ := Table.sum_map_set hw (.holding job) Worker.energy
    have h₂ := length_flatten_set hjobs jobs
    simp only [energy]
    simp only [Worker.energy, List.length_cons] at h₁ h₂
    omega

theorem energy_push {p index : ℕ} {job : ThreadPoolJob F}
    (hp : s.producers[p]? = some (.indexed job index)) :
    (s.push p job index).energy n + 1 ≤ s.energy n := by
  unfold push
  split
  · have := Table.sum_map_set hp .faulted (Producer.energy n)
    simp only [energy]
    simp only [Producer.energy] at this
    omega
  next jobs hjobs =>
    have h₁ := Table.sum_map_set hp .pushed (Producer.energy n)
    have h₂ := length_flatten_set hjobs (job :: jobs)
    simp only [energy]
    simp only [Producer.energy, List.length_cons] at h₁ h₂
    omega

theorem energy_queueJob {p : ℕ} (hp : s.producers[p]? = some .idle) (func : Option F) :
    (s.queueJob p func).energy n ≤ s.energy n + (n + 7) := by
  rcases func with _ | func
  · exact Nat.le_add_right ..
  unfold queueJob
  dsimp only
  split_ifs with hlen
  · have := Table.sum_map_set hp .faulted (Producer.energy n)
    simp only [energy]
    simp only [Producer.energy] at this
    omega
  · have := Table.sum_map_set hp (.indexed ⟨some func, s.called.length⟩
      (s.nextQueue.toNat % s.jobStack.length)) (Producer.energy n)
    simp only [energy]
    simp only [Producer.energy] at this
    omega

/-- What a step uses up. -/
def used : PoolStep F → ℕ
  | .queueJob _ _ => 0
  | .wake _ => 0
  | _ => 1

/-- What a step supplies. -/
def supplied (n : ℕ) : PoolStep F → ℕ
  | .queueJob _ _ => n + 7
  | .wake _ => 1
  | _ => 0

theorem energy_step (hlen : s.workers.length ≤ n) (h : s.step l = some s') :
    s'.workers.length ≤ n ∧ s'.energy n + used l ≤ s.energy n + supplied n l := by
  cases step_cases h with
  | queueJob func hp =>
    refine ⟨?_, energy_queueJob hp func⟩
    rcases func with _ | func
    · exact hlen
    · unfold queueJob
      dsimp only
      split_ifs <;> exact hlen
  | push hp =>
    refine ⟨?_, energy_push hp⟩
    unfold push
    split <;> exact hlen
  | notify hp =>
    refine ⟨by rw [notifyAll_length]; exact hlen, ?_⟩
    have h₁ := Table.sum_map_set hp .idle (Producer.energy n)
    have h₂ := sum_energy_notifyAll s.workers
    simp only [energy, used, supplied]
    simp only [Producer.energy] at h₁
    omega
  | @lock i hw =>
    refine ⟨?_, energy_lock hw⟩
    obtain ⟨-, -, h⟩ | ⟨-, h⟩ | ⟨job, jobs, -, -, h⟩ := s.lock_cases i <;> rw [h] <;>
      simpa only [List.length_set] using hlen
  | wake hw =>
    refine ⟨by rw [List.length_set]; exact hlen, ?_⟩
    have := Table.sum_map_set hw .ready Worker.energy
    simp only [energy, used, supplied]
    simp only [Worker.energy] at this
    omega
  | @enter i job hw =>
    refine ⟨by rw [List.length_set]; exact hlen, ?_⟩
    have := energy_worker hw (.entered job) (Nat.lt_succ_self 4)
    simp only [energy, used, supplied]
    omega
  | @invoke i job hw =>
    refine ⟨by rw [List.length_set]; exact hlen, ?_⟩
    have := energy_worker hw (.executing job) (Nat.lt_succ_self 3)
    simp only [energy, used, supplied]
    omega
  | finish outcome hw =>
    refine ⟨by rw [List.length_set]; exact hlen, ?_⟩
    have := energy_worker hw .leaving (Nat.lt_succ_self 2)
    simp only [energy, used, supplied]
    omega
  | leave hw =>
    refine ⟨by rw [List.length_set]; exact hlen, ?_⟩
    have := energy_worker hw .ready (Nat.lt_succ_self 1)
    simp only [energy, used, supplied]
    omega
  | destroyStop hd =>
    refine ⟨hlen, ?_⟩
    simp only [energy, used, supplied, hd, Destroyer.energy]
    omega
  | destroyNotify hd =>
    refine ⟨by rw [notifyAll_length]; exact hlen, ?_⟩
    have := sum_energy_notifyAll s.workers
    simp only [energy, used, supplied, hd, Destroyer.energy]
    omega
  | destroyClear hd hw =>
    refine ⟨Nat.zero_le n, ?_⟩
    simp only [energy, used, supplied, hd, Destroyer.energy]
    simp only [List.map_nil, List.sum_nil, List.flatten_nil, List.length_nil]
    omega

/-- A thread that goes on with what it has begun uses up energy. -/
theorem energy_lt (hlen : s.workers.length ≤ n) (hl : l.proceeds = true) (h : s.step l = some s') :
    s'.workers.length ≤ n ∧ s'.energy n < s.energy n := by
  obtain ⟨hlen', hle⟩ := energy_step hlen h
  have hl' : used l = 1 ∧ supplied n l = 0 := by
    cases l <;> first | exact ⟨rfl, rfl⟩ | cases hl
  omega

theorem sum_used (ls : List (PoolStep F)) :
    (ls.map used).sum + ls.countP PoolStep.calls + ls.countP PoolStep.wakes = ls.length := by
  induction ls with
  | nil => rfl
  | cons l ls ih =>
    rw [List.map_cons, List.sum_cons, List.countP_cons, List.countP_cons, List.length_cons]
    cases l <;> simp only [used, PoolStep.calls, PoolStep.wakes] <;> grind

theorem sum_supplied (n : ℕ) (ls : List (PoolStep F)) :
    (ls.map (supplied n)).sum = (n + 7) * ls.countP PoolStep.calls + ls.countP PoolStep.wakes := by
  induction ls with
  | nil => rfl
  | cons l ls ih =>
    rw [List.map_cons, List.sum_cons, List.countP_cons, List.countP_cons, ih]
    cases l <;> simp only [supplied, PoolStep.calls, PoolStep.wakes] <;> grind

/-- From any state: the steps that are not the beginning of a call or a spurious wake-up. -/
theorem length_le (hlen : s.workers.length ≤ n) {ls : List (PoolStep F)}
    (hrun : run step s ls = some s') :
    ls.length ≤ s.energy n + 2 * ls.countP PoolStep.wakes + (n + 8) * ls.countP PoolStep.calls := by
  have h := run_gain_le (I := fun s => s.workers.length ≤ n) (m := energy n) (u := used)
    (v := supplied n) (fun s l s' hs hl => energy_step hs hl) hlen hrun
  have hused := sum_used ls
  rw [sum_supplied] at h
  rw [Nat.add_mul] at h ⊢
  omega

theorem energy_new (m nextQueue : BitVec 64) (k : ℕ) :
    (new m nextQueue k : ThreadPool F).energy m.toNat = 2 * m.toNat + 3 := by
  simp [energy, new, Worker.energy, Producer.energy, Destroyer.energy]
  omega

end ThreadPool

end EllohimMQ
