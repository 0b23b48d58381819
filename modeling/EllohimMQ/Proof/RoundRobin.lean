import Mathlib.Algebra.BigOperators.Group.Finset.Basic
import Mathlib.Algebra.Order.BigOperators.Group.Finset
import EllohimMQ.Lib.Table
import EllohimMQ.Lib.Transition
import EllohimMQ.Model.Orchestrator

/-!
# The orchestrator finishes all work and stops

The loop puts a coroutine that is not done back on the queue that must be empty for it to stop.
Every turn of that kind has used up one of the resumes that the coroutine needs, so a weight that
counts the resumes that are left first, and then the entries of the queue, falls with every step but
a call of `enqueue` and a wake-up out of nothing (`weight_run`).  A coroutine that was queued and is
not done is in the queue or in the hands of the loop (`Kept.pending`), so none is left when the loop
ends.
-/

namespace EllohimMQ

open Transition

/-- The handle in the hands of the loop. -/
def Looper.held {H : Type} : Looper H → List H
  | .popped h => [h]
  | .resuming h => [h]
  | .returned h => [h]
  | .requeueing h => [h]
  | _ => []

/-- The part of a turn that is still ahead of the loop. -/
def Looper.weight {H : Type} : Looper H → ℕ
  | .ready => 2
  | .asleep => 3
  | .popped _ => 5
  | .resuming _ => 10
  | .returned _ => 9
  | .requeueing _ => 8
  | .requeued => 3
  | .exited => 0

/-- What a call of `enqueue` has left, the wake-up of the loop included. -/
def Enqueuer.weight {H : Type} : Enqueuer H → ℕ
  | .idle => 0
  | .enqueueing _ => 6
  | .pushed => 1

/-- What `stop` has left. -/
def Stopper.weight : Stopper → ℕ
  | .notCalled => 3
  | .stopped => 2
  | .joining => 1
  | .joined => 0

namespace Orchestrator

section

variable {H : Type}

theorem notified_held (loop : Looper H) : (notified loop).held = loop.held := by
  cases loop <;> rfl

theorem notified_eq_resuming {loop : Looper H} {h : H} :
    notified loop = .resuming h ↔ loop = .resuming h := by
  cases loop <;> simp [notified]

theorem notified_ne_asleep (loop : Looper H) : notified loop ≠ .asleep := by
  cases loop <;> simp [notified]

theorem notified_weight (loop : Looper H) : (notified loop).weight ≤ loop.weight := by
  cases loop <;> simp [notified, Looper.weight]

theorem weight_of_held {loop : Looper H} {h : H} (hl : loop.held = [h]) :
    2 < loop.weight := by
  cases loop <;> simp [Looper.held, Looper.weight] at hl ⊢

end

variable {H : Type} [DecidableEq H] {r : H → ℕ}

/-! ## What a step does -/

variable (r) in
/-- The steps, with the place each starts from and the state it ends in. -/
inductive Moves (s : Orchestrator H) : OrchestratorStep H → Orchestrator H → Prop
  | null {p : ℕ} : Moves s (.enqueue p none) s
  | refused {p : ℕ} {h : H} (hdone : s.done r h = true) :
    Moves s (.enqueue p (some h)) { s with called := s.called ++ [h] }
  | enqueue {p : ℕ} {h : H} (hp : s.enqueuers[p]? = some .idle) :
    Moves s (.enqueue p (some h))
      { s with enqueuers := s.enqueuers.set p (.enqueueing h), called := s.called ++ [h] }
  | push {p : ℕ} {h : H} (hp : s.enqueuers[p]? = some (.enqueueing h)) :
    Moves s (.push p) { s.pushQueue h with enqueuers := s.enqueuers.set p .pushed }
  | notify {p : ℕ} (hp : s.enqueuers[p]? = some .pushed) :
    Moves s (.notify p) { s with loop := notified s.loop, enqueuers := s.enqueuers.set p .idle }
  | sleep (hl : s.loop = .ready) (hq : s.queue = []) (hs : s.stopped = false) :
    Moves s .lock { s with loop := .asleep }
  | exit (hl : s.loop = .ready) (hq : s.queue = []) (hs : s.stopped = true) :
    Moves s .lock { s with loop := .exited }
  | pop {h : H} {queue : List H} (hl : s.loop = .ready) (hq : s.queue = h :: queue) :
    Moves s .lock { s with queue, loop := .popped h, popped := s.popped ++ [h] }
  | wake (hl : s.loop = .asleep) : Moves s .wake { s with loop := .ready }
  | skip {l : OrchestratorStep H} {h : H} (hl : s.loop.held = [h])
    (hdone : s.done r h = true) (hin : l = .resume ∨ l = .test ∨ l = .requeue) :
    Moves s l { s with loop := .ready }
  | resume {h : H} (hl : s.loop = .popped h) (hdone : s.done r h = false) :
    Moves s .resume
      { s with
        loop := .resuming h
        resumes := Function.update s.resumes h (s.resumes h + 1) }
  | finish {h : H} (hl : s.loop = .resuming h) : Moves s .finish { s with loop := .returned h }
  | test {h : H} (hl : s.loop = .returned h) : Moves s .test { s with loop := .requeueing h }
  | requeue {h : H} (hl : s.loop = .requeueing h) :
    Moves s .requeue { s.pushQueue h with loop := .requeued }
  | requeueNotify (hl : s.loop = .requeued) : Moves s .requeueNotify { s with loop := .ready }
  | stop (hd : s.stopper = .notCalled) :
    Moves s .stop { s with stopped := true, stopper := .stopped }
  | stopNotify (hd : s.stopper = .stopped) :
    Moves s .stopNotify { s with loop := notified s.loop, stopper := .joining }
  | join (hd : s.stopper = .joining) (hl : s.loop = .exited) :
    Moves s .join { s with stopper := .joined }

theorem step_cases {s s' : Orchestrator H} {l : OrchestratorStep H} (hs : s.step r l = some s') :
    s.Moves r l s' := by
  cases l with
  | enqueue p h =>
    rcases hp : s.enqueuers[p]? with _ | _ | _ | _ <;> simp only [step, hp] at hs
    · cases hs
    · cases h with
      | none => exact Option.some.inj hs ▸ .null
      | some h =>
        obtain rfl := Option.some.inj hs
        unfold Orchestrator.enqueue
        split_ifs with hdone
        · exact .refused hdone
        · exact .enqueue hp
    · cases hs
    · cases hs
  | push p =>
    rcases hp : s.enqueuers[p]? with _ | _ | _ | _ <;> simp only [step, hp] at hs <;> cases hs
    exact .push hp
  | notify p =>
    rcases hp : s.enqueuers[p]? with _ | _ | _ | _ <;> simp only [step, hp] at hs <;> cases hs
    exact .notify hp
  | lock =>
    simp only [step] at hs
    split_ifs at hs with hl
    obtain rfl := Option.some.inj hs
    rcases hq : s.queue with _ | ⟨h, queue⟩
    · rcases hstopped : s.stopped
      · have he : s.lock = { s with loop := .asleep } := by
          simp [Orchestrator.lock, hq, hstopped]
        exact he ▸ .sleep hl hq hstopped
      · have he : s.lock = { s with loop := .exited } := by
          simp [Orchestrator.lock, hq, hstopped]
        exact he ▸ .exit hl hq hstopped
    · have he : s.lock = { s with queue, loop := .popped h, popped := s.popped ++ [h] } := by
        simp [Orchestrator.lock, hq]
      exact he ▸ .pop hl hq
  | wake =>
    simp only [step] at hs
    split_ifs at hs with hl
    exact Option.some.inj hs ▸ .wake hl
  | resume =>
    rcases hl : s.loop <;> simp only [step, hl] at hs <;> try cases hs
    split_ifs at hs with hdone
    · exact Option.some.inj hs ▸ .skip (by rw [hl]; rfl) hdone (.inl rfl)
    · exact Option.some.inj hs ▸ .resume hl (Bool.eq_false_of_not_eq_true hdone)
  | finish =>
    rcases hl : s.loop <;> simp only [step, hl] at hs <;> cases hs
    exact .finish hl
  | test =>
    rcases hl : s.loop <;> simp only [step, hl] at hs <;> try cases hs
    split_ifs with hdone
    · exact .skip (by rw [hl]; rfl) hdone (.inr (.inl rfl))
    · exact .test hl
  | requeue =>
    rcases hl : s.loop <;> simp only [step, hl] at hs <;> try cases hs
    split_ifs at hs with hdone
    · exact Option.some.inj hs ▸ .skip (by rw [hl]; rfl) hdone (.inr (.inr rfl))
    · exact Option.some.inj hs ▸ .requeue hl
  | requeueNotify =>
    simp only [step] at hs
    split_ifs at hs with hl
    exact Option.some.inj hs ▸ .requeueNotify hl
  | stop =>
    simp only [step] at hs
    split_ifs at hs with hd
    exact Option.some.inj hs ▸ .stop hd
  | stopNotify =>
    simp only [step] at hs
    split_ifs at hs with hd
    exact Option.some.inj hs ▸ .stopNotify hd
  | join =>
    simp only [step] at hs
    split_ifs at hs with hd
    exact Option.some.inj hs ▸ .join hd.1 hd.2

/-! ## The invariant -/

/-- What holds in every run. -/
structure Kept (r : H → ℕ) (s : Orchestrator H) : Prop where
  /-- Entries leave the queue in the order in which they came. -/
  fifo : s.pushed = s.popped ++ s.queue
  resumes : ∀ h, s.resumes h ≤ r h
  /-- What was queued and is not done is still in the queue or in the hands of the loop. -/
  pending : ∀ h ∈ s.pushed, s.done r h = true ∨ h ∈ s.queue ∨ h ∈ s.loop.held
  called : ∀ h ∈ s.called, s.done r h = true ∨ h ∈ s.pushed ∨ .enqueueing h ∈ s.enqueuers
  stopped : s.stopped = true ↔ s.stopper ≠ .notCalled
  /-- A loop that is still asleep after the stop is about to be notified of it. -/
  asleep : s.loop = .asleep → s.stopper = .notCalled ∨ s.stopper = .stopped

theorem kept_init (k : ℕ) : (init k : Orchestrator H).Kept r where
  fifo := rfl
  resumes _ := Nat.zero_le _
  pending _ h := by cases h
  called _ h := by cases h
  stopped := by simp [init]
  asleep h := by cases h

theorem done_iff {s : Orchestrator H} {h : H} :
    s.done r h = true ↔ r h ≤ s.resumes h ∧ s.loop ≠ .resuming h := by
  simp [done]

theorem lt_of_not_done {s : Orchestrator H} {h : H} (hl : s.loop ≠ .resuming h)
    (hdone : s.done r h = false) : s.resumes h < r h := by
  by_contra hle
  simp [done, hl, not_lt.1 hle] at hdone

/-- A coroutine that is done stays done. -/
theorem Moves.done_mono {s s' : Orchestrator H} {l : OrchestratorStep H} (hm : s.Moves r l s')
    {h : H} (hdone : s.done r h = true) : s'.done r h = true := by
  rw [done_iff] at hdone ⊢
  obtain ⟨hle, hne⟩ := hdone
  cases hm with
  | @resume h' hl hnot =>
    have hh : h ≠ h' := by
      rintro rfl
      simp [done, hle, hne] at hnot
    have hsame : Function.update s.resumes h' (s.resumes h' + 1) h = s.resumes h :=
      Function.update_of_ne hh _ _
    exact ⟨hle.trans_eq hsame.symm, by simp [Ne.symm hh]⟩
  | notify | stopNotify => exact ⟨hle, fun e => hne (notified_eq_resuming.1 e)⟩
  | null | refused | enqueue | push | stop | join => exact ⟨hle, hne⟩
  | _ => exact ⟨hle, by simp⟩

theorem Moves.resumes_of_done {s s' : Orchestrator H} {l : OrchestratorStep H}
    (hm : s.Moves r l s') {h : H} (hdone : s.done r h = true) : s'.resumes h = s.resumes h := by
  cases hm with
  | @resume h' hl hnot =>
    refine Function.update_of_ne ?_ _ _
    rintro rfl
    rw [hdone] at hnot
    cases hnot
  | _ => rfl

theorem Moves.fifo {s s' : Orchestrator H} {l : OrchestratorStep H} (hm : s.Moves r l s')
    (h : s.pushed = s.popped ++ s.queue) : s'.pushed = s'.popped ++ s'.queue := by
  cases hm with
  | push | requeue => simp [pushQueue, h]
  | pop _ hq => simp [h, hq]
  | _ => exact h

theorem Moves.resumes {s s' : Orchestrator H} {l : OrchestratorStep H} (hm : s.Moves r l s')
    (h : ∀ h, s.resumes h ≤ r h) (h' : H) : s'.resumes h' ≤ r h' := by
  cases hm with
  | @resume h₀ hl hdone =>
    have hlt := lt_of_not_done (by simp [hl]) hdone
    show Function.update s.resumes h₀ (s.resumes h₀ + 1) h' ≤ r h'
    by_cases hh : h' = h₀
    · subst hh
      rw [Function.update_self]
      omega
    · rw [Function.update_of_ne hh]
      exact h h'
  | _ => exact h h'

/-- No step takes a coroutine that is not done out of the queue and out of the hands of the loop. -/
theorem Moves.pending {s s' : Orchestrator H} {l : OrchestratorStep H} (hm : s.Moves r l s') {h : H}
    (hp : h ∈ s.queue ∨ h ∈ s.loop.held) :
    s'.done r h = true ∨ h ∈ s'.queue ∨ h ∈ s'.loop.held := by
  have hmono := hm.done_mono (h := h)
  cases hm with
  | push => exact .inr (hp.imp (List.mem_append_left _) id)
  | notify | stopNotify => exact .inr (hp.imp id fun hh => (notified_held s.loop).symm ▸ hh)
  | sleep hl | exit hl | wake hl | requeueNotify hl =>
    simp only [hl, Looper.held, List.not_mem_nil, or_false] at hp
    exact .inr (.inl hp)
  | pop hl hq =>
    simp only [hl, hq, Looper.held, List.not_mem_nil, or_false] at hp
    exact .inr ((List.mem_cons.1 hp).symm.imp id fun e => by simp [Looper.held, e])
  | skip hl hdone =>
    rcases hp with hp | hp
    · exact .inr (.inl hp)
    · rw [hl, List.mem_singleton] at hp
      exact .inl (hmono (hp ▸ hdone))
  | resume hl | finish hl | test hl =>
    rw [hl] at hp
    exact .inr (hp.imp id id)
  | requeue hl =>
    rw [hl] at hp
    exact .inr (.inl (List.mem_append.2 (hp.imp id id)))
  | _ => exact .inr hp

/-- What enters the queue was in it or in the hands of the loop, or is at its back now. -/
theorem Moves.pushed {s s' : Orchestrator H} {l : OrchestratorStep H} (hm : s.Moves r l s') {h : H}
    (hp : h ∈ s'.pushed) : h ∈ s.pushed ∨ h ∈ s'.queue := by
  cases hm with
  | push | requeue =>
    exact (List.mem_append.1 hp).imp id (List.mem_append_right _)
  | _ => exact .inl hp

/-- A call of `enqueue` stays before its lock until it pushes. -/
theorem Moves.called {s s' : Orchestrator H} {l : OrchestratorStep H} (hm : s.Moves r l s')
    (hc : ∀ h ∈ s.called, s.done r h = true ∨ h ∈ s.pushed ∨ .enqueueing h ∈ s.enqueuers) :
    ∀ h ∈ s'.called, s'.done r h = true ∨ h ∈ s'.pushed ∨ .enqueueing h ∈ s'.enqueuers := by
  intro h hh
  have hmono := hm.done_mono (h := h)
  cases hm with
  | @refused p h' hdone =>
    rcases List.mem_append.1 hh with hh | hh
    · exact hc h hh
    · rw [List.mem_singleton.1 hh]
      exact .inl hdone
  | @enqueue p h' hp =>
    rcases List.mem_append.1 hh with hh | hh
    · refine (hc h hh).imp id (Or.imp id fun hmem => ?_)
      exact Table.mem_set_of_mem hp hmem (by simp)
    · rw [List.mem_singleton.1 hh]
      exact .inr (.inr (List.mem_set (List.getElem?_eq_some_iff.1 hp).1 _))
  | @push p h' hp =>
    rcases hc h hh with hdone | hmem | hmem
    · exact .inl (hmono hdone)
    · exact .inr (.inl (List.mem_append_left _ hmem))
    · by_cases e : h = h'
      · exact .inr (.inl (List.mem_append_right _ (List.mem_singleton.2 e)))
      · exact .inr (.inr (Table.mem_set_of_mem hp hmem (by simpa using e)))
  | notify hp =>
    refine (hc h hh).imp hmono (Or.imp id fun hmem => ?_)
    exact Table.mem_set_of_mem hp hmem (by simp)
  | requeue => exact (hc h hh).imp hmono (Or.imp (List.mem_append_left _) id)
  | _ => exact (hc h hh).imp hmono id

theorem Kept.step {s s' : Orchestrator H} (hk : s.Kept r) {l : OrchestratorStep H}
    (hs : s.step r l = some s') : s'.Kept r := by
  have hm := step_cases hs
  refine ⟨hm.fifo hk.fifo, hm.resumes hk.resumes, fun h hp => ?_, hm.called hk.called, ?_, ?_⟩
  · rcases hm.pushed hp with hp | hp
    · exact (hk.pending h hp).elim (fun hdone => .inl (hm.done_mono hdone)) hm.pending
    · exact .inr (.inl hp)
  · cases hm with
    | stop => simp
    | stopNotify hd | join hd =>
      have := hk.stopped
      simp_all
    | _ => exact hk.stopped
  · intro ha
    cases hm with
    | notify => exact absurd ha (notified_ne_asleep _)
    | stopNotify => exact absurd ha (notified_ne_asleep _)
    | sleep _ _ hrunning =>
      refine .inl (not_not.1 fun hd => ?_)
      simp [hk.stopped.2 hd] at hrunning
    | stop => exact .inr rfl
    | join _ hl =>
      rw [hl] at ha
      cases ha
    | null | refused | enqueue | push => exact hk.asleep ha
    | _ => cases ha

theorem reachable_kept {k : ℕ} {s : Orchestrator H} (h : Reachable (step r) (init k) s) :
    s.Kept r := h.invariant (fun _ _ _ hk hs => hk.step hs) (kept_init k)

/-! ## Termination -/

variable (r) in
/-- The resumes that are left count for more than the turns that they cost. -/
def weight [Fintype H] (s : Orchestrator H) : ℕ :=
  6 * ∑ h, (r h - s.resumes h) + 4 * s.queue.length + s.loop.weight +
    (s.enqueuers.map Enqueuer.weight).sum + s.stopper.weight

/-- The calls that put new work on the queue. -/
def isEnqueue : OrchestratorStep H → Bool
  | .enqueue .. => true
  | _ => false

/-- A resume uses up one of those that are left. -/
theorem sum_resume [Fintype H] {n : H → ℕ} {h : H} (hlt : n h < r h) :
    ∑ h', (r h' - Function.update n h (n h + 1) h') + 1 = ∑ h', (r h' - n h') := by
  have hrest : ∑ h' ∈ Finset.univ.erase h, (r h' - Function.update n h (n h + 1) h') =
      ∑ h' ∈ Finset.univ.erase h, (r h' - n h') :=
    Finset.sum_congr rfl fun h' hh => by rw [Function.update_of_ne (Finset.ne_of_mem_erase hh)]
  rw [← Finset.add_sum_erase _ _ (Finset.mem_univ h), hrest,
    ← Finset.add_sum_erase _ (fun h' => r h' - n h') (Finset.mem_univ h), Function.update_self]
  omega

/-- Once the loop is to stop, every step but a call of `enqueue` brings it closer to the end. -/
theorem Moves.weight_lt [Fintype H] {s s' : Orchestrator H} {l : OrchestratorStep H}
    (hm : s.Moves r l s') (hstopped : s.stopped = true) :
    s'.weight r + 1 ≤ s.weight r + if isEnqueue l then 7 else 0 := by
  unfold weight
  cases hm with
  | null | refused => simp [isEnqueue]
  | @enqueue p h hp =>
    have := Table.sum_map_set hp (.enqueueing h) Enqueuer.weight
    simp only [Enqueuer.weight, isEnqueue, if_true] at this ⊢
    omega
  | push hp =>
    have := Table.sum_map_set hp .pushed Enqueuer.weight
    simp only [Enqueuer.weight, isEnqueue, pushQueue, List.length_append, List.length_singleton]
      at this ⊢
    omega
  | notify hp =>
    have := Table.sum_map_set hp .idle Enqueuer.weight
    have := notified_weight s.loop
    simp only [Enqueuer.weight, isEnqueue] at *
    omega
  | sleep _ _ hrunning => simp [hstopped] at hrunning
  | skip hl _ hin =>
    have := weight_of_held hl
    have hready : (Looper.ready : Looper H).weight = 2 := rfl
    rcases hin with rfl | rfl | rfl <;>
    · simp only [isEnqueue, hready]
      omega
  | resume hl hdone =>
    have := sum_resume (lt_of_not_done (by simp [hl]) hdone)
    simp only [isEnqueue, hl, Looper.weight]
    omega
  | pop hl hq =>
    simp only [isEnqueue, hl, hq, Looper.weight, List.length_cons]
    omega
  | requeue hl =>
    simp only [isEnqueue, hl, Looper.weight, pushQueue, List.length_append, List.length_singleton]
    omega
  | exit hl | wake hl | finish hl | test hl | requeueNotify hl =>
    simp only [isEnqueue, hl, Looper.weight]
    omega
  | stop hd | join hd =>
    simp only [isEnqueue, hd, Stopper.weight]
    omega
  | stopNotify hd =>
    have := notified_weight s.loop
    simp only [isEnqueue, hd, Stopper.weight]
    omega

theorem Moves.stopped_mono {s s' : Orchestrator H} {l : OrchestratorStep H} (hm : s.Moves r l s')
    (hstopped : s.stopped = true) : s'.stopped = true := by
  cases hm with
  | stop => rfl
  | _ => exact hstopped

/-- The length of a run after the stop is bounded by the weight that it starts from. -/
theorem weight_run [Fintype H] {s s' : Orchestrator H} {ls : List (OrchestratorStep H)}
    (hstopped : s.stopped = true) (hrun : run (step r) s ls = some s') :
    s'.weight r + ls.length ≤ s.weight r + 7 * ls.countP isEnqueue := by
  have h : s'.stopped = true ∧ s'.weight r + ls.length ≤ s.weight r + 7 * ls.countP isEnqueue := by
    refine run_induction (P := fun ls s' => s'.stopped = true ∧
      s'.weight r + ls.length ≤ s.weight r + 7 * ls.countP isEnqueue)
      ⟨hstopped, le_rfl⟩ ?_ hrun
    rintro ls s₁ l s₂ ⟨h₁, hle⟩ hs
    have hm := step_cases hs
    have hlt := hm.weight_lt h₁
    refine ⟨hm.stopped_mono h₁, ?_⟩
    simp only [List.length_append, List.length_singleton, List.countP_append, List.countP_singleton]
    split_ifs at hlt ⊢ <;> omega
  exact h.2

/-- Until the loop ends, the loop or the caller of `stop` has a step to take. -/
theorem Kept.progress {s : Orchestrator H} (hk : s.Kept r) (hstopped : s.stopped = true)
    (hl : s.loop ≠ .exited) :
    ∃ l, l ≠ .wake ∧ isEnqueue l = false ∧ (Orchestrator.step r s l).isSome := by
  rcases hloop : s.loop with _ | _ | h | h | h | h | _ | _
  · exact ⟨.lock, by simp, rfl, by simp [Orchestrator.step, hloop]⟩
  · have hd : s.stopper = .stopped :=
      (hk.asleep hloop).resolve_left (hk.stopped.1 hstopped)
    exact ⟨.stopNotify, by simp, rfl, by simp [Orchestrator.step, hd]⟩
  · exact ⟨.resume, by simp, rfl, by simp only [Orchestrator.step, hloop]; split_ifs <;> rfl⟩
  · exact ⟨.finish, by simp, rfl, by simp [Orchestrator.step, hloop]⟩
  · exact ⟨.test, by simp, rfl, by simp [Orchestrator.step, hloop]⟩
  · exact ⟨.requeue, by simp, rfl, by simp only [Orchestrator.step, hloop]; split_ifs <;> rfl⟩
  · exact ⟨.requeueNotify, by simp, rfl, by simp [Orchestrator.step, hloop]⟩
  · exact absurd hloop hl

/-! ## Round robin -/

/-- The queue gives its entries out in order and takes new ones at its back. -/
theorem Moves.grows {s s' : Orchestrator H} {l : OrchestratorStep H} (hm : s.Moves r l s') :
    s.popped <+: s'.popped ∧ s.pushed <+: s'.pushed := by
  cases hm with
  | push | requeue => exact ⟨List.prefix_rfl, List.prefix_append _ _⟩
  | pop => exact ⟨List.prefix_append _ _, List.prefix_rfl⟩
  | _ => exact ⟨List.prefix_rfl, List.prefix_rfl⟩

theorem grows_run {s s' : Orchestrator H} (h : Steps (step r) s s') :
    s.popped <+: s'.popped ∧ s.pushed <+: s'.pushed := by
  refine h.invariant (P := fun s' => s.popped <+: s'.popped ∧ s.pushed <+: s'.pushed) ?_
    ⟨List.prefix_rfl, List.prefix_rfl⟩
  rintro s₁ l s₂ ⟨hpop, hpush⟩ hs
  have hm := (step_cases hs).grows
  exact ⟨hpop.trans hm.1, hpush.trans hm.2⟩

/-- Until an entry leaves the queue, only entries that were ahead of it do; when it leaves, they
have all done so. -/
theorem Kept.round_robin {s s' : Orchestrator H} (hk : s.Kept r) (hk' : s'.Kept r)
    (hrun : Steps (Orchestrator.step r) s s') {ahead behind : List H} {h : H}
    (hq : s.queue = ahead ++ h :: behind) :
    (∃ gone left new, ahead = gone ++ left ∧ s'.popped = s.popped ++ gone ∧
      s'.queue = left ++ h :: behind ++ new) ∨
    ∃ rest, s'.popped = s.popped ++ (ahead ++ h :: rest) := by
  obtain ⟨⟨gone, hpop⟩, ⟨new, hpush⟩⟩ := grows_run hrun
  have hsplit : gone ++ s'.queue = ahead ++ (h :: behind ++ new) := by
    have h₁ := hk'.fifo
    rw [← hpop, ← hpush, hk.fifo, hq] at h₁
    simpa using h₁.symm
  rcases List.append_eq_append_iff.1 hsplit with ⟨left, hahead, hqueue⟩ | ⟨extra, hgone, hrest⟩
  · exact .inl ⟨gone, left, new, hahead, hpop.symm, by simpa using hqueue⟩
  · rcases extra with _ | ⟨h', rest⟩
    · refine .inl ⟨gone, [], new, ?_, hpop.symm, ?_⟩
      · simpa using hgone.symm
      · simpa using hrest.symm
    · obtain ⟨rfl, -⟩ := List.cons.inj hrest
      exact .inr ⟨rest, by rw [← hpop, hgone]⟩

/-! ## The end of the loop -/

/-- No handle is pushed after the loop has ended. -/
def beforeExit (s : Orchestrator H) : OrchestratorStep H → Bool
  | .push _ => s.loop ≠ .exited
  | _ => true

theorem Moves.queue_nil {s s' : Orchestrator H} {l : OrchestratorStep H} (hm : s.Moves r l s')
    (hok : s.beforeExit l = true) (h : s.loop = .exited → s.queue = [])
    (hl' : s'.loop = .exited) : s'.queue = [] := by
  cases hm with
  | push => simp [beforeExit, show s.loop = .exited from hl'] at hok
  | notify | stopNotify =>
    refine h ?_
    rcases hl : s.loop <;> simp [hl, notified] at hl' ⊢
  | exit _ hq => exact hq
  | null | refused | enqueue | stop | join => exact h hl'
  | _ => cases hl'

theorem queue_nil_of_exited {k : ℕ} {ls : List (OrchestratorStep H)} {s : Orchestrator H}
    (hok : Admissible (step r) (fun s l => s.beforeExit l = true) (init k) ls)
    (hrun : run (step r) (init k) ls = some s) : s.loop = .exited → s.queue = [] :=
  hok.invariant (P := fun s => s.loop = .exited → s.queue = [])
    (fun _ _ _ hq hl hs => (step_cases hs).queue_nil hl hq) (fun _ => rfl) hrun

/-- At the end of the loop nothing that was called for is unfinished. -/
theorem Kept.finished {s : Orchestrator H} (hk : s.Kept r) (hl : s.loop = .exited)
    (hq : s.queue = []) (hin : ∀ h, .enqueueing h ∉ s.enqueuers) {h : H} (hh : h ∈ s.called) :
    s.done r h = true ∧ s.resumes h = r h := by
  have hdone : s.done r h = true := by
    rcases hk.called h hh with hdone | hmem | hmem
    · exact hdone
    · refine (hk.pending h hmem).resolve_right ?_
      simp [hq, hl, Looper.held]
    · exact absurd hmem (hin h)
  exact ⟨hdone, (hk.resumes h).antisymm (done_iff.1 hdone).1⟩

/-- In every run: after the stop the steps but the calls of `enqueue` are bounded, and one can be
taken until the loop ends; when the loop ends with every call of `enqueue` past its push, the queue
is empty and every coroutine that was called for is done after the resumes that it needs; no
coroutine that is done is resumed; and an entry leaves the queue behind exactly those that were ahead
of it. -/
theorem loop_finishes [Fintype H] (r : H → ℕ) (k : ℕ) {ls : List (OrchestratorStep H)}
    {s : Orchestrator H} (hrun : run (step r) (init k) ls = some s) :
    (s.stopped = true →
      (∃ bound, ∀ ls' s', run (step r) s ls' = some s' →
        ls'.length ≤ bound + 7 * ls'.countP isEnqueue) ∧
      (s.loop ≠ .exited → ∃ l, l ≠ .wake ∧ isEnqueue l = false ∧ (s.step r l).isSome)) ∧
    (Admissible (step r) (fun s l => s.beforeExit l = true) (init k) ls → s.loop = .exited →
      (∀ h, .enqueueing h ∉ s.enqueuers) →
      s.queue = [] ∧ ∀ h ∈ s.called, s.done r h = true ∧ s.resumes h = r h) ∧
    (∀ l s' h, s.step r l = some s' → s.done r h = true → s'.resumes h = s.resumes h) ∧
    ∀ ahead h behind, s.queue = ahead ++ h :: behind → ∀ s', Steps (step r) s s' →
      (∃ gone left new, ahead = gone ++ left ∧ s'.popped = s.popped ++ gone ∧
        s'.queue = left ++ h :: behind ++ new) ∨
      ∃ rest, s'.popped = s.popped ++ (ahead ++ h :: rest) := by
  have hreach : Reachable (step r) (init k) s := ⟨ls, hrun⟩
  have hk := reachable_kept hreach
  refine ⟨fun hstopped => ⟨⟨s.weight r, fun ls' s' hrun' => ?_⟩, hk.progress hstopped⟩, ?_, ?_, ?_⟩
  · have hweight := weight_run hstopped hrun'
    omega
  · intro hok hl hin
    have hq := queue_nil_of_exited hok hrun hl
    exact ⟨hq, fun h hh => hk.finished hl hq hin hh⟩
  · intro l s' h hs hdone
    exact (step_cases hs).resumes_of_done hdone
  · intro ahead h behind hq s' hsteps
    exact hk.round_robin (reachable_kept (hreach.trans hsteps)) hsteps hq

/-- Coroutine 0 needs two resumes and coroutine 1 one; 0 is queued twice, and the stop comes while
it is in the hands of the loop. -/
def twoCoroutines : List (OrchestratorStep (Fin 2)) :=
  [.enqueue 0 (some 0), .push 0, .enqueue 1 (some 1), .push 1, .notify 0, .enqueue 0 (some 0),
    .lock, .resume, .stop, .push 0, .finish, .test, .requeue, .requeueNotify, .lock, .resume,
    .finish, .test, .notify 1, .notify 0, .lock, .resume, .finish, .test, .lock, .resume,
    .stopNotify, .lock, .join]

theorem loop_finishes_two :
    ∃ s, run (step fun h : Fin 2 => 2 - h.val) (init 2) twoCoroutines = some s ∧ s.queue = [] ∧
      ∀ h ∈ s.called, s.done (fun h => 2 - h.val) h = true ∧ s.resumes h = 2 - h.val := by
  obtain ⟨s, hs, hend⟩ := Option.map_eq_some_iff.1 (show
    (run (step fun h : Fin 2 => 2 - h.val) (init 2) twoCoroutines).map
      (fun s => (s.loop, s.enqueuers)) = some (.exited, [.idle, .idle]) by decide)
  obtain ⟨hloop, henqueuers⟩ := Prod.mk.inj hend
  exact ⟨s, hs, (loop_finishes _ 2 hs).2.1 (by decide) hloop (by simp [henqueuers])⟩

end Orchestrator

end EllohimMQ
