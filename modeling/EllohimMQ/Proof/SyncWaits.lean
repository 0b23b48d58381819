import EllohimMQ.Lib.Progress
import EllohimMQ.Model.SyncWait

/-!
# `sync_wait` returns what the awaitable ends with

The flag is set under the lock and tested under the lock, and the coroutine does not use the locals
after it has given the lock back.  So whatever the order, the function returns when the coroutine is
through with the locals and its thread has ended, with the result of the awaitable, and a wake-up that
nobody asked for does no harm.
-/

namespace EllohimMQ

open Calls Transition

variable {V E : Type}

/-! ## Places -/

/-- The waiting function has the lock. -/
def Waiter.holds : Waiter V E → Bool
  | .locked | .testing | .joining | .joined => true
  | _ => false

/-- It has seen the flag. -/
def Waiter.passed : Waiter V E → Bool
  | .joining | .joined | .returned _ => true
  | _ => false

/-- `thr` has been joined. -/
def Waiter.hasJoined : Waiter V E → Bool
  | .joined | .returned _ => true
  | _ => false

theorem Waiter.passed_of_hasJoined {w : Waiter V E} (h : w.hasJoined = true) : w.passed = true := by
  cases w <;> first | rfl | cases h

/-- `thr` has not been made. -/
def Waiter.before : Waiter V E → Bool
  | .entered | .locked => true
  | _ => false

/-- The coroutine has the lock. -/
def TaskPoint.holds : TaskPoint → Bool
  | .locked | .flagged | .notified => true
  | _ => false

/-- It has set the flag. -/
def TaskPoint.flags : TaskPoint → Bool
  | .flagged | .notified | .ended => true
  | _ => false

/-- It has woken the waiting function. -/
def TaskPoint.wakes : TaskPoint → Bool
  | .notified | .ended => true
  | _ => false

/-- The awaitable has ended. -/
def TaskPoint.isOver : TaskPoint → Bool
  | .notStarted | .awaiting | .suspended => false
  | _ => true

/-- A thread is in the coroutine. -/
def TaskPoint.running : TaskPoint → Bool
  | .notStarted | .suspended | .ended => false
  | _ => true

/-- The coroutine has set the flag and given the lock back. -/
theorem TaskPoint.eq_ended {p : TaskPoint} (hf : p.flags = true) (hh : p.holds = false) :
    p = .ended := by
  cases p with
  | ended => rfl
  | notStarted | awaiting | suspended | completed | locked => cases hf
  | flagged | notified => cases hh

/-- It sets the flag before it wakes anybody. -/
theorem TaskPoint.wakes_eq_false {p : TaskPoint} (hf : p.flags = false) : p.wakes = false := by
  cases p with
  | notStarted | awaiting | suspended | completed | locked => rfl
  | flagged | notified | ended => cases hf

/-- The result with which a step ends the awaitable. -/
def SyncStep.completion : SyncStep V E → Option (Completion V E)
  | .complete r => some r
  | _ => none

/-- The steps that are neither the awaitable's nor wake-ups that nobody asked for. -/
def SyncStep.own : SyncStep V E → Bool
  | .wake | .suspend | .resume | .complete _ => false
  | _ => true

/-- The steps of the function that waits. -/
def SyncStep.ofWaiter : SyncStep V E → Bool
  | .lock | .spawn | .test | .wake | .relock | .join | .ret => true
  | _ => false

/-- A wake-up that nobody asked for. -/
def SyncStep.spurious : SyncStep V E → Bool
  | .wake => true
  | _ => false

namespace SyncWait

variable {s s' : SyncWait V E} {l : SyncStep V E} {ls : List (SyncStep V E)}
  {done : List (Completion V E)}

/-- What is in the place of the result. -/
def stored (s : SyncWait V E) : Option (Completion V E) :=
  match s.exceptionPtr, s.value with
  | some e, _ => some (.exception e)
  | none, some v => some (.value v)
  | none, none => none

/-- What holds between two steps, when the awaitable has ended with `done`, if it has ended. -/
structure Synced (s : SyncWait V E) (done : List (Completion V E)) : Prop where
  waiter_holds : s.mtx = some .waiter ↔ s.waiter.holds = true
  task_holds : s.mtx = some .task ↔ s.task.holds = true
  flag : s.flag = s.task.flags
  before : s.thr = .notStarted ↔ s.waiter.before = true
  unstarted : s.task = .notStarted ↔ s.thr = .notStarted ∨ s.thr = .starting
  inTask : s.thr = .inTask → s.task.running = true
  passed : s.waiter.passed = true → s.task = .ended
  hasJoined : s.waiter.hasJoined = true → s.thr = .ended
  /-- No wake-up is lost. -/
  asleep : s.waiter = .asleep → s.task.wakes = false
  stored : s.stored.toList = done
  isOver : s.stored.isSome = s.task.isOver
  returned : ∀ r, s.waiter = .returned r → done = [r]
  faulted : s.faulted = false

theorem synced_init : Synced (.init : SyncWait V E) [] := by
  constructor <;> simp [init, Waiter.holds, TaskPoint.holds, TaskPoint.flags, Waiter.before,
    Waiter.passed, Waiter.hasJoined, SyncWait.stored, TaskPoint.isOver]

/-- The locals are there as long as the coroutine uses them. -/
theorem Synced.touch (h : s.Synced done) (hne : s.task ≠ .ended) : s.touch = s := by
  have hpassed : s.waiter.passed = false := by
    cases hp : s.waiter.passed
    · rfl
    · exact absurd (h.passed hp) hne
  have halive : s.alive = true := by
    unfold alive
    split
    · next r hr =>
      rw [hr] at hpassed
      cases hpassed
    · rfl
  simp [SyncWait.touch, halive]

/-! ## What a step does -/

/-- The steps, with what each needs and the state it ends in. -/
inductive Moves (s : SyncWait V E) : SyncStep V E → SyncWait V E → Prop where
  | lock (hw : s.waiter = .entered) (hm : s.mtx = none) :
    Moves s .lock { s with waiter := .locked, mtx := some .waiter }
  | spawn (hw : s.waiter = .locked) : Moves s .spawn { s with waiter := .testing, thr := .starting }
  | seen (hw : s.waiter = .testing) (hf : s.flag = true) :
    Moves s .test { s with waiter := .joining }
  | sleep (hw : s.waiter = .testing) (hf : s.flag = false) :
    Moves s .test { s with waiter := .asleep, mtx := none }
  | wake (hw : s.waiter = .asleep) : Moves s .wake { s with waiter := .waking }
  | relock (hw : s.waiter = .waking) (hm : s.mtx = none) :
    Moves s .relock { s with waiter := .testing, mtx := some .waiter }
  | join (hw : s.waiter = .joining) (ht : s.thr = .ended) :
    Moves s .join { s with waiter := .joined }
  | ret (hw : s.waiter = .joined) : Moves s .ret s.finish
  | start (ht : s.thr = .starting) :
    Moves s .start { s.touch with thr := .inTask, task := .awaiting }
  | exit (ht : s.thr = .leaving) : Moves s .exit { s with thr := .ended }
  | suspend (hp : s.task = .awaiting) : Moves s .suspend { s.leave with task := .suspended }
  | resume (hp : s.task = .suspended) : Moves s .resume { s with task := .awaiting }
  | complete (r : Completion V E) (hp : s.task = .awaiting) :
    Moves s (.complete r) { s.touch.store r with task := .completed }
  | taskLock (hp : s.task = .completed) (hm : s.mtx = none) :
    Moves s .taskLock { s.touch with task := .locked, mtx := some .task }
  | setFlag (hp : s.task = .locked) :
    Moves s .setFlag { s.touch with task := .flagged, flag := true }
  | notifyAsleep (hp : s.task = .flagged) (hw : s.waiter = .asleep) :
    Moves s .notify { s.touch with task := .notified, waiter := .waking }
  | notify (hp : s.task = .flagged) (hw : s.waiter ≠ .asleep) :
    Moves s .notify { s.touch with task := .notified }
  | unlock (hp : s.task = .notified) :
    Moves s .unlock { s.touch.leave with task := .ended, mtx := none }

theorem step_cases (h : s.step l = some s') : s.Moves l s' := by
  cases l <;> simp only [step] at h <;> split at h <;> try cases h
  · exact .lock ‹_› ‹_›
  · exact .spawn ‹_›
  · next hw =>
    split_ifs at h with hf
    · exact Option.some.inj h ▸ .seen hw hf
    · exact Option.some.inj h ▸ .sleep hw (by simpa using hf)
  · exact .wake ‹_›
  · exact .relock ‹_› ‹_›
  · exact .join ‹_› ‹_›
  · exact .ret ‹_›
  · exact .start ‹_›
  · exact .exit ‹_›
  · exact .suspend ‹_›
  · exact .resume ‹_›
  · exact .complete _ ‹_›
  · exact .taskLock ‹_› ‹_›
  · exact .setFlag ‹_›
  · next hp =>
    split
    · next hw => exact .notifyAsleep hp hw
    · next hw => exact .notify hp hw
  · exact .unlock ‹_›

/-! ## Every step keeps the invariant -/

/-- At its end the function finds a result. -/
theorem Synced.finish_eq (h : s.Synced done) (hw : s.waiter = .joined) :
    ∃ r, s.stored = some r ∧ s.finish = { s with waiter := .returned r, mtx := none } := by
  have hended : s.task = .ended := h.passed (by rw [hw]; rfl)
  have hsome : s.stored.isSome = true := by rw [h.isOver, hended]; rfl
  obtain ⟨r, hr⟩ := Option.isSome_iff_exists.1 hsome
  refine ⟨r, hr, ?_⟩
  unfold SyncWait.stored at hr
  unfold finish
  cases he : s.exceptionPtr <;> cases hv : s.value <;> simp only [he, hv] at hr ⊢ <;> cases hr <;> rfl

/-- The waiting function goes on to `w`. -/
theorem Synced.moveWaiter (h : s.Synced done) (w : Waiter V E) (m : Option LockOwner)
    (hbefore : w.before = s.waiter.before)
    (hholds : m = some .waiter ↔ w.holds = true) (htask : m = some .task ↔ s.mtx = some .task)
    (hpassed : w.passed = true → s.task = .ended) (hjoined : w.hasJoined = true → s.thr = .ended)
    (hasleep : w = .asleep → s.flag = false) (hreturned : ∀ r, w = .returned r → done = [r]) :
    ({ s with waiter := w, mtx := m } : SyncWait V E).Synced done :=
  { h with
    waiter_holds := hholds
    task_holds := htask.trans h.task_holds
    before := hbefore ▸ h.before
    passed := hpassed
    hasJoined := hjoined
    asleep := fun ha => TaskPoint.wakes_eq_false (h.flag ▸ hasleep ha)
    returned := hreturned }

/-- The waiting function takes a step, and starts its thread in one of them. -/
theorem Synced.step_waiter (h : s.Synced done) (hs : s.Moves l s') (hl : l.ofWaiter = true) :
    s'.Synced done := by
  cases hs with
  | lock hw hm =>
    exact h.moveWaiter .locked (some .waiter) (by rw [hw]; rfl) (by simp [Waiter.holds]) (by simp [hm])
      (by simp [Waiter.passed]) (by simp [Waiter.hasJoined]) (by simp) (by simp)
  | spawn hw =>
    have ht : s.thr = .notStarted := h.before.2 (by rw [hw]; rfl)
    have hp : s.task = .notStarted := h.unstarted.2 (.inl ht)
    exact { h with
      waiter_holds := h.waiter_holds.trans (by rw [hw]; simp [Waiter.holds])
      before := by simp [Waiter.before]
      unstarted := by simp [hp]
      inTask := by simp
      passed := by simp [Waiter.passed]
      hasJoined := by simp [Waiter.hasJoined]
      asleep := by simp
      returned := by simp }
  | seen hw hf =>
    have hm : s.mtx = some .waiter := h.waiter_holds.2 (by rw [hw]; rfl)
    have hholds : s.task.holds = false := by
      rw [← Bool.not_eq_true, ← h.task_holds, hm]
      simp
    have hended : s.task = .ended := TaskPoint.eq_ended (h.flag ▸ hf) hholds
    exact h.moveWaiter .joining s.mtx (by rw [hw]; rfl) (by simp [hm, Waiter.holds]) .rfl
      (fun _ => hended) (by simp [Waiter.hasJoined]) (by simp) (by simp)
  | sleep hw hf =>
    have hm : s.mtx = some .waiter := h.waiter_holds.2 (by rw [hw]; rfl)
    exact h.moveWaiter .asleep none (by rw [hw]; rfl) (by simp [Waiter.holds]) (by simp [hm])
      (by simp [Waiter.passed]) (by simp [Waiter.hasJoined]) (fun _ => hf) (by simp)
  | wake hw =>
    have hm : s.mtx ≠ some .waiter := by simp [h.waiter_holds, hw, Waiter.holds]
    exact h.moveWaiter .waking s.mtx (by rw [hw]; rfl) (by simp [hm, Waiter.holds]) .rfl
      (by simp [Waiter.passed]) (by simp [Waiter.hasJoined]) (by simp) (by simp)
  | relock hw hm =>
    exact h.moveWaiter .testing (some .waiter) (by rw [hw]; rfl) (by simp [Waiter.holds])
      (by simp [hm]) (by simp [Waiter.passed]) (by simp [Waiter.hasJoined]) (by simp) (by simp)
  | join hw ht =>
    have hm : s.mtx = some .waiter := h.waiter_holds.2 (by rw [hw]; rfl)
    exact h.moveWaiter .joined s.mtx (by rw [hw]; rfl) (by simp [hm, Waiter.holds]) .rfl
      (fun _ => h.passed (by rw [hw]; rfl)) (fun _ => ht) (by simp) (by simp)
  | ret hw =>
    obtain ⟨r, hr, hfinish⟩ := h.finish_eq hw
    have hm : s.mtx = some .waiter := h.waiter_holds.2 (by rw [hw]; rfl)
    rw [hfinish]
    refine h.moveWaiter (.returned r) none (by rw [hw]; rfl) (by simp [Waiter.holds]) (by simp [hm])
      (fun _ => h.passed (by rw [hw]; rfl)) (fun _ => h.hasJoined (by rw [hw]; rfl)) (by simp) ?_
    rintro r' he
    cases he
    rw [← h.stored, hr, Option.toList_some]
  | _ => cases hl

/-- The coroutine goes on to `p`, and its thread to `t`. -/
theorem Synced.moveTask (h : s.Synced done) (p : TaskPoint) (t : Helper) (m : Option LockOwner)
    (f : Bool) (hne : s.task ≠ .ended ∧ s.task ≠ .notStarted) (hp : p ≠ .notStarted)
    (ht : t = s.thr ∨ t = .leaving) (hrun : t = .inTask → p.running = true)
    (hwaiter : m = some .waiter ↔ s.mtx = some .waiter) (hholds : m = some .task ↔ p.holds = true)
    (hflag : f = p.flags) (hasleep : s.waiter = .asleep → p.wakes = false)
    (hover : s.task.isOver = p.isOver) :
    ({ s with task := p, thr := t, mtx := m, flag := f } : SyncWait V E).Synced done := by
  have hthr : ¬ (s.thr = .notStarted ∨ s.thr = .starting) := fun hthr => hne.2 (h.unstarted.2 hthr)
  have hthr' : ¬ (t = .notStarted ∨ t = .starting) := by
    rcases ht with rfl | rfl
    · exact hthr
    · simp
  have hpassed : s.waiter.passed = false := Bool.eq_false_iff.2 fun hpass => hne.1 (h.passed hpass)
  exact { h with
    waiter_holds := hwaiter.trans h.waiter_holds
    task_holds := hholds
    flag := hflag
    before := (iff_of_false (fun ht => hthr' (.inl ht)) fun ht => hthr (.inl ht)).trans h.before
    unstarted := iff_of_false hp hthr'
    inTask := hrun
    passed := fun hpass => by simp [hpassed] at hpass
    hasJoined := fun hjoin => by simp [Waiter.passed_of_hasJoined hjoin] at hpassed
    asleep := hasleep
    isOver := h.isOver.trans hover }

/-- The thread enters the coroutine, or ends. -/
theorem Synced.step_thread (h : s.Synced done) (hs : s.Moves l s') (hl : l = .start ∨ l = .exit) :
    s'.Synced done := by
  cases hs with
  | start ht =>
    have hnot : s.task = .notStarted := h.unstarted.2 (.inr ht)
    rw [h.touch (by simp [hnot])]
    have hpassed : s.waiter.passed = false := Bool.eq_false_iff.2 fun hpass => by
      cases hnot.symm.trans (h.passed hpass)
    exact { h with
      task_holds := h.task_holds.trans (by rw [hnot]; simp [TaskPoint.holds])
      flag := h.flag.trans (by rw [hnot]; rfl)
      before := by simp [← h.before, ht]
      unstarted := by simp
      inTask := fun _ => rfl
      passed := fun hpass => by simp [hpassed] at hpass
      hasJoined := fun hjoin => by simp [Waiter.passed_of_hasJoined hjoin] at hpassed
      asleep := fun _ => rfl
      isOver := h.isOver.trans (by rw [hnot]; rfl) }
  | exit ht =>
    exact { h with
      before := by simp [← h.before, ht]
      unstarted := by simp [h.unstarted, ht]
      inTask := by simp
      hasJoined := fun _ => rfl }
  | _ => simp at hl

/-- The awaitable ends with `r`, which is put in its place. -/
theorem Synced.complete (h : s.Synced done) (r : Completion V E) (hp : s.task = .awaiting) :
    ({ s.store r with task := .completed } : SyncWait V E).Synced (done ++ [r]) := by
  have hnone : s.stored = none := by simpa [hp, TaskPoint.isOver] using h.isOver
  have hdone : done = [] := by rw [← h.stored, hnone, Option.toList_none]
  have hstored : (s.store r).stored = some r := by
    unfold SyncWait.stored at hnone
    cases he : s.exceptionPtr <;> cases hv : s.value <;> simp [he, hv] at hnone
    cases r <;> simp [SyncWait.stored, store, he]
  have hpassed : s.waiter.passed = false := Bool.eq_false_iff.2 fun hpass => by
    cases hp.symm.trans (h.passed hpass)
  have hsame : (s.store r).waiter = s.waiter ∧ (s.store r).thr = s.thr ∧ (s.store r).mtx = s.mtx ∧
      (s.store r).flag = s.flag ∧ (s.store r).faulted = s.faulted := by
    cases r <;> exact ⟨rfl, rfl, rfl, rfl, rfl⟩
  obtain ⟨hw, ht, hm, hf, hfault⟩ := hsame
  constructor <;> dsimp only <;> simp only [hw, ht, hm, hf, hfault]
  · exact h.waiter_holds
  · exact h.task_holds.trans (by rw [hp]; rfl)
  · exact h.flag.trans (by rw [hp]; rfl)
  · exact h.before
  · exact (iff_of_false (by simp) (by rw [← h.unstarted, hp]; simp))
  · exact fun _ => rfl
  · exact fun hpass => by simp [hpassed] at hpass
  · exact h.hasJoined
  · exact fun _ => rfl
  · rw [hdone, List.nil_append]
    exact congrArg Option.toList hstored
  · exact (congrArg Option.isSome hstored).trans rfl
  · intro r' hr
    rw [hr] at hpassed
    cases hpassed
  · exact h.faulted

/-- The coroutine takes a step in which the awaitable does not end. -/
theorem Synced.step_task (h : s.Synced done) (hs : s.Moves l s') (hl : l.ofWaiter = false)
    (hthread : ¬ (l = .start ∨ l = .exit)) (hc : l.completion = none) : s'.Synced done := by
  have hleave : s.leave.thr = s.thr ∨ s.leave.thr = .leaving := by
    unfold leave
    split_ifs <;> simp
  have hleft : s.leave.thr ≠ .inTask := by
    unfold leave
    split_ifs with ht <;> simp [ht]
  cases hs with
  | suspend hp =>
    exact h.moveTask .suspended s.leave.thr s.mtx s.flag (by simp [hp]) (by simp) hleave
      (fun ht => absurd ht hleft) .rfl (h.task_holds.trans (by rw [hp]; rfl))
      (h.flag.trans (by rw [hp]; rfl)) (fun _ => rfl) (by rw [hp]; rfl)
  | resume hp =>
    exact h.moveTask .awaiting s.thr s.mtx s.flag (by simp [hp]) (by simp) (.inl rfl)
      (fun _ => rfl) .rfl (h.task_holds.trans (by rw [hp]; rfl)) (h.flag.trans (by rw [hp]; rfl))
      (fun _ => rfl) (by rw [hp]; rfl)
  | taskLock hp hm =>
    rw [h.touch (by simp [hp])]
    exact h.moveTask .locked s.thr (some .task) s.flag (by simp [hp]) (by simp) (.inl rfl)
      (fun _ => rfl) (by simp [hm]) (by simp [TaskPoint.holds]) (h.flag.trans (by rw [hp]; rfl))
      (fun _ => rfl) (by rw [hp]; rfl)
  | setFlag hp =>
    rw [h.touch (by simp [hp])]
    exact h.moveTask .flagged s.thr s.mtx true (by simp [hp]) (by simp) (.inl rfl) (fun _ => rfl)
      .rfl (h.task_holds.trans (by rw [hp]; rfl)) rfl (fun _ => rfl) (by rw [hp]; rfl)
  | notifyAsleep hp hw =>
    rw [h.touch (by simp [hp])]
    have hm : s.mtx ≠ some .waiter := by simp [h.waiter_holds, hw, Waiter.holds]
    have h' := h.moveWaiter .waking s.mtx (by rw [hw]; rfl) (by simp [hm, Waiter.holds]) .rfl
      (by simp [Waiter.passed]) (by simp [Waiter.hasJoined]) (by simp) (by simp)
    exact h'.moveTask .notified s.thr s.mtx s.flag (by simp [hp]) (by simp) (.inl rfl)
      (fun _ => rfl) .rfl (h.task_holds.trans (by rw [hp]; rfl)) (h.flag.trans (by rw [hp]; rfl))
      (by simp) (by rw [hp]; rfl)
  | notify hp hw =>
    rw [h.touch (by simp [hp])]
    exact h.moveTask .notified s.thr s.mtx s.flag (by simp [hp]) (by simp) (.inl rfl)
      (fun _ => rfl) .rfl (h.task_holds.trans (by rw [hp]; rfl)) (h.flag.trans (by rw [hp]; rfl))
      (fun ha => absurd ha hw) (by rw [hp]; rfl)
  | unlock hp =>
    rw [h.touch (by simp [hp])]
    have hm : s.mtx = some .task := h.task_holds.2 (by rw [hp]; rfl)
    have hw : s.waiter ≠ .asleep := fun ha => by
      have := h.asleep ha
      rw [hp] at this
      cases this
    exact h.moveTask .ended s.leave.thr none s.flag (by simp [hp]) (by simp) hleave
      (fun ht => absurd ht hleft) (by simp [hm]) (by simp [TaskPoint.holds])
      (h.flag.trans (by rw [hp]; rfl)) (fun ha => absurd ha hw) (by rw [hp]; rfl)
  | start | exit => simp at hthread
  | complete => cases hc
  | _ => cases hl

theorem Synced.step (h : s.Synced done) (hs : s.step l = some s') :
    s'.Synced (done ++ l.completion.toList) := by
  have hmoves := step_cases hs
  cases hc : l.completion with
  | some r =>
    cases hmoves with
    | complete r' hp =>
      rw [h.touch (by simp [hp]), ← Option.some.inj hc]
      exact h.complete r' hp
    | _ => cases hc
  | none =>
    rw [Option.toList_none, List.append_nil]
    cases hl : l.ofWaiter with
    | true => exact h.step_waiter hmoves hl
    | false =>
      by_cases hthread : l = .start ∨ l = .exit
      · exact h.step_thread hmoves hthread
      · exact h.step_task hmoves hl hthread hc

/-! ## How many steps there are -/

/-- The steps left to the waiting function, to its thread and to the coroutine; the notification pays
for the wake-up. -/
def energy (s : SyncWait V E) : ℕ :=
  (match s.waiter with
    | .entered => 7
    | .locked => 6
    | .testing => 5
    | .asleep => 4
    | .waking => 6
    | .joining => 2
    | .joined => 1
    | .returned _ => 0) +
  (match s.thr with
    | .notStarted | .starting => 2
    | .inTask | .leaving => 1
    | .ended => 0) +
  match s.task with
  | .notStarted | .awaiting | .suspended | .completed => 6
  | .locked => 5
  | .flagged => 4
  | .notified => 1
  | .ended => 0

theorem Synced.energy_step (h : s.Synced done) (hs : s.step l = some s') :
    s'.energy + l.own.toNat ≤ s.energy + 2 * l.spurious.toNat := by
  cases step_cases hs with
  | ret hw =>
    obtain ⟨r, -, hfinish⟩ := h.finish_eq hw
    simp only [hfinish, energy, hw, SyncStep.own, SyncStep.spurious, Bool.toNat_true,
      Bool.toNat_false]
    omega
  | start ht =>
    have hnot : s.task = .notStarted := h.unstarted.2 (.inr ht)
    simp [h.touch (by simp [hnot]), energy, ht, hnot, SyncStep.own, SyncStep.spurious]
  | complete r hp =>
    cases r <;>
      simp [h.touch (by simp [hp]), store, energy, hp, SyncStep.own, SyncStep.spurious]
  | spawn hw =>
    have ht : s.thr = .notStarted := h.before.2 (by rw [hw]; rfl)
    simp only [energy, hw, ht, SyncStep.own, SyncStep.spurious, Bool.toNat_true, Bool.toNat_false]
    omega
  | notifyAsleep hp hw =>
    simp only [h.touch (by simp [hp]), energy, hp, hw, SyncStep.own, SyncStep.spurious,
      Bool.toNat_true, Bool.toNat_false]
    omega
  | taskLock hp | setFlag hp | notify hp =>
    simp [h.touch (by simp [hp]), energy, hp, SyncStep.own, SyncStep.spurious]
  | suspend hp | unlock hp =>
    simp only [h.touch (by simp [hp]), leave, energy, hp, SyncStep.own, SyncStep.spurious,
      Bool.toNat_true, Bool.toNat_false]
    cases s.thr <;> simp
  | lock hp | seen hp | sleep hp | wake hp | relock hp | join hp | exit hp | resume hp =>
    simp only [energy, hp, SyncStep.own, SyncStep.spurious, Bool.toNat_true, Bool.toNat_false]
    omega

/-! ## At rest -/

/-- When no thread can go on, the function has returned, or it sleeps without the lock and the awaitable
has not ended. -/
theorem Synced.resting (h : s.Synced done)
    (hrest : Resting (SyncWait.step (V := V) (E := E)) (fun _ l => l.own = true) s) :
    (∃ r, s.waiter = .returned r) ∨
      s.waiter = .asleep ∧ (s.task = .awaiting ∨ s.task = .suspended) := by
  obtain ⟨hwaiter, htask, hflag, hbefore, hunstarted, hinTask, hpassed, hjoined, hasleep, hstored,
    hover, hreturned, hfaulted⟩ := id h
  have hstarted : s.thr ≠ .starting := fun ht => by
    simpa [SyncWait.step, ht] using hrest .start rfl
  have hleft : s.thr ≠ .leaving := fun ht => by
    simpa [SyncWait.step, ht] using hrest .exit rfl
  -- the coroutine is not at one of its own steps, so it does not have the lock
  have hholds : s.task.holds = false := by
    cases hp : s.task with
    | locked => simpa [SyncWait.step, hp] using hrest .setFlag rfl
    | flagged => simpa [SyncWait.step, hp] using hrest .notify rfl
    | notified => simpa [SyncWait.step, hp] using hrest .unlock rfl
    | _ => rfl
  have hfree : s.waiter.holds = false → s.mtx = none := fun hw => by
    rcases hm : s.mtx with _ | _ | _
    · rfl
    · rw [hwaiter.1 hm] at hw
      cases hw
    · rw [htask.1 hm] at hholds
      cases hholds
  cases hw : s.waiter with
  | returned r => exact .inl ⟨r, rfl⟩
  | entered => simpa [SyncWait.step, hw, hfree (by rw [hw]; rfl)] using hrest .lock rfl
  | locked => simpa [SyncWait.step, hw] using hrest .spawn rfl
  | testing =>
    have hnone := hrest .test rfl
    simp only [SyncWait.step, hw] at hnone
    split at hnone <;> cases hnone
  | waking => simpa [SyncWait.step, hw, hfree (by rw [hw]; rfl)] using hrest .relock rfl
  | joined => simpa [SyncWait.step, hw] using hrest .ret rfl
  | joining =>
    have hended : s.task = .ended := hpassed (by rw [hw]; rfl)
    cases ht : s.thr with
    | ended => simpa [SyncWait.step, hw, ht] using hrest .join rfl
    | notStarted => cases hended.symm.trans (hunstarted.2 (.inl ht))
    | starting => exact absurd ht hstarted
    | leaving => exact absurd ht hleft
    | inTask =>
      have hrunning := hinTask ht
      rw [hended] at hrunning
      cases hrunning
  | asleep =>
    refine .inr ⟨rfl, ?_⟩
    have hwakes := hasleep hw
    cases hp : s.task with
    | awaiting => exact .inl rfl
    | suspended => exact .inr rfl
    | notStarted =>
      rcases hunstarted.1 hp with ht | ht
      · have := hbefore.1 ht
        rw [hw] at this
        cases this
      · exact absurd ht hstarted
    | completed => simpa [SyncWait.step, hp, hfree (by rw [hw]; rfl)] using hrest .taskLock rfl
    | locked | flagged | notified =>
      rw [hp] at hholds
      cases hholds
    | ended =>
      rw [hp] at hwakes
      cases hwakes

end SyncWait

/-! ## Every run -/

open SyncWait

/-- In every run of `sync_wait`, in whatever order the calling thread, its helper thread and the thread
that resumes the coroutine take their steps, and however often the wait returns for nothing:

* no local is used after the function has returned, and it finds a result;
* when it has returned, it has returned what the awaitable ended with, the coroutine has ended, `thr`
  has been joined, and the mutex is free;
* apart from the awaitable and the wake-ups for nothing there are at most fifteen steps, and two more
  for each of those wake-ups;
* when no thread can go on, the function has returned, unless the awaitable has not ended. -/
theorem sync_wait_returns {ls : List (SyncStep V E)} {s : SyncWait V E}
    (hrun : run SyncWait.step .init ls = some s) :
    s.faulted = false ∧
    (∀ r, s.waiter = .returned r → ls.filterMap SyncStep.completion = [r] ∧ s.task = .ended ∧
      s.thr = .ended ∧ s.mtx = none) ∧
    ls.countP SyncStep.own ≤ 15 + 2 * ls.countP SyncStep.spurious ∧
    (Resting SyncWait.step (fun _ l => l.own = true) s →
      (∃ r, s.waiter = .returned r) ∨ ls.filterMap SyncStep.completion = []) := by
  have hsynced : s.Synced (ls.filterMap SyncStep.completion) := by
    refine run_induction (P := fun ls s => s.Synced (ls.filterMap SyncStep.completion)) synced_init
      (fun ls s l s' h hs => ?_) hrun
    rw [List.filterMap_append]
    have := h.step hs
    cases hl : l.completion <;> simpa [hl] using this
  refine ⟨hsynced.faulted, fun r hr => ?_, ?_, fun hrest => ?_⟩
  · have hended := hsynced.passed (by rw [hr]; rfl)
    refine ⟨hsynced.returned r hr, hended, hsynced.hasJoined (by rw [hr]; rfl), ?_⟩
    rcases hm : s.mtx with _ | _ | _
    · rfl
    · have := hsynced.waiter_holds.1 hm
      rw [hr] at this
      cases this
    · have := hsynced.task_holds.1 hm
      rw [hended] at this
      cases this
  · have hle := countP_le_of_energy (I := fun s : SyncWait V E => ∃ done, s.Synced done)
      (m := energy) (p := SyncStep.own) (q := SyncStep.spurious) (c := 2)
      (fun s l s' ⟨done, h⟩ hs => ⟨⟨_, h.step hs⟩, h.energy_step hs⟩) ⟨_, synced_init⟩ hrun
    have hinit : (init : SyncWait V E).energy = 15 := rfl
    omega
  · refine (hsynced.resting hrest).imp id fun ⟨_, hp⟩ => ?_
    have hnone : s.stored = none := by
      have := hsynced.isOver
      rcases hp with hp | hp <;> rw [hp] at this <;> simpa [TaskPoint.isOver] using this
    rw [← hsynced.stored, hnone]
    rfl

/-- The coroutine is suspended, the wait returns for nothing, and another thread resumes the
coroutine. -/
def resumedElsewhere : List (SyncStep ℕ Unit) :=
  [.lock, .spawn, .test, .start, .suspend, .wake, .exit, .relock, .resume, .complete (.value 7),
    .test, .taskLock, .setFlag, .notify, .unlock, .relock, .test, .join, .ret]

theorem sync_wait_returns_resumed :
    ∃ s, run SyncWait.step .init resumedElsewhere = some s ∧ s.waiter = .returned (.value 7) ∧
      s.faulted = false ∧ s.task = .ended ∧ s.mtx = none := by
  obtain ⟨s, hs, hw⟩ := Option.map_eq_some_iff.1
    (show (run SyncWait.step .init resumedElsewhere).map SyncWait.waiter =
      some (.returned (.value 7)) from rfl)
  obtain ⟨hsafe, hreturned, -⟩ := sync_wait_returns hs
  obtain ⟨-, htask, -, hmtx⟩ := hreturned _ hw
  exact ⟨s, hs, hw, hsafe, htask, hmtx⟩

end EllohimMQ
