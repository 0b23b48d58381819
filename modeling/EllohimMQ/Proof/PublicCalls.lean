import EllohimMQ.Lib.Transition
import EllohimMQ.Model.AsyncPool

/-!
# Every order of the public calls

The queues, their mutexes and `num_threads` are always of one number (`Level`).  Between a `start` or a
`run` and the next one nothing changes it (`Frame`), and an index below it is safe; what remains is what
happens before the first of them, at each of them, and in the workers that outlive one.
-/

namespace EllohimMQ

namespace AsyncPool

variable {s s' s'' : AsyncPool}

/-! ## What does not change -/

/-- As many queues and mutexes as threads. -/
structure Level (s : AsyncPool) : Prop where
  mutexes : s.localQueueMutexes = s.numThreads
  queues : s.localTaskQueues.length = s.numThreads

/-- The number of threads stays, nothing is discarded, and there is no fault where the scheduler is
set up. -/
structure Frame (s s' : AsyncPool) : Prop where
  numThreads : s'.numThreads = s.numThreads
  mutexes : s'.localQueueMutexes = s.localQueueMutexes
  queues : s'.localTaskQueues.length = s.localTaskQueues.length
  discarded : s'.discarded = s.discarded
  inRun : s'.inRun = true → s.inRun = true
  sound : s.Level → 0 < s.numThreads → s'.faulted = s.faulted

theorem Frame.refl (s : AsyncPool) : Frame s s := ⟨rfl, rfl, rfl, rfl, id, fun _ _ => rfl⟩

theorem Frame.level (h : Frame s s') (hl : s.Level) : s'.Level :=
  ⟨h.mutexes.trans (hl.mutexes.trans h.numThreads.symm),
    h.queues.trans (hl.queues.trans h.numThreads.symm)⟩

theorem Frame.trans (h : Frame s s') (h' : Frame s' s'') : Frame s s'' where
  numThreads := h'.numThreads.trans h.numThreads
  mutexes := h'.mutexes.trans h.mutexes
  queues := h'.queues.trans h.queues
  discarded := h'.discarded.trans h.discarded
  inRun := h.inRun ∘ h'.inRun
  sound hl hpos := (h'.sound (h.level hl) (h.numThreads ▸ hpos)).trans (h.sound hl hpos)

theorem frame_modifyQueue (s : AsyncPool) (i : ℕ) (f : List Address → List Address) :
    Frame s (s.modifyQueue i f) :=
  ⟨rfl, rfl, List.length_modify .., rfl, id, fun _ _ => rfl⟩

/-- A fault that the set-up rules out. -/
theorem frame_fault (h : s.Level → 0 < s.numThreads → False) : Frame s s.fault :=
  ⟨rfl, rfl, rfl, rfl, id, fun hl hpos => (h hl hpos).elim⟩

theorem frame_distribute {push : AsyncPool → ℕ → AsyncPool} (hpush : ∀ s i, Frame s (push s i))
    (s : AsyncPool) : Frame s (s.distribute push) := by
  rw [distribute]
  dsimp only
  split_ifs with hzero hindex
  · exact frame_fault fun _ hpos => by omega
  · have hcount : Frame s { s with nextThreadIdx := s.nextThreadIdx + 1 } :=
      ⟨rfl, rfl, rfl, rfl, id, fun _ _ => rfl⟩
    exact hcount.trans (hpush ..)
  · refine ⟨rfl, rfl, rfl, rfl, id, fun hl hpos => absurd ?_ hindex⟩
    have hlt := Nat.mod_lt s.nextThreadIdx.toNat hpos
    exact ⟨hl.mutexes ▸ hlt, hl.queues ▸ hlt⟩

theorem frame_each {B : Type} {f : AsyncPool → B → AsyncPool} (hf : ∀ s b, Frame s (f s b))
    (s : AsyncPool) (bs : List B) : Frame s (each f s bs) := by
  induction bs generalizing s with
  | nil => exact .refl s
  | cons b bs ih =>
    rw [each]
    split_ifs
    · exact .refl s
    · exact (hf s b).trans (ih _)

theorem frame_schedule (s : AsyncPool) (h : Option Address) : Frame s (s.schedule h) := by
  cases h with
  | none => exact .refl s
  | some h =>
    rw [schedule]
    split_ifs
    · exact .refl s
    · refine frame_distribute (fun s i => ?_) s
      rw [insert]
      cases s.handleRefs h with
      | none => exact ⟨rfl, rfl, List.length_modify .., rfl, id, fun _ _ => rfl⟩
      | some n => exact .refl s

theorem frame_cleanupHandle (s : AsyncPool) (h : Option Address) : Frame s (s.cleanupHandle h) := by
  cases h with
  | none => exact .refl s
  | some h => exact ⟨rfl, rfl, rfl, rfl, id, fun _ _ => rfl⟩

theorem frame_act (s : AsyncPool) (a : AsyncAct) : Frame s (s.act a) := by
  cases a with
  | create h | finish h => exact ⟨rfl, rfl, rfl, rfl, id, fun _ _ => rfl⟩
  | schedule h => exact frame_schedule s h
  | scheduleAfter delay h =>
    rw [act]
    cases h with
    | none => exact .refl s
    | some h =>
      rw [scheduleAfter]
      split_ifs
      · exact .refl s
      · exact ⟨rfl, rfl, rfl, rfl, id, fun _ _ => rfl⟩
  | cleanupHandle h => exact frame_cleanupHandle s h

/-! ## A tick -/

theorem frame_processDelayedTasks (s : AsyncPool) : Frame s s.processDelayedTasks := by
  refine Frame.trans ?_ (frame_each (fun s h => ?_) _ _)
  · exact ⟨rfl, rfl, rfl, rfl, id, fun _ _ => rfl⟩
  · rw [moveReady]
    split_ifs
    · exact .refl s
    · exact frame_distribute (fun s i => frame_modifyQueue s i _) s

theorem frame_processCleanupTasks (s : AsyncPool) : Frame s s.processCleanupTasks := by
  refine Frame.trans ?_ (frame_each (fun s h => ?_) _ _)
  · exact ⟨rfl, rfl, rfl, rfl, id, fun _ _ => rfl⟩
  · rw [release]
    cases s.handleRefs h with
    | none => exact .refl s
    | some n => exact ⟨rfl, rfl, rfl, rfl, id, fun _ _ => rfl⟩

theorem frame_steal (s : AsyncPool) (threadIdx : ℕ) (busy : List ℕ) {is : List ℕ}
    (his : ∀ i ∈ is, i < s.numThreads) : Frame s (s.steal threadIdx busy is).1 := by
  induction is with
  | nil => exact .refl s
  | cons i is ih =>
    rw [List.forall_mem_cons] at his
    rw [steal]
    split_ifs with hself hindex hbusy
    · exact ih his.2
    · split <;> exact ih his.2
    · split
      · exact ih his.2
      · exact frame_modifyQueue ..
    · exact frame_fault fun hl _ => hindex ⟨hl.mutexes ▸ his.1, hl.queues ▸ his.1⟩

theorem frame_getNextTask {threadIdx : ℕ} (h : threadIdx < s.numThreads) (busy : List ℕ) :
    Frame s (s.getNextTask threadIdx busy).1 := by
  rw [getNextTask]
  split_ifs with hindex
  · split
    · exact frame_modifyQueue ..
    · exact frame_steal s threadIdx busy fun i hi => List.mem_range.1 hi
  · exact frame_fault fun hl _ => hindex ⟨hl.mutexes ▸ h, hl.queues ▸ h⟩

theorem frame_resume (s : AsyncPool) (h : Address) (r : Resumption) : Frame s (s.resume h r) := by
  rw [resume]
  dsimp only
  split_ifs
  · exact .refl s
  · exact (frame_each frame_act s r.acts).trans (frame_cleanupHandle ..)
  · exact frame_each frame_act s r.acts

/-- A tick of a worker that has a queue. -/
theorem frame_tickImpl {threadIdx : ℕ} (h : threadIdx < s.numThreads) (r : Resumption) :
    Frame s (s.tickImpl threadIdx r) := by
  have hdelayed := frame_processDelayedTasks s
  have hnext := frame_getNextTask (hdelayed.numThreads ▸ h) r.busy
  rw [tickImpl]
  split_ifs
  · exact hdelayed
  · refine (hdelayed.trans hnext).trans ?_
    cases hget : s.processDelayedTasks.getNextTask threadIdx r.busy with
    | mk s₁ next =>
      cases next with
      | some h => exact frame_resume s₁ h r
      | none =>
        dsimp only
        split_ifs
        · exact .refl _
        · exact frame_processCleanupTasks _

/-! ## Safety -/

/-- No remainder by zero was taken, no queue used that is not there, and no handle in a queue
discarded. -/
structure Safe (s : AsyncPool) : Prop where
  sound : s.faulted = false
  kept : s.discarded = []

/-- A handle that is scheduled needs a queue. -/
def ActFits (s : AsyncPool) : AsyncAct → Prop
  | .schedule (some h) => s.done h = true ∨ s.numThreads ≠ 0
  | .create _ | .finish _ | .schedule none | .scheduleAfter _ _ | .cleanupHandle _ => True

/-- The queues from the `n`-th on are empty. -/
def EmptyFrom (s : AsyncPool) (n : ℕ) : Prop := ∀ queue ∈ s.localTaskQueues.drop n, queue = []

/-- What a call needs of the state: `schedule` that there are threads; `start` and `run` that the queues
that they cut off are empty, and `run_sync` that they are after its `schedule`; and a worker that there
is a queue of its own. -/
def Fits (s : AsyncPool) : AsyncCall → Prop
  | .act a => s.ActFits a
  | .start maxThread => s.running = true ∨ s.EmptyFrom maxThread
  | .run => s.EmptyFrom 1
  | .runSync (some h) =>
    s.EmptyFrom 1 ∧ (s.done h = true ∨ s.numThreads ≠ 0 ∧
      (s.handleRefs h = none → s.nextThreadIdx.toNat % s.numThreads = 0))
  | .tick threadIdx _ => threadIdx < s.numThreads
  | .time _ | .stop | .runSync none | .turn _ | .ended _ => True

instance (s : AsyncPool) (n : ℕ) : Decidable (s.EmptyFrom n) :=
  inferInstanceAs (Decidable (∀ queue ∈ s.localTaskQueues.drop n, queue = []))

instance (s : AsyncPool) : ∀ a, Decidable (s.ActFits a)
  | .schedule (some h) => inferInstanceAs (Decidable (s.done h = true ∨ s.numThreads ≠ 0))
  | .create _ | .finish _ | .schedule none | .scheduleAfter _ _ | .cleanupHandle _ => isTrue trivial

instance (s : AsyncPool) : ∀ l, Decidable (s.Fits l)
  | .act a => inferInstanceAs (Decidable (s.ActFits a))
  | .start maxThread => inferInstanceAs (Decidable (s.running = true ∨ s.EmptyFrom maxThread))
  | .run => inferInstanceAs (Decidable (s.EmptyFrom 1))
  | .runSync (some h) =>
    inferInstanceAs (Decidable (s.EmptyFrom 1 ∧ (s.done h = true ∨ s.numThreads ≠ 0 ∧
      (s.handleRefs h = none → s.nextThreadIdx.toNat % s.numThreads = 0))))
  | .tick threadIdx _ => inferInstanceAs (Decidable (threadIdx < s.numThreads))
  | .time _ | .stop | .runSync none | .turn _ | .ended _ => isTrue trivial

/-- The set-up, and that `run` works with one thread. -/
structure Inv (s : AsyncPool) : Prop where
  level : s.Level
  inRun : s.inRun = true → s.numThreads = 1

theorem Inv.of_frame (hi : Inv s) (h : Frame s s') : Inv s' :=
  ⟨h.level hi.level, fun hrun => h.numThreads.trans (hi.inRun (h.inRun hrun))⟩

theorem safe_congr (hfaulted : s'.faulted = s.faulted) (hdiscarded : s'.discarded = s.discarded) :
    Safe s' ↔ Safe s := by
  constructor <;> rintro ⟨hsound, hkept⟩
  · exact ⟨hfaulted ▸ hsound, hdiscarded ▸ hkept⟩
  · exact ⟨hfaulted.trans hsound, hdiscarded.trans hkept⟩

theorem Frame.safe_iff (h : Frame s s') (hl : s.Level) (hpos : 0 < s.numThreads) :
    Safe s' ↔ Safe s := safe_congr (h.sound hl hpos) h.discarded

theorem not_safe_of_faulted (h : s.faulted = true) : ¬ Safe s := fun hs => by
  cases h.symm.trans hs.sound

theorem level_resize (s : AsyncPool) (n : ℕ) : Level (s.resize n) := by
  constructor
  · rfl
  · simp only [resize, List.length_append, List.length_take, List.length_replicate]
    omega

theorem safe_resize_iff {n : ℕ} : Safe (s.resize n) ↔ Safe s ∧ s.EmptyFrom n := by
  have hflat : (s.localTaskQueues.drop n).flatten = [] ↔ s.EmptyFrom n := List.flatten_eq_nil_iff
  constructor
  · rintro ⟨hsound, hkept⟩
    obtain ⟨hold, hcut⟩ := List.append_eq_nil_iff.1 hkept
    exact ⟨⟨hsound, hold⟩, hflat.1 hcut⟩
  · rintro ⟨⟨hsound, hkept⟩, hempty⟩
    exact ⟨hsound, List.append_eq_nil_iff.2 ⟨hkept, hflat.2 hempty⟩⟩

theorem safe_schedule_iff (hl : s.Level) (h : Address) :
    Safe (s.schedule (some h)) ↔ Safe s ∧ (s.done h = true ∨ s.numThreads ≠ 0) := by
  by_cases hdone : s.done h = true
  · rw [schedule, if_pos hdone, and_iff_left (.inl hdone)]
  by_cases hzero : s.numThreads = 0
  · rw [schedule, if_neg hdone, distribute, if_pos hzero]
    refine iff_of_false (not_safe_of_faulted rfl) ?_
    rintro ⟨-, hor⟩
    exact hor.elim hdone fun hne => hne hzero
  · rw [and_iff_left (.inr hzero)]
    exact (frame_schedule s (some h)).safe_iff hl (by omega)

theorem safe_act_iff (hl : s.Level) (a : AsyncAct) : Safe (s.act a) ↔ Safe s ∧ s.ActFits a := by
  cases a with
  | create h | finish h =>
    refine Iff.trans ?_ (and_iff_left trivial).symm
    exact safe_congr rfl rfl
  | schedule h =>
    cases h with
    | none => exact (and_iff_left trivial).symm
    | some h => exact safe_schedule_iff hl h
  | scheduleAfter delay h =>
    refine Iff.trans ?_ (and_iff_left trivial).symm
    cases h with
    | none => rfl
    | some h =>
      rw [act, scheduleAfter]
      split_ifs
      · rfl
      · exact safe_congr rfl rfl
  | cleanupHandle h =>
    refine Iff.trans ?_ (and_iff_left trivial).symm
    cases h with
    | none => rfl
    | some h => exact safe_congr rfl rfl

/-- A handle at the end of a queue leaves the queues behind the first empty if it is in the first. -/
theorem forall_drop_modify_iff {queues : List (List Address)} {i : ℕ} (hi : i < queues.length)
    (h : Address) : (∀ queue ∈ (queues.modify i (· ++ [h])).drop 1, queue = []) ↔
      (∀ queue ∈ queues.drop 1, queue = []) ∧ i = 0 := by
  cases queues with
  | nil => exact absurd hi (Nat.not_lt_zero i)
  | cons queue queues =>
    cases i with
    | zero =>
      rw [List.modify_zero_cons, and_iff_left rfl]
      rfl
    | succ i =>
      refine iff_of_false (fun hempty => ?_) fun hand => Nat.succ_ne_zero i hand.2
      rw [List.modify_succ_cons, List.drop_one, List.tail_cons] at hempty
      have hlt : i < (queues.modify i (· ++ [h])).length := by
        rw [List.length_modify]
        exact Nat.lt_of_succ_lt_succ hi
      have hlast := hempty _ (List.getElem_mem hlt)
      rw [List.getElem_modify, if_pos rfl] at hlast
      exact List.append_ne_nil_of_right_ne_nil _ (List.cons_ne_nil h []) hlast

/-- What a scheduled handle does to the queues behind the first. -/
theorem emptyFrom_schedule_iff (hl : s.Level) {h : Address} (hdone : s.done h = false)
    (hpos : 0 < s.numThreads) : (s.schedule (some h)).EmptyFrom 1 ↔ s.EmptyFrom 1 ∧
      (s.handleRefs h = none → s.nextThreadIdx.toNat % s.numThreads = 0) := by
  have hlt := Nat.mod_lt s.nextThreadIdx.toNat hpos
  have hqueues : s.nextThreadIdx.toNat % s.numThreads < s.localTaskQueues.length := hl.queues ▸ hlt
  rw [schedule, hdone, if_neg Bool.false_ne_true, distribute, if_neg (by omega)]
  dsimp only
  rw [if_pos ⟨hl.mutexes ▸ hlt, hqueues⟩, insert]
  dsimp only
  cases hrefs : s.handleRefs h with
  | some n => exact (and_iff_left nofun).symm
  | none => exact (forall_drop_modify_iff hqueues h).trans (and_congr_right' (by simp))

/-! ## The steps -/

theorem safe_runImpl_iff : Safe s.runImpl ↔ Safe s ∧ s.EmptyFrom 1 :=
  Iff.trans (safe_congr (s := s.resize 1) rfl rfl) safe_resize_iff

theorem safe_runSync_iff (hl : s.Level) (hf : s.faulted = false) (h : Option Address) :
    Safe (s.runSync h) ↔ Safe s ∧ s.Fits (.runSync h) := by
  cases h with
  | none => exact (and_iff_left trivial).symm
  | some h =>
    rw [runSync]
    cases hdone : s.done h with
    | true =>
      have hself : s.schedule (some h) = s := by rw [schedule, if_pos hdone]
      rw [hself, if_neg (ne_true_of_eq_false hf), safe_runImpl_iff]
      exact and_congr_right' (and_iff_left (.inl hdone)).symm
    | false =>
      have hnot : ¬ s.done h = true := ne_true_of_eq_false hdone
      rw [Fits, or_iff_right hnot]
      by_cases hzero : s.numThreads = 0
      · have hfault : (s.schedule (some h)).faulted = true := by
          rw [schedule, if_neg hnot, distribute, if_pos hzero]
          rfl
        rw [if_pos hfault]
        exact iff_of_false (not_safe_of_faulted hfault) fun hand => hand.2.2.1 hzero
      · have hpos : 0 < s.numThreads := by omega
        have hframe := frame_schedule s (some h)
        have hsound := (hframe.sound hl hpos).trans hf
        rw [if_neg (ne_true_of_eq_false hsound), safe_runImpl_iff,
          hframe.safe_iff hl hpos, emptyFrom_schedule_iff hl hdone hpos, and_iff_right hzero]

/-- A worker that has no queue faults. -/
theorem faulted_tickImpl (hl : s.Level) {threadIdx : ℕ} (h : ¬ threadIdx < s.numThreads)
    (r : Resumption) : (s.tickImpl threadIdx r).faulted = true := by
  have hframe := frame_processDelayedTasks s
  rw [tickImpl]
  split_ifs with hfaulted
  · exact hfaulted
  · have hget : s.processDelayedTasks.getNextTask threadIdx r.busy =
        (s.processDelayedTasks.fault, none) := by
      rw [getNextTask, if_neg]
      rintro ⟨hmutex, -⟩
      rw [(hframe.level hl).mutexes, hframe.numThreads] at hmutex
      exact h hmutex
    rw [hget]
    rfl

theorem safe_tickImpl_iff (hl : s.Level) (threadIdx : ℕ) (r : Resumption) :
    Safe (s.tickImpl threadIdx r) ↔ Safe s ∧ threadIdx < s.numThreads := by
  by_cases hlt : threadIdx < s.numThreads
  · rw [and_iff_left hlt]
    exact (frame_tickImpl hlt r).safe_iff hl (by omega)
  · exact iff_of_false (not_safe_of_faulted (faulted_tickImpl hl hlt r)) fun hand => hlt hand.2

theorem frame_turn (hi : Inv s) (hrun : s.inRun = true) (r : Resumption) : Frame s (s.turn r) := by
  have hpos : 0 < s.numThreads := by rw [hi.inRun hrun]; exact Nat.one_pos
  have hdelayed := frame_processDelayedTasks s
  have hboth := hdelayed.trans (frame_processCleanupTasks s.processDelayedTasks)
  rw [turn, if_pos ⟨hi.level.mutexes ▸ hpos, hi.level.queues ▸ hpos⟩]
  dsimp only
  split_ifs
  · exact hdelayed
  · exact hboth.trans (frame_tickImpl (hboth.numThreads ▸ hpos) r)
  · refine hboth.trans ⟨rfl, rfl, rfl, rfl, nofun, fun _ _ => rfl⟩
  · exact hboth

theorem safe_startImpl_iff (maxThread : ℕ) :
    Safe (s.startImpl maxThread) ↔ Safe s ∧ s.Fits (.start maxThread) := by
  rw [startImpl, Fits]
  split_ifs with hrunning
  · exact (and_iff_left (.inl hrunning)).symm
  · rw [or_iff_right hrunning, ← safe_resize_iff]
    exact safe_congr rfl rfl

/-- What a step does. -/
inductive Stepped (s : AsyncPool) : AsyncCall → AsyncPool → Prop where
  | time (t : TimePoint) (h : s.clock ≤ t) : Stepped s (.time t) { s with clock := t }
  | act (a : AsyncAct) (h : s.inRun = false) : Stepped s (.act a) (s.act a)
  | start (maxThread : ℕ) (h : s.inRun = false) :
      Stepped s (.start maxThread) (s.startImpl maxThread)
  | stop (h : s.inRun = false) : Stepped s .stop s.stopImpl
  | run (h : s.inRun = false) : Stepped s .run s.runImpl
  | runSync (g : Option Address) (h : s.inRun = false) : Stepped s (.runSync g) (s.runSync g)
  | turn (r : Resumption) (h : s.inRun = true) : Stepped s (.turn r) (s.turn r)
  | tick (threadIdx : ℕ) (r : Resumption) (h : s.running = true ∧ threadIdx ∈ s.threads) :
      Stepped s (.tick threadIdx r) (s.tickImpl threadIdx r)
  | ended (threadIdx : ℕ) (h : s.running = false ∧ threadIdx ∈ s.threads) :
      Stepped s (.ended threadIdx) { s with threads := s.threads.erase threadIdx }

theorem stepped {l : AsyncCall} (h : step s l = some s') : s.faulted = false ∧ Stepped s l s' := by
  unfold step at h
  by_cases hfaulted : s.faulted = true
  · rw [if_pos hfaulted] at h
    cases h
  · rw [if_neg hfaulted] at h
    refine ⟨Bool.not_eq_true _ ▸ hfaulted, ?_⟩
    cases l <;>
      simp only [Option.ite_none_right_eq_some, Option.ite_none_left_eq_some, Bool.not_eq_true,
        Option.some.injEq] at h <;>
      obtain ⟨hguard, rfl⟩ := h
    · exact .time _ hguard
    · exact .act _ hguard
    · exact .start _ hguard
    · exact .stop hguard
    · exact .run hguard
    · exact .runSync _ hguard
    · exact .turn _ hguard
    · exact .tick _ _ hguard
    · exact .ended _ hguard

/-- Each step keeps the scheduler safe exactly when it fits. -/
theorem safe_step_iff (hi : Inv s) {l : AsyncCall} (h : step s l = some s') :
    Safe s' ↔ Safe s ∧ s.Fits l := by
  obtain ⟨hfaulted, hstep⟩ := stepped h
  cases hstep with
  | time | stop | ended =>
    rw [Fits, and_true]
    exact safe_congr rfl rfl
  | act a => exact safe_act_iff hi.level a
  | start maxThread => exact safe_startImpl_iff maxThread
  | run => exact safe_runImpl_iff
  | runSync g => exact safe_runSync_iff hi.level hfaulted g
  | turn r hrun =>
    have hpos : 0 < s.numThreads := by rw [hi.inRun hrun]; exact Nat.one_pos
    rw [Fits, and_true]
    exact (frame_turn hi hrun r).safe_iff hi.level hpos
  | tick threadIdx r => exact safe_tickImpl_iff hi.level threadIdx r

theorem inv_runImpl (s : AsyncPool) : Inv s.runImpl :=
  ⟨⟨rfl, (level_resize s 1).queues⟩, fun _ => rfl⟩

/-- The set-up holds in every state that is reached without a fault. -/
theorem inv_step (hi : s.faulted = true ∨ Inv s) {l : AsyncCall} (h : step s l = some s') :
    s'.faulted = true ∨ Inv s' := by
  obtain ⟨hfaulted, hstep⟩ := stepped h
  replace hi := hi.resolve_left (ne_true_of_eq_false hfaulted)
  cases hstep with
  | time | stop | ended => exact .inr ⟨⟨hi.level.mutexes, hi.level.queues⟩, hi.inRun⟩
  | act a => exact .inr (hi.of_frame (frame_act s a))
  | start maxThread hrun =>
    rw [startImpl]
    split_ifs
    · exact .inr hi
    · refine .inr ⟨⟨rfl, (level_resize s maxThread).queues⟩, fun hrun' => ?_⟩
      cases hrun.symm.trans hrun'
  | run => exact .inr (inv_runImpl s)
  | runSync g =>
    cases g with
    | none => exact .inr hi
    | some g =>
      rw [runSync]
      split_ifs with hfault
      · exact .inl hfault
      · exact .inr (inv_runImpl _)
  | turn r hrun => exact .inr (hi.of_frame (frame_turn hi hrun r))
  | tick threadIdx r =>
    by_cases hlt : threadIdx < s.numThreads
    · exact .inr (hi.of_frame (frame_tickImpl hlt r))
    · exact .inl (faulted_tickImpl hi.level hlt r)

theorem inv_init (clock : TimePoint) (done : Address → Bool) : Inv (init clock done) :=
  ⟨⟨rfl, rfl⟩, nofun⟩

/-- The scheduler is safe after a run of calls and ticks exactly when every step of it fits. -/
theorem safe_iff_fits (clock : TimePoint) (done : Address → Bool) (calls : List AsyncCall)
    (hrun : Transition.run step (init clock done) calls = some s) :
    Safe s ↔ Transition.Admissible step Fits (init clock done) calls := by
  have hinit : Safe (init clock done) := ⟨rfl, rfl⟩
  refine Iff.trans ?_ (and_iff_right hinit)
  refine Transition.iff_admissible_of_invariant (I := fun s => s.faulted = true ∨ Inv s)
    (fun _ _ _ hi h => inv_step hi h) (fun s l s' hi h => ?_) (.inr (inv_init clock done)) hrun
  have hsound := (stepped h).1
  exact safe_step_iff (hi.resolve_left (ne_true_of_eq_false hsound)) h

/-- A coroutine that ends on one of two workers, and a new start with one. -/
def restart : List AsyncCall :=
  [.start 2, .act (.schedule (some 8)),
    .tick 0 { busy := [], acts := [.finish 8, .cleanupHandle (some 8)], threw := false },
    .stop, .start 1, .act (.schedule (some 16))]

theorem safe_restart : Safe ((Transition.run step (init 0 fun _ => false) restart).getD
    (init 0 fun _ => false)) :=
  (safe_iff_fits 0 (fun _ => false) restart rfl).2 (by decide)

/-- `run_sync` on a scheduler that nothing has set up takes a remainder by zero. -/
theorem not_safe : ¬ ∀ (clock : TimePoint) (done : Address → Bool) (calls : List AsyncCall)
    (s : AsyncPool), Transition.run step (init clock done) calls = some s → Safe s := by
  intro hsafe
  have hfresh := hsafe 0 (fun _ => false) [.runSync (some 8)] _ rfl
  cases hfresh.sound

end AsyncPool

end EllohimMQ
