import EllohimMQ.Lib.Transition
import EllohimMQ.Proof.AsyncMoves
import Mathlib.Data.List.Count

/-!
# No handle of `async.hpp` is in two places

A frame has room for its handle in one place: parked while the coroutine is suspended, running while
it runs, and in its final awaiter until that has completed the state.  `Single` says that the handles
fit; the steps keep it (`Single.step`) as long as they meet `Sound`, which says where a push, a
clean-up and the use of a handle from the program have to find the frame.
-/

namespace EllohimMQ

open Transition

/-- The handle in a place. -/
def Place.address : Place → Address
  | .parked a => a
  | .running a => a
  | .finishing a => a

/-- How often the handle of the frame may be in a place. -/
def PromiseFrame.room (f : PromiseFrame) (completed : Bool) : Place → ℕ
  | .parked _ => if f.point.suspended = true then 1 else 0
  | .running _ => if f.point = .running then 1 else 0
  | .finishing _ => if f.point = .finalSuspend ∧ completed = false then 1 else 0

namespace AsyncScheduler

/-- State `k` is completed. -/
def completed (s : AsyncScheduler) (k : ℕ) : Bool :=
  ((s.states[k]?).map CoroutineState.completed).getD false

/-- How often a handle may be in a place. -/
def room (s : AsyncScheduler) (p : Place) : ℕ :=
  match s.memory p.address with
  | none => 0
  | some f => f.room (s.completed f.state) p

/-! ## Counting handles -/

section

variable {s s' : AsyncScheduler} {t : ℕ} {x y : ThreadPoint}

theorem count_places (s : AsyncScheduler) (p : Place) :
    s.places.count p = (s.queued.map .parked).count p +
      (s.threads.flatMap ThreadPoint.places).count p + (s.waiting.map .parked).count p := by
  simp only [places, List.count_append]

theorem count_threads (s' : AsyncScheduler) (hx : s.threads[t]? = some x)
    (ht : s'.threads = s.threads.set t y) (p : Place) :
    (s'.threads.flatMap ThreadPoint.places).count p + x.places.count p =
      (s.threads.flatMap ThreadPoint.places).count p + y.places.count p := by
  rw [ht]
  exact Table.count_flatMap_set hx y ThreadPoint.places p

/-- What thread `t` gives up and takes, when the rest stays as it is. -/
theorem count_setThread (s' : AsyncScheduler) (hx : s.threads[t]? = some x)
    (ht : s'.threads = s.threads.set t y) (hq : s'.queued = s.queued) (hw : s'.waiting = s.waiting)
    (p : Place) :
    s'.places.count p + x.places.count p = s.places.count p + y.places.count p := by
  have h := count_threads s' hx ht p
  rw [count_places, count_places, hq, hw]
  omega

theorem count_pos (hx : s.threads[t]? = some x) {p : Place} (hp : p ∈ x.places) :
    0 < s.places.count p := by
  refine List.count_pos_iff.2 (List.mem_append_left _ (List.mem_append_right _ ?_))
  exact List.mem_flatMap.2 ⟨x, List.mem_of_getElem? hx, hp⟩

/-- A state that keeps its continuation and its completion keeps its waiting coroutine. -/
theorem waiting_modify {k : ℕ} {g : CoroutineState → CoroutineState}
    (hg : ∀ c, (g c).waiting = c.waiting) (l : List CoroutineState) :
    (l.modify k g).flatMap CoroutineState.waiting = l.flatMap CoroutineState.waiting := by
  induction l generalizing k with
  | nil => simp
  | cons c l ih =>
    cases k with
    | zero => simp [hg]
    | succ k => simp [ih]

theorem count_waiting (s' : AsyncScheduler) {k : ℕ} {c : CoroutineState}
    (hc : s.states[k]? = some c) {g : CoroutineState → CoroutineState}
    (hs : s'.states = s.states.modify k g) (p : Place) :
    (s'.waiting.map .parked).count p + (c.waiting.map .parked).count p =
      (s.waiting.map .parked).count p + ((g c).waiting.map .parked).count p := by
  rw [waiting, waiting, hs, Table.modify_eq_set hc, List.map_flatMap, List.map_flatMap]
  exact Table.count_flatMap_set hc (g c) (fun c => c.waiting.map Place.parked) p

/-- A handle that leaves the queues. -/
theorem count_dequeue (s' : AsyncScheduler) (hx : s.threads[t]? = some x)
    (ht : s'.threads = s.threads.set t y) {h : Address} (hq : s.queued.Perm (h :: s'.queued))
    (hw : s'.waiting = s.waiting) (p : Place) :
    s'.places.count p + (Place.parked h :: x.places).count p =
      s.places.count p + y.places.count p := by
  have hthreads := count_threads s' hx ht p
  have hqueued := (hq.map Place.parked).count_eq p
  rw [List.map_cons, List.count_cons] at hqueued
  rw [count_places, count_places, hw, List.count_cons]
  omega

/-- A handle that enters the queues. -/
theorem count_enqueue (s' : AsyncScheduler) (hx : s.threads[t]? = some x)
    (ht : s'.threads = s.threads.set t y) {h : Address} (hq : s'.queued.Perm (h :: s.queued))
    (hw : s'.waiting = s.waiting) (p : Place) :
    s'.places.count p + x.places.count p =
      s.places.count p + (Place.parked h :: y.places).count p := by
  have hthreads := count_threads s' hx ht p
  have hqueued := (hq.map Place.parked).count_eq p
  rw [List.map_cons, List.count_cons] at hqueued
  rw [count_places, count_places, hw, List.count_cons]
  omega

theorem count_popReady {now : TimePoint} (hx : s.threads[t]? = some (.timed now)) (p : Place) :
    (s.popReady t now).places.count p = s.places.count p := by
  have hthreads := count_threads (s.popReady t now) hx rfl p
  have hperm : s.delayedTasks.Perm
      ((s.sortedTasks.takeWhile fun p => p.1 ≤ now) ++ (s.popReady t now).delayedTasks) := by
    have hsorted : s.sortedTasks.Perm s.delayedTasks := List.perm_insertionSort _ _
    exact hsorted.symm.trans (.of_eq List.takeWhile_append_dropWhile.symm)
  have hdelayed := ((hperm.map Prod.snd).map Place.parked).count_eq p
  simp only [List.map_append, List.count_append] at hdelayed
  simp only [count_places, queued, List.map_append, List.count_append]
  simp only [ThreadPoint.places, List.count_nil] at hthreads
  have hqueues : (s.popReady t now).localTaskQueues = s.localTaskQueues := rfl
  have hwaiting : (s.popReady t now).waiting = s.waiting := rfl
  rw [hqueues, hwaiting]
  omega

end

theorem count_map_parked (l : List Address) (a : Address) :
    (l.map Place.parked).count (.parked a) = l.count a :=
  List.count_map_of_injective _ _ (fun _ _ h => Place.parked.inj h) _

theorem count_parked (s : AsyncScheduler) (a : Address) :
    s.places.count (.parked a) = s.queued.count a +
      (s.threads.flatMap ThreadPoint.places).count (.parked a) + s.waiting.count a := by
  rw [count_places, count_map_parked, count_map_parked]

theorem count_unfinished (l : List Place) (a : Address) :
    (l.filterMap Place.unfinished).count a = l.count (.parked a) + l.count (.running a) := by
  induction l with
  | nil => rfl
  | cons p l ih =>
    rcases p with b | b | b <;>
      simp only [List.filterMap_cons, Place.unfinished, List.count_cons, ih]
    · simp
      omega
    · simp
      omega
    · simp

/-- The places of a handle, counted where they are. -/
theorem count_unfinished_places (s : AsyncScheduler) (a : Address) :
    s.queued.count a + s.held.count a + s.waiting.count a =
      s.places.count (.parked a) + s.places.count (.running a) := by
  have hnone : ∀ l : List Address, (l.map Place.parked).count (.running a) = 0 := fun l =>
    List.count_eq_zero.2 (by simp)
  rw [count_parked, count_places, hnone, hnone, held, count_unfinished]
  omega

/-! ## The invariant -/

/-- What holds in every run whose steps meet `Sound`. -/
structure Single (s : AsyncScheduler) : Prop where
  faulted : s.faulted = false
  workers : 0 < s.localTaskQueues.length
  target : ∀ x ∈ s.threads, ∀ i, x.target = some i → i < s.localTaskQueues.length
  entries : ∀ a, s.handleRefs a ≠ none → s.memory a ≠ none
  address : ∀ a f, s.memory a = some f → ∃ c, s.states[f.state]? = some c ∧ c.address = a
  uncompleted : ∀ a f, s.memory a = some f → f.point ≠ .finalSuspend → s.completed f.state = false
  placed : ∀ p, s.places.count p ≤ s.room p

/-- The coroutine is suspended and its handle is nowhere but in the hands of the thread at `x`. -/
def Free (s : AsyncScheduler) (x : ThreadPoint) (h : Address) : Prop :=
  (∃ f, s.memory h = some f ∧ f.point.suspended = true) ∧
    s.places.count (.parked h) ≤ x.places.count (.parked h)

/-- A handle that the program uses is that of a frame, `schedule` pushes only what is free, and a
frame is destroyed only after its final awaiter. -/
structure Sound (s : AsyncScheduler) (x : ThreadPoint) : Prop where
  scheduling : ∀ h caller, x = .scheduling h caller → s.memory h ≠ none
  awaitSuspend : ∀ h k coro, x = .awaitSuspend h k (some coro) → s.memory coro ≠ none
  inserting : ∀ i h caller, x = .inserting i h caller → s.handleRefs h = none → s.Free x h
  destroying : ∀ h requests f, x = .destroying (h :: requests) → s.handleRefs h ≠ none →
    s.memory h = some f → f.point = .finalSuspend → s.completed f.state = true

theorem room_of_some {s : AsyncScheduler} {p : Place} {f : PromiseFrame}
    (hf : s.memory p.address = some f) : s.room p = f.room (s.completed f.state) p := by
  rw [room, hf]

theorem room_of_none {s : AsyncScheduler} {p : Place} (hf : s.memory p.address = none) :
    s.room p = 0 := by
  rw [room, hf]

/-- A change of one frame leaves the room for the other handles. -/
theorem room_of_address_ne {s s' : AsyncScheduler} {a : Address} {frame : Option PromiseFrame}
    (hmemory : s'.memory = Function.update s.memory a frame)
    (hcompleted : s'.completed = s.completed) {p : Place} (hp : p.address ≠ a) :
    s'.room p = s.room p := by
  rw [room, room, hmemory, Function.update_of_ne hp, hcompleted]

namespace Single

variable {s : AsyncScheduler}

/-- A handle that is somewhere is that of a frame with room for it. -/
theorem frame_of_pos (hk : s.Single) {p : Place} (hp : 0 < s.places.count p) :
    ∃ f, s.memory p.address = some f ∧ 0 < f.room (s.completed f.state) p := by
  have hroom := hp.trans_le (hk.placed p)
  rcases hf : s.memory p.address with _ | f
  · rw [room_of_none hf] at hroom
    cases hroom
  · exact ⟨f, rfl, room_of_some hf ▸ hroom⟩

theorem of_parked (hk : s.Single) {a : Address} (hp : 0 < s.places.count (.parked a)) :
    ∃ f, s.memory a = some f ∧ f.point.suspended = true := by
  obtain ⟨f, hf, hroom⟩ := hk.frame_of_pos hp
  refine ⟨f, hf, ?_⟩
  by_contra hne
  simp [PromiseFrame.room, hne] at hroom

theorem of_running (hk : s.Single) {a : Address} (hp : 0 < s.places.count (.running a)) :
    ∃ f, s.memory a = some f ∧ f.point = .running := by
  obtain ⟨f, hf, hroom⟩ := hk.frame_of_pos hp
  refine ⟨f, hf, ?_⟩
  by_contra hne
  simp [PromiseFrame.room, hne] at hroom

/-- The frame has room for its handle where the handle is. -/
theorem room_pos (hk : s.Single) {p : Place} {f : PromiseFrame}
    (hf : s.memory p.address = some f) (hp : 0 < s.places.count p) :
    0 < f.room (s.completed f.state) p := by
  obtain ⟨f', hf', hroom⟩ := hk.frame_of_pos hp
  obtain rfl := Option.some.inj (hf.symm.trans hf')
  exact hroom

/-- A coroutine that is about to be resumed is suspended. -/
theorem suspended_of_resuming (hk : s.Single) {t : ℕ} {h : Address} {f : PromiseFrame}
    (hx : s.threads[t]? = some (.resuming h)) (hf : s.memory h = some f) :
    f.point.suspended = true := by
  have hroom := hk.room_pos (p := .parked h) hf (count_pos hx (List.mem_singleton_self _))
  by_contra hne
  simp [PromiseFrame.room, hne] at hroom

theorem of_finishing (hk : s.Single) {a : Address} {f : PromiseFrame} (hf : s.memory a = some f)
    (hp : 0 < s.places.count (.finishing a)) :
    f.point = .finalSuspend ∧ s.completed f.state = false := by
  have hroom := hk.room_pos (p := .finishing a) hf hp
  by_contra hne
  simp [PromiseFrame.room, hne] at hroom

theorem point_ne_final (hk : s.Single) {a : Address} {f : PromiseFrame} (hf : s.memory a = some f)
    {p : Place} (hp : p.address = a ∧ p ≠ .finishing a) (hpos : 0 < s.places.count p) :
    f.point ≠ .finalSuspend := by
  intro hfinal
  obtain ⟨rfl, hne⟩ := hp
  have hroom := hk.room_pos hf hpos
  cases p <;> simp [PromiseFrame.room, hfinal, FramePoint.suspended, Place.address] at hroom hne

theorem count_le_one (hk : s.Single) (a : Address) :
    s.places.count (.parked a) + s.places.count (.running a) ≤ 1 := by
  have hparked := hk.placed (.parked a)
  have hrunning := hk.placed (.running a)
  rcases hf : s.memory a with _ | f
  · rw [room_of_none hf] at hparked hrunning
    omega
  · rw [room_of_some hf] at hparked hrunning
    simp only [PromiseFrame.room] at hparked hrunning
    split_ifs at hparked hrunning with hsuspended hpoint
    · rw [hpoint] at hsuspended
      cases hsuspended
    all_goals omega

theorem point_of_completed (hk : s.Single) {a : Address} {f : PromiseFrame}
    (hf : s.memory a = some f) (hcompleted : s.completed f.state = true) :
    f.point = .finalSuspend := by
  by_contra hne
  rw [hk.uncompleted a f hf hne] at hcompleted
  cases hcompleted

/-- The handle of a coroutine that has completed its state is in no place. -/
theorem count_eq_zero_of_completed (hk : s.Single) {a : Address} {f : PromiseFrame}
    (hf : s.memory a = some f) (hcompleted : s.completed f.state = true) :
    s.places.count (.parked a) + s.places.count (.running a) = 0 := by
  have hpoint := hk.point_of_completed hf hcompleted
  have hparked := hk.placed (.parked a)
  have hrunning := hk.placed (.running a)
  rw [room_of_some hf] at hparked hrunning
  simp only [PromiseFrame.room, hpoint, FramePoint.suspended] at hparked hrunning
  simp at hparked hrunning
  omega

/-- The states of two frames are different. -/
theorem state_inj (hk : s.Single) {a b : Address} {f g : PromiseFrame} (hf : s.memory a = some f)
    (hg : s.memory b = some g) (h : f.state = g.state) : a = b := by
  obtain ⟨c, hc, rfl⟩ := hk.address a f hf
  obtain ⟨c', hc', rfl⟩ := hk.address b g hg
  rw [h, hc'] at hc
  rw [Option.some.inj hc]

/-- A handle that a thread is about to look at is that of a frame. -/
theorem memory_ne_none (hk : s.Single) {t : ℕ} {x : ThreadPoint} (hx : s.threads[t]? = some x)
    (hok : s.Sound x) {h : Address} (hh : x.uses = some h) : s.memory h ≠ none := by
  have hparked : .parked h ∈ x.places → s.memory h ≠ none := fun hp => by
    obtain ⟨f, hf, -⟩ := hk.of_parked (count_pos hx hp)
    simp [hf]
  cases x with
  | moving ready =>
    rcases ready with _ | ⟨h', ready⟩
    · cases hh
    · obtain rfl := Option.some.inj hh
      exact hparked (by simp [ThreadPoint.places])
  | fetched h' | resuming h' | delaying h' =>
    obtain rfl := Option.some.inj hh
    exact hparked (by simp [ThreadPoint.places])
  | awaitSuspend h' k coro => exact hok.awaitSuspend h' k h (congrArg _ hh)
  | scheduling h' caller =>
    obtain rfl := Option.some.inj hh
    exact hok.scheduling _ _ rfl
  | finalAwait h' =>
    obtain rfl := Option.some.inj hh
    obtain ⟨f, hf, -⟩ := hk.frame_of_pos (p := .finishing h')
      (count_pos hx (List.mem_singleton_self _))
    simp [show s.memory h' = some f from hf]
  | _ => cases hh

end Single

/-! ## What a step does to the handles -/

/-- The effect of a step on the handles, with the frame that it is about. -/
inductive Change (s : AsyncScheduler) (l : AsyncStep) (s' : AsyncScheduler) : Prop
  | same (hcount : ∀ p, s'.places.count p = s.places.count p) (hmemory : s'.memory = s.memory)
    (hcompleted : s'.completed = s.completed)
  /-- The handle of a coroutine that is done, or that an `await_suspend` failed to schedule, is
  forgotten. -/
  | lost {h : Address}
    (hwhy : s.done h = some true ∨ ∃ t i k, l = .advance t ∧
      s.threads[t]? = some (.inserting i h (.fallback k)) ∧ s.handleRefs h ≠ none)
    (hcount : ∀ p, s'.places.count p + [Place.parked h].count p = s.places.count p)
    (hmemory : s'.memory = s.memory) (hcompleted : s'.completed = s.completed)
  | pushed {t i : ℕ} {h : Address} {caller : Caller} (hl : l = .advance t)
    (hx : s.threads[t]? = some (.inserting i h caller)) (hrefs : s.handleRefs h = none)
    (hcaller : ∀ k, caller ≠ .fallback k)
    (hcount : ∀ p, s'.places.count p = s.places.count p + [Place.parked h].count p)
    (hmemory : s'.memory = s.memory) (hcompleted : s'.completed = s.completed)
  /-- A continuation slot is taken from the coroutine that was in it. -/
  | overwritten {t k : ℕ} {h coro : Address} {c : CoroutineState} (hl : l = .advance t)
    (hx : s.threads[t]? = some (.registering h k coro)) (hc : s.states[k]? = some c)
    (huncompleted : c.completed = false)
    (hcount : ∀ p, s'.places.count p + (c.continuation.toList.map Place.parked).count p =
      s.places.count p)
    (hmemory : s'.memory = s.memory) (hcompleted : s'.completed = s.completed)
  /-- A coroutine is resumed or suspends. -/
  | exchange {a : Address} {f : PromiseFrame} {point : FramePoint} {p q : Place}
    (hf : s.memory a = some f) (hp : p.address = a ∧ p ≠ .finishing a) (hpos : 0 < s.places.count p)
    (hq : q.address = a ∧ (⟨point, f.state⟩ : PromiseFrame).room false q = 1)
    (hpoint : point ≠ .initialSuspend)
    (hcount : ∀ x, s'.places.count x + [p].count x = s.places.count x + [q].count x)
    (hmemory : s'.memory = Function.update s.memory a (some ⟨point, f.state⟩))
    (hcompleted : s'.completed = s.completed)
  | complete {a : Address} {f : PromiseFrame} (hf : s.memory a = some f)
    (hpos : 0 < s.places.count (.finishing a)) (hrequest : a ∈ s'.pending)
    (hcount : ∀ p, s'.places.count p + [Place.finishing a].count p = s.places.count p)
    (hmemory : s'.memory = s.memory)
    (hcompleted : s'.completed = Function.update s.completed f.state true)
  | create {a : Address} (hm : s.memory a = none)
    (hcount : ∀ p, s'.places.count p = s.places.count p)
    (hmemory : s'.memory = Function.update s.memory a (some ⟨.initialSuspend, s.states.length⟩))
    (hcompleted : s'.completed = s.completed)
  | destroy {t : ℕ} {a : Address} {f : PromiseFrame} {requests : List Address} (hl : l = .advance t)
    (hx : s.threads[t]? = some (.destroying (a :: requests))) (hrefs : s.handleRefs a ≠ none)
    (hf : s.memory a = some f) (hp : f.point = .finalSuspend)
    (hcount : ∀ p, s'.places.count p = s.places.count p)
    (hmemory : s'.memory = Function.update s.memory a none) (hcompleted : s'.completed = s.completed)

/-- A change of a state that keeps `completed`. -/
theorem completed_modify {s s' : AsyncScheduler} {k : ℕ} {g : CoroutineState → CoroutineState}
    (hg : ∀ c, (g c).completed = c.completed) (hs : s'.states = s.states.modify k g) :
    s'.completed = s.completed := by
  funext j
  simp only [completed, hs, List.getElem?_modify]
  rcases s.states[j]? with _ | c
  · rfl
  · split_ifs <;> simp [hg]

theorem completed_complete {s s' : AsyncScheduler} {k : ℕ} {c : CoroutineState}
    (hc : s.states[k]? = some c) (hs : s'.states = s.states.modify k .complete) :
    s'.completed = Function.update s.completed k true := by
  funext j
  rw [Function.update_apply]
  split_ifs with hj
  · subst hj
    simp [completed, hs, hc, CoroutineState.complete]
  · have hne : k ≠ j := fun h => hj h.symm
    simp [completed, hs, List.getElem?_modify_ne _ _ hne]

theorem completed_scheduled (s : AsyncScheduler) (t : ℕ) (caller : Caller) :
    (s.scheduled t caller).completed = s.completed := by
  rcases hk : caller.lock with _ | k
  · simp only [scheduled, hk]
    rfl
  · exact completed_modify (g := .setLocked false) (k := k) (fun _ => rfl) (by simp [scheduled, hk])

theorem waiting_scheduled (s : AsyncScheduler) (t : ℕ) (caller : Caller) :
    (s.scheduled t caller).waiting = s.waiting := by
  rcases hk : caller.lock with _ | k
  · simp only [scheduled, hk]
    rfl
  · simp only [waiting, scheduled, hk]
    exact waiting_modify (g := .setLocked false) (fun _ => rfl) _

theorem returns_places (caller : Caller) :
    caller.returns.places = match caller with
      | .program site _ => site.places
      | _ => [] := by
  rcases caller with ⟨_ | _, _⟩ | _ | _ <;> rfl

theorem site_requests {x : ThreadPoint} {site : Site} (h : x.site = some site) :
    x.requests = [] ∧ x.detaches = none := by
  cases x <;> first | exact ⟨rfl, rfl⟩ | cases h

theorem site_places {x : ThreadPoint} {site : Site} (h : x.site = some site) :
    x.places = site.places := by
  cases x <;> simp [ThreadPoint.site] at h <;> subst h <;> rfl

theorem queued_modify {s : AsyncScheduler} {i : ℕ} {h : Address}
    {g : List Address → List Address} (hi : i < s.localTaskQueues.length)
    (hg : ∀ queue, (g queue).Perm (h :: queue)) :
    ((s.localTaskQueues.modify i g).flatten ++ s.delayedTasks.map Prod.snd).Perm
      (h :: s.queued) := by
  have hq := List.getElem?_eq_getElem hi
  rw [Table.modify_eq_set hq]
  exact (Table.flatten_set_perm hq (hg _)).append_right _

section

variable {s s' : AsyncScheduler} {l : AsyncStep} {t : ℕ} {x y : ThreadPoint}

theorem change_same (hx : s.threads[t]? = some x) (ht : s'.threads = s.threads.set t y)
    (hplaces : y.places = x.places) (hq : s'.queued = s.queued) (hw : s'.waiting = s.waiting)
    (hmemory : s'.memory = s.memory) (hcompleted : s'.completed = s.completed) : s.Change l s' := by
  refine .same (fun p => ?_) hmemory hcompleted
  have h := count_setThread s' hx ht hq hw p
  rw [hplaces] at h
  exact Nat.add_right_cancel h

/-- The handle goes from the hands of the thread to a queue. -/
theorem change_enqueue (hx : s.threads[t]? = some x) (ht : s'.threads = s.threads.set t y)
    {h : Address} (hplaces : x.places = .parked h :: y.places)
    (hq : s'.queued.Perm (h :: s.queued)) (hw : s'.waiting = s.waiting)
    (hmemory : s'.memory = s.memory) (hcompleted : s'.completed = s.completed) : s.Change l s' := by
  refine .same (fun p => ?_) hmemory hcompleted
  have h := count_enqueue s' hx ht hq hw p
  rw [hplaces] at h
  exact Nat.add_right_cancel h

/-- The handle goes from a queue to the hands of the thread. -/
theorem change_dequeue (hx : s.threads[t]? = some x) (ht : s'.threads = s.threads.set t y)
    {h : Address} (hplaces : y.places = .parked h :: x.places)
    (hq : s.queued.Perm (h :: s'.queued)) (hw : s'.waiting = s.waiting)
    (hmemory : s'.memory = s.memory) (hcompleted : s'.completed = s.completed) : s.Change l s' := by
  refine .same (fun p => ?_) hmemory hcompleted
  have h := count_dequeue s' hx ht hq hw p
  rw [hplaces] at h
  exact Nat.add_right_cancel h

/-- A coroutine that the thread holds changes from place `p` to place `q`. -/
theorem change_exchange {a : Address} {f : PromiseFrame} {point : FramePoint} {p q : Place}
    (hx : s.threads[t]? = some x) (hf : s.memory a = some f) (hxp : x.places = [p])
    (hyq : y.places = [q]) (hp : p.address = a ∧ p ≠ .finishing a)
    (hq : q.address = a ∧ (⟨point, f.state⟩ : PromiseFrame).room false q = 1)
    (hpoint : point ≠ .initialSuspend) : s.Change l ((s.setPoint a point).setThread t y) := by
  refine .exchange hf hp (count_pos hx (by simp [hxp])) hq hpoint (fun p' => ?_) ?_ rfl
  · rw [← hxp, ← hyq]
    exact count_setThread ((s.setPoint a point).setThread t y) hx rfl rfl rfl p'
  · simp [setThread, setPoint, hf]

theorem change_register {k : ℕ} {h coro : Address} {c : CoroutineState}
    (hx : s.threads[t]? = some (.registering h k coro)) (hc : s.states[k]? = some c)
    (huncompleted : c.completed = false) :
    s.Change (.advance t) ((s.modifyState k fun c => (c.setContinuation h).setLocked true).setThread t
      (.scheduling coro (.registered k))) := by
  set s' := (s.modifyState k fun c => (c.setContinuation h).setLocked true).setThread t
    (.scheduling coro (.registered k)) with hs'
  refine .overwritten rfl hx hc huncompleted (fun p => ?_) rfl
    (completed_modify (k := k) (g := fun c => (c.setContinuation h).setLocked true)
      (fun _ => rfl) rfl)
  have hthreads := count_threads s' hx rfl p
  have hwaiting := count_waiting s' hc rfl p
  have hq : s'.queued = s.queued := rfl
  have hold : c.waiting = c.continuation.toList := by simp [CoroutineState.waiting, huncompleted]
  have hnew : ((c.setContinuation h).setLocked true).waiting = [h] := by
    simp [CoroutineState.waiting, CoroutineState.setContinuation, CoroutineState.setLocked,
      huncompleted]
  rw [hold, hnew] at hwaiting
  simp only [ThreadPoint.places, Caller.places, List.count_nil] at hthreads
  rw [count_places, count_places, hq]
  simp only [List.map_singleton] at hwaiting
  omega

theorem change_refused {h : Address} {caller : Caller} (hx : s.threads[t]? = some x)
    (hwhy : x = .scheduling h caller ∧ s.done h = some true ∨
      (∃ i, x = .inserting i h caller) ∧ s.handleRefs h ≠ none) :
    s.Change (.advance t) (s.scheduled t caller) := by
  have hplaces : x.places = caller.places h := by
    rcases hwhy with ⟨rfl, -⟩ | ⟨⟨i, rfl⟩, -⟩ <;> rfl
  have hwaiting := waiting_scheduled s t caller
  have hcompleted := completed_scheduled s t caller
  cases caller with
  | program site object =>
    exact change_same hx rfl (hplaces ▸ returns_places _) rfl hwaiting rfl hcompleted
  | registered k => exact change_same hx rfl hplaces.symm rfl hwaiting rfl hcompleted
  | fallback k =>
    refine .lost (h := h) ?_ (fun p => ?_) rfl hcompleted
    · rcases hwhy with ⟨-, hdone⟩ | ⟨⟨i, rfl⟩, hrefs⟩
      · exact .inl hdone
      · exact .inr ⟨t, i, k, rfl, hx, hrefs⟩
    · have hcount := count_setThread (s.scheduled t (.fallback k)) hx rfl rfl hwaiting p
      rw [hplaces] at hcount
      exact hcount

theorem change_insert {i : ℕ} {h : Address} {caller : Caller}
    (hx : s.threads[t]? = some (.inserting i h caller)) (hrefs : s.handleRefs h = none)
    (hi : i < s.localTaskQueues.length) :
    s.Change (.advance t) { s.scheduled t caller with
      handleRefs := Function.update s.handleRefs h (some 1)
      localTaskQueues := s.localTaskQueues.modify i (· ++ [h]) } := by
  set s' : AsyncScheduler := { s.scheduled t caller with
    handleRefs := Function.update s.handleRefs h (some 1)
    localTaskQueues := s.localTaskQueues.modify i (· ++ [h]) } with hs'
  have hq : s'.queued.Perm (h :: s.queued) := queued_modify hi fun _ => List.perm_append_comm
  have hwaiting : s'.waiting = s.waiting := waiting_scheduled s t caller
  have hcompleted : s'.completed = s.completed := completed_scheduled s t caller
  have hpushed : (∀ k, caller ≠ .fallback k) → caller.returns.places = caller.places h →
      s.Change (.advance t) s' := by
    intro hne hplaces
    refine .pushed rfl hx hrefs hne (fun p => ?_) rfl hcompleted
    have hcount := count_enqueue s' hx rfl hq hwaiting p
    rw [hplaces, List.count_cons] at hcount
    rw [List.count_singleton]
    simp only [ThreadPoint.places] at hcount
    omega
  cases caller with
  | program site object => exact hpushed (by simp) (returns_places _)
  | registered k => exact hpushed (by simp) rfl
  | fallback k => exact change_enqueue hx rfl rfl hq hwaiting rfl hcompleted

theorem change_complete {h : Address} {f : PromiseFrame} {c : CoroutineState}
    (hx : s.threads[t]? = some (.finalAwait h)) (hf : s.memory h = some f)
    (hc : s.states[f.state]? = some c) (huncompleted : c.completed = false) :
    s.Change l ((s.modifyState f.state .complete).setThread t (.finalCleanup h c.continuation)) := by
  set s' := (s.modifyState f.state .complete).setThread t (.finalCleanup h c.continuation) with hs'
  have hrequest : h ∈ s'.pending := by
    refine List.mem_append_right _ (List.mem_flatMap.2
      ⟨.finalCleanup h c.continuation, ?_, List.mem_singleton_self h⟩)
    exact List.mem_set (List.getElem?_eq_some_iff.1 hx).1 _
  refine .complete hf (count_pos hx (List.mem_singleton_self _)) hrequest (fun p => ?_) rfl
    (completed_complete hc rfl)
  have hthreads := count_threads s' hx rfl p
  have hwaiting := count_waiting s' hc rfl p
  have hq : s'.queued = s.queued := rfl
  have hold : c.waiting = c.continuation.toList := by simp [CoroutineState.waiting, huncompleted]
  rw [hold] at hwaiting
  simp only [CoroutineState.waiting, CoroutineState.complete, if_true, List.map_nil,
    List.count_nil] at hwaiting
  simp only [ThreadPoint.places] at hthreads
  rw [count_places, count_places, hq]
  omega

theorem count_create (s : AsyncScheduler) (a : Address) (p : Place) :
    (s.create a).places.count p = s.places.count p := by
  have hwaiting : (s.create a).waiting = s.waiting := by
    simp [waiting, create, CoroutineState.waiting, CoroutineState.new]
  rw [count_places, count_places, hwaiting]
  rfl

theorem change_create {a : Address} (hm : s.memory a = none) : s.Change l (s.create a) := by
  refine .create hm (count_create s a) rfl (funext fun k => ?_)
  simp only [completed, create, List.getElem?_append]
  split_ifs with hk
  · rfl
  · rw [List.getElem?_eq_none_iff.2 (not_lt.1 hk)]
    rcases k - s.states.length with _ | j <;> rfl

theorem change_destroy {h : Address} {requests : List Address} {f : PromiseFrame}
    (hx : s.threads[t]? = some (.destroying (h :: requests))) (hrefs : s.handleRefs h ≠ none)
    (hf : s.memory h = some f) (hp : f.point = .finalSuspend) :
    s.Change (.advance t) { s.setThread t (.destroying requests) with
      handleRefs := Function.update s.handleRefs h none
      memory := Function.update s.memory h none
      states := s.states.modify f.state .countDestroyed } := by
  set s' : AsyncScheduler := { s.setThread t (.destroying requests) with
    handleRefs := Function.update s.handleRefs h none
    memory := Function.update s.memory h none
    states := s.states.modify f.state .countDestroyed } with hs'
  have hwaiting : s'.waiting = s.waiting :=
    waiting_modify (g := .countDestroyed) (fun _ => rfl) s.states
  exact .destroy rfl hx hrefs hf hp (count_setThread s' hx rfl rfl hwaiting) rfl
    (completed_modify (g := .countDestroyed) (k := f.state) (fun _ => rfl) rfl)

end

theorem Moves.change {s s' : AsyncScheduler} {l : AsyncStep} (hm : s.Moves l s') (hk : s.Single)
    (hok : ∀ t x, l = .advance t → s.threads[t]? = some x → s.Sound x) : s.Change l s' := by
  cases hm with
  | clock | stay | move | assign | drop => exact .same (fun _ => rfl) rfl rfl
  | missing hx hh hm => exact absurd hm (hk.memory_ne_none hx (hok _ _ rfl hx) hh)
  | notSuspended hx hf hp => simp [hk.suspended_of_resuming hx hf] at hp
  | walk hx hplaces => exact change_same hx rfl hplaces rfl rfl rfl rfl
  | @skip t x y h hx hdone hplaces =>
    refine .lost (.inl hdone) (fun p => ?_) rfl rfl
    have hcount := count_setThread (s.setThread t y) hx rfl rfl rfl p
    rw [hplaces, List.count_cons] at hcount
    rw [List.count_singleton]
    omega
  | popReady hx => exact .same (count_popReady hx) rfl rfl
  | pushFront hx =>
    have hi := hk.target _ (List.mem_of_getElem? hx) _ rfl
    exact change_enqueue hx rfl rfl (queued_modify hi fun _ => .refl _) rfl rfl rfl
  | take hx hplaces hq hperm =>
    refine change_dequeue hx rfl (by rw [hplaces.1]; rfl) ?_ rfl rfl rfl
    exact (Table.flatten_perm_cons hq hperm).append_right _
  | @resume t h f y hx hf hp hy =>
    have hplaces : y.places = [.running h] := by
      rcases hy with rfl | ⟨k, rfl⟩ <;> rfl
    exact change_exchange hx hf rfl hplaces ⟨rfl, by simp⟩ ⟨rfl, rfl⟩ (by simp)
  | @suspend t op c p y hx hp hy =>
    obtain ⟨f, hf, -⟩ := hk.of_running (count_pos hx (List.mem_singleton_self _))
    have hplaces : y.places = [.parked c] := by
      rcases hy with ⟨k, coro, rfl⟩ | ⟨delay, rfl⟩ <;> rfl
    refine change_exchange hx hf rfl hplaces ⟨rfl, by simp⟩ ⟨rfl, ?_⟩ ?_
    · rcases hp with rfl | ⟨k, rfl⟩ <;> rfl
    · rcases hp with rfl | ⟨k, rfl⟩ <;> simp
  | ret hx =>
    obtain ⟨f, hf, -⟩ := hk.of_running (count_pos hx (List.mem_singleton_self _))
    exact change_exchange hx hf rfl rfl ⟨rfl, by simp⟩ ⟨rfl, rfl⟩ (by simp)
  | register hx hc hcompleted => exact change_register hx hc hcompleted
  | @late t k h coro hx =>
    exact change_same hx rfl rfl rfl (waiting_modify (g := .setLocked true) (fun _ => rfl) _) rfl
      (completed_modify (g := .setLocked true) (k := k) (fun _ => rfl) rfl)
  | call hx hsite => exact change_same hx rfl (site_places hsite).symm rfl rfl rfl rfl
  | refused hx hwhy => exact change_refused hx hwhy
  | insert hx hrefs => exact change_insert hx hrefs (hk.target _ (List.mem_of_getElem? hx) _ rfl)
  | emplace hx =>
    refine change_enqueue hx rfl rfl ?_ rfl rfl rfl
    simp only [queued, setThread, List.map_append, List.map_singleton, ← List.append_assoc]
    exact List.perm_append_comm
  | @complete t h f c hx hf hc =>
    refine change_complete hx hf hc ?_
    have hcompleted := (hk.of_finishing hf (count_pos hx (List.mem_singleton_self _))).2
    simpa [completed, hc] using hcompleted
  | @request t h continuation hx =>
    refine change_same hx rfl ?_ rfl rfl rfl rfl
    cases continuation <;> rfl
  | sweep hx =>
    refine change_same hx rfl ?_ rfl rfl rfl rfl
    split_ifs <;> rfl
  | ignore hx | decrement hx | erase hx => exact change_same hx rfl rfl rfl rfl rfl rfl
  | destroy hx hrefs hf hp => exact change_destroy hx hrefs hf hp
  | dangling hx hrefs hm => exact absurd hm (hk.entries _ hrefs)
  | create hm => exact change_create hm

/-! ## Every sound step keeps the invariant -/

section

variable {s s' : AsyncScheduler} {l : AsyncStep}

theorem room_congr (hmemory : s'.memory = s.memory) (hcompleted : s'.completed = s.completed) :
    s'.room = s.room := by
  funext p
  rw [room, room, hmemory, hcompleted]

/-- A frame has room for its handle in one place. -/
theorem room_le_count {f : PromiseFrame} {b : Bool} {p x : Place} (hp : 0 < f.room b p)
    (hx : x.address = p.address) : f.room b x ≤ [p].count x := by
  cases p <;> cases x <;>
    simp only [Place.address, PromiseFrame.room] at hx hp ⊢ <;> subst hx <;>
    split_ifs at hp ⊢ <;> simp_all [FramePoint.suspended]

/-- So a handle that is somewhere is nowhere else. -/
theorem Single.count_le (hk : s.Single) {p x : Place} (hp : 0 < s.places.count p)
    (hx : x.address = p.address) : s.places.count x ≤ [p].count x := by
  obtain ⟨f, hf, hroom⟩ := hk.frame_of_pos hp
  refine (hk.placed x).trans ?_
  rw [room_of_some (hx ▸ hf)]
  exact room_le_count hroom hx

theorem count_of_address_ne {p x : Place} (hx : x.address ≠ p.address) : [p].count x = 0 := by
  refine List.count_eq_zero.2 fun h => hx ?_
  rw [List.mem_singleton.1 h]

theorem caller_places_count {caller : Caller} (h : Address) (hcaller : ∀ k, caller ≠ .fallback k) :
    (caller.places h).count (.parked h) = 0 := by
  rcases caller with ⟨_ | _, _⟩ | _ | k
  · rfl
  · rfl
  · rfl
  · exact absurd rfl (hcaller k)

theorem completed_length (s : AsyncScheduler) : s.completed s.states.length = false := by
  simp [completed]

theorem Change.placed (hc : s.Change l s') (hk : s.Single)
    (hok : ∀ t x, l = .advance t → s.threads[t]? = some x → s.Sound x) (p : Place) :
    s'.places.count p ≤ s'.room p := by
  have hp := hk.placed p
  cases hc with
  | same hcount hmemory hcompleted =>
    rw [room_congr hmemory hcompleted, hcount]
    exact hp
  | lost _ hcount hmemory hcompleted | overwritten _ _ _ _ hcount hmemory hcompleted =>
    rw [room_congr hmemory hcompleted]
    have := hcount p
    omega
  | @pushed t i h caller hl hx hrefs hcaller hcount hmemory hcompleted =>
    rw [room_congr hmemory hcompleted, hcount]
    by_cases he : p = .parked h
    · subst he
      obtain ⟨⟨f, hf, hsuspended⟩, hle⟩ := (hok t _ hl hx).inserting i h caller rfl hrefs
      have hzero : s.places.count (.parked h) = 0 := by
        refine Nat.le_zero.1 (hle.trans_eq ?_)
        exact caller_places_count h hcaller
      rw [room_of_some hf]
      simp [PromiseFrame.room, hsuspended, hzero]
    · have hzero : [Place.parked h].count p = 0 := List.count_eq_zero.2 (by simpa using he)
      omega
  | @exchange a f point p₀ q hf hp₀ hpos hq hpoint hcount hmemory hcompleted =>
    have hcount := hcount p
    by_cases ha : p.address = a
    · have hle := hk.count_le hpos (ha.trans hp₀.1.symm)
      have huncompleted := hk.uncompleted a f hf (hk.point_ne_final hf hp₀ hpos)
      have hf' : s'.memory p.address = some ⟨point, f.state⟩ := by
        rw [hmemory, ha, Function.update_self]
      rw [room_of_some hf', hcompleted, huncompleted]
      by_cases he : p = q
      · subst he
        rw [hq.2]
        simp only [List.count_singleton_self] at hcount
        omega
      · have hzero : [q].count p = 0 := List.count_eq_zero.2 (by simpa using he)
        omega
    · have hzero : [p₀].count p = 0 := count_of_address_ne (by rw [hp₀.1]; exact ha)
      have hzero' : [q].count p = 0 := count_of_address_ne (by rw [hq.1]; exact ha)
      have hroom' := room_of_address_ne hmemory hcompleted ha
      omega
  | @complete a f hf hpos _ hcount hmemory hcompleted =>
    have hcount := hcount p
    by_cases ha : p.address = a
    · have hle := hk.count_le hpos ha
      omega
    · have hroom' : s'.room p = s.room p := by
        rw [room, room, hmemory, hcompleted]
        rcases hg : s.memory p.address with _ | g
        · rfl
        · have hne : g.state ≠ f.state := fun h => ha (hk.state_inj hg hf h)
          simp only [Function.update_of_ne hne]
      omega
  | @create a hm hcount hmemory hcompleted =>
    rw [hcount]
    by_cases ha : p.address = a
    · rw [room_of_none (ha ▸ hm)] at hp
      omega
    · rw [room_of_address_ne hmemory hcompleted ha]
      exact hp
  | @destroy t a f requests hl hx hrefs hf hfinal hcount hmemory hcompleted =>
    rw [hcount]
    by_cases ha : p.address = a
    · have hdone := (hok t _ hl hx).destroying a requests f rfl hrefs hf hfinal
      rw [room_of_some (ha ▸ hf)] at hp
      have hzero : f.room (s.completed f.state) p = 0 := by
        cases p <;> simp [PromiseFrame.room, hfinal, hdone, FramePoint.suspended]
      omega
    · rw [room_of_address_ne hmemory hcompleted ha]
      exact hp

theorem Change.uncompleted (hc : s.Change l s') (hk : s.Single) {b : Address} {g : PromiseFrame}
    (hg : s'.memory b = some g) (hpoint : g.point ≠ .finalSuspend) : s'.completed g.state = false := by
  cases hc with
  | same _ hmemory hcompleted | lost _ _ hmemory hcompleted
  | pushed _ _ _ _ _ hmemory hcompleted | overwritten _ _ _ _ _ hmemory hcompleted =>
    rw [hcompleted]
    exact hk.uncompleted b g (hmemory ▸ hg) hpoint
  | @exchange a f point p q hf hp hpos hq _ _ hmemory hcompleted =>
    rw [hcompleted]
    rw [hmemory, Function.update_apply] at hg
    split_ifs at hg with hb
    · obtain rfl := Option.some.inj hg
      exact hk.uncompleted a f hf (hk.point_ne_final hf hp hpos)
    · exact hk.uncompleted b g hg hpoint
  | @complete a f hf hpos _ _ hmemory hcompleted =>
    rw [hmemory] at hg
    obtain ⟨hfinal, -⟩ := hk.of_finishing hf hpos
    have hne : g.state ≠ f.state := by
      intro h
      obtain rfl := hk.state_inj hg hf h
      obtain rfl := Option.some.inj (hf.symm.trans hg)
      exact hpoint hfinal
    rw [hcompleted, Function.update_of_ne hne]
    exact hk.uncompleted b g hg hpoint
  | create _ _ hmemory hcompleted =>
    rw [hcompleted]
    rw [hmemory, Function.update_apply] at hg
    split_ifs at hg with hb
    · obtain rfl := Option.some.inj hg
      exact completed_length s
    · exact hk.uncompleted b g hg hpoint
  | destroy _ _ _ _ _ _ hmemory hcompleted =>
    rw [hcompleted]
    rw [hmemory, Function.update_apply] at hg
    split_ifs at hg
    exact hk.uncompleted b g hg hpoint

/-- Entries are made and kept only for frames. -/
theorem Moves.entries (hm : s.Moves l s') (hk : s.Single)
    (hok : ∀ t x, l = .advance t → s.threads[t]? = some x → s.Sound x) {a : Address}
    (ha : s'.handleRefs a ≠ none) : s'.memory a ≠ none := by
  have hset : ∀ {h : Address} {point : FramePoint},
      s.handleRefs a ≠ none → (s.setPoint h point).memory a ≠ none := by
    intro h point hrefs
    have hne := hk.entries a hrefs
    simp only [setPoint, Function.update_apply]
    split_ifs with he
    · subst he
      simpa using hne
    · exact hne
  cases hm with
  | missing hx hh hm => exact absurd hm (hk.memory_ne_none hx (hok _ _ rfl hx) hh)
  | resume | suspend | ret => exact hset ha
  | @insert t i h caller hx hrefs =>
    obtain ⟨⟨f, hf, -⟩, -⟩ := (hok t _ rfl hx).inserting i h caller rfl hrefs
    simp only [Function.update_apply] at ha
    split_ifs at ha with he
    · subst he
      show s.memory a ≠ none
      simp [hf]
    · exact hk.entries a ha
  | @decrement t h requests n hx hrefs =>
    simp only [Function.update_apply] at ha
    split_ifs at ha with he
    · subst he
      exact hk.entries a (by simp [hrefs])
    · exact hk.entries a ha
  | @erase t h requests hx hrefs =>
    simp only [Function.update_apply] at ha
    split_ifs at ha
    · exact absurd rfl ha
    · exact hk.entries a ha
  | @destroy t h requests f hx hrefs =>
    simp only [Function.update_apply] at ha ⊢
    split_ifs at ha ⊢
    · exact absurd rfl ha
    · exact hk.entries a ha
  | dangling hx hrefs hm => exact absurd hm (hk.entries _ hrefs)
  | @create t address hm =>
    simp only [AsyncScheduler.create, Function.update_apply]
    split_ifs
    · simp
    · exact hk.entries a ha
  | _ => exact hk.entries a ha

theorem address_modify {states : List CoroutineState} {j k : ℕ} {a : Address}
    {g : CoroutineState → CoroutineState} (hg : ∀ c, (g c).address = c.address)
    (h : ∃ c, states[k]? = some c ∧ c.address = a) :
    ∃ c, (states.modify j g)[k]? = some c ∧ c.address = a := by
  obtain ⟨c, hc, rfl⟩ := h
  rw [List.getElem?_modify, hc]
  split_ifs
  · exact ⟨g c, rfl, hg c⟩
  · exact ⟨c, rfl, rfl⟩

theorem Moves.address (hm : s.Moves l s') (hk : s.Single) {a : Address} {f : PromiseFrame}
    (hf : s'.memory a = some f) : ∃ c, s'.states[f.state]? = some c ∧ c.address = a := by
  have hset : ∀ {h : Address} {point : FramePoint}, (s.setPoint h point).memory a = some f →
      ∃ c, s.states[f.state]? = some c ∧ c.address = a := by
    intro h point hf
    simp only [setPoint, Function.update_apply] at hf
    split_ifs at hf with he
    · subst he
      obtain ⟨g, hg, rfl⟩ := Option.map_eq_some_iff.1 hf
      exact hk.address a g hg
    · exact hk.address a f hf
  cases hm with
  | resume | suspend | ret => exact hset hf
  | register => exact address_modify (fun _ => rfl) (hk.address a f hf)
  | late => exact address_modify (g := .setLocked true) (fun _ => rfl) (hk.address a f hf)
  | @refused t x h caller | @insert t i h caller =>
    rcases hlock : caller.lock with _ | k
    · simpa only [scheduled, hlock] using hk.address a f hf
    · simp only [scheduled, hlock]
      exact address_modify (g := .setLocked false) (fun _ => rfl) (hk.address a f hf)
  | complete => exact address_modify (g := .complete) (fun _ => rfl) (hk.address a f hf)
  | destroy =>
    simp only [Function.update_apply] at hf
    split_ifs at hf
    exact address_modify (g := .countDestroyed) (fun _ => rfl) (hk.address a f hf)
  | create =>
    simp only [AsyncScheduler.create, Function.update_apply] at hf ⊢
    split_ifs at hf with he
    · obtain rfl := Option.some.inj hf
      exact ⟨.new a, by simp [he], rfl⟩
    · obtain ⟨c, hc, ha⟩ := hk.address a f hf
      exact ⟨c, by rw [List.getElem?_append_left (List.getElem?_eq_some_iff.1 hc).1, hc], ha⟩
  | dangling hx hrefs hm => exact absurd hm (hk.entries _ hrefs)
  | _ => exact hk.address a f hf

theorem Moves.queues_length (hm : s.Moves l s') (hk : s.Single) :
    s'.localTaskQueues.length = s.localTaskQueues.length := by
  cases hm with
  | pushFront | insert => exact List.length_modify _ _ _
  | take => exact List.length_set
  | dangling hx hrefs hm => exact absurd hm (hk.entries _ hrefs)
  | _ => rfl

theorem returns_quiet (caller : Caller) :
    caller.returns.target = none ∧ caller.returns.detaches = none := by
  rcases caller with ⟨_ | _, _⟩ | _ | _ <;> exact ⟨rfl, rfl⟩

/-- A step moves at most one thread.  It may now be about to push to the queue that it has just
counted out, and to detach what it was detaching or what no thread was. -/
theorem Moves.thread (hm : s.Moves l s') (hk : s.Single) :
    s'.threads = s.threads ∨ ∃ t x y, s.threads[t]? = some x ∧ s'.threads = s.threads.set t y ∧
      (∀ i, y.target = some i → i = s.threadIdx) ∧
      (y.detaches = none ∨ y.detaches = x.detaches ∨ ∃ o h k, x.detaches = none ∧
        y.detaches = some (o, h) ∧ s.object o = some ⟨some h, some k⟩) := by
  have hquiet : ∀ {t : ℕ} {x y : ThreadPoint}, s.threads[t]? = some x →
      s'.threads = s.threads.set t y → y.target = none ∧ y.detaches = none →
      s'.threads = s.threads ∨ ∃ t x y, s.threads[t]? = some x ∧ s'.threads = s.threads.set t y ∧
        (∀ i, y.target = some i → i = s.threadIdx) ∧
        (y.detaches = none ∨ y.detaches = x.detaches ∨ ∃ o h k, x.detaches = none ∧
          y.detaches = some (o, h) ∧ s.object o = some ⟨some h, some k⟩) :=
    fun hx ht hy => .inr ⟨_, _, _, hx, ht, by simp [hy.1], .inl hy.2⟩
  cases hm with
  | clock | missing | notSuspended | create | move | assign | drop | stay => exact .inl rfl
  | walk hx _ _ hdetaches htarget =>
    exact .inr ⟨_, _, _, hx, rfl, htarget, .inr (.inl hdetaches)⟩
  | skip hx _ _ _ hdetaches htarget => exact hquiet hx rfl ⟨htarget, hdetaches⟩
  | resume hx _ _ hy =>
    refine hquiet hx rfl ?_
    rcases hy with rfl | ⟨k, rfl⟩ <;> exact ⟨rfl, rfl⟩
  | suspend hx _ hy =>
    refine hquiet hx rfl ?_
    rcases hy with ⟨k, coro, rfl⟩ | ⟨delay, rfl⟩ <;> exact ⟨rfl, rfl⟩
  | @call t op x site h object hx hsite hobject =>
    rcases object with _ | o
    · exact hquiet hx rfl ⟨rfl, rfl⟩
    · obtain ⟨k, ho⟩ := hobject o rfl
      exact .inr ⟨_, _, _, hx, rfl, by simp [ThreadPoint.target],
        .inr (.inr ⟨o, h, k, (site_requests hsite).2, rfl, ho⟩)⟩
  | refused hx | insert hx => exact hquiet hx rfl (returns_quiet _)
  | @request t h continuation hx =>
    refine hquiet hx rfl ?_
    cases continuation <;> exact ⟨rfl, rfl⟩
  | sweep hx =>
    refine hquiet hx rfl ?_
    split_ifs <;> exact ⟨rfl, rfl⟩
  | dangling hx hrefs hm => exact absurd hm (hk.entries _ hrefs)
  | popReady hx | pushFront hx | take hx | ret hx | register hx | late hx | emplace hx
  | complete hx | ignore hx | decrement hx | erase hx | destroy hx =>
    exact hquiet hx rfl ⟨rfl, rfl⟩

theorem Moves.target (hm : s.Moves l s') (hk : s.Single) :
    ∀ x ∈ s'.threads, ∀ i, x.target = some i → i < s.localTaskQueues.length := by
  rcases hm.thread hk with ht | ⟨t, x, y, -, ht, htarget, -⟩ <;> rw [ht]
  · exact hk.target
  · refine Table.forall_mem_set hk.target fun i hi => ?_
    rw [htarget i hi]
    exact Nat.mod_lt _ hk.workers

theorem Moves.faulted (hm : s.Moves l s') (hk : s.Single)
    (hok : ∀ t x, l = .advance t → s.threads[t]? = some x → s.Sound x) : s'.faulted = false := by
  cases hm with
  | missing hx hh hm => exact absurd hm (hk.memory_ne_none hx (hok _ _ rfl hx) hh)
  | notSuspended hx hf hp => simp [hk.suspended_of_resuming hx hf] at hp
  | dangling hx hrefs hm => exact absurd hm (hk.entries _ hrefs)
  | _ => exact hk.faulted

theorem Single.step (hk : s.Single) (hs : s.step l = some s')
    (hok : ∀ t x, l = .advance t → s.threads[t]? = some x → s.Sound x) : s'.Single := by
  have hm := step_cases hs
  have hc := hm.change hk hok
  have hlen := hm.queues_length hk
  exact {
    faulted := hm.faulted hk hok
    workers := hlen ▸ hk.workers
    target := hlen ▸ hm.target hk
    entries := fun _ => hm.entries hk hok
    address := fun _ _ => hm.address hk
    uncompleted := fun _ _ => hc.uncompleted hk
    placed := hc.placed hk hok }

theorem single_init {workers outsiders : ℕ} (hw : 0 < workers) (next : BitVec 64)
    (clock : TimePoint) : (init workers outsiders next clock).Single where
  faulted := rfl
  workers := by simpa [init] using hw
  target := by
    intro x hx i hi
    simp only [init, List.mem_append, List.mem_replicate] at hx
    rcases hx with ⟨-, rfl⟩ | ⟨-, rfl⟩ <;> cases hi
  entries _ h := absurd rfl h
  address _ _ h := by cases h
  uncompleted _ _ h := by cases h
  placed p := by
    have hnone : (init workers outsiders next clock).places = [] := by
      simp [places, queued, waiting, init, ThreadPoint.places]
    simp [hnone]

end

end AsyncScheduler

end EllohimMQ
