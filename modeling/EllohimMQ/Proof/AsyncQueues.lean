import EllohimMQ.Proof.AsyncPlaces

/-!
# A runnable coroutine of `async.hpp` has one place

`handle_refs` is to tell whether a handle is in a queue, but an entry outlives the place in the queue,
and a continuation slot holds one coroutine however many await the state.  Where neither shows
(`orderly`), each step leaves every coroutine that has started and not finished a place
(`Runnable.step`), and by `Single` it has no other.
-/

namespace EllohimMQ

open Transition

namespace AsyncScheduler

/-- The coroutine of `h` is suspended, and its handle is in no queue and in no hands but those of the
thread at `x`. -/
def idle (s : AsyncScheduler) (x : ThreadPoint) (h : Address) : Bool :=
  ((s.memory h).any fun f => f.point.suspended) ∧ h ∉ s.queued ∧
    (s.threads.flatMap ThreadPoint.places).count (.parked h) ≤ x.places.count (.parked h)

/-- A handle from the program is that of a frame; a continuation slot is empty when it is set; at a
push there is no entry in `handle_refs` just when the coroutine is idle, and it does not wait; and a
frame is destroyed only after its final awaiter. -/
def orderly (s : AsyncScheduler) : AsyncStep → Bool
  | .advance t =>
    match s.threads[t]? with
    | some (.scheduling h _) => (s.memory h).isSome
    | some (.awaitSuspend _ _ (some coro)) => (s.memory coro).isSome
    | some (.registering _ k _) => (s.states[k]?).all fun c => c.completed ∨ c.continuation = none
    | some (.inserting i h caller) =>
      if s.idle (.inserting i h caller) h then s.handleRefs h = none ∧ h ∉ s.waiting
      else s.handleRefs h ≠ none
    | some (.destroying (h :: _)) =>
      s.handleRefs h = none ∨
        (s.memory h).all fun f => f.point = .finalSuspend → s.completed f.state = true
    | _ => true
  | _ => true

variable {s s' : AsyncScheduler} {l : AsyncStep}

theorem idle_iff {x : ThreadPoint} {h : Address} :
    s.idle x h = true ↔ (∃ f, s.memory h = some f ∧ f.point.suspended = true) ∧ h ∉ s.queued ∧
      (s.threads.flatMap ThreadPoint.places).count (.parked h) ≤ x.places.count (.parked h) := by
  simp [idle, Option.any_eq_true]

theorem sound_of_orderly (hok : s.orderly l = true) (t : ℕ) (x : ThreadPoint)
    (hl : l = .advance t) (hx : s.threads[t]? = some x) : s.Sound x where
  scheduling h caller hxe := by
    subst hl hxe
    simpa [orderly, hx, Option.isSome_iff_ne_none] using hok
  awaitSuspend h k coro hxe := by
    subst hl hxe
    simpa [orderly, hx, Option.isSome_iff_ne_none] using hok
  inserting i h caller hxe hrefs := by
    subst hl hxe
    simp only [orderly, hx, hrefs] at hok
    split_ifs at hok with hidle
    · obtain ⟨hsuspended, hqueued, hhands⟩ := idle_iff.1 hidle
      refine ⟨hsuspended, ?_⟩
      have hwaiting : s.waiting.count h = 0 := List.count_eq_zero.2 (by simpa using hok)
      rw [count_parked, List.count_eq_zero.2 hqueued, hwaiting]
      omega
    · simp at hok
  destroying h requests f hxe hrefs hf hfinal := by
    subst hl hxe
    simpa [orderly, hx, hrefs, hf, hfinal] using hok

/-- What the runs of orderly steps keep beyond `Single`. -/
def Runnable (s : AsyncScheduler) : Prop :=
  ∀ a f, s.memory a = some f → f.point ≠ .initialSuspend → f.point ≠ .finalSuspend →
    1 ≤ s.places.count (.parked a) + s.places.count (.running a)

/-- A coroutine that fails to schedule itself is idle. -/
theorem Single.idle_fallback (hk : s.Single) {t i : ℕ} {h : Address} {k : Option ℕ}
    (hx : s.threads[t]? = some (.inserting i h (.fallback k))) :
    s.idle (.inserting i h (.fallback k)) h = true := by
  have hmem : Place.parked h ∈ (ThreadPoint.inserting i h (.fallback k)).places :=
    List.mem_singleton_self _
  have hpos : 0 < (s.threads.flatMap ThreadPoint.places).count (.parked h) :=
    List.count_pos_iff.2 (List.mem_flatMap.2 ⟨_, List.mem_of_getElem? hx, hmem⟩)
  have hle := hk.count_le_one h
  have hcount := count_parked s h
  refine idle_iff.2 ⟨hk.of_parked (count_pos hx hmem), ?_, ?_⟩
  · refine List.count_eq_zero.1 ?_
    omega
  · have hown : (ThreadPoint.inserting i h (.fallback k)).places.count (.parked h) = 1 :=
      List.count_singleton_self
    omega

/-- A handle that changes its place is in its new one. -/
theorem pos_of_exchange {p q : Place} (hp : 0 < s.places.count p)
    (hcount : ∀ x, s'.places.count x + [p].count x = s.places.count x + [q].count x) :
    0 < s'.places.count q := by
  have hq := hcount q
  by_cases he : p = q
  · subst he
    omega
  · have hzero : [p].count q = 0 := List.count_eq_zero.2 (by simpa using Ne.symm he)
    rw [List.count_singleton_self] at hq
    omega

theorem Runnable.step (hr : s.Runnable) (hk : s.Single) (hok : s.orderly l = true)
    (hs : s.step l = some s') : s'.Runnable := by
  intro b g hg hstarted hunfinished
  cases (step_cases hs).change hk (sound_of_orderly hok) with
  | same hcount hmemory =>
    rw [hcount, hcount]
    exact hr b g (hmemory ▸ hg) hstarted hunfinished
  | @lost h hwhy hcount hmemory =>
    have hone := hr b g (hmemory ▸ hg) hstarted hunfinished
    have hparked := hcount (.parked b)
    have hrunning := hcount (.running b)
    have hne : b ≠ h := by
      rintro rfl
      rcases hwhy with hdone | ⟨t, i, k, rfl, hx, hrefs⟩
      · obtain ⟨f, hf, hfinal⟩ := done_eq_true.1 hdone
        rw [hmemory, hf] at hg
        exact hunfinished (Option.some.inj hg ▸ hfinal)
      · simp [orderly, hx, hk.idle_fallback hx, hrefs] at hok
    rw [List.count_singleton, if_neg (by simpa using hne.symm)] at hparked
    rw [List.count_singleton, if_neg (by simp)] at hrunning
    omega
  | pushed _ _ _ _ hcount hmemory =>
    have hone := hr b g (hmemory ▸ hg) hstarted hunfinished
    rw [hcount, hcount]
    omega
  | @overwritten t k h coro c hl hx hc huncompleted hcount hmemory =>
    subst hl
    have hone := hr b g (hmemory ▸ hg) hstarted hunfinished
    have hempty : c.continuation = none := by simpa [orderly, hx, hc, huncompleted] using hok
    simp only [hempty, Option.toList_none, List.map_nil, List.count_nil, Nat.add_zero] at hcount
    rw [hcount, hcount]
    exact hone
  | @exchange a f point p q hf hp hpos hq _ hcount hmemory =>
    have hparked := hcount (.parked b)
    have hrunning := hcount (.running b)
    by_cases hb : b = a
    · subst hb
      rw [hmemory, Function.update_self, Option.some.injEq] at hg
      subst hg
      obtain ⟨hqa, hroom⟩ := hq
      have hpos' := pos_of_exchange hpos hcount
      cases q with
      | parked c =>
        obtain rfl : c = b := hqa
        omega
      | running c =>
        obtain rfl : c = b := hqa
        omega
      | finishing c =>
        simp only [PromiseFrame.room] at hroom
        split_ifs at hroom with h
        exact absurd h.1 hunfinished
    · rw [hmemory, Function.update_of_ne hb] at hg
      have hone := hr b g hg hstarted hunfinished
      have hp₁ : [p].count (.parked b) = 0 := count_of_address_ne (by rw [hp.1]; exact hb)
      have hp₂ : [p].count (.running b) = 0 := count_of_address_ne (by rw [hp.1]; exact hb)
      omega
  | complete _ _ _ hcount hmemory =>
    have hone := hr b g (hmemory ▸ hg) hstarted hunfinished
    have hparked := hcount (.parked b)
    have hrunning := hcount (.running b)
    rw [List.count_singleton, if_neg (by simp)] at hparked hrunning
    omega
  | create _ hcount hmemory =>
    rw [hmemory, Function.update_apply] at hg
    split_ifs at hg
    · exact absurd (Option.some.inj hg ▸ rfl) hstarted
    · rw [hcount, hcount]
      exact hr b g hg hstarted hunfinished
  | destroy _ _ _ _ _ hcount hmemory =>
    rw [hmemory, Function.update_apply] at hg
    split_ifs at hg
    rw [hcount, hcount]
    exact hr b g hg hstarted hunfinished

/-! ## Runs -/

theorem runnable_of_run {workers outsiders : ℕ} {next : BitVec 64} {clock : TimePoint}
    {ls : List AsyncStep} (hworkers : 0 < workers)
    (hok : Admissible step (fun s l => s.orderly l = true) (init workers outsiders next clock) ls)
    (hrun : run step (init workers outsiders next clock) ls = some s) : s.Single ∧ s.Runnable := by
  refine hok.invariant (P := fun s => s.Single ∧ s.Runnable) ?_
    ⟨single_init hworkers next clock, fun a f hf => by cases hf⟩ hrun
  rintro s l s' ⟨hk, hr⟩ hl hs
  exact ⟨hk.step hs (sound_of_orderly hl), hr.step hk hl hs⟩

/-- In every run of orderly steps nothing is used that is not there; a coroutine that has started and
not finished is in one position of the queues, in the hands of one thread or waiting for one state
that is not completed, and nowhere else; no handle is in two positions; and a `schedule` of an idle
coroutine queues it. -/
theorem one_place {workers outsiders : ℕ} {next : BitVec 64} {clock : TimePoint}
    {ls : List AsyncStep} {s : AsyncScheduler} (hworkers : 0 < workers)
    (hok : Admissible step (fun s l => s.orderly l = true) (init workers outsiders next clock) ls)
    (hrun : run step (init workers outsiders next clock) ls = some s) :
    s.faulted = false ∧
    (∀ a f, s.memory a = some f → f.point ≠ .initialSuspend → f.point ≠ .finalSuspend →
      s.queued.count a + s.held.count a + s.waiting.count a = 1) ∧
    s.queued.Nodup ∧
    ∀ t i h caller s', s.threads[t]? = some (.inserting i h caller) →
      s.idle (.inserting i h caller) h = true → s.orderly (.advance t) = true →
      s.step (.advance t) = some s' → h ∈ s'.localTaskQueues.flatten := by
  obtain ⟨hk, hr⟩ := runnable_of_run hworkers hok hrun
  refine ⟨hk.faulted, fun a f hf hstarted hunfinished => ?_, ?_, ?_⟩
  · rw [count_unfinished_places]
    exact le_antisymm (hk.count_le_one a) (hr a f hf hstarted hunfinished)
  · refine List.nodup_iff_count_le_one.2 fun a => ?_
    have hle := hk.count_le_one a
    have hcount := count_unfinished_places s a
    omega
  · intro t i h caller s' hx hidle hl hs
    have hrefs : s.handleRefs h = none := by
      simp only [orderly, hx, hidle, if_true, decide_eq_true_eq] at hl
      exact hl.1
    have hi := hk.target _ (List.mem_of_getElem? hx) i rfl
    obtain rfl := step_insert hx hrefs hs
    show h ∈ (s.localTaskQueues.modify i (· ++ [h])).flatten
    rw [Table.modify_eq_set (List.getElem?_eq_getElem hi)]
    exact (Table.flatten_set_perm (List.getElem?_eq_getElem hi) List.perm_append_comm).mem_iff.2
      (List.mem_cons_self ..)

/-- The coroutine at 1 awaits the one at 2, which sleeps. -/
def parentAndChild : List AsyncStep :=
  List.flatten [[.call 1 (.create 1), .call 1 (.create 2), .call 1 (.detach 0)], advances 1 3,
    advances 0 6, [.call 0 (.await 1)], advances 0 11, [.call 0 (.sleepFor 5)], advances 0 2]

theorem one_place_parent :
    ∃ s, run step (init 1 1 0 0) parentAndChild = some s ∧
      s.queued.count 1 + s.held.count 1 + s.waiting.count 1 = 1 ∧
      s.queued.count 2 + s.held.count 2 + s.waiting.count 2 = 1 := by
  obtain ⟨s, hs, hframes⟩ := Option.map_eq_some_iff.1 (show
    (run step (init 1 1 0 0) parentAndChild).map (fun s => (s.memory 1, s.memory 2)) =
      some (some ⟨.awaiting 1, 0⟩, some ⟨.sleeping, 1⟩) by decide +kernel)
  obtain ⟨hparent, hchild⟩ := Prod.mk.inj hframes
  have h := (one_place (by decide) (by decide +kernel) hs).2.1
  exact ⟨s, hs, h 1 _ hparent (by simp) (by simp), h 2 _ hchild (by simp) (by simp)⟩

/-- The coroutines at 1 and at 2 await the one at 3, and the second takes the place of the first in
the continuation slot.  A `schedule` of the first is then refused. -/
def twoAwaiters : List AsyncStep :=
  List.flatten [[.call 1 (.create 1), .call 1 (.create 2), .call 1 (.create 3), .call 1 (.detach 0)],
    advances 1 3, [.call 1 (.detach 1)], advances 1 3, advances 0 6, [.call 0 (.await 2)],
    advances 0 11, [.call 0 (.await 2)], advances 0 5]

/-- The other thread schedules the first coroutine. -/
def scheduleAgain : List AsyncStep := .call 1 (.schedule 1) :: advances 1 3

theorem wakeup_lost :
    ∃ s s', run step (init 1 1 0 0) twoAwaiters = some s ∧ s.memory 1 = some ⟨.awaiting 2, 0⟩ ∧
      s.queued.count 1 + s.held.count 1 + s.waiting.count 1 = 0 ∧
      run step s scheduleAgain = some s' ∧ s'.memory 1 = some ⟨.awaiting 2, 0⟩ ∧
      s'.queued.count 1 + s'.held.count 1 + s'.waiting.count 1 = 0 := by
  obtain ⟨s', hs', hlost'⟩ := Option.map_eq_some_iff.1 (show
    (run step (init 1 1 0 0) (twoAwaiters ++ scheduleAgain)).map
      (fun s => (s.memory 1, s.queued.count 1 + s.held.count 1 + s.waiting.count 1)) =
      some (some ⟨.awaiting 2, 0⟩, 0) by decide +kernel)
  obtain ⟨s, hs, hagain⟩ := run_append_eq_some_iff.1 hs'
  have hlost : (run step (init 1 1 0 0) twoAwaiters).map
      (fun s => (s.memory 1, s.queued.count 1 + s.held.count 1 + s.waiting.count 1)) =
      some (some ⟨.awaiting 2, 0⟩, 0) := by decide +kernel
  rw [hs, Option.map_some, Option.some.injEq, Prod.mk.injEq] at hlost
  obtain ⟨hpoint', hcount'⟩ := Prod.mk.inj hlost'
  exact ⟨s, s', hs, hlost.1, hlost.2, hagain, hpoint', hcount'⟩

end AsyncScheduler

end EllohimMQ
