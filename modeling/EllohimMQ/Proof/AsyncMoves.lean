import EllohimMQ.Lib.Table
import EllohimMQ.Model.AsyncScheduler

/-!
# Where the handles of `async.hpp` are

A handle is parked (in a queue, in `delayed_tasks`, in a continuation slot or with a worker that has
not resumed it), or its coroutine runs, or it is in its final awaiter.  `Moves` says once what each
step does; the counts of the handles before and after it follow from `count_places`.
-/

namespace EllohimMQ

/-- What is done with the handle of a coroutine where the handle is. -/
inductive Place where
  | parked (a : Address)
  | running (a : Address)
  | finishing (a : Address)
  deriving DecidableEq

/-- The handle, unless its coroutine is at its end. -/
def Place.unfinished : Place → Option Address
  | .parked a => some a
  | .running a => some a
  | .finishing _ => none

/-- Suspended, and not at its end. -/
def FramePoint.suspended : FramePoint → Bool
  | .initialSuspend => true
  | .awaiting _ => true
  | .sleeping => true
  | _ => false

/-- The coroutine whose body the program is. -/
def Site.places : Site → List Place
  | .outside => []
  | .body c => [.running c]

/-- The handles that a thread in `schedule(h)` still has. -/
def Caller.places (h : Address) : Caller → List Place
  | .program site _ => site.places
  | .registered _ => []
  | .fallback _ => [.parked h]

/-- The handles that a thread at this point has. -/
def ThreadPoint.places : ThreadPoint → List Place
  | .moving ready => ready.map .parked
  | .distributing h ready => .parked h :: ready.map .parked
  | .pushingFront _ h ready => .parked h :: ready.map .parked
  | .fetched h => [.parked h]
  | .resuming h => [.parked h]
  | .body h => [.running h]
  | .awaitSuspend h _ _ => [.parked h]
  | .registering h _ _ => [.parked h]
  | .scheduling h caller => caller.places h
  | .counting h caller => caller.places h
  | .inserting _ h caller => caller.places h
  | .delaying h _ => [.parked h]
  | .emplacing h _ => [.parked h]
  | .awaitResume h _ => [.running h]
  | .finalAwait h => [.finishing h]
  | .finalCleanup _ continuation => continuation.toList.map .parked
  | _ => []

/-- The handles that are about to be cleaned up. -/
def ThreadPoint.requests : ThreadPoint → List Address
  | .finalCleanup h _ => [h]
  | .locking requests => requests
  | .destroying requests => requests
  | _ => []

/-- The object that the thread is detaching, with the handle that it is about to schedule. -/
def ThreadPoint.detaches : ThreadPoint → Option (ℕ × Address)
  | .scheduling h (.program _ object) => object.map (·, h)
  | .counting h (.program _ object) => object.map (·, h)
  | .inserting _ h (.program _ object) => object.map (·, h)
  | _ => none

/-- The queue that the thread is about to push to. -/
def ThreadPoint.target : ThreadPoint → Option ℕ
  | .pushingFront i _ _ => some i
  | .inserting i _ _ => some i
  | _ => none

/-- The handle that the thread is about to look at. -/
def ThreadPoint.uses : ThreadPoint → Option Address
  | .moving (h :: _) => some h
  | .fetched h => some h
  | .resuming h => some h
  | .awaitSuspend _ _ coro => coro
  | .scheduling h _ => some h
  | .delaying h _ => some h
  | .finalAwait h => some h
  | _ => none

/-- The coroutine that waits for the state to be completed. -/
def CoroutineState.waiting (c : CoroutineState) : List Address :=
  if c.completed then [] else c.continuation.toList

namespace AsyncScheduler

/-- The positions of the queues. -/
def queued (s : AsyncScheduler) : List Address :=
  s.localTaskQueues.flatten ++ s.delayedTasks.map Prod.snd

/-- The handles in the hands of a thread. -/
def held (s : AsyncScheduler) : List Address :=
  (s.threads.flatMap ThreadPoint.places).filterMap Place.unfinished

/-- The coroutines that wait for a state. -/
def waiting (s : AsyncScheduler) : List Address := s.states.flatMap CoroutineState.waiting

/-- All the handles, each with what is done with it where it is. -/
def places (s : AsyncScheduler) : List Place :=
  s.queued.map .parked ++ s.threads.flatMap ThreadPoint.places ++ s.waiting.map .parked

/-- The requests that have not been processed. -/
def pending (s : AsyncScheduler) : List Address :=
  s.cleanupTasks ++ s.threads.flatMap ThreadPoint.requests

/-- Thread `t` takes `n` steps inside the scheduler. -/
def advances (t n : ℕ) : List AsyncStep := List.replicate n (.advance t)

/-- The steps, with the place each starts from and the state it ends in. -/
inductive Moves (s : AsyncScheduler) : AsyncStep → AsyncScheduler → Prop
  | clock {time : TimePoint} : Moves s (.tick time) { s with clock := time }
  /-- A frame is used that is not there. -/
  | missing {t : ℕ} {x : ThreadPoint} {h : Address} (hx : s.threads[t]? = some x)
    (hh : x.uses = some h) (hm : s.memory h = none) : Moves s (.advance t) s.fault
  /-- A coroutine is resumed that is not suspended. -/
  | notSuspended {t : ℕ} {h : Address} {f : PromiseFrame}
    (hx : s.threads[t]? = some (.resuming h)) (hf : s.memory h = some f)
    (hp : f.point.suspended = false) : Moves s (.advance t) s.fault
  /-- The thread goes on, with the handles and the requests that it had. -/
  | walk {l : AsyncStep} {t : ℕ} {x y : ThreadPoint} {next : BitVec 64} {refsLocked : Bool}
    (hx : s.threads[t]? = some x) (hplaces : y.places = x.places)
    (hrequests : y.requests = x.requests) (hdetaches : y.detaches = x.detaches)
    (htarget : ∀ i, y.target = some i → i = s.threadIdx) :
    Moves s l { s with
      threads := s.threads.set t y
      nextThreadIdx := next
      refsLocked := refsLocked }
  /-- A handle is dropped since its coroutine is done. -/
  | skip {t : ℕ} {x y : ThreadPoint} {h : Address} (hx : s.threads[t]? = some x)
    (hdone : s.done h = some true) (hplaces : x.places = .parked h :: y.places)
    (hrequests : x.requests = [] ∧ y.requests = []) (hdetaches : y.detaches = none)
    (htarget : y.target = none) : Moves s (.advance t) (s.setThread t y)
  | popReady {t : ℕ} {now : TimePoint} (hx : s.threads[t]? = some (.timed now)) :
    Moves s (.advance t) (s.popReady t now)
  | pushFront {t i : ℕ} {h : Address} {ready : List Address}
    (hx : s.threads[t]? = some (.pushingFront i h ready)) :
    Moves s (.advance t) (s.pushFront t i h ready)
  /-- A handle is taken from the front or from the back of a queue. -/
  | take {t i : ℕ} {x : ThreadPoint} {h : Address} {queue queue' : List Address}
    (hx : s.threads[t]? = some x) (hplaces : x.places = [] ∧ x.requests = [])
    (hq : s.localTaskQueues[i]? = some queue) (hperm : queue.Perm (h :: queue')) :
    Moves s (.advance t) ((s.setQueue i queue').setThread t (.fetched h))
  | resume {t : ℕ} {h : Address} {f : PromiseFrame} {y : ThreadPoint}
    (hx : s.threads[t]? = some (.resuming h)) (hf : s.memory h = some f)
    (hp : f.point.suspended = true) (hy : y = .body h ∨ ∃ k, y = .awaitResume h k) :
    Moves s (.advance t) ((s.setPoint h .running).setThread t y)
  /-- The coroutine on the thread suspends in `co_await`. -/
  | suspend {t : ℕ} {op : Operation} {c : Address} {p : FramePoint} {y : ThreadPoint}
    (hx : s.threads[t]? = some (.body c)) (hp : p = .sleeping ∨ ∃ k, p = .awaiting k)
    (hy : (∃ k coro, y = .awaitSuspend c k coro) ∨ ∃ delay, y = .delaying c delay) :
    Moves s (.call t op) ((s.setPoint c p).setThread t y)
  | ret {t : ℕ} {c : Address} (hx : s.threads[t]? = some (.body c)) :
    Moves s (.call t .ret) ((s.setPoint c .finalSuspend).setThread t (.finalAwait c))
  | register {t k : ℕ} {h coro : Address} {c : CoroutineState}
    (hx : s.threads[t]? = some (.registering h k coro)) (hc : s.states[k]? = some c)
    (hcompleted : c.completed = false) :
    Moves s (.advance t) ((s.modifyState k fun c => (c.setContinuation h).setLocked true).setThread t
      (.scheduling coro (.registered k)))
  /-- The state was completed before the lock was taken. -/
  | late {t k : ℕ} {h coro : Address}
    (hx : s.threads[t]? = some (.registering h k coro)) :
    Moves s (.advance t)
      ((s.modifyState k (.setLocked true)).setThread t (.scheduling h (.fallback (some k))))
  | call {t : ℕ} {op : Operation} {x : ThreadPoint} {site : Site} {h : Address} {object : Option ℕ}
    (hx : s.threads[t]? = some x) (hsite : x.site = some site)
    (hobject : ∀ o, object = some o → ∃ k, s.object o = some ⟨some h, some k⟩) :
    Moves s (.call t op) (s.setThread t (.scheduling h (.program site object)))
  /-- `schedule` ends without a push. -/
  | refused {t : ℕ} {x : ThreadPoint} {h : Address} {caller : Caller}
    (hx : s.threads[t]? = some x)
    (hwhy : x = .scheduling h caller ∧ s.done h = some true ∨
      (∃ i, x = .inserting i h caller) ∧ s.handleRefs h ≠ none) :
    Moves s (.advance t) (s.scheduled t caller)
  | insert {t i : ℕ} {h : Address} {caller : Caller}
    (hx : s.threads[t]? = some (.inserting i h caller)) (hrefs : s.handleRefs h = none) :
    Moves s (.advance t) { s.scheduled t caller with
      handleRefs := Function.update s.handleRefs h (some 1)
      localTaskQueues := s.localTaskQueues.modify i (· ++ [h]) }
  | emplace {t : ℕ} {h : Address} {delay : ℤ} (hx : s.threads[t]? = some (.emplacing h delay)) :
    Moves s (.advance t) { s.setThread t .tick with
      delayedTasks := s.delayedTasks ++ [(s.clock + delay * 1000000, h)] }
  | complete {t : ℕ} {h : Address} {f : PromiseFrame} {c : CoroutineState}
    (hx : s.threads[t]? = some (.finalAwait h)) (hf : s.memory h = some f)
    (hc : s.states[f.state]? = some c) :
    Moves s (.advance t)
      ((s.modifyState f.state .complete).setThread t (.finalCleanup h c.continuation))
  | request {t : ℕ} {h : Address} {continuation : Option Address}
    (hx : s.threads[t]? = some (.finalCleanup h continuation)) :
    Moves s (.advance t) { s.setThread t (continuation.elim .tick .resuming) with
      cleanupTasks := s.cleanupTasks ++ [h] }
  | sweep {t : ℕ} (hx : s.threads[t]? = some .sweeping) :
    Moves s (.advance t)
      { s.setThread t (if s.cleanupTasks = [] then .tick else .locking s.cleanupTasks) with
        cleanupTasks := [] }
  /-- A request finds no entry. -/
  | ignore {t : ℕ} {h : Address} {requests : List Address}
    (hx : s.threads[t]? = some (.destroying (h :: requests))) (hrefs : s.handleRefs h = none) :
    Moves s (.advance t) (s.setThread t (.destroying requests))
  | decrement {t : ℕ} {h : Address} {requests : List Address} {n : ℤ}
    (hx : s.threads[t]? = some (.destroying (h :: requests))) (hrefs : s.handleRefs h = some n)
    (hn : ¬n - 1 ≤ 0) :
    Moves s (.advance t) { s.setThread t (.destroying requests) with
      handleRefs := Function.update s.handleRefs h (some (n - 1)) }
  /-- The entry is removed, and the coroutine goes on. -/
  | erase {t : ℕ} {h : Address} {requests : List Address}
    (hx : s.threads[t]? = some (.destroying (h :: requests))) (hrefs : s.handleRefs h ≠ none)
    (hdone : s.done h = some false) :
    Moves s (.advance t) { s.setThread t (.destroying requests) with
      handleRefs := Function.update s.handleRefs h none }
  | destroy {t : ℕ} {h : Address} {requests : List Address} {f : PromiseFrame}
    (hx : s.threads[t]? = some (.destroying (h :: requests))) (hrefs : s.handleRefs h ≠ none)
    (hf : s.memory h = some f) (hp : f.point = .finalSuspend) :
    Moves s (.advance t) { s.setThread t (.destroying requests) with
      handleRefs := Function.update s.handleRefs h none
      memory := Function.update s.memory h none
      states := s.states.modify f.state .countDestroyed }
  /-- The entry is for a frame that is not there. -/
  | dangling {t : ℕ} {h : Address} {requests : List Address} {s' : AsyncScheduler}
    (hx : s.threads[t]? = some (.destroying (h :: requests))) (hrefs : s.handleRefs h ≠ none)
    (hm : s.memory h = none) : Moves s (.advance t) s'
  | create {t : ℕ} {address : Address} (hm : s.memory address = none) :
    Moves s (.call t (.create address)) (s.create address)
  | move {t o : ℕ} {a : Async} (ho : s.object o = some a) :
    Moves s (.call t (.move o))
      { s with objects := s.objects.set o (some ⟨none, none⟩) ++ [some a] }
  | assign {t o other : ℕ} {a b : Async} (ho : s.object o = some a)
    (hother : s.object other = some b) (hne : o ≠ other) :
    Moves s (.call t (.assign o other)) { s.cleanup a with
      objects := (s.objects.set o (some b)).set other (some ⟨none, none⟩) }
  | drop {t o : ℕ} {a : Async} (ho : s.object o = some a) :
    Moves s (.call t (.drop o)) { s.cleanup a with objects := s.objects.set o none }
  /-- The call of the program has nothing to do. -/
  | stay {t : ℕ} {op : Operation} : Moves s (.call t op) s

theorem done_eq_none {s : AsyncScheduler} {h : Address} : s.done h = none ↔ s.memory h = none :=
  Option.map_eq_none_iff

theorem done_eq_true {s : AsyncScheduler} {h : Address} :
    s.done h = some true ↔ ∃ f, s.memory h = some f ∧ f.point = .finalSuspend := by
  simp [done]

theorem process_cases {s : AsyncScheduler} {t : ℕ} {h : Address} {requests : List Address}
    (hx : s.threads[t]? = some (.destroying (h :: requests))) :
    s.Moves (.advance t) ((s.process h).setThread t (.destroying requests)) := by
  rcases hrefs : s.handleRefs h with _ | n
  · rw [process, hrefs]
    exact .ignore hx hrefs
  have hne : s.handleRefs h ≠ none := by simp [hrefs]
  by_cases hn : n - 1 ≤ 0
  · rcases hf : s.memory h with _ | f
    · exact .dangling hx hne hf
    · by_cases hp : f.point = .finalSuspend
      · have he : s.process h = { s.modifyState f.state .countDestroyed with
            handleRefs := Function.update s.handleRefs h none
            memory := Function.update s.memory h none } := by
          simp [process, hrefs, hn, done, hf, hp, destroy, modifyState]
        rw [he]
        exact .destroy hx hne hf hp
      · have he : s.process h = { s with handleRefs := Function.update s.handleRefs h none } := by
          simp [process, hrefs, hn, done, hf, hp]
        rw [he]
        exact .erase hx hne (by simp [done, hf, hp])
  · have he : s.process h =
        { s with handleRefs := Function.update s.handleRefs h (some (n - 1)) } := by
      simp only [process, hrefs, if_neg hn]
    rw [he]
    exact .decrement hx hrefs hn

theorem fetch_cases {s : AsyncScheduler} {t : ℕ} (hx : s.threads[t]? = some .fetching) :
    s.Moves (.advance t) (s.fetch t) := by
  rcases hq : s.localTaskQueues[t]? with _ | _ | ⟨h, queue⟩ <;> simp only [fetch, hq]
  · exact .walk hx rfl rfl rfl (by simp [ThreadPoint.target])
  · exact .walk hx rfl rfl rfl (by simp [ThreadPoint.target])
  · exact .take hx ⟨rfl, rfl⟩ hq (.refl _)

theorem steal_cases {s : AsyncScheduler} {t i : ℕ} (hx : s.threads[t]? = some (.stealing i)) :
    s.Moves (.advance t) (s.steal t i) := by
  rcases hq : s.localTaskQueues[i]? with _ | queue <;> simp only [steal, hq]
  · exact .walk hx rfl rfl rfl (by simp [ThreadPoint.target])
  · split_ifs with hi
    · exact .walk hx rfl rfl rfl (by simp [ThreadPoint.target])
    · rcases hlast : queue.getLast? with _ | h
      · exact .walk hx rfl rfl rfl (by simp [ThreadPoint.target])
      · have hsplit := List.dropLast_append_getLast? h hlast
        refine .take hx ⟨rfl, rfl⟩ hq ?_
        conv_lhs => rw [← hsplit]
        exact List.perm_append_comm

theorem resume_cases {s : AsyncScheduler} {t : ℕ} {h : Address}
    (hx : s.threads[t]? = some (.resuming h)) : s.Moves (.advance t) (s.resume t h) := by
  rcases hf : s.memory h with _ | f
  · simp only [resume, hf, Option.map_none]
    exact .missing hx rfl hf
  · rcases hp : f.point <;> simp only [resume, hf, hp, Option.map_some]
    · exact .resume hx hf (by rw [hp]; rfl) (.inl rfl)
    · exact .notSuspended hx hf (by rw [hp]; rfl)
    · exact .resume hx hf (by rw [hp]; rfl) (.inr ⟨_, rfl⟩)
    · exact .resume hx hf (by rw [hp]; rfl) (.inl rfl)
    · exact .notSuspended hx hf (by rw [hp]; rfl)

theorem advance_cases {s s' : AsyncScheduler} {t : ℕ} {x : ThreadPoint}
    (hx : s.threads[t]? = some x) (hs : s.advance t x = some s') : s.Moves (.advance t) s' := by
  cases x with
  | outside | body => cases hs
  | tick => exact Option.some.inj hs ▸ .walk hx rfl rfl rfl (by simp [ThreadPoint.target])
  | timed now => exact Option.some.inj hs ▸ .popReady hx
  | moving ready =>
    rcases ready with _ | ⟨h, ready⟩
    · exact Option.some.inj hs ▸ .walk hx rfl rfl rfl (by simp [ThreadPoint.target])
    · rcases hdone : s.done h with _ | _ | _ <;> simp only [advance, hdone] at hs <;>
        obtain rfl := Option.some.inj hs
      · exact .missing hx rfl (done_eq_none.1 hdone)
      · exact .walk hx rfl rfl rfl (by simp [ThreadPoint.target])
      · exact .skip hx hdone rfl ⟨rfl, rfl⟩ rfl rfl
  | distributing h ready =>
    exact Option.some.inj hs ▸ .walk hx rfl rfl rfl (by simp [ThreadPoint.target])
  | pushingFront i h ready => exact Option.some.inj hs ▸ .pushFront hx
  | fetching => exact Option.some.inj hs ▸ fetch_cases hx
  | stealing i => exact Option.some.inj hs ▸ steal_cases hx
  | fetched h =>
    rcases hdone : s.done h with _ | _ | _ <;> simp only [advance, hdone] at hs <;>
      obtain rfl := Option.some.inj hs
    · exact .missing hx rfl (done_eq_none.1 hdone)
    · exact .walk hx rfl rfl rfl (by simp [ThreadPoint.target])
    · exact .skip hx hdone rfl ⟨rfl, rfl⟩ rfl rfl
  | resuming h => exact Option.some.inj hs ▸ resume_cases hx
  | awaitSuspend h k coro =>
    rcases coro with _ | coro
    · exact Option.some.inj hs ▸ .walk hx rfl rfl rfl (by simp [ThreadPoint.target])
    · rcases hdone : s.done coro with _ | _ | _ <;> simp only [advance, hdone] at hs <;>
        obtain rfl := Option.some.inj hs
      · exact .missing hx rfl (done_eq_none.1 hdone)
      · exact .walk hx rfl rfl rfl (by simp [ThreadPoint.target])
      · exact .walk hx rfl rfl rfl (by simp [ThreadPoint.target])
  | registering h k coro =>
    rcases hc : s.states[k]? with _ | c <;> simp only [advance, hc] at hs
    · cases hs
    · split_ifs at hs
      obtain rfl := Option.some.inj hs
      unfold register
      split_ifs with hcompleted
      · exact .late hx
      · exact .register hx hc (Bool.eq_false_of_not_eq_true hcompleted)
  | scheduling h caller =>
    rcases hdone : s.done h with _ | _ | _ <;> simp only [advance, hdone] at hs <;>
      obtain rfl := Option.some.inj hs
    · exact .missing hx rfl (done_eq_none.1 hdone)
    · exact .walk hx rfl rfl (by cases caller <;> rfl) (by simp [ThreadPoint.target])
    · exact .refused hx (.inl ⟨rfl, hdone⟩)
  | counting h caller =>
    exact Option.some.inj hs ▸
      .walk hx rfl rfl (by cases caller <;> rfl) (by simp [ThreadPoint.target])
  | inserting i h caller =>
    simp only [advance] at hs
    split_ifs at hs
    obtain rfl := Option.some.inj hs
    rcases hrefs : s.handleRefs h with _ | n <;> simp only [insert, hrefs]
    · exact .insert hx hrefs
    · exact .refused hx (.inr ⟨⟨i, rfl⟩, by simp [hrefs]⟩)
  | delaying h delay =>
    rcases hdone : s.done h with _ | _ | _ <;> simp only [advance, hdone] at hs <;>
      obtain rfl := Option.some.inj hs
    · exact .missing hx rfl (done_eq_none.1 hdone)
    · exact .walk hx rfl rfl rfl (by simp [ThreadPoint.target])
    · exact .skip hx hdone rfl ⟨rfl, rfl⟩ rfl rfl
  | emplacing h delay => exact Option.some.inj hs ▸ .emplace hx
  | awaitResume h k =>
    rcases hc : s.states[k]? with _ | c <;> simp only [advance, hc] at hs
    · cases hs
    · split_ifs at hs
      exact Option.some.inj hs ▸ .walk hx rfl rfl rfl (by simp [ThreadPoint.target])
  | finalAwait h =>
    rcases hf : s.memory h with _ | f <;> simp only [advance, hf] at hs
    · exact Option.some.inj hs ▸ .missing hx rfl hf
    · rcases hc : s.states[f.state]? with _ | c <;> simp only [hc] at hs
      · cases hs
      · split_ifs at hs
        exact Option.some.inj hs ▸ .complete hx hf hc
  | finalCleanup h continuation => exact Option.some.inj hs ▸ .request hx
  | sweeping => exact Option.some.inj hs ▸ .sweep hx
  | locking requests =>
    simp only [advance] at hs
    split_ifs at hs
    exact Option.some.inj hs ▸ .walk hx rfl rfl rfl (by simp [ThreadPoint.target])
  | destroying requests =>
    rcases requests with _ | ⟨h, requests⟩
    · exact Option.some.inj hs ▸ .walk hx rfl rfl rfl (by simp [ThreadPoint.target])
    · exact Option.some.inj hs ▸ process_cases hx

theorem await_cases {s s' : AsyncScheduler} {t : ℕ} {op : Operation} {c : Address} {a : Async}
    (hx : s.threads[t]? = some (.body c)) (hs : s.await t c a = some s') :
    s.Moves (.call t op) s' := by
  rcases hk : a.state with _ | k <;> simp only [await, hk] at hs
  · exact Option.some.inj hs ▸ .stay
  · rcases hc : s.states[k]? with _ | state <;> simp only [hc, Option.map_none, Option.map_some] at hs
    · cases hs
    · obtain rfl := Option.some.inj hs
      split_ifs
      · exact .stay
      · exact .suspend hx (.inr ⟨_, rfl⟩) (.inl ⟨_, _, rfl⟩)

theorem call_cases {s s' : AsyncScheduler} {t : ℕ} {op : Operation} {x : ThreadPoint} {site : Site}
    (hx : s.threads[t]? = some x) (hsite : x.site = some site)
    (hs : s.call t site op = some s') : s.Moves (.call t op) s' := by
  have hbody : ∀ {c}, site = .body c → s.threads[t]? = some (.body c) := by
    rintro c rfl
    cases x <;> simp [ThreadPoint.site] at hsite
    rwa [hsite] at hx
  cases op with
  | create address =>
    simp only [call] at hs
    split_ifs at hs with hm
    exact Option.some.inj hs ▸ .create hm
  | move o =>
    obtain ⟨a, ho, rfl⟩ := Option.map_eq_some_iff.1 hs
    exact .move ho
  | assign o other =>
    rcases ho : s.object o with _ | a <;> rcases hother : s.object other with _ | b <;>
      simp only [call, ho, hother] at hs <;> try cases hs
    split_ifs at hs with he
    · exact Option.some.inj hs ▸ .stay
    · exact Option.some.inj hs ▸ .assign ho hother he
  | drop o =>
    obtain ⟨a, ho, rfl⟩ := Option.map_eq_some_iff.1 hs
    exact .drop ho
  | detach o =>
    obtain ⟨⟨coro, state⟩, ho, rfl⟩ := Option.map_eq_some_iff.1 hs
    rcases coro with _ | h
    · exact .stay
    · rcases state with _ | k
      · exact .stay
      · exact .call hx hsite (by rintro _ ⟨⟩; exact ⟨k, ho⟩)
  | schedule h => exact Option.some.inj hs ▸ .call hx hsite (by simp)
  | await o =>
    rcases site with _ | c
    · cases hs
    · rcases ho : s.object o with _ | a <;> simp only [call, ho] at hs
      · cases hs
      · exact await_cases (hbody rfl) hs
  | sleepFor delay =>
    rcases site with _ | c
    · cases hs
    · obtain rfl := Option.some.inj hs
      split_ifs
      · exact .stay
      · exact .suspend (hbody rfl) (.inl rfl) (.inr ⟨_, rfl⟩)
  | yield =>
    rcases site with _ | c
    · cases hs
    · exact Option.some.inj hs ▸ .suspend (hbody rfl) (.inl rfl) (.inr ⟨_, rfl⟩)
  | ret =>
    rcases site with _ | c
    · cases hs
    · exact Option.some.inj hs ▸ .ret (hbody rfl)

theorem step_cases {s s' : AsyncScheduler} {l : AsyncStep} (hs : s.step l = some s') :
    s.Moves l s' := by
  unfold step at hs
  split_ifs at hs
  cases l with
  | tick time =>
    simp only at hs
    split_ifs at hs
    exact Option.some.inj hs ▸ .clock
  | advance t =>
    obtain ⟨x, hx, hadvance⟩ := Option.bind_eq_some_iff.1 hs
    exact advance_cases hx hadvance
  | tryLockFails t =>
    simp only at hs
    split at hs
    · next i hx =>
      split_ifs at hs
      exact Option.some.inj hs ▸ .walk hx rfl rfl rfl (by simp [ThreadPoint.target])
    · cases hs
  | call t op =>
    obtain ⟨site, hsite, hcall⟩ := Option.bind_eq_some_iff.1 hs
    obtain ⟨x, hx, hxsite⟩ := Option.bind_eq_some_iff.1 hsite
    exact call_cases hx hxsite hcall

/-- A push to a queue. -/
theorem step_insert {s s' : AsyncScheduler} {t i : ℕ} {h : Address} {caller : Caller}
    (hx : s.threads[t]? = some (.inserting i h caller)) (hrefs : s.handleRefs h = none)
    (hs : s.step (.advance t) = some s') : s' = { s.scheduled t caller with
      handleRefs := Function.update s.handleRefs h (some 1)
      localTaskQueues := s.localTaskQueues.modify i (· ++ [h]) } := by
  unfold step at hs
  split_ifs at hs
  simp only [hx, Option.bind_some, advance] at hs
  split_ifs at hs
  simp only [insert, hrefs] at hs
  exact (Option.some.inj hs).symm

end AsyncScheduler

end EllohimMQ
