import EllohimMQ.Lib.Progress
import EllohimMQ.Lib.Table
import EllohimMQ.Model.AsyncResult

/-!
# Everybody gets the result of an `async`

Whatever the order in which the coroutine ends, `result()` is called and woken, and the callback is
installed: a call of `result()` that returns gives what the body ended with, and the callback is invoked
once, if the body returned.  The exception is `then` on a coroutine that has completed, which for a type
other than `void` locks the mutex that it has.
-/

namespace EllohimMQ

open Calls Transition

variable {V E : Type}

/-! ## Places -/

/-- What the body ended with has been stored. -/
def PromisePoint.stored : PromisePoint V E → Bool
  | .finalAwait | .invoking | .ended => true
  | _ => false

/-- `completed` has been set. -/
def PromisePoint.completes : PromisePoint V E → Bool
  | .invoking | .ended => true
  | _ => false

/-- The call of `then` has the mutex. -/
def ThenPoint.holds : ThenPoint → Bool
  | .relocking | .invoking | .detaching => true
  | _ => false

/-- It has installed the callback. -/
def ThenPoint.installed : ThenPoint → Bool
  | .absent | .entered => false
  | _ => true

namespace ResultStep

/-- What a step ends the body with. -/
def completion : ResultStep V E → Option (Completion V E)
  | .complete c => some c
  | _ => none

/-- The steps that are neither the body's nor wake-ups that nobody asked for. -/
def own : ResultStep V E → Bool
  | .complete _ | .wake _ => false
  | _ => true

/-- A wake-up that nobody asked for. -/
def spurious : ResultStep V E → Bool
  | .wake _ => true
  | _ => false

end ResultStep

/-- What `result()` should give for the end of a body. -/
def ResultType.outcome : ResultType V → Completion V E → ResultOutcome V E
  | _, .exception e => .rethrown e
  | .value, .value v => .value v
  | .void u, .value _ => .value u

/-- What the callback should be invoked with; for `void` it does not matter how the body ended. -/
def ResultType.payload : ResultType V → Completion V E → Option V
  | .void u, _ => some u
  | .value, .value v => some v
  | .value, .exception _ => none

namespace AsyncResult

variable {T : ResultType V} {hasThen : Bool} {s s' : AsyncResult V E} {l : ResultStep V E}
  {ls : List (ResultStep V E)} {done : List (Completion V E)}

/-- Where the promise is, and what it has stored, when the body has ended with `done`, if it has
ended. -/
structure Promised (T : ResultType V) (s : AsyncResult V E) (done : List (Completion V E)) : Prop where
  inBody : s.promise = .inBody ↔ done = []
  single : done ≠ [] → ∃ c, done = [c]
  returning : ∀ v, s.promise = .returnValue v → T = .value ∧ done = [.value v]
  escaping : ∀ e, s.promise = .unhandledException e → done = [.exception e]
  unstored : s.promise.stored = false → s.exceptionSet = false ∧ s.value = none
  storedValue : ∀ v, s.promise.stored = true → done = [.value v] →
    s.exceptionSet = false ∧ (T = .value → s.value = some v)
  storedException : ∀ e, s.promise.stored = true → done = [.exception e] →
    s.exceptionSet = true ∧ s.exception = some e ∧ s.value = none

/-- What holds between two steps. -/
structure Sound (T : ResultType V) (hasThen : Bool) (s : AsyncResult V E)
    (done : List (Completion V E)) : Prop extends Promised T s done where
  completed : s.completed = s.promise.completes
  final_holds : s.mutex = some .finalAwaiter ↔ s.promise = .invoking
  then_holds : s.mutex = some .thenCall ↔ s.thenCall.holds = true
  absent : s.thenCall = .absent ↔ hasThen = false
  onCompleted : s.onCompleted = s.thenCall.installed
  /-- No wake-up is lost. -/
  asleep : .asleep ∈ s.results → s.completed = false
  returned : ∀ r, .returned r ∈ s.results → ∃ c, done = [c] ∧ r = T.outcome c
  relocking : s.faulted = true ↔ s.thenCall = .relocking
  invoked : s.faulted = false →
    s.invoked = if s.completed && s.onCompleted then done.filterMap T.payload else []

theorem sound_init (T : ResultType V) (n : ℕ) (hasThen : Bool) :
    Sound T hasThen (.init n hasThen : AsyncResult V E) [] := by
  constructor
  case toPromised => constructor <;> simp [init, PromisePoint.stored]
  all_goals cases hasThen <;> simp [init, PromisePoint.completes, ThenPoint.holds, ThenPoint.installed]

/-! ## What a step does -/

/-- The steps, with what each needs and the state it ends in. -/
inductive Moves (T : ResultType V) (s : AsyncResult V E) : ResultStep V E → AsyncResult V E → Prop where
  | complete (c : Completion V E) (hp : s.promise = .inBody) :
    Moves T s (.complete c) { s with promise := afterBody T c }
  | storeValue {v : V} (hm : s.mutex = none) (hp : s.promise = .returnValue v) :
    Moves T s .store { s with value := some v, promise := .finalAwait }
  | storeException {e : E} (hm : s.mutex = none) (hp : s.promise = .unhandledException e) :
    Moves T s .store { s with exception := some e, exceptionSet := true, promise := .finalAwait }
  | finishInvoking {v : V} (hm : s.mutex = none) (hp : s.promise = .finalAwait)
    (ho : s.onCompleted = true) (hv : s.delivered T = some v) :
    Moves T s .finalAwait
      { s with
        completed := true
        results := s.results.map .notify
        mutex := some .finalAwaiter
        promise := .invoking
        invoked := s.invoked ++ [v] }
  | finish (hm : s.mutex = none) (hp : s.promise = .finalAwait)
    (hv : s.onCompleted = true → s.delivered T = none) :
    Moves T s .finalAwait
      { s with completed := true, results := s.results.map .notify, promise := .ended }
  | callbackEnds (threw : Bool) (hp : s.promise = .invoking) :
    Moves T s (.callbackEnds threw)
      { s with
        mutex := none
        promise := .ended
        results := if threw then s.results.map .notify else s.results }
  | sleep {i : ℕ} {call : ResultCall V E} (hm : s.mutex = none) (hi : s.results[i]? = some call)
    (hcall : call = .entered ∨ call = .waking) (hc : s.completed = false) :
    Moves T s (.result i) { s with results := s.results.set i .asleep }
  | answer {i : ℕ} {call : ResultCall V E} (hm : s.mutex = none) (hi : s.results[i]? = some call)
    (hcall : call = .entered ∨ call = .waking) (hc : s.completed = true) :
    Moves T s (.result i) { s with results := s.results.set i (.returned (s.result T)) }
  | wake {i : ℕ} (hi : s.results[i]? = some .asleep) :
    Moves T s (.wake i) { s with results := s.results.set i .waking }
  | thenEarly (hm : s.mutex = none) (ht : s.thenCall = .entered) (hc : s.completed = false) :
    Moves T s .thenLock
      { s with onCompleted := true, mutex := some .thenCall, thenCall := .detaching }
  | thenInvoking {u : V} (hT : T = .void u) (hm : s.mutex = none) (ht : s.thenCall = .entered)
    (hc : s.completed = true) :
    Moves T s .thenLock
      { s with
        onCompleted := true
        mutex := some .thenCall
        thenCall := .invoking
        invoked := s.invoked ++ [u] }
  | thenRelocking (hT : T = .value) (hm : s.mutex = none) (ht : s.thenCall = .entered)
    (hc : s.completed = true) :
    Moves T s .thenLock
      { s with
        onCompleted := true
        mutex := some .thenCall
        thenCall := .relocking
        faulted := true }
  | thenThrows (ht : s.thenCall = .invoking) :
    Moves T s (.thenCallbackEnds true) { s with mutex := none, thenCall := .threw }
  | thenCallbackEnds (ht : s.thenCall = .invoking) :
    Moves T s (.thenCallbackEnds false) { s with thenCall := .detaching }
  | detach (ht : s.thenCall = .detaching) :
    Moves T s .detach { s with mutex := none, thenCall := .returned }

theorem step_cases (h : s.step T l = some s') : s.faulted = false ∧ s.Moves T l s' := by
  unfold step at h
  have hf : s.faulted = false := by
    by_contra hf
    rw [if_pos (by simpa using hf)] at h
    cases h
  rw [if_neg (by simp [hf])] at h
  refine ⟨hf, ?_⟩
  cases l with
  | complete c =>
    dsimp only at h
    split at h
    · exact Option.some.inj h ▸ .complete c ‹_›
    · cases h
  | store =>
    dsimp only at h
    split_ifs at h with hm
    unfold storeStep at h
    split at h
    · exact Option.some.inj h ▸ .storeValue hm ‹_›
    · exact Option.some.inj h ▸ .storeException hm ‹_›
    · cases h
  | finalAwait =>
    dsimp only at h
    split at h
    · next hm hp =>
      obtain rfl := Option.some.inj h
      unfold AsyncResult.finish
      dsimp only
      split
      · next v ho hv => exact .finishInvoking hm hp ho hv
      · next hno =>
        exact .finish hm hp fun ho => Option.eq_none_iff_forall_not_mem.2 fun v hv => hno v ho hv
    · cases h
  | callbackEnds threw =>
    dsimp only at h
    split at h
    · exact Option.some.inj h ▸ .callbackEnds threw ‹_›
    · cases h
  | result i =>
    have hcases : ∀ call, s.mutex = none → s.results[i]? = some call →
        (call = .entered ∨ call = .waking) → s.Moves T (.result i) (s.resultStep T i) := by
      intro call hm hi hcall
      unfold resultStep
      by_cases hc : s.completed = true
      · rw [if_pos hc]
        exact .answer hm hi hcall hc
      · rw [if_neg hc]
        exact .sleep hm hi hcall (by simpa using hc)
    dsimp only at h
    split at h
    · next hm hi => exact Option.some.inj h ▸ hcases _ hm hi (.inl rfl)
    · next hm hi => exact Option.some.inj h ▸ hcases _ hm hi (.inr rfl)
    · cases h
  | wake i =>
    dsimp only at h
    split at h
    · exact Option.some.inj h ▸ .wake ‹_›
    · cases h
  | thenLock =>
    dsimp only at h
    split_ifs at h with hm
    obtain rfl := Option.some.inj h
    unfold thenStep
    dsimp only
    by_cases hc : s.completed = true
    · rw [if_pos hc]
      cases T with
      | value => exact .thenRelocking rfl hm.1 hm.2 hc
      | void u => exact .thenInvoking rfl hm.1 hm.2 hc
    · rw [if_neg hc]
      exact .thenEarly hm.1 hm.2 (by simpa using hc)
  | thenCallbackEnds threw =>
    dsimp only at h
    split_ifs at h with ht hthrew
    · obtain rfl : threw = true := hthrew
      exact Option.some.inj h ▸ .thenThrows ht
    · obtain rfl : threw = false := by simpa using hthrew
      exact Option.some.inj h ▸ .thenCallbackEnds ht
  | detach =>
    dsimp only at h
    split_ifs at h with ht
    exact Option.some.inj h ▸ .detach ht

/-! ## Every step keeps the invariant -/

theorem asleep_notMem_notify (calls : List (ResultCall V E)) :
    .asleep ∉ calls.map ResultCall.notify := by
  intro hmem
  obtain ⟨call, -, hcall⟩ := List.mem_map.1 hmem
  cases call <;> cases hcall

theorem returned_mem_notify (calls : List (ResultCall V E)) (r : ResultOutcome V E)
    (h : .returned r ∈ calls.map ResultCall.notify) : .returned r ∈ calls := by
  obtain ⟨call, hmem, hcall⟩ := List.mem_map.1 h
  cases call with
  | returned r' => exact hcall ▸ hmem
  | entered | asleep | waking => cases hcall

theorem mem_set_cases (calls : List (ResultCall V E)) (i : ℕ) (call : ResultCall V E) :
    ∀ x ∈ calls.set i call, x ∈ calls ∨ x = call := fun _ => List.mem_or_eq_of_mem_set

/-- What was stored is what the body ended with. -/
theorem Sound.stored_eq (h : Sound T hasThen s done) (hp : s.promise.stored = true) :
    ∃ c, done = [c] ∧ s.result T = T.outcome c ∧ s.delivered T = T.payload c := by
  have hne : done ≠ [] := fun he => by
    rw [h.inBody.2 he] at hp
    cases hp
  obtain ⟨c, rfl⟩ := h.single hne
  refine ⟨c, rfl, ?_⟩
  cases c with
  | value v =>
    obtain ⟨hset, hvalue⟩ := h.storedValue v hp rfl
    cases T with
    | value => simp [result, delivered, hset, hvalue rfl, ResultType.outcome, ResultType.payload]
    | void u => simp [result, delivered, hset, ResultType.outcome, ResultType.payload]
  | exception e =>
    obtain ⟨hset, hexception, hvalue⟩ := h.storedException e hp rfl
    cases T <;>
      simp [result, delivered, hset, hexception, hvalue, ResultType.outcome, ResultType.payload]

/-- The result is stored before `completed` is set. -/
theorem stored_of_completes {p : PromisePoint V E} (h : p.completes = true) : p.stored = true := by
  cases p <;> first | rfl | cases h

attribute [local grind] PromisePoint.stored PromisePoint.completes ThenPoint.holds
  ThenPoint.installed ResultStep.completion afterBody

/-- The body ends, and the coroutine goes on at `p`. -/
theorem Sound.complete (h : Sound T hasThen s done) {c : Completion V E} {p : PromisePoint V E}
    (hp : s.promise = .inBody) (hpoint : afterBody T c = p) :
    Sound T hasThen { s with promise := p } (done ++ [c]) := by
  obtain rfl := h.inBody.1 hp
  have hunstored := h.unstored (by rw [hp]; rfl)
  have hcompleted : s.completed = false := by rw [h.completed, hp]; rfl
  have hfinal : s.mutex ≠ some .finalAwaiter := fun hm => by
    rw [h.final_holds, hp] at hm
    cases hm
  have hnot : p ≠ .inBody ∧ p ≠ .invoking ∧ p.completes = false := by
    subst hpoint
    cases c <;> cases T <;> simp [afterBody, PromisePoint.completes]
  rw [List.nil_append]
  exact { h with
    inBody := iff_of_false hnot.1 (List.cons_ne_nil c [])
    single := fun _ => ⟨c, rfl⟩
    returning := fun v hv => by cases c <;> cases T <;> cases hpoint <;> cases hv; exact ⟨rfl, rfl⟩
    escaping := fun e he => by cases c <;> cases T <;> cases hpoint <;> cases he <;> rfl
    unstored := fun _ => hunstored
    storedValue := fun v hstored hdone => by
      cases hdone
      refine ⟨hunstored.1, ?_⟩
      rintro rfl
      cases hpoint
      cases hstored
    storedException := fun e hstored hdone => by
      cases hdone
      cases hpoint
      cases hstored
    completed := hcompleted.trans hnot.2.2.symm
    final_holds := iff_of_false hfinal hnot.2.1
    returned := fun r hr => by
      obtain ⟨c, hc, -⟩ := h.returned r hr
      cases hc
    invoked := fun hf => by simp [h.invoked hf, hcompleted] }

/-- Behind the place where the result is stored, the promise says no more than what is stored. -/
theorem Promised.of_stored {c : Completion V E} (hp : s.promise.stored = true)
    (hvalue : ∀ v, c = .value v → s.exceptionSet = false ∧ (T = .value → s.value = some v))
    (hexception : ∀ e, c = .exception e →
      s.exceptionSet = true ∧ s.exception = some e ∧ s.value = none) :
    Promised T s [c] where
  inBody := by grind
  single _ := ⟨c, rfl⟩
  returning := by grind
  escaping := by grind
  unstored := by grind
  storedValue v _ hc := hvalue v (List.cons.inj hc).1
  storedException e _ hc := hexception e (List.cons.inj hc).1

/-- Once the result is stored, the promise only goes on. -/
theorem Promised.goOn (h : Promised T s done) (hp : s.promise.stored = true)
    (hp' : s'.promise.stored = true) (hset : s'.exceptionSet = s.exceptionSet)
    (hexception : s'.exception = s.exception) (hvalue : s'.value = s.value) :
    Promised T s' done := by
  obtain ⟨c, rfl⟩ := h.single fun hnil => by
    rw [h.inBody.2 hnil] at hp
    cases hp
  refine .of_stored hp' (fun v hc => ?_) fun e hc => ?_
  · rw [hset, hvalue]
    exact h.storedValue v hp (by rw [hc])
  · rw [hset, hexception, hvalue]
    exact h.storedException e hp (by rw [hc])

theorem Sound.store (h : Sound T hasThen s done) (hs : s.Moves T .store s') :
    Sound T hasThen s' done := by
  cases hs with
  | @storeValue v hm hp =>
    obtain ⟨hT, rfl⟩ := h.returning v hp
    obtain ⟨hset, -⟩ := h.unstored (by rw [hp]; rfl)
    exact { h with
      toPromised := .of_stored rfl (by grind) (by grind)
      completed := by grind [h.completed]
      final_holds := by grind }
  | @storeException e hm hp =>
    obtain rfl := h.escaping e hp
    obtain ⟨-, hvalue⟩ := h.unstored (by rw [hp]; rfl)
    exact { h with
      toPromised := .of_stored rfl (by grind) (by grind)
      completed := by grind [h.completed]
      final_holds := by grind }

/-- The coroutine is at its end, and those who wait are woken. -/
theorem Sound.finalAwait (h : Sound T hasThen s done) (hfaulted : s.faulted = false)
    (hs : s.Moves T .finalAwait s') : Sound T hasThen s' done := by
  have hnotify := asleep_notMem_notify s.results
  have hback := returned_mem_notify s.results
  have hstored : s.promise = .finalAwait → _ := fun hp => h.stored_eq (by rw [hp]; rfl)
  cases hs with
  | finishInvoking hm hp ho hv =>
    obtain ⟨c, hdone, -, hpayload⟩ := hstored hp
    exact { h with
      toPromised := h.goOn (by rw [hp]; rfl) rfl rfl rfl rfl
      completed := by grind
      final_holds := by grind
      then_holds := by grind [h.then_holds]
      asleep := fun hmem => absurd hmem hnotify
      returned := fun r hr => h.returned r (hback r hr)
      invoked := by grind [h.invoked, h.completed] }
  | finish hm hp hv =>
    obtain ⟨c, hdone, -, hpayload⟩ := hstored hp
    exact { h with
      toPromised := h.goOn (by rw [hp]; rfl) rfl rfl rfl rfl
      completed := by grind
      final_holds := by grind
      asleep := fun hmem => absurd hmem hnotify
      returned := fun r hr => h.returned r (hback r hr)
      invoked := by grind [h.invoked, h.completed] }

theorem Sound.callbackEnds (h : Sound T hasThen s done) {threw : Bool}
    (hs : s.Moves T (.callbackEnds threw) s') : Sound T hasThen s' done := by
  have hnotify := asleep_notMem_notify s.results
  have hback := returned_mem_notify s.results
  cases hs with
  | callbackEnds threw hp =>
    exact { h with
      toPromised := h.goOn (by rw [hp]; rfl) rfl rfl rfl rfl
      completed := by grind [h.completed]
      final_holds := by grind
      then_holds := by grind [h.then_holds, h.final_holds]
      asleep := by grind [h.asleep]
      returned := by grind [h.returned]
      invoked := by grind [h.invoked, h.completed] }

/-- A call of `result()` goes to sleep or returns. -/
theorem Sound.resultCall (h : Sound T hasThen s done) {i : ℕ} (hs : s.Moves T (.result i) s') :
    Sound T hasThen s' done := by
  cases hs with
  | sleep hm hi hcall hc =>
    have hset := mem_set_cases s.results i .asleep
    exact { h with asleep := by grind, returned := by grind [h.returned] }
  | answer hm hi hcall hc =>
    obtain ⟨c, hdone, houtcome, -⟩ := h.stored_eq (stored_of_completes (h.completed ▸ hc))
    have hset := mem_set_cases s.results i (.returned (s.result T))
    exact { h with asleep := by grind [h.asleep], returned := by grind [h.returned] }

theorem Sound.wake (h : Sound T hasThen s done) {i : ℕ} (hs : s.Moves T (.wake i) s') :
    Sound T hasThen s' done := by
  cases hs with
  | wake hi =>
    have hset := mem_set_cases s.results i .waking
    exact { h with asleep := by grind [h.asleep], returned := by grind [h.returned] }

/-- The call of `then` goes to a place behind the installation of the callback, and the mutex with
it. -/
theorem Sound.moveThen (h : Sound T hasThen s done) (hcall : s.thenCall ≠ .absent)
    (hfree : s.mutex ≠ some .finalAwaiter) {point : ThenPoint} (hpoint : point.installed = true)
    {mutex : Option StateOwner} (hm : mutex = if point.holds then some .thenCall else none)
    {onCompleted : Bool} (hon : onCompleted = true) {faulted : Bool}
    (hf : faulted = true ↔ point = .relocking) {invoked : List V}
    (hinvoked : faulted = false → invoked = if s.completed then done.filterMap T.payload else []) :
    Sound T hasThen { s with thenCall := point, mutex, onCompleted, faulted, invoked } done := by
  have hfinal : s.promise ≠ .invoking := fun hp => hfree (h.final_holds.2 hp)
  have habsent : hasThen ≠ false := fun hno => hcall (h.absent.2 hno)
  subst hon
  exact { h with
    final_holds := by grind
    then_holds := by grind
    absent := by grind
    onCompleted := hpoint.symm
    relocking := hf
    invoked := fun hno => by rw [hinvoked hno, Bool.and_true] }

/-- The call of `then` takes the mutex. -/
theorem Sound.thenLock (h : Sound T hasThen s done) (hfaulted : s.faulted = false)
    (hs : s.Moves T .thenLock s') : Sound T hasThen s' done := by
  have hinvoked := h.invoked hfaulted
  have hcall : s.thenCall = .entered → s.thenCall ≠ .absent ∧ s.onCompleted = false := fun ht => by
    rw [h.onCompleted, ht]
    exact ⟨by simp, rfl⟩
  have hfree : s.mutex = none → s.mutex ≠ some .finalAwaiter := fun hm => by simp [hm]
  cases hs with
  | @thenInvoking u hT hm ht hc =>
    obtain ⟨c, hdone, -, -⟩ := h.stored_eq (stored_of_completes (h.completed ▸ hc))
    have hpayload : T.payload c = some u := by rw [hT]; rfl
    refine h.moveThen (hcall ht).1 (hfree hm) ?_ ?_ ?_ ?_ fun _ => ?_
    · rfl
    · rfl
    · rfl
    · simp [hfaulted]
    · simp [hinvoked, (hcall ht).2, hc, hdone, hpayload]
  | thenEarly hm ht hc =>
    refine h.moveThen (hcall ht).1 (hfree hm) ?_ ?_ ?_ ?_ fun _ => ?_
    · rfl
    · rfl
    · rfl
    · simp [hfaulted]
    · simp [hinvoked, hc]
  | thenRelocking hT hm ht hc =>
    refine h.moveThen (hcall ht).1 (hfree hm) ?_ ?_ ?_ ?_ fun hno => ?_
    · rfl
    · rfl
    · rfl
    · simp
    · cases hno

/-- The call of `then` goes on with the mutex, or gives it back. -/
theorem Sound.thenGoesOn (h : Sound T hasThen s done) (hfaulted : s.faulted = false)
    {l : ResultStep V E} (hl : l = .detach ∨ ∃ threw, l = .thenCallbackEnds threw)
    (hs : s.Moves T l s') : Sound T hasThen s' done := by
  have hheld : s.thenCall.holds = true → s.mutex = some .thenCall := h.then_holds.2
  have hinvoked := h.invoked hfaulted
  cases hs with
  | thenThrows ht | thenCallbackEnds ht | detach ht =>
    have hm := hheld (by rw [ht]; rfl)
    have hon : s.onCompleted = true := by rw [h.onCompleted, ht]; rfl
    refine h.moveThen (by simp [ht]) (by simp [hm]) ?_ ?_ hon ?_ fun _ => ?_
    · rfl
    · simp [hm, ThenPoint.holds]
    · simp [hfaulted]
    · rw [hinvoked, hon, Bool.and_true]
  | _ => simp at hl

/-- The steps that do not end the body. -/
theorem Sound.step_own (h : Sound T hasThen s done) (hs : s.step T l = some s')
    (hl : l.completion = none) : Sound T hasThen s' done := by
  obtain ⟨hfaulted, hmoves⟩ := step_cases hs
  cases l with
  | complete => cases hl
  | store => exact h.store hmoves
  | finalAwait => exact h.finalAwait hfaulted hmoves
  | callbackEnds => exact h.callbackEnds hmoves
  | result => exact h.resultCall hmoves
  | wake => exact h.wake hmoves
  | thenLock => exact h.thenLock hfaulted hmoves
  | thenCallbackEnds threw => exact h.thenGoesOn hfaulted (.inr ⟨threw, rfl⟩) hmoves
  | detach => exact h.thenGoesOn hfaulted (.inl rfl) hmoves

theorem Sound.step (h : Sound T hasThen s done) (hs : s.step T l = some s') :
    Sound T hasThen s' (done ++ l.completion.toList) := by
  cases hl : l.completion with
  | none =>
    rw [Option.toList_none, List.append_nil]
    exact h.step_own hs hl
  | some c =>
    cases (step_cases hs).2 with
    | complete c' hp => exact Option.some.inj hl ▸ h.complete hp rfl
    | _ => cases hl

/-! ## How many steps there are -/

/-- The steps left to a call of `result()`. -/
def callEnergy (completed : Bool) : ResultCall V E → ℕ
  | .entered | .waking => if completed then 1 else 2
  | .asleep => 1
  | .returned _ => 0

/-- The steps left to the promise. -/
def promiseEnergy : PromisePoint V E → ℕ
  | .inBody | .returnValue _ | .unhandledException _ => 3
  | .finalAwait => 2
  | .invoking => 1
  | .ended => 0

/-- The steps left to the call of `then`. -/
def thenEnergy : ThenPoint → ℕ
  | .entered => 3
  | .invoking => 2
  | .detaching => 1
  | _ => 0

/-- The steps left, as long as no wait returns for nothing. -/
def energy (s : AsyncResult V E) : ℕ :=
  (s.results.map (callEnergy s.completed)).sum + promiseEnergy s.promise + thenEnergy s.thenCall

/-- A notification costs nothing: who is woken does not sleep again. -/
theorem sum_callEnergy_notify (completed : Bool) (calls : List (ResultCall V E)) :
    ((calls.map ResultCall.notify).map (callEnergy true)).sum ≤
      (calls.map (callEnergy completed)).sum := by
  induction calls with
  | nil => exact Nat.le_refl 0
  | cons call calls ih =>
    have hcall : callEnergy true call.notify ≤ callEnergy completed call := by
      cases call <;> cases completed <;> simp [callEnergy, ResultCall.notify]
    simp only [List.map_cons, List.sum_cons]
    omega

theorem Sound.energy_step (h : Sound T hasThen s done) (hs : s.step T l = some s') :
    s'.energy + l.own.toNat ≤ s.energy + 1 * l.spurious.toNat := by
  unfold energy
  cases (step_cases hs).2 with
  | complete c hp =>
    cases c <;> cases T <;> simp [afterBody, promiseEnergy, hp, ResultStep.own, ResultStep.spurious]
  | storeValue hm hp | storeException hm hp =>
    simp only [promiseEnergy, hp, ResultStep.own, ResultStep.spurious, Bool.toNat_true,
      Bool.toNat_false]
    omega
  | finishInvoking hm hp ho hv =>
    have := sum_callEnergy_notify s.completed s.results
    simp only [promiseEnergy, hp, ResultStep.own, ResultStep.spurious, Bool.toNat_true,
      Bool.toNat_false]
    omega
  | finish hm hp hv =>
    have := sum_callEnergy_notify s.completed s.results
    simp only [promiseEnergy, hp, ResultStep.own, ResultStep.spurious, Bool.toNat_true,
      Bool.toNat_false]
    omega
  | callbackEnds threw hp =>
    have hc : s.completed = true := by rw [h.completed, hp]; rfl
    have := sum_callEnergy_notify true s.results
    cases threw <;>
      simp only [promiseEnergy, hp, hc, ResultStep.own, ResultStep.spurious, Bool.toNat_true,
        Bool.toNat_false, if_true, Bool.false_eq_true, if_false] <;>
      omega
  | sleep hm hi hcall hc =>
    have := Table.sum_map_set hi .asleep (callEnergy s.completed)
    rcases hcall with rfl | rfl <;>
      simp only [callEnergy, hc, ResultStep.own, ResultStep.spurious, Bool.toNat_true,
        Bool.toNat_false, Bool.false_eq_true, if_false] at this ⊢ <;>
      omega
  | answer hm hi hcall hc =>
    have := Table.sum_map_set hi (.returned (s.result T)) (callEnergy s.completed)
    rcases hcall with rfl | rfl <;>
      simp only [callEnergy, hc, ResultStep.own, ResultStep.spurious, Bool.toNat_true,
        Bool.toNat_false, if_true] at this ⊢ <;>
      omega
  | wake hi =>
    have := Table.sum_map_set hi .waking (callEnergy s.completed)
    have hle : callEnergy s.completed (.waking : ResultCall V E) ≤
        callEnergy s.completed (.asleep : ResultCall V E) + 1 := by
      cases s.completed <;> simp [callEnergy]
    simp only [ResultStep.own, ResultStep.spurious, Bool.toNat_true, Bool.toNat_false]
    omega
  | thenEarly hm ht hc | thenRelocking hT hm ht hc | thenInvoking hT hm ht hc | thenThrows ht
  | thenCallbackEnds ht | detach ht =>
    simp [thenEnergy, ht, ResultStep.own, ResultStep.spurious]

/-! ## At rest -/

/-- Who has the mutex can go on, unless the thread has locked it twice. -/
theorem Sound.free_of_resting (h : Sound T hasThen s done) (hf : s.faulted = false)
    (hrest : Resting (AsyncResult.step T) (fun _ l => l.own = true) s) : s.mutex = none := by
  rcases hm : s.mutex with _ | _ | _
  · rfl
  · have hp := h.final_holds.1 hm
    simpa [AsyncResult.step, hf, hp] using hrest (.callbackEnds false) rfl
  · have hholds := h.then_holds.1 hm
    cases ht : s.thenCall with
    | relocking => cases hf.symm.trans (h.relocking.2 ht)
    | invoking => simpa [AsyncResult.step, hf, ht] using hrest (.thenCallbackEnds false) rfl
    | detaching => simpa [AsyncResult.step, hf, ht] using hrest .detach rfl
    | absent | entered | returned | threw =>
      rw [ht] at hholds
      cases hholds

/-- When no thread can go on, either the body has not ended, or every call has returned and the callback
has been invoked if there is one to invoke. -/
theorem Sound.resting (h : Sound T hasThen s done) (hf : s.faulted = false)
    (hrest : Resting (AsyncResult.step T) (fun _ l => l.own = true) s) (hdone : done ≠ []) :
    (∀ call ∈ s.results, ∃ r, call = .returned r) ∧ s.mutex = none ∧ s.completed = true ∧
      s.onCompleted = hasThen := by
  have hm := h.free_of_resting hf hrest
  have hended : s.promise = .ended := by
    cases hp : s.promise with
    | ended => rfl
    | inBody => exact absurd (h.inBody.1 hp) hdone
    | returnValue v => simpa [AsyncResult.step, storeStep, hf, hm, hp] using hrest .store rfl
    | unhandledException e => simpa [AsyncResult.step, storeStep, hf, hm, hp] using hrest .store rfl
    | finalAwait => simpa [AsyncResult.step, hf, hm, hp] using hrest .finalAwait rfl
    | invoking => simpa [AsyncResult.step, hf, hp] using hrest (.callbackEnds false) rfl
  have hcompleted : s.completed = true := by rw [h.completed, hended]; rfl
  refine ⟨fun call hmem => ?_, hm, hcompleted, ?_⟩
  · obtain ⟨i, hi⟩ := List.mem_iff_getElem?.1 hmem
    cases call with
    | returned r => exact ⟨r, rfl⟩
    | asleep => cases hcompleted.symm.trans (h.asleep hmem)
    | entered => simpa [AsyncResult.step, hf, hm, hi] using hrest (.result i) rfl
    | waking => simpa [AsyncResult.step, hf, hm, hi] using hrest (.result i) rfl
  · rw [h.onCompleted]
    cases ht : s.thenCall with
    | absent => exact (h.absent.1 ht).symm
    | entered => simpa [AsyncResult.step, hf, hm, ht] using hrest .thenLock rfl
    | relocking | invoking | detaching | returned | threw =>
      cases hhas : hasThen with
      | true => rfl
      | false => cases ht.symm.trans (h.absent.2 hhas)

end AsyncResult

/-! ## Every run -/

open AsyncResult

/-- For a type other than `void`, `then` locks the mutex before the coroutine has completed. -/
def ThenInTime (T : ResultType V) (s : AsyncResult V E) (l : ResultStep V E) : Prop :=
  l = .thenLock → T = .value → s.completed = false

theorem sound_of_run {T : ResultType V} {n : ℕ} {hasThen : Bool} {ls : List (ResultStep V E)}
    {s : AsyncResult V E} (hrun : run (AsyncResult.step T) (.init n hasThen) ls = some s) :
    Sound T hasThen s (ls.filterMap ResultStep.completion) := by
  refine run_induction
    (P := fun ls s => Sound T hasThen s (ls.filterMap ResultStep.completion))
    (sound_init T n hasThen) (fun ls s l s' h hs => ?_) hrun
  rw [List.filterMap_append]
  have := h.step hs
  cases hl : l.completion <;> simpa [hl] using this

theorem length_of_run {T : ResultType V} {n : ℕ} {hasThen : Bool} {ls : List (ResultStep V E)}
    {s : AsyncResult V E} (hrun : run (AsyncResult.step T) (.init n hasThen) ls = some s) :
    s.results.length = n := by
  refine Steps.invariant (P := fun s : AsyncResult V E => s.results.length = n)
    (fun s l s' hn hs => ?_) ⟨ls, hrun⟩ List.length_replicate
  rw [← hn]
  cases (step_cases hs).2 with
  | callbackEnds threw hp => cases threw <;> simp
  | finishInvoking | finish | sleep | answer | wake => simp
  | _ => rfl

/-- The mutex is locked twice by one thread exactly where `then` comes too late. -/
theorem AsyncResult.faulted_step {T : ResultType V} {s s' : AsyncResult V E} {l : ResultStep V E}
    (hs : s.step T l = some s') :
    s'.faulted = false ↔ s.faulted = false ∧ ThenInTime T s l := by
  obtain ⟨hf, hmoves⟩ := step_cases hs
  unfold ThenInTime
  cases hmoves <;> simp_all

/-- In every run, in whatever order the coroutine, `n` calls of `result()` and a call of `then` take their
steps, however often a wait returns for nothing, and whether the callback throws or not:

* no thread locks the mutex twice exactly if `then` is in time;
* a call of `result()` that has returned has returned, or rethrown, what the body ended with;
* the callback has been invoked once, with the value, as soon as it is installed and the coroutine has
  completed, and not before; after an exception it is not invoked, except for `void`;
* apart from the end of the body and the wake-ups for nothing there are at most `2 n + 6` steps, and one
  more for each of those wake-ups;
* when no thread can go on and the body has ended, all the calls have returned and the mutex is free. -/
theorem async_results {T : ResultType V} {n : ℕ} {hasThen : Bool} {ls : List (ResultStep V E)}
    {s : AsyncResult V E} (hrun : run (AsyncResult.step T) (.init n hasThen) ls = some s) :
    (s.faulted = false ↔ Admissible (AsyncResult.step T) (ThenInTime T) (.init n hasThen) ls) ∧
    (∀ r, .returned r ∈ s.results →
      ∃ c, ls.filterMap ResultStep.completion = [c] ∧ r = T.outcome c) ∧
    (s.faulted = false → s.invoked = if s.completed && s.onCompleted then
      (ls.filterMap ResultStep.completion).filterMap T.payload else []) ∧
    ls.countP ResultStep.own ≤ 2 * n + 6 + ls.countP ResultStep.spurious ∧
    (Resting (AsyncResult.step T) (fun _ l => l.own = true) s → s.faulted = false →
      ls.filterMap ResultStep.completion = [] ∨
      ∃ c, ls.filterMap ResultStep.completion = [c] ∧
        s.results = List.replicate n (.returned (T.outcome c)) ∧
        s.invoked = (if hasThen then (T.payload c).toList else []) ∧ s.mutex = none) := by
  have hsound := sound_of_run hrun
  refine ⟨?_, hsound.returned, hsound.invoked, ?_, fun hrest hf => ?_⟩
  · rw [iff_admissible (P := fun s => s.faulted = false) (fun _ _ _ hs => faulted_step hs) hrun]
    exact and_iff_right rfl
  · have hle := countP_le_of_energy (I := fun s : AsyncResult V E => ∃ done, Sound T hasThen s done)
      (m := energy) (p := ResultStep.own) (q := ResultStep.spurious) (c := 1)
      (fun s l s' ⟨done, h⟩ hs => ⟨⟨_, h.step hs⟩, h.energy_step hs⟩) ⟨_, sound_init T n hasThen⟩ hrun
    have hinit : (init n hasThen : AsyncResult V E).energy ≤ 2 * n + 6 := by
      cases hasThen <;> simp [init, energy, callEnergy, promiseEnergy, thenEnergy] <;> omega
    omega
  · by_cases hdone : ls.filterMap ResultStep.completion = []
    · exact .inl hdone
    · obtain ⟨c, hc⟩ := hsound.single hdone
      obtain ⟨hreturned, hm, hcompleted, hon⟩ := hsound.resting hf hrest hdone
      refine .inr ⟨c, hc, ?_, ?_, hm⟩
      · refine List.eq_replicate_iff.2 ⟨length_of_run hrun, fun call hmem => ?_⟩
        obtain ⟨r, rfl⟩ := hreturned call hmem
        obtain ⟨c', hc', rfl⟩ := hsound.returned r hmem
        obtain rfl : c = c' := (List.cons.inj (hc.symm.trans hc')).1
        rfl
      · rw [hsound.invoked hf, hcompleted, hon, hc, Bool.true_and]
        cases hpayload : T.payload c <;> simp [hpayload]

/-- Two calls wait, one wakes up for nothing, and the callback, installed before, throws. -/
def twoWaiters : List (ResultStep ℕ Unit) :=
  [.result 0, .thenLock, .detach, .wake 0, .complete (.value 7), .result 0, .store, .result 1,
    .finalAwait, .callbackEnds true, .result 0, .result 1]

theorem async_results_two :
    ∃ s, run (AsyncResult.step .value) (.init 2 true) twoWaiters = some s ∧ s.faulted = false ∧
      s.results = [.returned (.value 7), .returned (.value 7)] ∧ s.invoked = [7] ∧
      s.mutex = none := by
  obtain ⟨s, hs, hview⟩ := Option.map_eq_some_iff.1
    (show (run (AsyncResult.step .value) (.init 2 true) twoWaiters).map
      (fun s => (s.faulted, s.promise, s.thenCall, s.results)) =
        some (false, .ended, .returned, [.returned (.value 7), .returned (.value 7)]) from rfl)
  simp only [Prod.mk.injEq] at hview
  obtain ⟨hf, hp, ht, hresults⟩ := hview
  obtain ⟨-, -, -, -, hrest⟩ := async_results hs
  have hresting : Resting (AsyncResult.step .value) (fun _ l => l.own = true) s := by
    intro l hl
    unfold AsyncResult.step
    rw [if_neg (by simp [hf])]
    cases l with
    | complete c | wake i => cases hl
    | result i =>
      have hnone : ∀ call, s.results[i]? = some call → call = .returned (.value 7) := fun call hi => by
        simpa [hresults] using List.mem_of_getElem? hi
      dsimp only
      split
      · next hi => cases hnone _ hi
      · next hi => cases hnone _ hi
      · rfl
    | store | finalAwait | callbackEnds _ | thenLock | thenCallbackEnds _ | detach =>
      simp [storeStep, hp, ht]
  obtain hnone | ⟨c, hc, hresults', hinvoked, hm⟩ := hrest hresting hf
  · cases hnone
  · obtain rfl : .value 7 = c := (List.cons.inj hc).1
    exact ⟨s, hs, hf, hresults, hinvoked, hm⟩

/-- An object that has been awaited keeps its state, and `then` on it comes too late. -/
example : (run (AsyncResult.step .value) (.init 1 true)
    [.complete (.value 7), .store, .finalAwait, .result 0, .thenLock] :
      Option (AsyncResult ℕ Unit)).map AsyncResult.faulted = some true := rfl

end EllohimMQ
