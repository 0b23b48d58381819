import Mathlib.Data.Int.Notation
import Mathlib.Data.List.Basic
import Mathlib.Logic.Function.Iterate

/-!
# Deferred calls, read as function calls

A body is a state of a program; `Program.next` gives the first thing that it does and what is left of
it.  Since the states are arbitrary, a body may branch, loop, catch what an awaited call throws, and
run forever.  A deferred call is created with its body, and runs when it is awaited.

The program is read twice as sequential code.  `Program.call` is a recursive function in which an
await is a call of that function, cut off at a depth.  `Program.step` keeps the callers on a stack.
`call_reached` and its corollaries say that the two agree, at every depth and after every number of
steps.
-/

namespace Calls

/-- How a call ends. -/
inductive Completion (V E : Type) where
  | value (v : V)
  | exception (e : E)
  deriving DecidableEq

/-- The first thing that a body does, and what is left of it. -/
inductive Act (σ Fx V E : Type) where
  /-- an effect on the outside, which answers with a value -/
  | effect (e : Fx) (rest : V → σ)
  /-- a deferred call is created, and gets the next number -/
  | task (body : σ) (rest : ℕ → σ)
  /-- a deferred call is thrown away -/
  | drop (t : ℕ) (rest : σ)
  /-- a deferred call is awaited -/
  | await (t : ℕ) (rest : Completion V E → σ)
  | sleep (ms : ℤ) (rest : σ)
  | ret (v : V)
  | throw (e : E)

/-- What can be seen of a run. -/
inductive Event (Fx V E : Type) where
  | effect (e : Fx) (answer : V)
  | awaited (t : ℕ) (c : Completion V E)
  | slept (ms : ℤ)
  deriving DecidableEq

/-- The outside answers an effect in a way that may depend on everything that was seen before.  A
value that was taken out of a finished call leaves `moved v` behind. -/
structure Program (σ Fx V E : Type) where
  next : σ → Act σ Fx V E
  answer : List (Event Fx V E) → Fx → V
  moved : V → V

/-- The state of a deferred call. -/
inductive Deferred (σ V E : Type) where
  | ready (body : σ)
  | running
  | finished (c : Completion V E)
  | dropped

/-- The deferred calls by their numbers, and what has been seen. -/
structure Memory (σ Fx V E : Type) where
  tasks : List (Deferred σ V E)
  trace : List (Event Fx V E)

variable {σ Fx V E : Type}

namespace Memory

/-- Something is seen. -/
def emit (m : Memory σ Fx V E) (e : Event Fx V E) : Memory σ Fx V E :=
  { m with trace := m.trace ++ [e] }

/-- A deferred call changes its state. -/
def set (m : Memory σ Fx V E) (t : ℕ) (d : Deferred σ V E) : Memory σ Fx V E :=
  { m with tasks := m.tasks.set t d }

/-- A deferred call is created. -/
def push (m : Memory σ Fx V E) (d : Deferred σ V E) : Memory σ Fx V E :=
  { m with tasks := m.tasks ++ [d] }

end Memory

namespace Program

/-- What the value in a completion is after it was taken. -/
def taken (P : Program σ Fx V E) : Completion V E → Completion V E
  | .value v => .value (P.moved v)
  | .exception e => .exception e

/-- An await of `t` has ended with `c`. -/
def awaited (P : Program σ Fx V E) (m : Memory σ Fx V E) (t : ℕ) (c : Completion V E) :
    Memory σ Fx V E :=
  (m.set t (.finished (P.taken c))).emit (.awaited t c)

end Program

/-! ## The recursive reading -/

/-- `misuse`: a deferred call was awaited or thrown away that does not exist any more, or that is
being awaited. -/
inductive Result (σ Fx V E : Type) where
  | done (c : Completion V E) (m : Memory σ Fx V E)
  | misuse
  | exhausted (m : Memory σ Fx V E)

/-- What was seen up to where the reading ended. -/
def Result.trace : Result σ Fx V E → List (Event Fx V E)
  | .done _ m => m.trace
  | .misuse => []
  | .exhausted m => m.trace

namespace Program

variable (P : Program σ Fx V E)

/-- Run a body, an await being a call; `exhausted` when the depth does not suffice. -/
def call : ℕ → Memory σ Fx V E → σ → Result σ Fx V E
  | 0, m, _ => .exhausted m
  | n + 1, m, b =>
    match P.next b with
    | .effect e rest =>
      let answer := P.answer m.trace e
      call n (m.emit (.effect e answer)) (rest answer)
    | .task body rest => call n (m.push (.ready body)) (rest m.tasks.length)
    | .drop t rest =>
      match m.tasks[t]? with
      | some (.ready _) => call n (m.set t .dropped) rest
      | some (.finished _) => call n (m.set t .dropped) rest
      | _ => .misuse
    | .await t rest =>
      match m.tasks[t]? with
      | some (.ready body) =>
        match call n (m.set t .running) body with
        | .done c m' => call n (P.awaited m' t c) (rest c)
        | r => r
      | some (.finished c) => call n (P.awaited m t c) (rest c)
      | _ => .misuse
    | .sleep ms rest => call n (m.emit (.slept ms)) rest
    | .ret v => .done (.value v) m
    | .throw e => .done (.exception e) m

end Program

/-! ## The reading with a stack -/

/-- What the reading is about to do: go on in a body, or hand a completion down the stack. -/
inductive Control (σ V E : Type) where
  | body (b : σ)
  | done (c : Completion V E)
  | misuse

/-- An entry of the stack is an awaited call and what is left of the caller. -/
abbrev Stack (σ V E : Type) := List (ℕ × (Completion V E → σ))

/-- A state of the reading with a stack. -/
structure Config (σ Fx V E : Type) where
  control : Control σ V E
  stack : Stack σ V E
  memory : Memory σ Fx V E

/-- The call number 0 runs, with no caller. -/
def Config.start (root : σ) : Config σ Fx V E := ⟨.body root, [], ⟨[.running], []⟩⟩

namespace Program

variable (P : Program σ Fx V E)

/-- What the body `b` does next. -/
def stepBody (stack : Stack σ V E) (m : Memory σ Fx V E) (b : σ) : Config σ Fx V E :=
  match P.next b with
  | .effect e rest =>
    let answer := P.answer m.trace e
    ⟨.body (rest answer), stack, m.emit (.effect e answer)⟩
  | .task body rest => ⟨.body (rest m.tasks.length), stack, m.push (.ready body)⟩
  | .drop t rest =>
    match m.tasks[t]? with
    | some (.ready _) => ⟨.body rest, stack, m.set t .dropped⟩
    | some (.finished _) => ⟨.body rest, stack, m.set t .dropped⟩
    | _ => ⟨.misuse, stack, m⟩
  | .await t rest =>
    match m.tasks[t]? with
    | some (.ready body) => ⟨.body body, (t, rest) :: stack, m.set t .running⟩
    | some (.finished c) => ⟨.body (rest c), stack, P.awaited m t c⟩
    | _ => ⟨.misuse, stack, m⟩
  | .sleep ms rest => ⟨.body rest, stack, m.emit (.slept ms)⟩
  | .ret v => ⟨.done (.value v), stack, m⟩
  | .throw e => ⟨.done (.exception e), stack, m⟩

/-- One step; a configuration that has ended stays. -/
def step : Config σ Fx V E → Config σ Fx V E
  | ⟨.body b, stack, m⟩ => P.stepBody stack m b
  | ⟨.done c, (t, rest) :: stack, m⟩ => ⟨.body (rest c), stack, P.awaited m t c⟩
  | ⟨.done c, [], m⟩ => ⟨.done c, [], m⟩
  | ⟨.misuse, stack, m⟩ => ⟨.misuse, stack, m⟩

/-- The configuration after `n` steps from the start. -/
def after (root : σ) (n : ℕ) : Config σ Fx V E := P.step^[n] (.start root)

/-! ## The two readings agree -/

/-- What a result of `call` at depth `n` says about the steps from `c`.  A call that is cut off has
taken at least one step for each level. -/
def Reached (n : ℕ) (c : Config σ Fx V E) (stack : Stack σ V E) : Result σ Fx V E → Prop
  | .done r m => ∃ k, P.step^[k] c = ⟨.done r, stack, m⟩
  | .misuse => ∃ k, (P.step^[k] c).control = .misuse
  | .exhausted m => ∃ k b stack', n ≤ k ∧ P.step^[k] c = ⟨.body b, stack', m⟩

variable {P} {n : ℕ} {c : Config σ Fx V E} {stack : Stack σ V E} {r : Result σ Fx V E}

theorem Reached.head (h : P.Reached n (P.step c) stack r) : P.Reached (n + 1) c stack r := by
  cases r with
  | done r m =>
    obtain ⟨k, hk⟩ := h
    exact ⟨k + 1, hk⟩
  | misuse =>
    obtain ⟨k, hk⟩ := h
    exact ⟨k + 1, hk⟩
  | exhausted m =>
    obtain ⟨k, b, stack', hn, hk⟩ := h
    exact ⟨k + 1, b, stack', Nat.succ_le_succ hn, hk⟩

theorem Reached.trans {j : ℕ} (h : P.Reached n (P.step^[j] c) stack r) :
    P.Reached n c stack r := by
  cases r with
  | done r m =>
    obtain ⟨k, hk⟩ := h
    exact ⟨k + j, by rw [Function.iterate_add_apply, hk]⟩
  | misuse =>
    obtain ⟨k, hk⟩ := h
    exact ⟨k + j, by rw [Function.iterate_add_apply, hk]⟩
  | exhausted m =>
    obtain ⟨k, b, stack', hn, hk⟩ := h
    exact ⟨k + j, b, stack', by omega, by rw [Function.iterate_add_apply, hk]⟩

/-- A call runs as the steps say, whoever the callers are. -/
theorem call_reached (P : Program σ Fx V E) (n : ℕ) (m : Memory σ Fx V E) (b : σ)
    (stack : Stack σ V E) : P.Reached n ⟨.body b, stack, m⟩ stack (P.call n m b) := by
  induction n generalizing m b stack with
  | zero => exact ⟨0, b, stack, Nat.le_refl 0, rfl⟩
  | succ n ih =>
    apply Reached.head
    rw [call, step, stepBody]
    cases P.next b with
    | effect e rest => exact ih ..
    | task body rest => exact ih ..
    | drop t rest =>
      dsimp only
      rcases m.tasks[t]? with _ | (body | _ | c | _)
      · exact ⟨0, rfl⟩
      · exact ih ..
      · exact ⟨0, rfl⟩
      · exact ih ..
      · exact ⟨0, rfl⟩
    | await t rest =>
      dsimp only
      rcases m.tasks[t]? with _ | (body | _ | c | _)
      · exact ⟨0, rfl⟩
      · dsimp only
        have hcall := ih (m.set t .running) body ((t, rest) :: stack)
        cases hr : P.call n (m.set t .running) body with
        | done c m' =>
          -- the call returns to its caller, which goes on at the same depth
          rw [hr] at hcall
          obtain ⟨k, hk⟩ := hcall
          apply Reached.trans (j := k + 1)
          rw [Function.iterate_succ_apply', hk]
          exact ih ..
        | misuse => rwa [hr] at hcall
        | exhausted m' => rwa [hr] at hcall
      · exact ⟨0, rfl⟩
      · exact ih ..
      · exact ⟨0, rfl⟩
    | sleep ms rest => exact ih ..
    | ret v => exact ⟨0, rfl⟩
    | throw e => exact ⟨0, rfl⟩

/-! ## Configurations that have ended -/

/-- The whole program has returned or thrown. -/
theorem step_done (P : Program σ Fx V E) (r : Completion V E) (m : Memory σ Fx V E) :
    P.step ⟨.done r, [], m⟩ = ⟨.done r, [], m⟩ := rfl

theorem step_misuse (P : Program σ Fx V E) (h : c.control = .misuse) : P.step c = c := by
  obtain ⟨control, stack, m⟩ := c
  cases h
  rfl

theorem iterate_eq {j k : ℕ} (hc : P.step (P.step^[j] c) = P.step^[j] c) (h : j ≤ k) :
    P.step^[k] c = P.step^[j] c := by
  obtain ⟨i, rfl⟩ := Nat.exists_eq_add_of_le' h
  rw [Function.iterate_add_apply]
  exact Function.iterate_fixed hc i

/-- A run ends in one way only. -/
theorem iterate_unique {j k : ℕ} (hj : P.step (P.step^[j] c) = P.step^[j] c)
    (hk : P.step (P.step^[k] c) = P.step^[k] c) : P.step^[j] c = P.step^[k] c := by
  rcases Nat.le_total j k with h | h
  · exact (iterate_eq hj h).symm
  · exact iterate_eq hk h

/-- A step only adds to what was seen. -/
theorem trace_step (P : Program σ Fx V E) (c : Config σ Fx V E) :
    c.memory.trace <+: (P.step c).memory.trace := by
  obtain ⟨b | r | _, stack, m⟩ := c
  · rw [step, stepBody]
    cases P.next b with
    | effect e rest => exact List.prefix_append ..
    | task body rest => exact List.prefix_rfl
    | drop t rest => dsimp only; split <;> exact List.prefix_rfl
    | await t rest =>
      dsimp only
      split
      · exact List.prefix_rfl
      · exact List.prefix_append ..
      · exact List.prefix_rfl
    | sleep ms rest => exact List.prefix_append ..
    | ret v => exact List.prefix_rfl
    | throw e => exact List.prefix_rfl
  · cases stack with
    | nil => exact List.prefix_rfl
    | cons top stack => exact List.prefix_append ..
  · exact List.prefix_rfl

theorem trace_iterate {j k : ℕ} (h : j ≤ k) :
    (P.step^[j] c).memory.trace <+: (P.step^[k] c).memory.trace := by
  obtain ⟨i, rfl⟩ := Nat.exists_eq_add_of_le' h
  rw [Function.iterate_add_apply]
  induction i with
  | zero => exact List.prefix_rfl
  | succ i ih =>
    rw [Function.iterate_succ_apply']
    exact (ih (by omega)).trans (trace_step P _)

/-! ## Whole programs -/

/-- The program read as function calls, as call number 0. -/
def run (P : Program σ Fx V E) (root : σ) (n : ℕ) : Result σ Fx V E :=
  P.call n ⟨[.running], []⟩ root

/-- No deferred call is awaited or thrown away once it is gone or while it is being awaited. -/
def WellUsed (P : Program σ Fx V E) (root : σ) : Prop := ∀ n, P.run root n ≠ .misuse

/-- The program, read as function calls, ends with an exception. -/
def Escapes (P : Program σ Fx V E) (root : σ) : Prop :=
  ∃ n e m, P.run root n = .done (.exception e) m

/-- The program, read as function calls, returns. -/
def Returns (P : Program σ Fx V E) (root : σ) : Prop :=
  ∃ n v m, P.run root n = .done (.value v) m

/-- The program, read as function calls, returns or throws. -/
def Ends (P : Program σ Fx V E) (root : σ) : Prop := ∃ n c m, P.run root n = .done c m

variable {root : σ}

theorem run_reached (P : Program σ Fx V E) (root : σ) (n : ℕ) :
    P.Reached n (.start root) [] (P.run root n) := call_reached ..

theorem after_succ (P : Program σ Fx V E) (root : σ) (k : ℕ) :
    P.after root (k + 1) = P.step (P.after root k) := Function.iterate_succ_apply' ..

/-- The steps from the start come to an end in one configuration only. -/
theorem after_unique {j k : ℕ} (hj : P.step (P.after root j) = P.after root j)
    (hk : P.step (P.after root k) = P.after root k) : P.after root j = P.after root k :=
  iterate_unique hj hk

theorem step_after_done {k : ℕ} {r : Completion V E} {m : Memory σ Fx V E}
    (h : P.after root k = ⟨.done r, [], m⟩) : P.step (P.after root k) = P.after root k := by
  rw [h, step_done]

/-- When the function call ends, so do the steps. -/
theorem after_of_run {k : ℕ} {r : Completion V E} {m : Memory σ Fx V E}
    (h : P.run root k = .done r m) : ∃ j, P.after root j = ⟨.done r, [], m⟩ := by
  have hrun := run_reached P root k
  rwa [h] at hrun

theorem exists_misuse {k : ℕ} (h : P.run root k = .misuse) :
    ∃ j, (P.after root j).control = .misuse := by
  have hrun := run_reached P root k
  rwa [h] at hrun

/-- The end does not depend on the depth. -/
theorem run_unique {j k : ℕ} {r r' : Completion V E} {m m' : Memory σ Fx V E}
    (hj : P.run root j = .done r m) (hk : P.run root k = .done r' m') : r = r' ∧ m = m' := by
  obtain ⟨a, ha⟩ := after_of_run hj
  obtain ⟨b, hb⟩ := after_of_run hk
  have heq := after_unique (step_after_done ha) (step_after_done hb)
  rw [ha, hb] at heq
  cases heq
  exact ⟨rfl, rfl⟩

theorem wellUsed_of_run {k : ℕ} {r : Completion V E} {m : Memory σ Fx V E}
    (h : P.run root k = .done r m) : P.WellUsed root := by
  intro n hn
  obtain ⟨a, ha⟩ := after_of_run h
  obtain ⟨b, hb⟩ := exists_misuse hn
  rw [← after_unique (step_after_done ha) (step_misuse P hb), ha] at hb
  cases hb

theorem Returns.not_escapes (h : P.Returns root) : ¬ P.Escapes root := by
  rintro ⟨j, e, m, hj⟩
  obtain ⟨k, v, m', hk⟩ := h
  cases (run_unique hj hk).1

theorem Returns.wellUsed (h : P.Returns root) : P.WellUsed root := by
  obtain ⟨k, v, m, hk⟩ := h
  exact wellUsed_of_run hk

theorem Returns.ends (h : P.Returns root) : P.Ends root := by
  obtain ⟨k, v, m, hk⟩ := h
  exact ⟨k, _, m, hk⟩

theorem Escapes.ends (h : P.Escapes root) : P.Ends root := by
  obtain ⟨k, e, m, hk⟩ := h
  exact ⟨k, _, m, hk⟩

theorem Ends.wellUsed (h : P.Ends root) : P.WellUsed root := by
  obtain ⟨k, c, m, hk⟩ := h
  exact wellUsed_of_run hk

/-- When the steps come to an end before the depth is used up, the function call sees it. -/
theorem run_ne_exhausted {k : ℕ} (h : P.step (P.after root k) = P.after root k)
    (hc : ∀ b, (P.after root k).control ≠ .body b) (m : Memory σ Fx V E) :
    P.run root k ≠ .exhausted m := by
  intro hr
  have hrun := run_reached P root k
  rw [hr] at hrun
  obtain ⟨j, b, stack', hkj, hj⟩ := hrun
  rw [iterate_eq h hkj] at hj
  exact hc b (congrArg Config.control hj)

theorem WellUsed.control_ne (h : P.WellUsed root) (k : ℕ) :
    (P.after root k).control ≠ .misuse := by
  intro hk
  have hfix := step_misuse P hk
  cases hr : P.run root k with
  | done r m =>
    obtain ⟨j, hj⟩ := after_of_run hr
    rw [← after_unique (step_after_done hj) hfix, hj] at hk
    cases hk
  | misuse => exact h k hr
  | exhausted m => exact run_ne_exhausted hfix (fun b => by rw [hk]; nofun) m hr

/-- When the steps come to an end, so does the function call. -/
theorem run_of_after {k : ℕ} {r : Completion V E} {m : Memory σ Fx V E}
    (h : P.after root k = ⟨.done r, [], m⟩) : P.run root k = .done r m := by
  have hfix := step_after_done h
  cases hr : P.run root k with
  | done r' m' =>
    obtain ⟨j, hj⟩ := after_of_run hr
    have heq := after_unique (step_after_done hj) hfix
    rw [hj, h] at heq
    cases heq
    rfl
  | misuse =>
    obtain ⟨j, hj⟩ := exists_misuse hr
    rw [after_unique (step_misuse P hj) hfix, h] at hj
    cases hj
  | exhausted m' => exact absurd hr (run_ne_exhausted hfix (fun b => by rw [h]; nofun) m')

/-- What was seen after `k` steps is the beginning of what the function call of depth `k` shows. -/
theorem after_trace (h : P.WellUsed root) (k : ℕ) :
    (P.after root k).memory.trace <+: (P.run root k).trace := by
  have hrun := run_reached P root k
  cases hr : P.run root k with
  | done r m =>
    obtain ⟨j, hj⟩ := after_of_run hr
    have hm : (P.after root j).memory.trace = m.trace := by rw [hj]
    change _ <+: m.trace
    rw [← hm]
    rcases Nat.le_total j k with hjk | hjk
    · have heq : P.after root k = P.after root j := iterate_eq (step_after_done hj) hjk
      exact heq ▸ List.prefix_rfl
    · exact trace_iterate hjk
  | misuse => exact absurd hr (h k)
  | exhausted m =>
    rw [hr] at hrun
    obtain ⟨j, b, stack', hkj, hj⟩ := hrun
    have hm : (P.after root j).memory.trace = m.trace := by rw [after, hj]
    change _ <+: m.trace
    rw [← hm]
    exact trace_iterate hkj

/-- Everything that the function call of depth `n` shows is seen after some number of steps. -/
theorem exists_after (h : P.WellUsed root) (n : ℕ) :
    ∃ k, (P.after root k).memory.trace = (P.run root n).trace := by
  have hrun := run_reached P root n
  cases hr : P.run root n with
  | done r m =>
    obtain ⟨k, hk⟩ := after_of_run hr
    exact ⟨k, by rw [hk]; rfl⟩
  | misuse => exact absurd hr (h n)
  | exhausted m =>
    rw [hr] at hrun
    obtain ⟨k, b, stack', -, hk⟩ := hrun
    exact ⟨k, by rw [after, hk]; rfl⟩

end Program

/-! ## Bodies as trees -/

/-- A body that is given as the tree of what it can do. -/
inductive Body (Fx V E : Type) where
  | effect (e : Fx) (rest : V → Body Fx V E)
  | task (body : Body Fx V E) (rest : ℕ → Body Fx V E)
  | drop (t : ℕ) (rest : Body Fx V E)
  | await (t : ℕ) (rest : Completion V E → Body Fx V E)
  | sleep (ms : ℤ) (rest : Body Fx V E)
  | ret (v : V)
  | throw (e : E)

/-- The tree is read from its root. -/
def Body.next : Body Fx V E → Act (Body Fx V E) Fx V E
  | .effect e rest => .effect e rest
  | .task body rest => .task body rest
  | .drop t rest => .drop t rest
  | .await t rest => .await t rest
  | .sleep ms rest => .sleep ms rest
  | .ret v => .ret v
  | .throw e => .throw e

end Calls
