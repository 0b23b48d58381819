import Mathlib.Data.List.Nodup
import EllohimMQ.Model.Coroutine

/-!
# The chain of continuations

While the coroutines of one root run, the Tasks that are being awaited form a chain: `Linked` says
that each one's continuation is the coroutine that awaits it, down to the functor of `async_run`.
The chain is the stack of a plain execution, and every other frame is in the state that the plain
execution has for its Task (`Tree`).  The lemmas on `Tree` say what the operations on frames do to
it: the frame on top is moved, a frame is created, a frame outside the chain is replaced, and a frame
is put on the chain or taken off it.
-/

namespace EllohimMQ

open Calls

variable {σ Fx V E : Type}

namespace TaskFrame

/-- One suspension of the coroutine at a `co_await` has not been resumed. -/
def pending (f : TaskFrame σ V E) : ℕ :=
  match f.point with
  | .taskAwaiter _ _ => 1
  | .timerAwaiter _ => 1
  | _ => 0

/-- Every suspension but a pending one was resumed once. -/
def Balanced (f : TaskFrame σ V E) : Prop := f.suspensions = f.resumptions + f.pending

/-- No result yet. -/
def Clean (f : TaskFrame σ V E) : Prop := f.value = none ∧ f.exception = none

/-- The frame is as the state of its Task says; those of running ones are described by `Linked`. -/
def Matches (f : TaskFrame σ V E) : Deferred σ V E → Prop
  | .ready body => f = .new body
  | .running => True
  | .finished c => f.point = .finalSuspend ∧ f.result = some c
  | .dropped => f.point = .destroyed

/-- The Task of a coroutine that sleeps is running. -/
theorem Matches.eq_running {f : TaskFrame σ V E} {d : Deferred σ V E} (h : f.Matches d) {rest : σ}
    (hp : f.point = .timerAwaiter rest) : d = .running := by
  cases d with
  | ready body =>
    rw [show f = .new body from h] at hp
    cases hp
  | running => rfl
  | finished c =>
    rw [h.1] at hp
    cases hp
  | dropped =>
    rw [show f.point = .destroyed from h] at hp
    cases hp

theorem result_take {P : Program σ Fx V E} {f : TaskFrame σ V E} {c : Completion V E}
    (h : f.result = some c) : (f.take P).result = some (P.taken c) := by
  obtain ⟨point, value, _ | e, continuation, m, n⟩ := f
  · obtain ⟨v, hv, rfl⟩ := Option.map_eq_some_iff.1 h
    simp only at hv
    subst hv
    rfl
  · cases h
    rfl

@[simp] theorem take_point (P : Program σ Fx V E) (f : TaskFrame σ V E) :
    (f.take P).point = f.point := by
  unfold take
  split <;> rfl

@[simp] theorem take_continuation (P : Program σ Fx V E) (f : TaskFrame σ V E) :
    (f.take P).continuation = f.continuation := by
  unfold take
  split <;> rfl

theorem Balanced.take {f : TaskFrame σ V E} (h : f.Balanced) (P : Program σ Fx V E) :
    (f.take P).Balanced := by
  obtain ⟨point, value, _ | e, continuation, m, n⟩ := f <;> exact h

/-- A coroutine that runs, or has not started, or is done, has no pending suspension. -/
theorem Balanced.eq {f : TaskFrame σ V E} (h : f.Balanced) (hp : f.pending = 0) :
    f.suspensions = f.resumptions := by
  rw [Balanced, hp] at h
  exact h

end TaskFrame

/-! ## The chain -/

section

variable {K : Type}

/-- The coroutine that runs; number 0 is the root. -/
def top : List (ℕ × K) → ℕ
  | [] => 0
  | (t, _) :: _ => t

/-- The coroutines that wait for another one, from the top down. -/
def callers : List (ℕ × K) → List ℕ
  | [] => []
  | _ :: stack => top stack :: callers stack

/-- The coroutine that runs and those that wait for it, from the top down. -/
def chain (stack : List (ℕ × K)) : List ℕ := top stack :: callers stack

end

/-- Each awaited Task continues with the coroutine that awaits it, and the root with the functor. -/
def Linked (frames : List (TaskFrame σ V E)) : Stack σ V E → Prop
  | [] => ∃ f, frames[0]? = some f ∧ f.continuation = .asyncTask
  | (t, rest) :: stack =>
    (∃ f, frames[t]? = some f ∧ f.continuation = .task (top stack)) ∧
    (∃ g, frames[top stack]? = some g ∧ g.point = .taskAwaiter t rest ∧ g.Clean) ∧
    Linked frames stack

/-- The chain depends on the frames of the callers and on the continuation of the one on top. -/
theorem Linked.congr {frames frames' : List (TaskFrame σ V E)} {stack : Stack σ V E}
    (h : Linked frames stack) (hc : ∀ u ∈ callers stack, frames'[u]? = frames[u]?)
    (ht : ∀ f, frames[top stack]? = some f →
      ∃ f', frames'[top stack]? = some f' ∧ f'.continuation = f.continuation) :
    Linked frames' stack := by
  induction stack with
  | nil =>
    obtain ⟨f, hf, hcont⟩ := h
    obtain ⟨f', hf', hcont'⟩ := ht f hf
    exact ⟨f', hf', hcont'.trans hcont⟩
  | cons entry stack ih =>
    obtain ⟨t, rest⟩ := entry
    obtain ⟨⟨f, hf, hcont⟩, ⟨g, hg, hpoint, hclean⟩, hlinked⟩ := h
    have htop : frames'[top stack]? = frames[top stack]? := hc _ (List.mem_cons_self ..)
    refine ⟨?_, ⟨g, htop.trans hg, hpoint, hclean⟩, ih hlinked (fun u hu => ?_) fun f hf => ?_⟩
    · obtain ⟨f', hf', hcont'⟩ := ht f hf
      exact ⟨f', hf', hcont'.trans hcont⟩
    · exact hc u (List.mem_cons_of_mem _ hu)
    · exact ⟨f, htop.trans hf, rfl⟩

/-- Every caller waits for a Task. -/
theorem Linked.caller {frames : List (TaskFrame σ V E)} {stack : Stack σ V E}
    (h : Linked frames stack) {u : ℕ} (hu : u ∈ callers stack) :
    ∃ g t rest, frames[u]? = some g ∧ g.point = .taskAwaiter t rest := by
  induction stack with
  | nil => cases hu
  | cons entry stack ih =>
    obtain ⟨t, rest⟩ := entry
    obtain ⟨-, ⟨g, hg, hpoint, -⟩, hlinked⟩ := h
    rcases List.mem_cons.1 hu with rfl | hu
    · exact ⟨g, t, rest, hg, hpoint⟩
    · exact ih hlinked hu

/-- What happens to a frame outside the chain does not matter. -/
theorem Linked.modify {frames : List (TaskFrame σ V E)} {stack : Stack σ V E}
    (h : Linked frames stack) {u : ℕ} (hu : u ∉ chain stack)
    (g : TaskFrame σ V E → TaskFrame σ V E) : Linked (frames.modify u g) stack := by
  have hne : ∀ v ∈ chain stack, (frames.modify u g)[v]? = frames[v]? := fun v hv =>
    List.getElem?_modify_ne _ _ (ne_of_mem_of_not_mem hv hu).symm
  refine h.congr (fun v hv => hne v (List.mem_cons_of_mem _ hv)) fun f hf => ⟨f, ?_, rfl⟩
  rw [hne _ (List.mem_cons_self ..), hf]

/-- The frames of one root, as a plain execution with these Tasks and this stack has them. -/
structure CallTree (frames : List (TaskFrame σ V E)) (tasks : List (Deferred σ V E))
    (stack : Stack σ V E) : Prop where
  length_eq : frames.length = tasks.length
  balanced : ∀ f ∈ frames, f.Balanced
  agrees : ∀ (t : ℕ) (f : TaskFrame σ V E) (d : Deferred σ V E),
    frames[t]? = some f → tasks[t]? = some d → f.Matches d
  running : ∀ t : ℕ, tasks[t]? = some .running ↔ t ∈ chain stack
  nodup : (chain stack).Nodup
  linked : Linked frames stack

theorem callTree_root (root : σ) :
    CallTree [((TaskFrame.new root : TaskFrame σ V E).setContinuation .asyncTask)] [.running] [] where
  length_eq := rfl
  balanced f hf := by
    rw [List.mem_singleton.1 hf]
    rfl
  agrees t f d hf hd := by
    cases t with
    | zero =>
      cases hd
      trivial
    | succ t => cases hd
  running t := by cases t <;> simp [chain, top, callers]
  nodup := List.nodup_singleton 0
  linked := ⟨_, rfl, rfl⟩

namespace CallTree

variable {frames : List (TaskFrame σ V E)} {tasks : List (Deferred σ V E)} {stack : Stack σ V E}
  {t u : ℕ} {g : TaskFrame σ V E → TaskFrame σ V E} {f : TaskFrame σ V E}
  {rest : Completion V E → σ}

theorem balanced_modify (h : CallTree frames tasks stack) (hf : frames[u]? = some f)
    (hg : (g f).Balanced) : ∀ f ∈ frames.modify u g, f.Balanced := by
  intro f' hf'
  obtain ⟨t, ht⟩ := List.getElem?_of_mem hf'
  rw [List.getElem?_modify] at ht
  obtain ⟨f'', hf'', rfl⟩ := Option.map_eq_some_iff.1 ht
  split_ifs with hut
  · rw [← hut, hf] at hf''
    cases hf''
    exact hg
  · exact h.balanced f'' (List.mem_of_getElem? hf'')

theorem agrees_modify (h : CallTree frames tasks stack) (hf : frames[u]? = some f)
    {d : Deferred σ V E} (hm : (g f).Matches d) (t : ℕ) (f' : TaskFrame σ V E)
    (d' : Deferred σ V E) (hf' : (frames.modify u g)[t]? = some f')
    (hd' : (tasks.set u d)[t]? = some d') : f'.Matches d' := by
  rw [List.getElem?_modify] at hf'
  rw [List.getElem?_set] at hd'
  obtain ⟨f'', hf'', rfl⟩ := Option.map_eq_some_iff.1 hf'
  split_ifs at hd' ⊢ with ht hlt
  · subst ht
    rw [hf] at hf''
    cases hf''
    cases hd'
    exact hm
  · exact h.agrees t f'' d' hf'' hd'

/-- A Task that is not running is outside the chain. -/
theorem notMem_chain (h : CallTree frames tasks stack) {d : Deferred σ V E}
    (hd : tasks[u]? = some d) (hne : d ≠ .running) : u ∉ chain stack := by
  intro hmem
  rw [(h.running u).2 hmem] at hd
  cases hd
  exact hne rfl

theorem exists_frame (h : CallTree frames tasks stack) {d : Deferred σ V E}
    (hd : tasks[u]? = some d) : ∃ f, frames[u]? = some f ∧ f.Matches d := by
  have hlt : u < frames.length := h.length_eq ▸ (List.getElem?_eq_some_iff.1 hd).1
  exact ⟨_, List.getElem?_eq_getElem hlt, h.agrees u _ d (List.getElem?_eq_getElem hlt) hd⟩

/-- Only the coroutine on top sleeps. -/
theorem eq_top (h : CallTree frames tasks stack) {rest : σ} (hf : frames[t]? = some f)
    (hp : f.point = .timerAwaiter rest) : t = top stack := by
  have hlt : t < tasks.length := h.length_eq ▸ (List.getElem?_eq_some_iff.1 hf).1
  have hd := List.getElem?_eq_getElem hlt
  have hrun : tasks[t]? = some .running :=
    hd.trans (congrArg some ((h.agrees t f _ hf hd).eq_running hp))
  rcases List.mem_cons.1 ((h.running t).1 hrun) with ht | ht
  · exact ht
  · obtain ⟨g, u, k, hg, hpoint⟩ := h.linked.caller ht
    rw [hf] at hg
    cases hg
    rw [hpoint] at hp
    cases hp

/-- The frame on top goes to another point, or gets a result. -/
theorem modifyTop (h : CallTree frames tasks stack) (hf : frames[top stack]? = some f)
    (hcont : (g f).continuation = f.continuation) (hg : (g f).Balanced) :
    CallTree (frames.modify (top stack) g) tasks stack where
  length_eq := (List.length_modify ..).trans h.length_eq
  balanced := h.balanced_modify hf hg
  agrees t f' d hf' hd := by
    rw [List.getElem?_modify] at hf'
    obtain ⟨f'', hf'', rfl⟩ := Option.map_eq_some_iff.1 hf'
    split_ifs with ht
    · -- the Task on top is running, which says nothing about its frame
      subst ht
      rw [(h.running _).2 (List.mem_cons_self ..)] at hd
      cases hd
      trivial
    · exact h.agrees t f'' d hf'' hd
  running := h.running
  nodup := h.nodup
  linked := by
    refine h.linked.congr (fun u hu => ?_) fun f' hf' => ?_
    · rw [List.getElem?_modify_ne _ _ (ne_of_mem_of_not_mem hu (List.nodup_cons.1 h.nodup).1).symm]
    · rw [hf] at hf'
      cases hf'
      exact ⟨g f, by rw [List.getElem?_modify_eq, hf]; rfl, hcont⟩

/-- A coroutine is called: its frame is created, and waits. -/
theorem push (h : CallTree frames tasks stack) (body : σ) :
    CallTree (frames ++ [.new body]) (tasks ++ [.ready body]) stack where
  length_eq := by simp [h.length_eq]
  balanced f hf := by
    rcases List.mem_append.1 hf with hf | hf
    · exact h.balanced f hf
    · rw [List.mem_singleton.1 hf]
      rfl
  agrees t f d hf hd := by
    rcases Nat.lt_trichotomy t frames.length with ht | ht | ht
    · rw [List.getElem?_append_left ht] at hf
      rw [List.getElem?_append_left (h.length_eq ▸ ht)] at hd
      exact h.agrees t f d hf hd
    · subst ht
      rw [List.getElem?_concat_length] at hf
      rw [h.length_eq, List.getElem?_concat_length] at hd
      cases hf
      cases hd
      rfl
    · rw [List.getElem?_eq_none (by rw [List.length_append]; exact ht)] at hf
      cases hf
  running t := by
    rw [← h.running t, List.getElem?_append]
    split_ifs with ht
    · rfl
    · rw [List.getElem?_eq_none (Nat.le_of_not_lt ht)]
      cases t - tasks.length <;> simp
  nodup := h.nodup
  linked := by
    have hlt : ∀ {u : ℕ} {f : TaskFrame σ V E}, frames[u]? = some f →
        (frames ++ [.new body])[u]? = some f := fun hf => by
      rw [List.getElem?_append_left (List.getElem?_eq_some_iff.1 hf).1, hf]
    refine h.linked.congr (fun u hu => ?_) fun f hf => ⟨f, hlt hf, rfl⟩
    have hrun := (h.running u).2 (List.mem_cons_of_mem _ hu)
    obtain ⟨f, hf, -⟩ := h.exists_frame hrun
    rw [hlt hf, hf]

/-- A frame outside the chain changes together with the state of its Task. -/
theorem modifyOther (h : CallTree frames tasks stack) (hu : u ∉ chain stack)
    (hf : frames[u]? = some f) (hg : (g f).Balanced) {d : Deferred σ V E} (hd : d ≠ .running)
    (hm : (g f).Matches d) : CallTree (frames.modify u g) (tasks.set u d) stack where
  length_eq := by rw [List.length_modify, List.length_set, h.length_eq]
  balanced := h.balanced_modify hf hg
  agrees := h.agrees_modify hf hm
  running t := by
    rw [List.getElem?_set]
    split_ifs with ht hlt
    · subst ht
      simp [hd, hu]
    · subst ht
      simp [hu]
    · exact h.running t
  nodup := h.nodup
  linked := h.linked.modify hu g

/-- A Task that has not started is awaited by the coroutine on top: it becomes the new top. -/
theorem enter (h : CallTree frames tasks stack) {body : σ} (hd : tasks[u]? = some (.ready body))
    (hf : frames[top stack]? = some f) (hpoint : f.point = .taskAwaiter u rest) (hclean : f.Clean) :
    CallTree (frames.modify u (.setContinuation (.task (top stack)))) (tasks.set u .running)
      ((u, rest) :: stack) := by
  have hu : u ∉ chain stack := h.notMem_chain hd nofun
  obtain ⟨f', hf', hm⟩ := h.exists_frame hd
  have hlt : u < tasks.length := (List.getElem?_eq_some_iff.1 hd).1
  have hne : u ≠ top stack := fun e => hu (e ▸ List.mem_cons_self ..)
  refine ⟨?_, h.balanced_modify hf' (h.balanced f' (List.mem_of_getElem? hf')),
    h.agrees_modify hf' trivial, fun t => ?_, List.nodup_cons.2 ⟨hu, h.nodup⟩,
    ⟨_, by rw [List.getElem?_modify_eq, hf']; rfl, rfl⟩, ⟨f, ?_, hpoint, hclean⟩,
    h.linked.modify hu _⟩
  · rw [List.length_modify, List.length_set, h.length_eq]
  · rw [List.getElem?_set, chain, top, callers, ← chain, List.mem_cons, ← h.running t]
    split_ifs with ht
    · simp [ht]
    · simp [Ne.symm ht]
  · rw [List.getElem?_modify_ne _ _ hne, hf]

/-- The Task on top has finished, and its completion is taken by its caller. -/
theorem leave (h : CallTree frames tasks ((u, rest) :: stack)) (hf : frames[u]? = some f)
    (hg : (g f).Balanced) {c : Completion V E} (hm : (g f).Matches (.finished c)) :
    CallTree (frames.modify u g) (tasks.set u (.finished c)) stack := by
  obtain ⟨hu, hnodup⟩ := List.nodup_cons.1 h.nodup
  change u ∉ chain stack at hu
  refine ⟨?_, h.balanced_modify hf hg, h.agrees_modify hf hm, fun t => ?_, hnodup,
    h.linked.2.2.modify hu g⟩
  · rw [List.length_modify, List.length_set, h.length_eq]
  · have hrun := h.running t
    rw [chain, top, callers, ← chain, List.mem_cons] at hrun
    rw [List.getElem?_set]
    split_ifs with ht hlt
    · subst ht
      simp [hu]
    · subst ht
      simp [hu]
    · rw [hrun]
      simp [Ne.symm ht]

/-- The root has ended, and its Task is destroyed: no Task is running any more. -/
theorem close (h : CallTree frames tasks []) {d : Deferred σ V E}
    (hd : (tasks.set 0 .dropped)[t]? = some d) : d ≠ .running := by
  rintro rfl
  rw [List.getElem?_set] at hd
  split_ifs at hd with ht
  · cases hd
  · exact ht (List.mem_singleton.1 ((h.running t).1 hd)).symm

end CallTree

end EllohimMQ
