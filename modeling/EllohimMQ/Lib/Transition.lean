import Mathlib.Data.List.Induction
import Mathlib.Data.Option.Basic

/-!
# Labelled transition systems

A system is a function `step : S → L → Option S`: the label carries every choice that the
environment makes (which thread moves, what a system call returns), and `none` means that the label
is not enabled in the state.  `run` executes a list of labels, `Reachable` is the set of states that
some run ends in.  The rules at the end are the only place where an induction over runs is made:
an invariant holds in every reachable state when one step keeps it, and a step-by-step simulation
carries over to whole runs.
-/

namespace Transition

variable {S L T : Type*}

/-- Execute the labels from left to right. -/
def run (step : S → L → Option S) : S → List L → Option S
  | s, [] => some s
  | s, l :: ls => (step s l).bind fun s' => run step s' ls

/-- Some run from `s` ends in `s'`. -/
def Steps (step : S → L → Option S) (s s' : S) : Prop := ∃ ls, run step s ls = some s'

/-- A state that some run from the initial state `s₀` ends in. -/
abbrev Reachable (step : S → L → Option S) (s₀ s : S) : Prop := Steps step s₀ s

variable {step : S → L → Option S}

@[simp] theorem run_nil (s : S) : run step s [] = some s := rfl

@[simp] theorem run_cons (s : S) (l : L) (ls : List L) :
    run step s (l :: ls) = (step s l).bind fun s' => run step s' ls := rfl

theorem run_append (s : S) (ls ls' : List L) :
    run step s (ls ++ ls') = (run step s ls).bind fun s' => run step s' ls' := by
  induction ls generalizing s with
  | nil => rfl
  | cons l ls ih =>
    rw [List.cons_append, run_cons, run_cons, Option.bind_assoc]
    exact congrArg _ (funext fun s' => ih s')

theorem run_append_eq_some_iff {s s'' : S} {ls ls' : List L} :
    run step s (ls ++ ls') = some s'' ↔ ∃ s', run step s ls = some s' ∧ run step s' ls' = some s'' := by
  rw [run_append, Option.bind_eq_some_iff]

theorem run_concat_eq_some_iff {s s'' : S} {ls : List L} {l : L} :
    run step s (ls ++ [l]) = some s'' ↔ ∃ s', run step s ls = some s' ∧ step s' l = some s'' := by
  rw [run_append_eq_some_iff]
  simp

theorem Steps.refl (s : S) : Steps step s s := ⟨[], rfl⟩

theorem Steps.single {s s' : S} {l : L} (h : step s l = some s') : Steps step s s' :=
  ⟨[l], by simp [h]⟩

theorem Steps.trans {s s' s'' : S} (h : Steps step s s') (h' : Steps step s' s'') :
    Steps step s s'' := by
  obtain ⟨ls, hls⟩ := h
  obtain ⟨ls', hls'⟩ := h'
  exact ⟨ls ++ ls', run_append_eq_some_iff.2 ⟨s', hls, hls'⟩⟩

theorem Steps.tail {s s' s'' : S} {l : L} (h : Steps step s s') (h' : step s' l = some s'') :
    Steps step s s'' := h.trans (.single h')

theorem Steps.head {s s' s'' : S} {l : L} (h : step s l = some s') (h' : Steps step s' s'') :
    Steps step s s'' := Steps.trans (.single h) h'

/-! ## Invariants -/

/-- A property of the labels executed so far and the state, kept by every step, holds after every
run. -/
theorem run_induction {P : List L → S → Prop} {s₀ : S} (init : P [] s₀)
    (keep : ∀ ls s l s', P ls s → step s l = some s' → P (ls ++ [l]) s') {ls : List L} {s : S}
    (h : run step s₀ ls = some s) : P ls s := by
  induction ls using List.reverseRecOn generalizing s with
  | nil =>
    rw [run_nil, Option.some.injEq] at h
    exact h ▸ init
  | append_singleton ls l ih =>
    obtain ⟨s', hs', hl⟩ := run_concat_eq_some_iff.1 h
    exact keep ls s' l s (ih hs') hl

/-- An invariant that every step keeps holds in every state reached. -/
theorem Steps.invariant {P : S → Prop} (keep : ∀ s l s', P s → step s l = some s' → P s')
    {s s' : S} (h : Steps step s s') (hs : P s) : P s' := by
  obtain ⟨ls, hls⟩ := h
  exact run_induction (P := fun _ s => P s) hs (fun _ s l s' hP hstep => keep s l s' hP hstep) hls

/-! ## Two levels -/

/-- When each step is a run of another system under `f`, so is every run; an invariant may be used
for each step. -/
theorem Steps.refine {M : Type*} {step' : T → M → Option T} {f : S → T} {I : S → Prop}
    (sim : ∀ s l s', I s → step s l = some s' → I s' ∧ Steps step' (f s) (f s')) {s s' : S}
    (hs : I s) (h : Steps step s s') : I s' ∧ Steps step' (f s) (f s') :=
  h.invariant (P := fun s' => I s' ∧ Steps step' (f s) (f s'))
    (fun s₁ l s₂ ⟨hs₁, hsteps⟩ hl => ⟨(sim s₁ l s₂ hs₁ hl).1, hsteps.trans (sim s₁ l s₂ hs₁ hl).2⟩)
    ⟨hs, .refl _⟩

/-- When each step of the other system can be made by a run that begins and ends where `I` holds, so
can every run of it. -/
theorem Steps.lift {M : Type*} {step' : T → M → Option T} {f : S → T} {I : S → Prop}
    (real : ∀ s l t, I s → step' (f s) l = some t → ∃ s', Steps step s s' ∧ I s' ∧ f s' = t)
    {s : S} {t : T} (hs : I s) (h : Steps step' (f s) t) :
    ∃ s', Steps step s s' ∧ I s' ∧ f s' = t :=
  h.invariant (P := fun t => ∃ s', Steps step s s' ∧ I s' ∧ f s' = t)
    (fun _ l t' ⟨s₁, hsteps, hs₁, heq⟩ hl => by
      obtain ⟨s₂, hsteps₂, hs₂, heq₂⟩ := real s₁ l t' hs₁ (heq ▸ hl)
      exact ⟨s₂, hsteps.trans hsteps₂, hs₂, heq₂⟩)
    ⟨s, .refl _, hs, rfl⟩

/-- Every step of the run is taken in a state and with a label that `ok` admits. -/
def Admissible (step : S → L → Option S) (ok : S → L → Prop) : S → List L → Prop
  | _, [] => True
  | s, l :: ls => ok s l ∧ ∀ s', step s l = some s' → Admissible step ok s' ls

instance (ok : S → L → Prop) [∀ s l, Decidable (ok s l)] :
    ∀ s ls, Decidable (Admissible step ok s ls)
  | _, [] => isTrue trivial
  | s, l :: ls =>
    match h : step s l with
    | none => decidable_of_iff (ok s l) ⟨fun hok => ⟨hok, fun _ h' => by simp [h] at h'⟩, And.left⟩
    | some s' =>
      have := instDecidableAdmissible ok s' ls
      decidable_of_iff (ok s l ∧ Admissible step ok s' ls)
        ⟨fun hok => ⟨hok.1, fun _ h' => Option.some.inj (h.symm.trans h') ▸ hok.2⟩,
          fun hok => ⟨hok.1, hok.2 s' h⟩⟩

theorem admissible_of_forall {ok : S → L → Prop} {ls : List L} (h : ∀ s, ∀ l ∈ ls, ok s l) (s : S) :
    Admissible step ok s ls := by
  induction ls generalizing s with
  | nil => trivial
  | cons l ls ih =>
    exact ⟨h s l (by simp), fun s' _ => ih (fun s l' hl' => h s l' (List.mem_cons_of_mem _ hl')) s'⟩

/-- An invariant that every admissible step keeps holds after every run of such steps. -/
theorem Admissible.invariant {P : S → Prop} {ok : S → L → Prop}
    (keep : ∀ s l s', P s → ok s l → step s l = some s' → P s') {s₀ s : S} {ls : List L}
    (h : Admissible step ok s₀ ls) (init : P s₀) (hrun : run step s₀ ls = some s) : P s := by
  induction ls generalizing s₀ with
  | nil => exact Option.some.inj hrun ▸ init
  | cons l ls ih =>
    obtain ⟨s', hs', hrest⟩ := Option.bind_eq_some_iff.1 hrun
    exact ih (h.2 s' hs') (keep s₀ l s' init h.1 hs') hrest

/-- Conditions on a step that an invariant makes equivalent admit the same runs. -/
theorem admissible_congr {P : S → Prop} {ok ok' : S → L → Prop}
    (keep : ∀ s l s', P s → step s l = some s' → P s')
    (hiff : ∀ s l s', P s → step s l = some s' → (ok s l ↔ ok' s l)) {s₀ s : S} {ls : List L}
    (init : P s₀) (hrun : run step s₀ ls = some s) :
    Admissible step ok s₀ ls ↔ Admissible step ok' s₀ ls := by
  induction ls generalizing s₀ with
  | nil => exact Iff.rfl
  | cons l ls ih =>
    obtain ⟨s', hs', hrest⟩ := Option.bind_eq_some_iff.1 hrun
    refine and_congr (hiff s₀ l s' init hs') (forall_congr' fun t => imp_congr_right fun ht => ?_)
    rw [hs', Option.some.injEq] at ht
    exact ht ▸ ih (keep s₀ l s' init hs') hrest

/-- A property that a step keeps exactly when it is admissible holds at the end of a run exactly when
it holds at the start and the run is admissible; an invariant may be used for each step. -/
theorem iff_admissible_of_invariant {I P : S → Prop} {ok : S → L → Prop}
    (keep : ∀ s l s', I s → step s l = some s' → I s')
    (hstep : ∀ s l s', I s → step s l = some s' → (P s' ↔ P s ∧ ok s l)) {s₀ s : S} {ls : List L}
    (init : I s₀) (hrun : run step s₀ ls = some s) : P s ↔ P s₀ ∧ Admissible step ok s₀ ls := by
  induction ls generalizing s₀ with
  | nil => simp [Admissible, Option.some.inj hrun]
  | cons l ls ih =>
    obtain ⟨s', hs', hrest⟩ := Option.bind_eq_some_iff.1 hrun
    rw [ih (keep s₀ l s' init hs') hrest, hstep s₀ l s' init hs', and_assoc]
    simp [Admissible, hs']

theorem iff_admissible {P : S → Prop} {ok : S → L → Prop}
    (hstep : ∀ s l s', step s l = some s' → (P s' ↔ P s ∧ ok s l)) {s₀ s : S} {ls : List L}
    (hrun : run step s₀ ls = some s) : P s ↔ P s₀ ∧ Admissible step ok s₀ ls :=
  iff_admissible_of_invariant (I := fun _ => True) (fun _ _ _ _ _ => trivial)
    (fun s l s' _ h => hstep s l s' h) trivial hrun

end Transition
