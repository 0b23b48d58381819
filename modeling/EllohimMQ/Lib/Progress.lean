import Mathlib.Algebra.GroupWithZero.Nat
import EllohimMQ.Lib.Transition

/-!
# Runs that come to rest

In a system of several threads nothing says which thread moves next, so "the work gets done" cannot
be a statement about one run.  It is two statements about all of them: with only so much work from
the outside the threads make only so many steps (`run_gain_le`), and in a state in which no thread can
move (`Resting`) nothing is left to do.  Both rest on an energy that a step of a thread uses up and a
label of the environment may supply.
-/

namespace Transition

variable {S L : Type*} {step : S → L → Option S} {own : S → L → Prop} {I : S → Prop}

/-- No label of the threads' own is enabled. -/
def Resting (step : S → L → Option S) (own : S → L → Prop) (s : S) : Prop :=
  ∀ l, own s l → step s l = none

/-- With energy `m`, the energy at the end and what was used up on the way come to no more than the
energy at the start and what was supplied on the way. -/
theorem run_gain_le {m : S → ℕ} {u v : L → ℕ}
    (keep : ∀ s l s', I s → step s l = some s' →
      I s' ∧ m s' + u l ≤ m s + v l)
    {s s' : S} {ls : List L} (hs : I s) (hrun : run step s ls = some s') :
    m s' + (ls.map u).sum ≤ m s + (ls.map v).sum := by
  induction ls generalizing s with
  | nil =>
    rw [run_nil, Option.some.injEq] at hrun
    simp [hrun]
  | cons l ls ih =>
    obtain ⟨s₁, hl, hrest⟩ := Option.bind_eq_some_iff.1 hrun
    obtain ⟨h₁, hle⟩ := keep s l s₁ hs hl
    have := ih h₁ hrest
    simp only [List.map_cons, List.sum_cons]
    omega

/-- When a step that `p` admits uses up one, and one that `q` admits supplies `c`, the steps of the
first kind are no more than the energy pays for. -/
theorem countP_le_of_energy {m : S → ℕ} {p q : L → Bool} {c : ℕ}
    (keep : ∀ s l s', I s → step s l = some s' →
      I s' ∧ m s' + (p l).toNat ≤ m s + c * (q l).toNat)
    {s s' : S} {ls : List L} (hs : I s) (hrun : run step s ls = some s') :
    m s' + ls.countP p ≤ m s + c * ls.countP q := by
  induction ls generalizing s with
  | nil =>
    rw [run_nil, Option.some.injEq] at hrun
    simp [hrun]
  | cons l ls ih =>
    obtain ⟨s₁, hl, hrest⟩ := Option.bind_eq_some_iff.1 hrun
    obtain ⟨h₁, hle⟩ := keep s l s₁ hs hl
    have := ih h₁ hrest
    cases hp : p l <;> cases hq : q l <;>
      simp only [hp, hq, Bool.toNat_true, Bool.toNat_false] at hle <;>
      simp only [List.countP_cons, hp, hq, Nat.mul_add] <;> grind

/-- When every step of the threads' own goes down from a potential to a smaller one, the threads can go
on to a state in which they rest. -/
theorem exists_resting_of_potential {J : ℕ → S → Prop}
    (keep : ∀ n s l s', J n s → own s l → step s l = some s' → ∃ n' < n, J n' s') {n : ℕ} {s : S}
    (hs : J n s) :
    ∃ ls s', Admissible step own s ls ∧ run step s ls = some s' ∧ Resting step own s' := by
  induction n using Nat.strongRecOn generalizing s with
  | ind n ih =>
    by_cases hrest : Resting step own s
    · exact ⟨[], s, trivial, rfl, hrest⟩
    · unfold Resting at hrest
      push Not at hrest
      obtain ⟨l, hl, hne⟩ := hrest
      obtain ⟨s₁, hstep⟩ := Option.ne_none_iff_exists'.1 hne
      obtain ⟨n₁, hlt, h₁⟩ := keep n s l s₁ hs hl hstep
      obtain ⟨ls, s', hown, hrun, hrest⟩ := ih n₁ hlt h₁
      refine ⟨l :: ls, s', ⟨hl, fun t ht => ?_⟩, ?_, hrest⟩
      · obtain rfl := Option.some.inj (hstep.symm.trans ht)
        exact hown
      · rw [run_cons, hstep]
        exact hrun

/-- When every step of the threads' own goes down from a potential to a smaller one, they take no more
steps than the potential says, in whatever order. -/
theorem length_le_of_potential {J : ℕ → S → Prop}
    (keep : ∀ n s l s', J n s → own s l → step s l = some s' → ∃ n' < n, J n' s') {n : ℕ} {s s' : S}
    {ls : List L} (hs : J n s) (hown : Admissible step own s ls) (hrun : run step s ls = some s') :
    ls.length ≤ n := by
  induction ls generalizing n s with
  | nil => exact Nat.zero_le n
  | cons l ls ih =>
    obtain ⟨s₁, hl, hrest⟩ := Option.bind_eq_some_iff.1 hrun
    obtain ⟨n₁, hlt, h₁⟩ := keep n s l s₁ hs hown.1 hl
    exact Nat.le_trans (Nat.succ_le_succ (ih h₁ (hown.2 s₁ hl) hrest)) hlt

/-- The potential may be an energy. -/
theorem exists_resting {m : S → ℕ}
    (keep : ∀ s l s', I s → own s l → step s l = some s' → I s' ∧ m s' < m s) {s : S} (hs : I s) :
    ∃ ls s', Admissible step own s ls ∧ run step s ls = some s' ∧ Resting step own s' := by
  refine exists_resting_of_potential (J := fun n s => I s ∧ m s = n) ?_ ⟨hs, rfl⟩
  rintro n s l s' ⟨hs, rfl⟩ hl hstep
  obtain ⟨hs', hlt⟩ := keep s l s' hs hl hstep
  exact ⟨m s', hlt, hs', rfl⟩

end Transition
