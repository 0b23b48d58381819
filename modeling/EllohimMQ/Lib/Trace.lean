import Mathlib.Data.List.Basic

/-!
# Properties of event traces

`Each P tr` says that every event of `tr` satisfies `P` together with the list of the events before
it.  Safety properties of the form "whenever this event happens, that event has happened earlier"
are of this form, and `each_append` reduces them to one property of each appended segment.
-/

namespace Trace

variable {E : Type*} {P Q : List E → E → Prop} {tr tr' : List E}

/-- Every event of the trace satisfies `P` against the events before it. -/
def Each (P : List E → E → Prop) (tr : List E) : Prop :=
  ∀ pre e post, tr = pre ++ e :: post → P pre e

@[simp] theorem each_nil : Each P [] := by
  intro pre e post h
  simp at h

theorem each_cons {e : E} :
    Each P (e :: tr) ↔ P [] e ∧ Each (fun pre e' => P (e :: pre) e') tr := by
  constructor
  · intro h
    refine ⟨h [] e tr rfl, fun pre e' post ht => ?_⟩
    exact h (e :: pre) e' post (by rw [ht]; rfl)
  · rintro ⟨h₁, h₂⟩ pre e' post ht
    rcases pre with _ | ⟨a, pre⟩
    · obtain ⟨rfl, -⟩ := List.cons.inj ht
      exact h₁
    · obtain ⟨rfl, rfl⟩ := List.cons.inj ht
      exact h₂ pre e' post rfl

/-- A trace satisfies `P` event by event when its two halves do, the second one against the
history that includes the first. -/
theorem each_append :
    Each P (tr ++ tr') ↔ Each P tr ∧ Each (fun pre e => P (tr ++ pre) e) tr' := by
  induction tr generalizing P with
  | nil => simp
  | cons a tr ih => rw [List.cons_append, each_cons, each_cons, ih, and_assoc]; rfl

/-- Events on which `P` holds whatever came before. -/
theorem each_of_forall_mem (h : ∀ e ∈ tr, ∀ pre, P pre e) : Each P tr := by
  intro pre e post ht
  exact h e (by rw [ht]; simp) pre

/-- When the earlier events of the trace itself make no difference, a property of its events. -/
theorem each_iff_forall_mem {Q : E → Prop} (h : ∀ pre ⊆ tr, ∀ e ∈ tr, (P pre e ↔ Q e)) :
    Each P tr ↔ ∀ e ∈ tr, Q e := by
  constructor
  · intro hE e he
    obtain ⟨pre, post, rfl⟩ := List.append_of_mem he
    exact (h pre (by simp) e he).1 (hE pre e post rfl)
  · rintro hQ pre e post rfl
    exact (h pre (by simp) e (by simp)).2 (hQ e (by simp))

instance (P : List E → E → Prop) [∀ pre e, Decidable (P pre e)] (tr : List E) :
    Decidable (Each P tr) :=
  decidable_of_iff (∀ i : Fin tr.length, P (tr.take i) tr[i]) <| by
    constructor
    · rintro h pre e post rfl
      have := h ⟨pre.length, by simp⟩
      simpa using this
    · intro h i
      exact h _ _ (tr.drop (i + 1)) (by simp)

end Trace
