import Mathlib.Algebra.GroupWithZero.Nat
import Mathlib.Data.List.Perm.Subperm

/-!
# Tables in which one entry changes

A program with several threads is a table of program counters, and one step of one thread replaces
one entry.  What the table holds altogether, `l.flatMap f` for the things `f` that an entry holds,
then changes by what that entry gives up and takes.
-/

namespace Table

variable {α β : Type*} {l : List α} {i : ℕ} {a : α}

/-- Entry `i` can be moved to the front, whatever it is replaced by. -/
theorem exists_perm_set (h : l[i]? = some a) :
    ∃ rest, l.Perm (a :: rest) ∧ ∀ b, (l.set i b).Perm (b :: rest) := by
  obtain ⟨hi, rfl⟩ := List.getElem?_eq_some_iff.1 h
  refine ⟨l.take i ++ l.drop (i + 1), ?_, fun b => ?_⟩
  · have hl : l = l.take i ++ l[i] :: l.drop (i + 1) := by
      rw [List.getElem_cons_drop, List.take_append_drop]
    exact (List.Perm.of_eq hl).trans List.perm_middle
  · rw [List.set_eq_take_append_cons_drop, if_pos hi]
    exact List.perm_middle

/-- An entry is replaced by itself. -/
theorem set_self (h : l[i]? = some a) : l.set i a = l := by
  obtain ⟨hi, rfl⟩ := List.getElem?_eq_some_iff.1 h
  exact List.set_getElem_self hi

theorem modify_eq_set (h : l[i]? = some a) (f : α → α) : l.modify i f = l.set i (f a) := by
  rw [List.modify_eq_set_getElem?, h]
  rfl

/-- The count of `x` over the whole table changes by its count in the entry that is replaced. -/
theorem count_flatMap_set [BEq β] (h : l[i]? = some a) (b : α) (f : α → List β) (x : β) :
    ((l.set i b).flatMap f).count x + (f a).count x = (l.flatMap f).count x + (f b).count x := by
  obtain ⟨rest, hl, hset⟩ := exists_perm_set h
  have h₁ := (hl.flatMap_right f).count_eq x
  have h₂ := ((hset b).flatMap_right f).count_eq x
  simp only [List.flatMap_cons, List.count_append] at h₁ h₂
  omega

theorem count_flatten_set [BEq β] {l : List (List β)} {a : List β} (h : l[i]? = some a)
    (b : List β) (x : β) :
    (l.set i b).flatten.count x + a.count x = l.flatten.count x + b.count x := by
  simpa using count_flatMap_set h b id x

/-- A table of lists gives up `x` when one of them does. -/
theorem flatten_perm_cons {l : List (List β)} {a b : List β} (h : l[i]? = some a) {x : β}
    (hab : a.Perm (x :: b)) : l.flatten.Perm (x :: (l.set i b).flatten) := by
  obtain ⟨rest, hl, hset⟩ := exists_perm_set h
  exact (hl.flatten.trans (hab.append_right rest.flatten)).trans ((hset b).flatten.symm.cons x)

/-- A table of lists takes `x` when one of them does. -/
theorem flatten_set_perm {l : List (List β)} {a b : List β} (h : l[i]? = some a) {x : β}
    (hab : b.Perm (x :: a)) : (l.set i b).flatten.Perm (x :: l.flatten) := by
  obtain ⟨rest, hl, hset⟩ := exists_perm_set h
  exact ((hset b).flatten.trans (hab.append_right rest.flatten)).trans (hl.flatten.symm.cons x)

/-- The number of entries that satisfy `p`. -/
theorem countP_set (h : l[i]? = some a) (b : α) (p : α → Bool) :
    (l.set i b).countP p + (if p a then 1 else 0) = l.countP p + if p b then 1 else 0 := by
  obtain ⟨rest, hl, hset⟩ := exists_perm_set h
  rw [hl.countP_eq, (hset b).countP_eq, List.countP_cons, List.countP_cons]
  omega

/-- The sum of the weights of the entries. -/
theorem sum_map_set (h : l[i]? = some a) (b : α) (w : α → ℕ) :
    ((l.set i b).map w).sum + w a = (l.map w).sum + w b := by
  obtain ⟨rest, hl, hset⟩ := exists_perm_set h
  rw [(hl.map w).sum_nat, ((hset b).map w).sum_nat, List.map_cons, List.map_cons, List.sum_cons,
    List.sum_cons]
  omega

/-- An entry that satisfies `p` is one of those that are counted. -/
theorem countP_pos_of_getElem? (h : l[i]? = some a) {p : α → Bool} (hp : p a = true) :
    0 < l.countP p := List.countP_pos_iff.2 ⟨a, List.mem_of_getElem? h, hp⟩

/-- When entry `i` does not satisfy `p`, fewer entries than all do. -/
theorem countP_lt_length (h : l[i]? = some a) {p : α → Bool} (hp : p a = false) :
    l.countP p < l.length := by
  have hsum := List.length_eq_countP_add_countP (p := p) (l := l)
  have hpos := countP_pos_of_getElem? h (p := fun b => !p b) (by simp [hp])
  simp only [Bool.not_eq_true, Bool.decide_eq_false] at hsum
  omega

/-- What holds of every entry still does when the new entry satisfies it. -/
theorem forall_mem_set {p : α → Prop} (hl : ∀ x ∈ l, p x) {b : α} (hb : p b) :
    ∀ x ∈ l.set i b, p x := by
  intro x hx
  rcases List.mem_or_eq_of_mem_set hx with hx | rfl
  · exact hl x hx
  · exact hb

/-- An entry other than the replaced one is still there. -/
theorem mem_set_of_mem (h : l[i]? = some a) {x b : α} (hx : x ∈ l) (hne : x ≠ a) :
    x ∈ l.set i b := by
  obtain ⟨rest, hl, hset⟩ := exists_perm_set h
  rcases List.mem_cons.1 (hl.mem_iff.1 hx) with rfl | hx
  · exact absurd rfl hne
  · exact (hset b).mem_iff.2 (List.mem_cons_of_mem _ hx)

/-- What the entries hold is still held when the new entry holds what the old one did. -/
theorem mem_flatMap_set {f : α → List β} (h : l[i]? = some a) {b : α} {x : β} (hx : x ∈ l.flatMap f)
    (hab : x ∈ f a → x ∈ f b) : x ∈ (l.set i b).flatMap f := by
  obtain ⟨rest, hl, hset⟩ := exists_perm_set h
  rw [(hset b).flatMap_right f |>.mem_iff, List.flatMap_cons, List.mem_append]
  rw [hl.flatMap_right f |>.mem_iff, List.flatMap_cons, List.mem_append] at hx
  exact hx.imp hab id

/-- What is contained, with multiplicity, still is after a map. -/
theorem subperm_map {l l' : List α} (h : l.Subperm l') (f : α → β) :
    (l.map f).Subperm (l'.map f) := by
  obtain ⟨m, hm, hsub⟩ := h
  exact ⟨m.map f, hm.map f, hsub.map f⟩

end Table
