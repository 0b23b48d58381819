import Mathlib.Data.List.Nodup
import Mathlib.Data.List.Infix
import Mathlib.Data.List.Forall2

/-!
# Concatenations of pieces

A byte stream is the concatenation of the pieces that were written to it, and keeps no trace of
where one piece ends.  The facts here say what survives: how much of a concatenation is left when
each piece is cut short.
-/

namespace Pieces

variable {α : Type*}

/-- The concatenation of the pieces, each cut to the length beside it. -/
def cut (pieces : List (List α × ℕ)) : List α := (pieces.map fun p => p.1.take p.2).flatten

/-- The concatenation of the whole pieces. -/
def whole (pieces : List (List α × ℕ)) : List α := (pieces.map Prod.fst).flatten

@[simp] theorem cut_nil : cut ([] : List (List α × ℕ)) = [] := rfl

@[simp] theorem cut_cons (p : List α × ℕ) (ps : List (List α × ℕ)) :
    cut (p :: ps) = p.1.take p.2 ++ cut ps := rfl

@[simp] theorem whole_nil : whole ([] : List (List α × ℕ)) = [] := rfl

@[simp] theorem whole_cons (p : List α × ℕ) (ps : List (List α × ℕ)) :
    whole (p :: ps) = p.1 ++ whole ps := rfl

theorem cut_append (ps qs : List (List α × ℕ)) : cut (ps ++ qs) = cut ps ++ cut qs := by
  simp [cut]

theorem cut_subset (ps : List (List α × ℕ)) : cut ps ⊆ whole ps := by
  intro x hx
  simp only [cut, List.mem_flatten, List.mem_map] at hx
  obtain ⟨_, ⟨p, hp, rfl⟩, hx⟩ := hx
  exact List.mem_flatten.2 ⟨p.1, List.mem_map_of_mem hp, List.mem_of_mem_take hx⟩

theorem cut_eq_nil_iff {ps : List (List α × ℕ)} (hle : ∀ p ∈ ps, p.2 ≤ p.1.length) :
    cut ps = [] ↔ ∀ p ∈ ps, p.2 = 0 := by
  induction ps with
  | nil => simp
  | cons p ps ih =>
    have hp := hle p (by simp)
    rw [cut_cons, List.append_eq_nil_iff, ih fun q hq => hle q (by simp [hq]), List.take_eq_nil_iff]
    simp only [List.mem_cons, forall_eq_or_imp]
    refine and_congr_left fun _ => ?_
    constructor
    · rintro (h | h)
      · exact h
      · rw [h, List.length_nil] at hp
        omega
    · exact .inl

/-- When all elements differ, the pieces that were cut still make up a beginning of the whole
exactly when nothing follows the first piece that was cut short. -/
theorem cut_prefix_iff {ps : List (List α × ℕ)} (hn : (whole ps).Nodup)
    (hle : ∀ p ∈ ps, p.2 ≤ p.1.length) :
    cut ps <+: whole ps ↔ ps.Pairwise fun p q => p.2 < p.1.length → q.2 = 0 := by
  induction ps with
  | nil => simp
  | cons p ps ih =>
    have hle' : ∀ q ∈ ps, q.2 ≤ q.1.length := fun q hq => hle q (by simp [hq])
    rw [whole_cons] at hn
    have hn' := (List.nodup_append.1 hn).2.1
    rw [cut_cons, whole_cons, List.pairwise_cons]
    rcases (hle p (by simp)).lt_or_eq with hlt | heq
    · have hwhole : p.1 ++ whole ps = p.1.take p.2 ++ (p.1.drop p.2 ++ whole ps) := by
        rw [← List.append_assoc, List.take_append_drop]
      rw [hwhole, List.prefix_append_right_inj]
      constructor
      · intro h
        -- the next element comes from a later piece, but the whole goes on with this one
        have hnil : cut ps = [] := by
          rcases hc : cut ps with _ | ⟨x, xs⟩
          · rfl
          · rw [hc] at h
            obtain ⟨t, ht⟩ := h
            obtain ⟨y, ys, hy⟩ : ∃ y ys, p.1.drop p.2 = y :: ys := by
              refine List.exists_cons_of_ne_nil fun hnil => ?_
              rw [List.drop_eq_nil_iff] at hnil
              omega
            rw [hy] at ht
            obtain ⟨rfl, -⟩ := List.cons.inj ht
            have hx : x ∈ whole ps := cut_subset ps (by simp [hc])
            have hxp : x ∈ p.1 := List.mem_of_mem_drop (i := p.2) (by simp [hy])
            exact absurd rfl ((List.nodup_append.1 hn).2.2 x hxp x hx)
        have hzero := (cut_eq_nil_iff hle').1 hnil
        exact ⟨fun q hq _ => hzero q hq, List.pairwise_of_forall_mem_list fun _ _ q hq _ => hzero q hq⟩
      · rintro ⟨h, -⟩
        rw [(cut_eq_nil_iff hle').2 fun q hq => h q hq hlt]
        exact List.nil_prefix
    · rw [heq, List.take_length, List.prefix_append_right_inj, ih hn' hle']
      constructor
      · exact fun h => ⟨fun q _ hlt => by omega, h⟩
      · exact fun h => h.2

/-- A beginning of the pieces, cut, is a beginning of all of them, cut. -/
theorem cut_take_prefix (ps : List (List α × ℕ)) (k : ℕ) : cut (ps.take k) <+: cut ps := by
  conv_rhs => rw [← List.take_append_drop k ps]
  rw [cut_append]
  exact List.prefix_append ..

/-! ## Elements with their positions -/

/-- Each piece with its elements paired with their positions in the whole, which starts at `k`. -/
def located (k : ℕ) : List (List α × ℕ) → List (List (α × ℕ) × ℕ)
  | [] => []
  | p :: ps => (p.1.zipIdx k, p.2) :: located (k + p.1.length) ps

theorem whole_located (k : ℕ) (ps : List (List α × ℕ)) :
    whole (located k ps) = (whole ps).zipIdx k := by
  induction ps generalizing k with
  | nil => rfl
  | cons p ps ih => rw [located, whole_cons, whole_cons, ih, List.zipIdx_append]

theorem cut_located (k : ℕ) (ps : List (List α × ℕ)) :
    (cut (located k ps)).map Prod.fst = cut ps := by
  induction ps generalizing k with
  | nil => rfl
  | cons p ps ih => rw [located, cut_cons, cut_cons, List.map_append, ih, List.map_take,
      List.zipIdx_map_fst]

theorem nodup_whole_located (k : ℕ) (ps : List (List α × ℕ)) : (whole (located k ps)).Nodup := by
  rw [whole_located]
  refine List.Nodup.of_map Prod.snd ?_
  rw [List.zipIdx_map_snd]
  exact List.nodup_range'

theorem located_take (k n : ℕ) (ps : List (List α × ℕ)) :
    located k (ps.take n) = (located k ps).take n := by
  induction ps generalizing k n with
  | nil => simp [located]
  | cons p ps ih =>
    cases n with
    | zero => rfl
    | succ n => simp [located, ih]

/-- Positions make the elements different without changing how long the pieces are and where they
are cut. -/
theorem map_located (k : ℕ) (ps : List (List α × ℕ)) :
    (located k ps).map (fun p => (p.1.length, p.2)) = ps.map fun p => (p.1.length, p.2) := by
  induction ps generalizing k with
  | nil => rfl
  | cons p ps ih => simp [located, ih]

theorem pairwise_located {r : ℕ × ℕ → ℕ × ℕ → Prop} (k : ℕ) (ps : List (List α × ℕ)) :
    (located k ps).Pairwise (fun p q => r (p.1.length, p.2) (q.1.length, q.2)) ↔
      ps.Pairwise fun p q => r (p.1.length, p.2) (q.1.length, q.2) := by
  rw [← List.pairwise_map (R := r) (f := fun p : List (α × ℕ) × ℕ => (p.1.length, p.2)),
    map_located, List.pairwise_map]

theorem forall_mem_located {r : ℕ × ℕ → Prop} (k : ℕ) {ps : List (List α × ℕ)}
    (h : ∀ p ∈ ps, r (p.1.length, p.2)) : ∀ p ∈ located k ps, r (p.1.length, p.2) := by
  have hmap : ∀ a ∈ (located k ps).map fun p => (p.1.length, p.2), r a := by
    rw [map_located, List.forall_mem_map]
    exact h
  exact fun p hp => hmap _ (List.mem_map_of_mem hp)

end Pieces
