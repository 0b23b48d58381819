import Mathlib.Data.Nat.ModEq
import Mathlib.Data.Nat.Prime.Basic
import Mathlib.Logic.Function.Basic

/-!
# Bit mixing

The stages that bitwise hashes are built of: adding a left shift of a word to it, which multiplies by
an odd number, and combining it with a right shift of itself by exclusive or.  Both lose nothing.  A
fold whose steps lose nothing keeps distinct states distinct over any input.
-/

namespace BitMix

open Function

variable {w v k : ℕ} {α β : Type*}

/-- `x + (x <<< k)` is `x * (1 + 2 ^ k)`, and the factor is odd. -/
theorem add_shiftLeft_injective (hk : 0 < k) : Injective fun x : BitVec w => x + (x <<< k) := by
  intro x y h
  have hx : ∀ z : BitVec w, (z + (z <<< k)).toNat = z.toNat * (1 + 2 ^ k) % 2 ^ w := fun z => by
    rw [BitVec.toNat_add, BitVec.toNat_shiftLeft, Nat.add_mod_mod, Nat.shiftLeft_eq, Nat.mul_add,
      Nat.mul_one]
  have hmod : x.toNat * (1 + 2 ^ k) ≡ y.toNat * (1 + 2 ^ k) [MOD 2 ^ w] := by
    have := congrArg BitVec.toNat h
    rwa [hx, hx] at this
  have hodd : Nat.Coprime (2 ^ w) (1 + 2 ^ k) := by
    apply Nat.Coprime.pow_left
    rw [Nat.coprime_two_left, Nat.odd_add]
    simp [Nat.even_pow, hk.ne']
  have := Nat.ModEq.cancel_right_of_coprime hodd hmod
  apply BitVec.eq_of_toNat_eq
  rwa [Nat.ModEq, Nat.mod_eq_of_lt x.isLt, Nat.mod_eq_of_lt y.isLt] at this

/-- Only zero is its own right shift. -/
theorem eq_zero_of_ushiftRight_eq {z : BitVec w} (hk : 0 < k) (h : z >>> k = z) : z = 0#w := by
  apply BitVec.eq_of_toNat_eq
  have hdiv := congrArg BitVec.toNat h
  rw [BitVec.toNat_ushiftRight, Nat.shiftRight_eq_div_pow] at hdiv
  by_contra hne
  have hlt := Nat.div_lt_self (Nat.pos_of_ne_zero (by simpa using hne)) (Nat.one_lt_two_pow hk.ne')
  omega

theorem xor_ushiftRight_injective (hk : 0 < k) : Injective fun x : BitVec w => x ^^^ (x >>> k) := by
  intro x y h
  rw [← BitVec.xor_eq_zero_iff]
  apply eq_zero_of_ushiftRight_eq hk
  rw [BitVec.ushiftRight_xor_distrib, ← BitVec.xor_eq_zero_iff]
  calc x >>> k ^^^ y >>> k ^^^ (x ^^^ y)
      = (x ^^^ x >>> k) ^^^ (y ^^^ y >>> k) := by ac_rfl
    _ = 0#w := BitVec.xor_eq_zero_iff.2 h

theorem signExtend_injective (h : w ≤ v) : Injective fun x : BitVec w => x.signExtend v := by
  intro x y hxy
  have := congrArg BitVec.toInt hxy
  apply BitVec.eq_of_toInt_eq
  rwa [BitVec.toInt_signExtend_of_le h, BitVec.toInt_signExtend_of_le h] at this

theorem foldl_injective {f : β → α → β} (h : ∀ a, Injective fun b => f b a) (l : List α) :
    Injective fun b => l.foldl f b := by
  induction l with
  | nil => exact injective_id
  | cons a l ih => exact ih.comp (h a)

/-- Two inputs that differ in one place are folded to the same state exactly when the two steps there
give the same one. -/
theorem foldl_replace_inj {f : β → α → β} (h : ∀ a, Injective fun b => f b a) (b : β)
    (p s : List α) (c d : α) :
    (p ++ [c] ++ s).foldl f b = (p ++ [d] ++ s).foldl f b ↔
      f (p.foldl f b) c = f (p.foldl f b) d := by
  simp only [List.foldl_append, List.foldl_cons, List.foldl_nil]
  exact (foldl_injective h s).eq_iff

end BitMix
