import EllohimMQ.Lib.BitMix
import EllohimMQ.Model.Consumers

/-!
# Collisions of `joaat`

Each stage of `joaat` is one of the stages of `BitMix`, so neither the loop body, for a fixed
character, nor what follows the loop merges two hashes.  Two strings collide because of the characters
in which they differ, and what they have in common after these plays no part.
-/

namespace EllohimMQ

open BitMix Function

/-- What the loop body does to a character after `to_lower`. -/
def joaatAdd (hash : Joaat) (c : UInt8) : Joaat :=
  let hash := hash + c.toBitVec.signExtend 32
  let hash := hash + (hash <<< 10)
  hash ^^^ (hash >>> 6)

theorem joaatStep_eq (hash : Joaat) (c : UInt8) : joaatStep hash c = joaatAdd hash (toLower c) := rfl

/-- `joaat` sees its string in lower case. -/
theorem foldl_joaatStep (hash : Joaat) (str : Str) :
    str.foldl joaatStep hash = (str.map toLower).foldl joaatAdd hash := by
  rw [List.foldl_map, funext₂ joaatStep_eq]

/-! ## The stages -/

theorem joaatMix_injective :
    Injective fun hash : Joaat => (hash + (hash <<< 10)) ^^^ ((hash + (hash <<< 10)) >>> 6) :=
  (xor_ushiftRight_injective (by decide)).comp (add_shiftLeft_injective (by decide))

theorem joaatAdd_injective (c : UInt8) : Injective fun hash => joaatAdd hash c :=
  fun _ _ h => (BitVec.add_left_inj _).1 (joaatMix_injective h)

/-- The characters are told apart as well: sign extension and addition lose nothing. -/
theorem joaatAdd_inj {hash : Joaat} {c d : UInt8} : joaatAdd hash c = joaatAdd hash d ↔ c = d := by
  refine ⟨fun h => ?_, fun h => h ▸ rfl⟩
  have hadd := (BitVec.add_right_inj _).1 (joaatMix_injective h)
  exact UInt8.toBitVec_inj.1 (signExtend_injective (by decide) hadd)

theorem joaatFinal_injective : Injective joaatFinal := by
  have h : Injective fun hash : Joaat => hash + (hash <<< 15) := add_shiftLeft_injective (by decide)
  have h' : Injective fun hash : Joaat => hash ^^^ (hash >>> 11) :=
    xor_ushiftRight_injective (by decide)
  exact h.comp (h'.comp (add_shiftLeft_injective (by decide)))

theorem joaat_inj {a b : Str} :
    joaat a = joaat b ↔ (a.map toLower).foldl joaatAdd 0 = (b.map toLower).foldl joaatAdd 0 := by
  rw [joaat, joaat, joaatFinal_injective.eq_iff, foldl_joaatStep, foldl_joaatStep]

/-! ## Collisions -/

/-- One list becomes the other by a replacement at the only place where they differ. -/
theorem eq_set_of_unique {α : Type} {l l' : List α} (hlen : l.length = l'.length) {i : ℕ}
    (hi : l[i]? ≠ l'[i]?) (h : ∀ j, l[j]? ≠ l'[j]? → j = i) :
    ∃ p s c d, c ≠ d ∧ l = p ++ [c] ++ s ∧ l' = p ++ [d] ++ s := by
  have hlt : i < l.length := by
    by_contra hge
    apply hi
    rw [List.getElem?_eq_none (by omega), List.getElem?_eq_none (by omega)]
  have hset : ∀ d, l.set i d = l.take i ++ [d] ++ l.drop (i + 1) := fun d => by
    rw [List.set_eq_take_append_cons_drop, if_pos hlt, List.append_assoc, List.singleton_append]
  refine ⟨l.take i, l.drop (i + 1), l[i], l'[i], fun heq => hi ?_, ?_, ?_⟩
  · rw [List.getElem?_eq_getElem hlt, List.getElem?_eq_getElem (hlen ▸ hlt), heq]
  · rw [← hset, List.set_getElem_self]
  · rw [← hset]
    apply List.ext_getElem?
    intro j
    by_cases hj : j = i
    · rw [hj, List.getElem?_set_self hlt, List.getElem?_eq_getElem]
    · rw [List.getElem?_set_ne (Ne.symm hj)]
      by_contra hne
      exact hj (h j (Ne.symm hne))

/-- The collisions of `joaat`:

* replacing one character makes a collision exactly when the two are equal after `to_lower`;
* two strings of the same length that differ after `to_lower` in one place only do not collide;
* appending the same string to two strings neither makes a collision nor takes one away. -/
theorem joaat_collisions :
    (∀ (p s : Str) (c d : UInt8),
      joaat (p ++ [c] ++ s) = joaat (p ++ [d] ++ s) ↔ toLower c = toLower d) ∧
    (∀ a b : Str, a.length = b.length → (∃! i : ℕ, (a.map toLower)[i]? ≠ (b.map toLower)[i]?) →
      joaat a ≠ joaat b) ∧
    ∀ a b s : Str, joaat (a ++ s) = joaat (b ++ s) ↔ joaat a = joaat b := by
  have hinj := joaatAdd_injective
  refine ⟨fun p s c d => ?_, fun a b hlen h => ?_, fun a b s => ?_⟩
  · rw [joaat_inj]
    simp only [List.map_append, List.map_cons, List.map_nil]
    rw [foldl_replace_inj hinj, joaatAdd_inj]
  · obtain ⟨i, hi, hunique⟩ := h
    obtain ⟨p, s, c, d, hne, ha, hb⟩ := eq_set_of_unique (by simpa using hlen) hi hunique
    rwa [Ne, joaat_inj, ha, hb, foldl_replace_inj hinj, joaatAdd_inj]
  · rw [joaat_inj, joaat_inj, List.map_append, List.map_append, List.foldl_append,
      List.foldl_append]
    exact (foldl_injective hinj _).eq_iff

/-- Two names that differ in their last character. -/
theorem joaat_collisions_last : joaat [109, 48] ≠ joaat [109, 49] := by
  refine joaat_collisions.2.1 [109, 48] [109, 49] rfl ⟨1, by decide, fun j hj => ?_⟩
  match j with
  | 0 => exact absurd rfl hj
  | 1 => rfl
  | j + 2 => exact absurd rfl hj

end EllohimMQ
