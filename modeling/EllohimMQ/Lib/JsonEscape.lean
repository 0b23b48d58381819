import EllohimMQ.Lib.JsonText

/-!
# Escaping strings

How a string is written as a JSON text: control characters, the quotation mark and the backslash are
escaped, byte by byte, and everything else stands for itself.  The result is a string of the grammar
(`stringText_quoted`), and what was written can be read off the front of any text that begins with
it (`quoted_append_inj`).
-/

namespace JsonText

/-- The lower-case hexadecimal digit. -/
def hexChar (n : UInt8) : UInt8 := if n < 10 then 0x30 + n else 0x57 + n

/-- What follows the backslash in the escape of a byte; bytes that need none have no escape. -/
def escapeTail (b : UInt8) : Option Bytes :=
  if b = quote ∨ b = backslash then some [b]
  else if b = 0x08 then some (ascii "b")
  else if b = 0x09 then some (ascii "t")
  else if b = 0x0a then some (ascii "n")
  else if b = 0x0c then some (ascii "f")
  else if b = 0x0d then some (ascii "r")
  else if b < 0x20 then some (ascii "u00" ++ [hexChar (b >>> 4), hexChar (b &&& 0x0f)])
  else none

/-- A byte as it stands in a string. -/
def escapeByte (b : UInt8) : Bytes :=
  match escapeTail b with
  | some tail => backslash :: tail
  | none => [b]

/-- The bytes of a string between its quotation marks. -/
def escape (s : Bytes) : Bytes := s.flatMap escapeByte

/-- The text of a string. -/
def quoted (s : Bytes) : Bytes := quote :: (escape s ++ [quote])

theorem escape_cons (b : UInt8) (s : Bytes) : escape (b :: s) = escapeByte b ++ escape s :=
  List.flatMap_cons

/-- The bytes that have an escape. -/
def escaped : List UInt8 := (List.range 0x20).map UInt8.ofNat ++ [quote, backslash]

theorem mem_escaped_iff {b : UInt8} : b ∈ escaped ↔ b < 0x20 ∨ b = quote ∨ b = backslash := by
  have hlow : b ∈ (List.range 0x20).map UInt8.ofNat ↔ b < 0x20 := by
    rw [List.mem_map]
    constructor
    · rintro ⟨n, hn, rfl⟩
      rw [List.mem_range] at hn
      rw [UInt8.lt_iff_toNat_lt, UInt8.toNat_ofNat']
      exact Nat.lt_of_le_of_lt (Nat.mod_le _ _) hn
    · intro hb
      exact ⟨b.toNat, List.mem_range.2 (UInt8.lt_iff_toNat_lt.1 hb), UInt8.ofNat_toNat⟩
  simp only [escaped, List.mem_append, hlow, List.mem_cons, List.not_mem_nil, or_false]

theorem toNat_lt_of_escaped {b : UInt8} (h : b ∈ escaped) : b.toNat < 0x80 := by
  have key : ∀ b ∈ escaped, b.toNat < 0x80 := by decide +kernel
  exact key b h

theorem isSome_escapeTail_iff {b : UInt8} : (escapeTail b).isSome ↔ b ∈ escaped := by
  rw [mem_escaped_iff]
  constructor
  · intro h
    unfold escapeTail at h
    split_ifs at h with hq h8 h9 ha hc hd hlt
    · exact .inr hq
    · exact .inl (h8 ▸ by decide)
    · exact .inl (h9 ▸ by decide)
    · exact .inl (ha ▸ by decide)
    · exact .inl (hc ▸ by decide)
    · exact .inl (hd ▸ by decide)
    · exact .inl hlt
    · cases h
  · intro h
    unfold escapeTail
    split_ifs with hq h8 h9 ha hc hd hlt <;> try rfl
    rcases h with h | h
    · exact absurd h hlt
    · exact absurd h hq

/-- No escape is the beginning of another. -/
theorem escapeTail_unique {b b' : UInt8} {tail tail' : Bytes} (h : escapeTail b = some tail)
    (h' : escapeTail b' = some tail') (hp : tail <+: tail') : b = b' := by
  have key : ∀ b ∈ escaped, ∀ b' ∈ escaped,
      (escapeTail b).getD [] <+: (escapeTail b').getD [] → b = b' := by decide +kernel
  refine key b (isSome_escapeTail_iff.1 (by simp [h])) b' (isSome_escapeTail_iff.1 (by simp [h'])) ?_
  rwa [h, h']

/-- The escape of a byte tells which byte it was, whatever follows. -/
theorem escapeByte_append_inj {b b' : UInt8} {r r' : Bytes}
    (e : escapeByte b ++ r = escapeByte b' ++ r') : b = b' ∧ r = r' := by
  have hbare : ∀ {b : UInt8}, escapeTail b = none → b ≠ backslash := by
    rintro b h rfl
    cases h
  unfold escapeByte at e
  rcases h : escapeTail b with _ | tail <;> rcases h' : escapeTail b' with _ | tail' <;>
    simp only [h, h', List.cons_append, List.nil_append, List.cons.injEq] at e
  · exact e
  · exact absurd e.1 (hbare h)
  · exact absurd e.1.symm (hbare h')
  · have hb : b = b' := by
      rcases Nat.le_total tail.length tail'.length with hle | hle
      · exact escapeTail_unique h h'
          (List.prefix_of_prefix_length_le ⟨r, e.2⟩ ⟨r', rfl⟩ hle)
      · exact (escapeTail_unique h' h
          (List.prefix_of_prefix_length_le ⟨r', e.2.symm⟩ ⟨r, rfl⟩ hle)).symm
    subst hb
    obtain rfl := Option.some.inj (h.symm.trans h')
    exact ⟨rfl, List.append_cancel_left e.2⟩

/-- An escaped byte does not begin like the end of the string. -/
theorem escapeByte_append_ne (b : UInt8) (r r' : Bytes) : escapeByte b ++ r ≠ quote :: r' := by
  intro e
  unfold escapeByte at e
  rcases h : escapeTail b with _ | tail <;> rw [h] at e
  · obtain ⟨rfl, -⟩ := List.cons.inj e
    cases h
  · exact absurd (List.cons.inj e).1 (by decide)

theorem quoted_append_inj {s s' r r' : Bytes} (e : quoted s ++ r = quoted s' ++ r') :
    s = s' ∧ r = r' := by
  have e' : escape s ++ quote :: r = escape s' ++ quote :: r' := by
    simpa [quoted, List.append_assoc] using e
  clear e
  induction s generalizing s' with
  | nil =>
    cases s' with
    | nil => exact ⟨rfl, (List.cons.inj e').2⟩
    | cons b' s' =>
      rw [escape_cons, List.append_assoc] at e'
      exact absurd e'.symm (escapeByte_append_ne _ _ _)
  | cons b s ih =>
    cases s' with
    | nil =>
      rw [escape_cons, List.append_assoc] at e'
      exact absurd e' (escapeByte_append_ne _ _ _)
    | cons b' s' =>
      rw [escape_cons, escape_cons, List.append_assoc, List.append_assoc] at e'
      obtain ⟨rfl, hrest⟩ := escapeByte_append_inj e'
      obtain ⟨rfl, rfl⟩ := ih hrest
      exact ⟨rfl, rfl⟩

/-! ## The result is a string of the grammar -/

theorem stringUnit_escape {b : UInt8} {tail : Bytes} (h : escapeTail b = some tail) :
    StringUnit (backslash :: tail) := by
  unfold escapeTail at h
  split_ifs at h with hq h8 h9 ha hc hd hlt <;> obtain rfl := Option.some.inj h
  · exact .escape (by rcases hq with rfl | rfl <;> decide)
  · exact .escape (by decide)
  · exact .escape (by decide)
  · exact .escape (by decide)
  · exact .escape (by decide)
  · exact .escape (by decide)
  · have key : ∀ b ∈ escaped,
        hex4 [0x30, 0x30, hexChar (b >>> 4), hexChar (b &&& 0x0f)] = some b.toNat := by
      decide +kernel
    have hmem : b ∈ escaped := mem_escaped_iff.2 (.inl hlt)
    exact .unicode (key b hmem) (.inl (Nat.lt_of_lt_of_le b.toNat_lt (by decide)))

theorem utf8EncodeChar_ascii {c : Char} (h : c.toNat < 0x80) :
    String.utf8EncodeChar c = [UInt8.ofNat c.toNat] := by
  have hle : c.val.toNat ≤ 0x7f := Nat.le_of_lt_succ h
  simp only [String.utf8EncodeChar, hle, if_true]
  rfl

/-- What the escapes of a character's bytes make up. -/
theorem stringUnit_flatMap (c : Char) :
    StringUnit ((String.utf8EncodeChar c).flatMap escapeByte) := by
  by_cases h : ∃ b ∈ String.utf8EncodeChar c, b ∈ escaped
  · -- a byte that has an escape is the whole character
    obtain ⟨b, hb, hesc⟩ := h
    have hlt := toNat_lt_of_escaped hesc
    have hc := toNat_of_mem_utf8EncodeChar hb hlt
    obtain ⟨tail, ht⟩ := Option.isSome_iff_exists.1 (isSome_escapeTail_iff.2 hesc)
    rw [utf8EncodeChar_ascii (hc ▸ hlt), hc, UInt8.ofNat_toNat]
    simpa [escapeByte, ht] using stringUnit_escape ht
  · simp only [not_exists, not_and] at h
    have hbare : (String.utf8EncodeChar c).flatMap escapeByte = String.utf8EncodeChar c := by
      have hone : ∀ b ∈ String.utf8EncodeChar c, escapeByte b = [b] := fun b hb => by
        have hnone : escapeTail b = none := by
          rw [← Option.not_isSome_iff_eq_none, isSome_escapeTail_iff]
          exact h b hb
        simp [escapeByte, hnone]
      rw [List.flatMap_congr hone, List.flatMap_singleton']
    rw [hbare]
    have hnot : ∀ b : UInt8, b ∈ escaped → c.toNat ≠ b.toNat := by
      rintro b hesc hc
      refine h b ?_ hesc
      rw [utf8EncodeChar_ascii (hc ▸ toNat_lt_of_escaped hesc), hc, UInt8.ofNat_toNat]
      exact List.mem_singleton_self b
    refine .char c ?_ ?_ ?_
    · by_contra hlt
      have hnat : (UInt8.ofNat c.toNat).toNat = c.toNat := by
        rw [UInt8.toNat_ofNat']
        exact Nat.mod_eq_of_lt (by omega)
      have hctrl : UInt8.ofNat c.toNat < 0x20 := by
        rw [UInt8.lt_iff_toNat_lt, hnat]
        exact Nat.lt_of_not_le hlt
      exact hnot _ (mem_escaped_iff.2 (.inl hctrl)) hnat.symm
    · rintro rfl
      exact hnot quote (by decide) rfl
    · rintro rfl
      exact hnot backslash (by decide) rfl

/-- Escaping and quoting a text gives a JSON string. -/
theorem stringText_quoted (cs : List Char) :
    StringText (quoted (cs.flatMap String.utf8EncodeChar)) := by
  have hunits : escape (cs.flatMap String.utf8EncodeChar) =
      (cs.map fun c => (String.utf8EncodeChar c).flatMap escapeByte).flatten := by
    rw [escape, List.flatMap_assoc, List.flatMap_def]
  rw [quoted, hunits]
  refine .mk fun u hu => ?_
  obtain ⟨c, -, rfl⟩ := List.mem_map.1 hu
  exact stringUnit_flatMap c

/-! ## Strings put together -/

theorem stringText_iff {a : Bytes} : StringText (quote :: (a ++ [quote])) ↔
    ∃ units : List Bytes, (∀ u ∈ units, StringUnit u) ∧ units.flatten = a := by
  constructor
  · intro h
    generalize hx : quote :: (a ++ [quote]) = x at h
    obtain ⟨hunits⟩ := h
    exact ⟨_, hunits, (List.append_cancel_right (List.cons.inj hx).2).symm⟩
  · rintro ⟨units, hunits, rfl⟩
    exact .mk hunits

theorem stringText_append {a b : Bytes} (ha : StringText (quote :: (a ++ [quote])))
    (hb : StringText (quote :: (b ++ [quote]))) : StringText (quote :: (a ++ b ++ [quote])) := by
  obtain ⟨us, hus, rfl⟩ := stringText_iff.1 ha
  obtain ⟨vs, hvs, rfl⟩ := stringText_iff.1 hb
  refine stringText_iff.2 ⟨us ++ vs, fun u hu => ?_, List.flatten_append⟩
  exact (List.mem_append.1 hu).elim (hus u) (hvs u)

theorem Framed.refl (t : Bytes) : Framed t t := ⟨[], [], by simp [Blank], by simp [Blank], by simp⟩

end JsonText
