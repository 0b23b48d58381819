import EllohimMQ.Lib.JsonText
import EllohimMQ.Model.Json

/-!
# The texts that `json::parse` accepts

What the results about received texts rely on: the library accepts one JSON text with blanks around
it, blanks make no difference, and the texts of its parse errors differ from those of its type
errors (their numbers do).
-/

namespace EllohimMQ

open JsonText

/-- The library accepts the JSON grammar, with blanks that make no difference, and tells its errors
apart. -/
structure Nlohmann.Grammar (J : Nlohmann) : Prop where
  accepts : ∀ data, (∃ j, J.parse data = .ok j) ↔ Accepts data
  blanks : ∀ {t x}, Value t → Framed t x → J.parse x = J.parse t
  errors : ∀ {data j key default what what'}, J.parse data = .error what →
    J.value j key default = .error what' → what ≠ what'

/-! ## An instance for concrete inputs -/

/-- A text without the blanks around it. -/
def strip (data : Str) : Str :=
  ((data.dropWhile isBlank).reverse.dropWhile isBlank).reverse

theorem strip_framed {t x : Str} (ht : Value t) (hx : Framed t x) : strip x = strip t := by
  obtain ⟨b, bs, rfl, hb, -⟩ := ht.head
  obtain ⟨w, w', hw, hw', rfl⟩ := hx
  have hdrop : (w ++ b :: bs ++ w').dropWhile isBlank = b :: bs ++ w' := by
    rw [List.append_assoc, List.dropWhile_append_of_pos hw, List.cons_append,
      List.dropWhile_cons_of_neg (by simp [hb])]
  have hrev : ∀ a ∈ w'.reverse, isBlank a = true := fun a ha => hw' a (List.mem_reverse.1 ha)
  unfold strip
  rw [hdrop, List.reverse_append, List.dropWhile_append_of_pos hrev,
    List.dropWhile_cons_of_neg (by simp [hb])]

open Classical in
/-- A library that accepts the grammar and knows the values of the texts of a table. -/
noncomputable def grammarJson (table : List (Str × Json)) : Nlohmann where
  parse data :=
    if Accepts data then .ok ((table.lookup (strip data)).getD .null)
    else .error (bytes "[json.exception.parse_error.101] parse error")
  value := valueString
  dump := (tableJson []).dump

theorem valueString_error {j : Json} {key default what : Str}
    (h : valueString j key default = .error what) :
    what = bytes "[json.exception.type_error.302] type must be string" ∨
      what = bytes "[json.exception.type_error.306] cannot use value()" := by
  unfold valueString at h
  split at h
  · split at h
    · cases h
    · cases h
    · exact .inl (Except.error.inj h).symm
  · exact .inr (Except.error.inj h).symm

theorem grammarJson_grammar (table : List (Str × Json)) : (grammarJson table).Grammar where
  accepts data := by
    by_cases h : Accepts data <;> simp [grammarJson, h]
  blanks := by
    intro t x ht hx
    have hacc : Accepts x := ⟨t, ht, hx⟩
    have hacc' : Accepts t := ⟨t, ht, [], [], by simp [Blank], by simp [Blank], by simp⟩
    simp [grammarJson, hacc, hacc', strip_framed ht hx]
  errors := by
    intro data j key default what what' hp hv
    have hwhat : what = bytes "[json.exception.parse_error.101] parse error" := by
      by_cases h : Accepts data
      · simp [grammarJson, h] at hp
      · simp only [grammarJson, h, if_false] at hp
        exact (Except.error.inj hp).symm
    rcases valueString_error hv with rfl | rfl <;> rw [hwhat] <;> decide

theorem grammarJson_utf8Safe {table : List (Str × Json)} (h : ∀ e ∈ table, e.2.ValidUtf8) :
    (grammarJson table).Utf8Safe where
  parse_valid := by
    intro data j hp
    by_cases hacc : Accepts data
    · simp only [grammarJson, hacc, if_true] at hp
      obtain rfl := Except.ok.inj hp
      rcases hl : table.lookup (strip data) with _ | j
      · exact .null
      · obtain ⟨l₁, l₂, rfl, -⟩ := List.lookup_eq_some_iff.1 hl
        exact h (strip data, j) (by simp)
    · simp [grammarJson, hacc] at hp
  value_valid := valueString_valid
  dump_valid := (tableJson_utf8Safe (List.forall_mem_nil _)).dump_valid

/-- A character that stands for itself in a JSON string. -/
def isBare (c : Char) : Bool := 0x20 ≤ c.toNat && c != '"' && c != '\\'

/-- A text in quotes is a JSON string when nothing in it needs an escape. -/
theorem stringText_bytes (s : String) (h : s.toList.all isBare = true) :
    StringText (quote :: (bytes s ++ [quote])) := by
  have hunits : StringText (quote :: ((s.toList.map String.utf8EncodeChar).flatten ++ [quote])) := by
    refine .mk fun u hu => ?_
    obtain ⟨c, hc, rfl⟩ := List.mem_map.1 hu
    have hbare := List.all_eq_true.1 h c hc
    simp only [isBare, Bool.and_eq_true, decide_eq_true_eq, bne_iff_ne] at hbare
    exact .char c hbare.1.1 hbare.1.2 hbare.2
  rwa [← List.flatMap_def] at hunits

end EllohimMQ
