import Mathlib.Data.List.Sort

/-!
# Strings and the JSON library

A `std::string` is the list of its bytes (`Str`); nothing in the program looks at characters.

The program does its JSON with a third-party library, so the library is a parameter (`Nlohmann`):
`json::parse`, the member function `value` at type `std::string`, and `dump`, each with the `what()`
text of the exception it may throw.  What the program relies on is stated as properties of that
parameter, after the library's documentation: `Utf8Safe` here, the accepted grammar where it is
needed.
-/

namespace EllohimMQ

/-- The bytes of a `std::string`. -/
abbrev Str := List UInt8

/-- The bytes of a string literal of the source. -/
def bytes (s : String) : Str := s.toList.flatMap String.utf8EncodeChar

/-- Byte strings that are the UTF-8 encoding of some text. -/
def ValidUtf8 (s : Str) : Prop := ∃ cs : List Char, cs.flatMap String.utf8EncodeChar = s

theorem validUtf8_bytes (s : String) : ValidUtf8 (bytes s) := ⟨s.toList, rfl⟩

/-- A value of `nlohmann::json`.  Numbers keep their text: the program never reads one. -/
inductive Json where
  | null
  | boolean (b : Bool)
  | number (text : Str)
  | string (s : Str)
  | array (items : List Json)
  | object (members : List (Str × Json))

/-- Every string in the value, keys included, is valid UTF-8. -/
inductive Json.ValidUtf8 : Json → Prop
  | null : Json.ValidUtf8 .null
  | boolean (b : Bool) : Json.ValidUtf8 (.boolean b)
  | number (text : Str) : Json.ValidUtf8 (.number text)
  | string {s : Str} (valid : EllohimMQ.ValidUtf8 s) : Json.ValidUtf8 (.string s)
  | array {items : List Json} (valid : ∀ j ∈ items, Json.ValidUtf8 j) : Json.ValidUtf8 (.array items)
  | object {members : List (Str × Json)} (keys : ∀ m ∈ members, EllohimMQ.ValidUtf8 m.1)
      (values : ∀ m ∈ members, Json.ValidUtf8 m.2) : Json.ValidUtf8 (.object members)

/-- The library calls of the program; an error carries the `what()` text of the exception. -/
structure Nlohmann where
  /-- `json::parse(data)` -/
  parse : Str → Except Str Json
  /-- `j.value(key, default)` with a string default -/
  value : Json → Str → Str → Except Str Str
  /-- `j.dump()` -/
  dump : Json → Except Str Str

/-- The documented treatment of UTF-8: parsing yields valid strings only, `value` returns a string
of the object or the default, and `dump` throws on invalid UTF-8 only. -/
structure Nlohmann.Utf8Safe (J : Nlohmann) : Prop where
  parse_valid : ∀ {data j}, J.parse data = .ok j → j.ValidUtf8
  value_valid : ∀ {j key default s}, j.ValidUtf8 → ValidUtf8 default →
    J.value j key default = .ok s → ValidUtf8 s
  dump_valid : ∀ {j}, j.ValidUtf8 → ∃ s, J.dump j = .ok s

/-- The documented results of `value` at type `std::string`: the default where the key is absent, the
string where it is one, and an exception on any other value, and on what is not an object. -/
structure Nlohmann.Values (J : Nlohmann) : Prop where
  absent : ∀ {members key default}, members.lookup key = none →
    J.value (.object members) key default = .ok default
  string : ∀ {members key default s}, members.lookup key = some (.string s) →
    J.value (.object members) key default = .ok s
  other : ∀ {members key default j}, members.lookup key = some j → (∀ s, j ≠ .string s) →
    ∃ what, J.value (.object members) key default = .error what
  notObject : ∀ {j key default}, (∀ members, j ≠ .object members) →
    ∃ what, J.value j key default = .error what

/-! ## An instance for concrete inputs -/

/-- The members of an object with string values, as `dump` writes them: without blanks and, because
an object is a `std::map`, in the order of the keys. -/
def dumpMembers (members : List (Str × Json)) : Str :=
  let sorted := members.insertionSort fun m m' => m.1 ≤ m'.1
  let texts := sorted.map fun m =>
    bytes "\"" ++ m.1 ++ bytes "\":" ++ match m.2 with
      | .string s => bytes "\"" ++ s ++ bytes "\""
      | _ => bytes "null"
  (texts.intersperse (bytes ",")).flatten

/-- `value` on an object with distinct keys, and the texts of its two exceptions. -/
def valueString : Json → Str → Str → Except Str Str
  | .object members, key, default =>
    match members.lookup key with
    | none => .ok default
    | some (.string s) => .ok s
    | some _ => .error (bytes "[json.exception.type_error.302] type must be string")
  | _, _, _ => .error (bytes "[json.exception.type_error.306] cannot use value()")

/-- A library that can parse the texts of a table only, which is enough to evaluate the model on a
concrete run; strings that need no escape are dumped as the real library dumps them. -/
def tableJson (table : List (Str × Json)) : Nlohmann where
  parse data :=
    match table.lookup data with
    | some j => .ok j
    | none => .error (bytes "[json.exception.parse_error.101] parse error")
  value := valueString
  dump
    | .object members => .ok (bytes "\x7b" ++ dumpMembers members ++ bytes "\x7d")
    | _ => .ok (bytes "null")

theorem valueString_valid {j : Json} {key default s : Str} (hj : j.ValidUtf8)
    (hd : ValidUtf8 default) (h : valueString j key default = .ok s) : ValidUtf8 s := by
  cases hj with
  | object keys values =>
    rename_i members
    unfold valueString at h
    dsimp only at h
    rcases hl : members.lookup key with _ | j' <;> rw [hl] at h
    · exact Except.ok.inj h ▸ hd
    · have hmem : (key, j') ∈ members := by
        rw [List.lookup_eq_some_iff] at hl
        obtain ⟨l₁, l₂, rfl, -⟩ := hl
        simp
      have hv := values _ hmem
      cases j' with
      | string s' =>
        cases hv with
        | string valid => exact Except.ok.inj h ▸ valid
      | _ => cases h
  | _ => cases h

theorem tableJson_values (table : List (Str × Json)) : (tableJson table).Values where
  absent h := by simp [tableJson, valueString, h]
  string h := by simp [tableJson, valueString, h]
  other {members key default j} h hj := by
    refine ⟨bytes "[json.exception.type_error.302] type must be string", ?_⟩
    cases j with
    | string s => exact absurd rfl (hj s)
    | _ => simp [tableJson, valueString, h]
  notObject {j key default} hj := by
    refine ⟨bytes "[json.exception.type_error.306] cannot use value()", ?_⟩
    cases j with
    | object members => exact absurd rfl (hj members)
    | _ => rfl

/-- The table library treats UTF-8 as documented when the table does. -/
theorem tableJson_utf8Safe {table : List (Str × Json)} (h : ∀ e ∈ table, e.2.ValidUtf8) :
    (tableJson table).Utf8Safe where
  parse_valid := by
    intro data j hp
    simp only [tableJson] at hp
    rcases hl : table.lookup data with _ | j' <;> rw [hl] at hp
    · cases hp
    · obtain ⟨l₁, l₂, rfl, -⟩ := List.lookup_eq_some_iff.1 hl
      exact Except.ok.inj hp ▸ h (data, j') (by simp)
  value_valid := valueString_valid
  dump_valid := by
    intro j _
    cases j <;> exact ⟨_, rfl⟩

end EllohimMQ
