import EllohimMQ.Lib.JsonEscape
import EllohimMQ.Model.JsonGrammar
import EllohimMQ.Model.TcpServer

/-!
# The texts that the server writes

What the results about sent texts rely on: `dump` writes the object of a publish as a JSON object
with its strings escaped, so that `parse` gives the strings back; and the texts of type errors need
no escaping.  Nothing is assumed of the texts of parse errors: these quote what was received.
-/

namespace EllohimMQ

open JsonText

/-- The text can stand between the quotation marks of a JSON string as it is. -/
def Verbatim (what : Str) : Prop := StringText (quote :: (what ++ [quote]))

/-- The text parses to an object with the type, the topic and the payload of the message. -/
def Carries (J : Nlohmann) (text : Str) (message : BrokerMessage) : Prop :=
  ∃ members, J.parse text = .ok (.object members) ∧
    members.lookup (bytes "type") = some (.string (bytes "publish")) ∧
    members.lookup (bytes "topic") = some (.string message.topic) ∧
    members.lookup (bytes "payload") = some (.string message.payload)

/-- What `dump` writes is an object that parses to the message, and the texts of type errors need no
escaping. -/
structure Nlohmann.Texts (J : Nlohmann) : Prop where
  object : ∀ {message text}, J.dump (publishJson message) = .ok text → Object text
  parse_dump : ∀ {message text}, J.dump (publishJson message) = .ok text → Carries J text message
  type_error : ∀ {j key default what}, J.value j key default = .error what → Verbatim what

theorem carries_publishJson {J : Nlohmann} {text : Str} {message : BrokerMessage}
    (h : J.parse text = .ok (publishJson message)) : Carries J text message :=
  ⟨_, h, rfl, rfl, rfl⟩

/-! ## The replies -/

/-- An error reply is an object and a line feed when its text needs no escaping. -/
theorem framed_errorReply {text : Str} (h : Verbatim text) :
    ∃ t, Object t ∧ Framed t (bytes "\x7b\"error\":\"" ++ text ++ bytes "\"\x7d\n") := by
  let key := quote :: (bytes "error" ++ [quote])
  have hobj : Object (lbrace :: (key ++ colon :: (quote :: (text ++ [quote])) ++ [rbrace])) :=
    .object (.member (stringText_bytes "error" (by decide)) (.refl key) (.string h) (.refl _))
  refine ⟨_, hobj, [], [0x0a], by simp [Blank], by simp [Blank, isBlank], ?_⟩
  have hfront : bytes "\x7b\"error\":\"" = lbrace :: key ++ [colon, quote] := by decide
  have hback : bytes "\"\x7d\n" = [quote, rbrace, 0x0a] := by decide
  rw [hfront, hback]
  simp

theorem framed_unknownTypeReply : ∃ t, Object t ∧ Framed t unknownTypeReply :=
  framed_errorReply (stringText_bytes "unknown type" (by decide))

theorem framed_parseFailedReply {what : Str} (h : Verbatim what) :
    ∃ t, Object t ∧ Framed t (parseFailedReply what) := by
  have hsplit : parseFailedReply what = bytes "\x7b\"error\":\"" ++
      (bytes "json parse failed: " ++ what) ++ bytes "\"\x7d\n" := by
    rw [parseFailedReply, ← List.append_assoc (bytes "\x7b\"error\":\"")]
    rfl
  rw [hsplit]
  exact framed_errorReply (stringText_append (stringText_bytes "json parse failed: " (by decide)) h)

/-! ## An instance for concrete inputs -/

/-- `dump` on the object of a publish: the members in the order of their keys, strings escaped. -/
def publishDump (message : BrokerMessage) : Str :=
  bytes "\x7b\"payload\":" ++ quoted message.payload ++ bytes ",\"topic\":" ++
    quoted message.topic ++ bytes ",\"type\":\"publish\"\x7d"

theorem publishDump_inj {m m' : BrokerMessage} (h : publishDump m = publishDump m') : m = m' := by
  simp only [publishDump, List.append_assoc] at h
  obtain ⟨hpayload, hrest⟩ := quoted_append_inj (List.append_cancel_left h)
  obtain ⟨htopic, -⟩ := quoted_append_inj (List.append_cancel_left hrest)
  cases m
  cases m'
  exact congrArg₂ BrokerMessage.mk htopic hpayload

theorem object_publishDump {message : BrokerMessage} (ht : ValidUtf8 message.topic)
    (hp : ValidUtf8 message.payload) : Object (publishDump message) := by
  obtain ⟨ts, ht⟩ := ht
  obtain ⟨ps, hp⟩ := hp
  have key : ∀ s : String, s.toList.all isBare = true →
      StringText (quote :: (bytes s ++ [quote])) := stringText_bytes
  have hobj : Object (lbrace :: (quote :: (bytes "payload" ++ [quote]) ++ colon ::
      (quoted message.payload ++ comma :: (quote :: (bytes "topic" ++ [quote]) ++ colon ::
        (quoted message.topic ++ comma :: (quote :: (bytes "type" ++ [quote]) ++ colon ::
          (quote :: (bytes "publish" ++ [quote])))))) ++ [rbrace])) :=
    .object (.members (key "payload" (by decide)) (.refl _)
      (.string (hp ▸ stringText_quoted ps)) (.refl _)
      (.members (key "topic" (by decide)) (.refl _) (.string (ht ▸ stringText_quoted ts)) (.refl _)
        (.member (key "type" (by decide)) (.refl _) (.string (key "publish" (by decide))) (.refl _))))
  have h₁ : bytes "\x7b\"payload\":" =
      lbrace :: (quote :: (bytes "payload" ++ [quote]) ++ [colon]) := by decide
  have h₂ : bytes ",\"topic\":" = comma :: (quote :: (bytes "topic" ++ [quote]) ++ [colon]) := by
    decide
  have h₃ : bytes ",\"type\":\"publish\"\x7d" = comma :: (quote :: (bytes "type" ++ [quote]) ++
      colon :: (quote :: (bytes "publish" ++ [quote])) ++ [rbrace]) := by decide
  rw [publishDump, h₁, h₂, h₃]
  simpa using hobj

open Classical in
/-- A library that writes and reads the objects of publishes, and besides parses the texts of a
table only. -/
noncomputable def escapingJson (table : List (Str × Except Str Json)) : Nlohmann where
  parse data :=
    match table.lookup data with
    | some r => r
    | none =>
      if h : ∃ m : BrokerMessage, (ValidUtf8 m.topic ∧ ValidUtf8 m.payload) ∧ publishDump m = data then
        .ok (publishJson h.choose)
      else .error (bytes "[json.exception.parse_error.101] parse error")
  value := valueString
  dump
    | .object [_, (_, .string topic), (_, .string payload)] =>
      if ValidUtf8 topic ∧ ValidUtf8 payload then .ok (publishDump ⟨topic, payload⟩)
      else .error (bytes "[json.exception.type_error.316] invalid UTF-8 byte")
    | _ => .ok (bytes "null")

section

variable {table : List (Str × Except Str Json)}

theorem escapingJson_dump {message : BrokerMessage} {text : Str}
    (h : (escapingJson table).dump (publishJson message) = .ok text) :
    (ValidUtf8 message.topic ∧ ValidUtf8 message.payload) ∧ text = publishDump message := by
  by_cases hv : ValidUtf8 message.topic ∧ ValidUtf8 message.payload
  · simp only [escapingJson, publishJson, if_pos hv] at h
    exact ⟨hv, (Except.ok.inj h).symm⟩
  · simp only [escapingJson, publishJson, if_neg hv] at h
    cases h

/-- Provided that the table has no text of a publish, what is written is read back. -/
theorem escapingJson_parse (ht : ∀ e ∈ table, ¬ bytes "\x7b\"payload\":" <+: e.1)
    {message : BrokerMessage} (hv : ValidUtf8 message.topic ∧ ValidUtf8 message.payload) :
    (escapingJson table).parse (publishDump message) = .ok (publishJson message) := by
  have hnone : table.lookup (publishDump message) = none := by
    rw [List.lookup_eq_none_iff]
    intro e he
    refine bne_iff_ne.2 fun heq => ht e he ?_
    rw [← heq, publishDump, List.append_assoc, List.append_assoc, List.append_assoc]
    exact List.prefix_append _ _
  have hex : ∃ m : BrokerMessage, (ValidUtf8 m.topic ∧ ValidUtf8 m.payload) ∧
      publishDump m = publishDump message := ⟨message, hv, rfl⟩
  simp only [escapingJson, hnone, dif_pos hex]
  rw [publishDump_inj hex.choose_spec.2]

theorem escapingJson_texts (ht : ∀ e ∈ table, ¬ bytes "\x7b\"payload\":" <+: e.1) :
    (escapingJson table).Texts where
  object h := by
    obtain ⟨hv, rfl⟩ := escapingJson_dump h
    exact object_publishDump hv.1 hv.2
  parse_dump h := by
    obtain ⟨hv, rfl⟩ := escapingJson_dump h
    exact carries_publishJson (escapingJson_parse ht hv)
  type_error h := by
    rcases valueString_error h with rfl | rfl
    · exact stringText_bytes _ (by decide)
    · exact stringText_bytes _ (by decide)

theorem escapingJson_utf8Safe (hj : ∀ e ∈ table, ∀ j, e.2 = .ok j → j.ValidUtf8) :
    (escapingJson table).Utf8Safe where
  parse_valid := by
    intro data j h
    simp only [escapingJson] at h
    rcases hl : table.lookup data with _ | r <;> simp only [hl] at h
    · split_ifs at h with hex
      obtain ⟨ht, hp⟩ := hex.choose_spec.1
      exact Except.ok.inj h ▸ publishJson_valid _ ht hp
    · obtain ⟨l₁, l₂, rfl, -⟩ := List.lookup_eq_some_iff.1 hl
      exact hj (data, r) (by simp) j h
  value_valid := valueString_valid
  dump_valid := by
    intro j hvalid
    simp only [escapingJson]
    split
    · next m key topic key' payload =>
      have hstrings : ∀ s k, (k, Json.string s) ∈ [m, (key, .string topic), (key', .string payload)] →
          ValidUtf8 s := by
        intro s k hmem
        cases hvalid with
        | object _ values =>
          cases values _ hmem with
          | string valid => exact valid
      exact ⟨_, if_pos ⟨hstrings topic key (by simp), hstrings payload key' (by simp)⟩⟩
    · exact ⟨_, rfl⟩

end

end EllohimMQ
