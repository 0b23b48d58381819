import EllohimMQ.Proof.Wired

/-!
# A request takes effect once or not at all

One `try` block of `handle_message` reads the text, publishes or subscribes, and sends error
replies.  What can throw there is the reading (`request_publish_iff`, `request_subscribe_iff` say
exactly which texts get past it); after it nothing throws, because `dump` is given strings that
`parse` has checked.  So a request is published once, or subscribed once, or answered by one error
reply with everything else left as it was (`request_once`).
-/

namespace EllohimMQ

open Transition

/-! ## The requests that are accepted -/

/-- The text of a member that may be absent. -/
def optionalText (members : List (Str × Json)) (key : Str) : Option Str :=
  match members.lookup key with
  | none => some []
  | some (.string s) => some s
  | some _ => none

/-- The members of the object that the text parses to. -/
def Parses (J : Nlohmann) (data : Str) (members : List (Str × Json)) : Prop :=
  J.parse data = .ok (.object members)

/-- An object whose `type` is `publish`, with a topic and a payload that are absent or strings. -/
def IsPublish (J : Nlohmann) (data topic payload : Str) : Prop :=
  ∃ members, Parses J data members ∧
    members.lookup (bytes "type") = some (.string (bytes "publish")) ∧
    optionalText members (bytes "topic") = some topic ∧
    optionalText members (bytes "payload") = some payload

/-- An object whose `type` is `subscribe`, with a topic that is absent or a string. -/
def IsSubscribe (J : Nlohmann) (data topic : Str) : Prop :=
  ∃ members, Parses J data members ∧
    members.lookup (bytes "type") = some (.string (bytes "subscribe")) ∧
    optionalText members (bytes "topic") = some topic

theorem optionalText_eq_iff {members : List (Str × Json)} {key s : Str} (hs : s ≠ []) :
    optionalText members key = some s ↔ members.lookup key = some (.string s) := by
  unfold optionalText
  rcases members.lookup key with _ | j
  · simp [Ne.symm hs]
  · cases j <;> simp

variable {J : Nlohmann}

/-- `value` succeeds on a member that is absent or a string, and on no other. -/
theorem Nlohmann.Values.value_eq_iff (hv : J.Values) {members : List (Str × Json)} {key s : Str} :
    J.value (.object members) key [] = .ok s ↔ optionalText members key = some s := by
  unfold optionalText
  rcases hl : members.lookup key with _ | j
  · simp [hv.absent hl]
  · cases j with
    | string t => simp [hv.string hl]
    | _ =>
      obtain ⟨what, hw⟩ : ∃ what, J.value (.object members) key [] = .error what :=
        hv.other hl (by simp)
      simp [hw]

/-- What has been read is an object, with a `type` and a `topic`. -/
theorem readRequest_eq_ok (hv : J.Values) {data : Str} {r : Request}
    (h : readRequest J data = .ok r) :
    ∃ members type topic, Parses J data members ∧
      optionalText members (bytes "type") = some type ∧
      optionalText members (bytes "topic") = some topic ∧
      ((type = bytes "publish" ∧ ∃ payload, optionalText members (bytes "payload") = some payload ∧
          r = .publish topic payload) ∨
        (type = bytes "subscribe" ∧ r = .subscribe topic) ∨
        (type ≠ bytes "publish" ∧ type ≠ bytes "subscribe" ∧ r = .unknown)) := by
  unfold readRequest at h
  rcases hj : J.parse data with _ | j
  · simp [hj, bind, Except.bind] at h
  by_cases hobj : ∃ members, j = .object members
  · obtain ⟨members, rfl⟩ := hobj
    rcases htype : J.value (.object members) (bytes "type") [] with _ | type
    · simp [hj, htype, bind, Except.bind] at h
    rcases htopic : J.value (.object members) (bytes "topic") [] with _ | topic
    · simp [hj, htype, htopic, bind, Except.bind] at h
    refine ⟨members, type, topic, hj, hv.value_eq_iff.1 htype, hv.value_eq_iff.1 htopic, ?_⟩
    simp only [hj, htype, htopic, bind, Except.bind] at h
    split_ifs at h with hp hs
    · rcases hpay : J.value (.object members) (bytes "payload") [] with _ | payload
      · simp [hpay] at h
      · simp only [hpay, pure, Except.pure, Except.ok.injEq] at h
        exact .inl ⟨hp, payload, hv.value_eq_iff.1 hpay, h.symm⟩
    · simp only [pure, Except.pure, Except.ok.injEq] at h
      exact .inr (.inl ⟨hs, h.symm⟩)
    · simp only [pure, Except.pure, Except.ok.injEq] at h
      exact .inr (.inr ⟨hp, hs, h.symm⟩)
  · simp only [not_exists] at hobj
    obtain ⟨what, hw⟩ : ∃ what, J.value j (bytes "type") [] = .error what := hv.notObject hobj
    simp [hj, hw, bind, Except.bind] at h

theorem readRequest_of_request {data : Str} {r : Request} (h : request J data = r)
    (hr : ∀ what, r ≠ .failed what) : readRequest J data = .ok r := by
  unfold request at h
  rcases he : readRequest J data with what | r' <;> rw [he] at h
  · exact absurd h.symm (hr what)
  · exact congrArg _ h

theorem request_publish_iff (hv : J.Values) {data topic payload : Str} :
    request J data = .publish topic payload ↔ IsPublish J data topic payload := by
  constructor
  · intro h
    obtain ⟨members, type, topic', hp, htype, htopic, ⟨rfl, payload', hpay, e⟩ | ⟨-, e⟩ |
      ⟨-, -, e⟩⟩ := readRequest_eq_ok hv (readRequest_of_request h (by simp))
    · obtain ⟨rfl, rfl⟩ := Request.publish.inj e
      exact ⟨members, hp, (optionalText_eq_iff (by decide)).1 htype, htopic, hpay⟩
    · cases e
    · cases e
  · rintro ⟨members, hp, htype, htopic, hpay⟩
    have htopic' := hv.value_eq_iff.2 htopic
    have hpay' := hv.value_eq_iff.2 hpay
    unfold Parses at hp
    simp [request, readRequest, hp, hv.string htype, htopic', hpay', bind, Except.bind, pure,
      Except.pure]

theorem request_subscribe_iff (hv : J.Values) {data topic : Str} :
    request J data = .subscribe topic ↔ IsSubscribe J data topic := by
  constructor
  · intro h
    obtain ⟨members, type, topic', hp, htype, htopic, ⟨-, payload, -, e⟩ | ⟨rfl, e⟩ | ⟨-, -, e⟩⟩ :=
      readRequest_eq_ok hv (readRequest_of_request h (by simp))
    · cases e
    · obtain rfl := Request.subscribe.inj e
      exact ⟨members, hp, (optionalText_eq_iff (by decide)).1 htype, htopic⟩
    · cases e
  · rintro ⟨members, hp, htype, htopic⟩
    have htopic' := hv.value_eq_iff.2 htopic
    have hne : bytes "subscribe" ≠ bytes "publish" := by decide
    unfold Parses at hp
    simp [request, readRequest, hp, hv.string htype, htopic', hne, bind, Except.bind, pure,
      Except.pure]

/-! ## What they do -/

namespace Server

/-- `conn` is sent one error reply, on the descriptor that it has as long as it is open, and nothing
else happens. -/
def Refused (s s' : Server) (conn : ConnId) : Prop :=
  ∃ fd text, .accepted conn fd ∈ s.trace ∧ (∀ fd', s.owner fd' = some conn → fd' = fd) ∧
    s' = { s with trace := s.trace ++ [.reply fd (s.owner fd) text] }

/-- The message is published once: nothing is thrown, and after the call of `publish` there are only
its calls of consumers and its frames. -/
def Published (J : Nlohmann) (s s' : Server) (conn : ConnId) (topic payload : Str) : Prop :=
  s.publish J conn topic payload = (s', none) ∧
    ∃ rest, s'.trace = s.trace ++ .publish conn topic payload :: rest ∧
      ∀ e ∈ rest, (∃ c, e = .called c payload) ∨
        ∃ fd session text, e = .frame fd session ⟨topic, payload⟩ text

/-- Once the text has been read as a publish nothing can throw. -/
theorem Wired.published (hJ : J.Utf8Safe) {s : Server} (h : s.Wired) {conn : ConnId}
    {data topic payload : Str} (hr : request J data = .publish topic payload) :
    s.Published J (s.handleMessage J conn data) conn topic payload := by
  obtain ⟨ht, hp⟩ := valid_of_request hJ hr
  obtain ⟨text, hd⟩ := hJ.dump_valid (publishJson_valid ⟨topic, payload⟩ ht hp)
  obtain ⟨called, frames, thrown, hpub, hcalled, hframes⟩ := h.publish_eq J conn topic payload
  rcases hframes with ⟨-, what, hd'⟩ | ⟨text', -, rfl, rfl⟩
  · rw [hd] at hd'
    cases hd'
  · have hmsg : s.publish J conn topic payload = (s.handleMessage J conn data, none) := by
      simp only [Server.handleMessage, hr, hpub]
    have htrace : (s.publish J conn topic payload).1.trace =
        (s.handleMessage J conn data).trace := by rw [hmsg]
    refine ⟨hmsg, called ++ s.frameEvents ⟨topic, payload⟩ text', ?_, ?_⟩
    · rw [← htrace, hpub]
    · intro e he
      rcases List.mem_append.1 he with he | he
      · exact .inl (hcalled e he)
      · obtain ⟨_, fd, -, -, rfl⟩ := h.mem_frameEvents.1 he
        exact .inr ⟨fd, _, _, rfl⟩

theorem Wired.refused {s : Server} (h : s.Wired) {conn : ConnId} (hc : conn < s.nextConn)
    (text : Str) : s.Refused (s.reply conn text) conn := by
  obtain ⟨fd, he, hacc⟩ := h.reply_eq hc text
  refine ⟨fd, text, hacc, fun fd' ho => ?_, he⟩
  exact h.accepted_inj conn fd' fd ((h.owner fd' conn).1 ho).1 hacc

/-- `handle_message` publishes once the messages that `IsPublish` describes, subscribes the
connection once for those that `IsSubscribe` describes, and refuses every other text. -/
theorem request_once (hJ : J.Utf8Safe) (hv : J.Values) {registry : Consumers} {serverFd : Fd}
    {s : Server} (h : Reachable (Server.input J) (main registry serverFd) s) {conn : ConnId}
    (hc : conn < s.nextConn) (data : Str) :
    (∃ topic payload, IsPublish J data topic payload ∧ (∀ t, ¬ IsSubscribe J data t) ∧
      s.Published J (s.handleMessage J conn data) conn topic payload) ∨
    (∃ topic, IsSubscribe J data topic ∧ (∀ t p, ¬ IsPublish J data t p) ∧
      s.handleMessage J conn data = s.subscribe conn topic) ∨
    ((∀ t p, ¬ IsPublish J data t p) ∧ (∀ t, ¬ IsSubscribe J data t) ∧
      s.Refused (s.handleMessage J conn data) conn) := by
  have hw := wired_of_reachable h
  simp only [← request_publish_iff hv, ← request_subscribe_iff hv]
  rcases hr : request J data with ⟨topic, payload⟩ | topic | _ | what
  · exact .inl ⟨topic, payload, rfl, by simp, hw.published hJ hr⟩
  · exact .inr (.inl ⟨topic, rfl, by simp, by simp [handleMessage, hr]⟩)
  · have he : s.handleMessage J conn data = s.reply conn unknownTypeReply := by
      simp [handleMessage, hr]
    exact .inr (.inr ⟨by simp, by simp, he ▸ hw.refused hc unknownTypeReply⟩)
  · have he : s.handleMessage J conn data = s.reply conn (parseFailedReply what) := by
      simp [handleMessage, hr]
    exact .inr (.inr ⟨by simp, by simp, he ▸ hw.refused hc (parseFailedReply what)⟩)

/-- The second client publishes where the first has subscribed. -/
theorem request_once_publish :
    ∃ s, run (Server.input sampleJson) (main .empty 3)
        [.accept 5, .read 5 (.ok subscribeText), .accept 6] = some s ∧
      s.Published sampleJson (s.handleMessage sampleJson 1 publishText) 1 (bytes "a") (bytes "x") := by
  obtain ⟨s, hs, hnext⟩ := Option.map_eq_some_iff.1 (show (run (Server.input sampleJson)
    (main .empty 3) [.accept 5, .read 5 (.ok subscribeText), .accept 6]).map nextConn = some 2 by rfl)
  have hpub : IsPublish sampleJson publishText (bytes "a") (bytes "x") :=
    ⟨_, rfl, rfl, rfl, rfl⟩
  rcases request_once sampleJson_utf8Safe sampleJson_values ⟨_, hs⟩ (hnext ▸ Nat.one_lt_two)
    publishText with ⟨topic, payload, hp, -, h⟩ | ⟨topic, -, hn, -⟩ | ⟨hn, -⟩
  · have e : Request.publish topic payload = .publish (bytes "a") (bytes "x") :=
      ((request_publish_iff sampleJson_values).2 hp).symm.trans
        ((request_publish_iff sampleJson_values).2 hpub)
    obtain ⟨rfl, rfl⟩ := Request.publish.inj e
    exact ⟨s, hs, h⟩
  · exact absurd hpub (hn _ _)
  · exact absurd hpub (hn _ _)

end Server

end EllohimMQ
