import EllohimMQ.Model.JsonGrammar
import EllohimMQ.Proof.Wired

/-!
# Inbound framing

The server takes each result of `recv` for one message.  There is no framing anywhere: `handle_read`
hands over what one call returned, and `handle_message` parses all of it.  So the effects of a
connection are those of one `handle_message` for each result, in order (`effects_of_reads`), and
they are those of the messages that the client wrote exactly when the stream was cut between the
messages (`framing_iff`).
-/

namespace EllohimMQ

open Transition JsonText

/-- What handling a message does: one of these. -/
inductive Effect where
  | publish (topic payload : Str)
  | subscribe (topic : Str)
  | reply (data : Str)
  deriving DecidableEq

/-- The effect of `handle_message` for a connection that is open. -/
def effect (J : Nlohmann) (data : Str) : Effect :=
  match request J data with
  | .publish topic payload => .publish topic payload
  | .subscribe topic => .subscribe topic
  | .unknown => .reply unknownTypeReply
  | .failed what => .reply (parseFailedReply what)

/-- The effect, if the event is one, of a message of the session. -/
def Event.effectOf (session : ConnId) : Event → Option Effect
  | .publish conn topic payload => if conn = session then some (.publish topic payload) else none
  | .subscribe conn topic => if conn = session then some (.subscribe topic) else none
  | .reply _ (some session') data => if session' = session then some (.reply data) else none
  | _ => none

/-- The results of `recv` on a descriptor in a run. -/
def received (fd : Fd) (inputs : List Input) : List Str :=
  inputs.filterMap fun
    | .read fd' (.ok data) => if fd' = fd then some data else none
    | _ => none

namespace Server

/-- The effects of a session's messages between two states of a run. -/
def effectsSince (s s' : Server) (session : ConnId) : List Effect :=
  (s'.trace.drop s.trace.length).filterMap (Event.effectOf session)

theorem effectsSince_of_append {s s' : Server} {seg : List Event} {session : ConnId}
    (h : s'.trace = s.trace ++ seg) : s.effectsSince s' session = seg.filterMap (Event.effectOf session) := by
  rw [effectsSince, h, List.drop_left]

variable {J : Nlohmann}

/-- One message has one effect, and none on behalf of another session. -/
theorem Wired.handleMessage_effects (hJ : J.Utf8Safe) {s : Server} (h : s.Wired) {fd : Fd}
    {c : ConnId} (ho : s.owner fd = some c) (data : Str) :
    ∃ seg, (s.handleMessage J c data).trace = s.trace ++ seg ∧
      seg.filterMap (Event.effectOf c) = [effect J data] ∧
      ∀ c' ≠ c, seg.filterMap (Event.effectOf c') = [] := by
  rcases h.handleMessage_cases (h.owner_lt ho) data with ⟨topic, hr, e⟩ |
    ⟨topic, payload, called, frames, replies, hr, e, hcalled, -, hframes⟩ |
    ⟨fd', text, e, hr, hacc⟩ <;> rw [e]
  · refine ⟨_, rfl, by simp [Event.effectOf, effect, hr], fun c' hc' => ?_⟩
    simp [Event.effectOf, Ne.symm hc']
  · obtain ⟨ht, hp⟩ := valid_of_request hJ hr
    obtain ⟨text, hd⟩ := hJ.dump_valid (publishJson_valid ⟨topic, payload⟩ ht hp)
    rcases hframes with ⟨-, what, hd'⟩ | ⟨text', -, rfl, rfl⟩
    · rw [hd] at hd'
      cases hd'
    -- calling a consumer and sending frames are not effects of their own
    have hquiet : ∀ c', (called ++ s.frameEvents ⟨topic, payload⟩ text' ++ []).filterMap
        (Event.effectOf c') = [] := fun c' => by
      rw [List.filterMap_eq_nil_iff]
      intro e he
      simp only [List.append_nil, List.mem_append] at he
      rcases he with he | he
      · obtain ⟨_, rfl⟩ := hcalled e he
        rfl
      · obtain ⟨_, _, -, -, rfl⟩ := h.mem_frameEvents.1 he
        rfl
    refine ⟨_, rfl, ?_, fun c' hc' => ?_⟩
    · rw [List.filterMap_cons, hquiet]
      simp [Event.effectOf, effect, hr]
    · rw [List.filterMap_cons, hquiet]
      simp [Event.effectOf, Ne.symm hc']
  · have hfd : s.owner fd' = some c := by
      rw [h.accepted_inj c fd' fd hacc ((h.owner fd c).1 ho).1, ho]
    refine ⟨_, rfl, ?_, fun c' hc' => ?_⟩
    · rcases hr with ⟨hr, rfl⟩ | ⟨what, hr, rfl⟩ <;> simp [Event.effectOf, effect, hr, hfd]
    · simp [Event.effectOf, hfd, Ne.symm hc']

/-- A step of the server has the effect of the message it receives on the descriptor, if it does. -/
theorem Wired.input_effects (hJ : J.Utf8Safe) {s s' : Server} (h : s.Wired) {fd : Fd} {c : ConnId}
    (ho : s.owner fd = some c) {i : Input} (hopen : i ≠ .read fd (.ok []))
    (hi : s.input J i = some s') :
    ∃ seg, s'.trace = s.trace ++ seg ∧ s'.owner fd = some c ∧
      seg.filterMap (Event.effectOf c) = (received fd [i]).map (effect J) := by
  rcases h.input_cases hi with ⟨fd', rfl, ho', rfl⟩ | ⟨fd', c', data, rfl, -, ho', rfl⟩ |
    ⟨fd', c', rfl, ho', rfl⟩
  · have hne : fd ≠ fd' := by
      rintro rfl
      simp [ho] at ho'
    exact ⟨_, rfl, by simp [Server.acceptOne, hne, ho], rfl⟩
  · obtain ⟨seg, htrace, heffect, hother⟩ := h.handleMessage_effects hJ ho' data
    obtain ⟨howner, -⟩ := h.handleMessage_owner (J := J) (h.owner_lt ho') data
    refine ⟨seg, htrace, by rw [howner, ho], ?_⟩
    by_cases hfd : fd' = fd
    · subst hfd
      obtain rfl := Option.some.inj (ho.symm.trans ho')
      simp [heffect, received]
    · have hc : c ≠ c' := by
        rintro rfl
        exact hfd (h.accepted_inj c fd' fd ((h.owner fd' c).1 ho').1 ((h.owner fd c).1 ho).1)
      simp [hother c hc, received, hfd]
  · have hne : fd ≠ fd' := by
      rintro rfl
      exact hopen rfl
    refine ⟨[.closeHandler c', .closed fd' (s.owner fd')], by simp [Server.closeConnection],
      by simp [Server.closeConnection, hne, ho], ?_⟩
    simp [Event.effectOf, received, Ne.symm hne]

theorem Wired.run_effects (hJ : J.Utf8Safe) {fd : Fd} {c : ConnId} {inputs : List Input}
    (hopen : .read fd (.ok []) ∉ inputs) {s s' : Server} (h : s.Wired) (ho : s.owner fd = some c)
    (hrun : run (Server.input J) s inputs = some s') :
    ∃ seg, s'.trace = s.trace ++ seg ∧
      seg.filterMap (Event.effectOf c) = (received fd inputs).map (effect J) := by
  induction inputs generalizing s with
  | nil => exact ⟨[], by simp [Option.some.inj hrun], rfl⟩
  | cons i inputs ih =>
    obtain ⟨s₁, hi, hrest⟩ := Option.bind_eq_some_iff.1 hrun
    obtain ⟨seg, htrace, ho₁, heffect⟩ :=
      h.input_effects hJ ho (fun e => hopen (by simp [e])) hi
    obtain ⟨seg', htrace', heffect'⟩ := ih (fun hm => hopen (by simp [hm])) (h.input hi) ho₁ hrest
    refine ⟨seg ++ seg', by rw [htrace', htrace, List.append_assoc], ?_⟩
    have hreceived : received fd (i :: inputs) = received fd [i] ++ received fd inputs := by
      rw [received, received, received, ← List.filterMap_append]
      rfl
    rw [List.filterMap_append, heffect, heffect', hreceived, List.map_append]

/-- The effects of a session over a run in which it stays open are those of one `handle_message` for
each result of `recv` on its descriptor, whatever the other sessions do meanwhile. -/
theorem Wired.effects_of_reads (hJ : J.Utf8Safe) {fd : Fd} {c : ConnId} {inputs : List Input}
    (hopen : .read fd (.ok []) ∉ inputs) {s s' : Server} (h : s.Wired) (ho : s.owner fd = some c)
    (hrun : run (Server.input J) s inputs = some s') :
    s.effectsSince s' c = (received fd inputs).map (effect J) := by
  obtain ⟨seg, htrace, heffect⟩ := h.run_effects hJ hopen ho hrun
  rw [effectsSince_of_append htrace, heffect]

/-- `handle_message` called once on each of the messages, in order. -/
def handleMessages (J : Nlohmann) (s : Server) (conn : ConnId) (messages : List Str) : Server :=
  messages.foldl (fun s message => s.handleMessage J conn message) s

theorem Wired.effects_of_messages (hJ : J.Utf8Safe) {s : Server} (h : s.Wired) {fd : Fd}
    {c : ConnId} (ho : s.owner fd = some c) (messages : List Str) :
    s.effectsSince (s.handleMessages J c messages) c = messages.map (effect J) := by
  suffices key : ∃ seg, (s.handleMessages J c messages).trace = s.trace ++ seg ∧
      seg.filterMap (Event.effectOf c) = messages.map (effect J) by
    obtain ⟨seg, htrace, heffect⟩ := key
    rw [effectsSince_of_append htrace, heffect]
  induction messages generalizing s with
  | nil => exact ⟨[], by simp [handleMessages], rfl⟩
  | cons m messages ih =>
    obtain ⟨seg, htrace, heffect, -⟩ := h.handleMessage_effects hJ ho m
    obtain ⟨howner, -⟩ := h.handleMessage_owner (J := J) (h.owner_lt ho) m
    obtain ⟨seg', htrace', heffect'⟩ := ih (h.handleMessage (h.owner_lt ho) m) (howner ▸ ho)
    refine ⟨seg ++ seg', ?_, by rw [List.filterMap_append, heffect, heffect']; rfl⟩
    exact htrace'.trans (by rw [htrace, List.append_assoc])

/-- Without other inputs, the server calls `handle_message` once on each result of `recv`. -/
theorem Wired.run_reads (J : Nlohmann) {s : Server} (h : s.Wired) {fd : Fd} {c : ConnId}
    (ho : s.owner fd = some c) {chunks : List Str}
    (hchunks : ∀ x ∈ chunks, x ≠ [] ∧ x.length ≤ 1024) :
    run (Server.input J) s (chunks.map fun x => .read fd (.ok x)) =
      some (s.handleMessages J c chunks) := by
  induction chunks generalizing s with
  | nil => rfl
  | cons x chunks ih =>
    obtain ⟨hne, hlen⟩ := hchunks x (by simp)
    obtain ⟨howner, -⟩ := h.handleMessage_owner (J := J) (h.owner_lt ho) x
    rw [List.map_cons, run_cons, h.input_read_ok ho hne hlen, Option.bind_some]
    exact ih (h.handleMessage (h.owner_lt ho) x) (howner ▸ ho)
      fun y hy => hchunks y (by simp [hy])

end Server

/-! ## Where the stream is cut -/

section

variable {J : Nlohmann}

theorem request_congr {x y : Str} (h : J.parse x = J.parse y) : request J x = request J y := by
  unfold request readRequest
  rw [h]

/-- A request fails in `json::parse` or in a call of `value`. -/
theorem failed_cases {x what : Str} (h : request J x = .failed what) :
    J.parse x = .error what ∨ ∃ j key default, J.value j key default = .error what := by
  unfold request readRequest at h
  rcases hp : J.parse x with what' | j
  · simp only [hp, bind, Except.bind, Request.failed.injEq] at h
    exact .inl (by rw [h])
  right
  rcases htype : J.value j (bytes "type") [] with what' | type
  · simp only [hp, htype, bind, Except.bind, Request.failed.injEq] at h
    exact ⟨_, _, _, h ▸ htype⟩
  rcases htopic : J.value j (bytes "topic") [] with what' | topic
  · simp only [hp, htype, htopic, bind, Except.bind, Request.failed.injEq] at h
    exact ⟨_, _, _, h ▸ htopic⟩
  simp only [hp, htype, htopic, bind, Except.bind, pure, Except.pure] at h
  split_ifs at h
  · rcases hpayload : J.value j (bytes "payload") [] with what' | payload
    · simp only [hpayload, Request.failed.injEq] at h
      exact ⟨_, _, _, h ▸ hpayload⟩
    · simp [hpayload] at h

theorem parseFailedReply_inj {what what' : Str} (h : parseFailedReply what = parseFailedReply what') :
    what = what' := List.append_cancel_left (List.append_cancel_right h)

theorem parseFailedReply_ne_unknownTypeReply (what : Str) :
    parseFailedReply what ≠ unknownTypeReply := by
  intro h
  have hj : (parseFailedReply what)[10]? = some 0x6a := rfl
  rw [h] at hj
  revert hj
  decide

/-- A text that cannot be parsed has an effect that no text that can be parsed has. -/
theorem accepts_of_effect_eq (hG : J.Grammar) {x y : Str} (hy : Accepts y)
    (he : effect J x = effect J y) : Accepts x := by
  by_contra hx
  obtain ⟨what, hp⟩ : ∃ what, J.parse x = .error what := by
    rcases hp : J.parse x with what | j
    · exact ⟨what, rfl⟩
    · exact absurd ((hG.accepts x).1 ⟨j, hp⟩) hx
  have hfailed : effect J x = .reply (parseFailedReply what) := by
    simp [effect, request, readRequest, hp, bind, Except.bind]
  rw [hfailed] at he
  rcases hr : request J y with _ | _ | _ | what' <;> rw [effect, hr] at he
  · cases he
  · cases he
  · exact parseFailedReply_ne_unknownTypeReply what (Effect.reply.inj he)
  · obtain rfl := parseFailedReply_inj (Effect.reply.inj he)
    rcases failed_cases hr with hfail | ⟨j, key, default, hvalue⟩
    · obtain ⟨j, hj⟩ := (hG.accepts y).2 hy
      rw [hj] at hfail
      cases hfail
    · exact hG.errors hp hvalue rfl

/-- A protocol message: an object, with blanks around it. -/
def ObjectMessage (x : Str) : Prop := ∃ t, Object t ∧ Framed t x

theorem ObjectMessage.accepts {x : Str} (h : ObjectMessage x) : Accepts x := by
  obtain ⟨t, ht, hx⟩ := h
  exact ⟨t, .ofObject ht, hx⟩

/-- Both are the same object, with blanks around it. -/
def SameObject (x y : Str) : Prop := ∃ t, Object t ∧ Framed t x ∧ Framed t y

theorem SameObject.effect_eq (hG : J.Grammar) {x y : Str} (h : SameObject x y) :
    effect J x = effect J y := by
  obtain ⟨t, ht, hx, hy⟩ := h
  have hparse : J.parse x = J.parse y := by
    rw [hG.blanks (.ofObject ht) hx, hG.blanks (.ofObject ht) hy]
  rw [effect, effect, request_congr hparse]

/-- The results of `recv` have the effects of the messages exactly when each is one of them. -/
theorem map_effect_eq_iff (hG : J.Grammar) {chunks messages : List Str}
    (hm : ∀ m ∈ messages, ObjectMessage m) (hbytes : chunks.flatten = messages.flatten) :
    chunks.map (effect J) = messages.map (effect J) ↔
      List.Forall₂ SameObject chunks messages := by
  constructor
  · intro he
    have hlen : chunks.length = messages.length := by
      simpa using congrArg List.length he
    refine framed_of_flatten_eq hlen (fun c hc => ?_) hm hbytes
    obtain ⟨i, hi, rfl⟩ := List.getElem_of_mem hc
    have hi' : i < messages.length := hlen ▸ hi
    refine accepts_of_effect_eq hG (hm _ (List.getElem_mem hi')).accepts ?_
    simpa [hi, hi'] using congrArg (·[i]?) he
  · intro h
    clear hm hbytes
    induction h with
    | nil => rfl
    | cons hsame _ ih => rw [List.map_cons, List.map_cons, hsame.effect_eq hG, ih]

end

namespace Server

/-- Over a run in which a session stays open, its effects are those of `handle_message` called once
on each result of `recv`, in order.  When the bytes received are those of a sequence of JSON
objects, they are the effects of `handle_message` called once on each object, in order, if and only
if each result is one of the objects, up to blanks around it. -/
theorem framing_iff {J : Nlohmann} (hJ : J.Utf8Safe) (hG : J.Grammar) {registry : Consumers}
    {serverFd : Fd} {s s' : Server} (h : Reachable (Server.input J) (main registry serverFd) s)
    {fd : Fd} {c : ConnId} (ho : s.owner fd = some c) {inputs : List Input}
    (hrun : run (Server.input J) s inputs = some s') (hopen : .read fd (.ok []) ∉ inputs)
    {messages : List Str} (hm : ∀ m ∈ messages, ObjectMessage m)
    (hbytes : (received fd inputs).flatten = messages.flatten) :
    s.effectsSince s' c = s.effectsSince (s.handleMessages J c (received fd inputs)) c ∧
    (s.effectsSince s' c = s.effectsSince (s.handleMessages J c messages) c ↔
      List.Forall₂ SameObject (received fd inputs) messages) := by
  have hw := wired_of_reachable h
  rw [hw.effects_of_reads hJ hopen ho hrun, hw.effects_of_messages hJ ho,
    hw.effects_of_messages hJ ho]
  exact ⟨rfl, map_effect_eq_iff hG hm hbytes⟩

/-! ### Two messages, apart and together -/

/-- The library on the two texts, with the grammar. -/
noncomputable def protocolJson : Nlohmann :=
  grammarJson [(publishText, publishJson ⟨bytes "a", bytes "x"⟩)]

theorem protocolJson_utf8Safe : protocolJson.Utf8Safe := by
  refine grammarJson_utf8Safe fun e he => ?_
  obtain rfl := List.mem_singleton.1 he
  exact publishJson_valid _ (validUtf8_bytes _) (validUtf8_bytes _)

theorem object_publishText : Object publishText := by
  have hself : ∀ t, Framed t t := fun t => ⟨[], [], by simp [Blank], by simp [Blank], by simp⟩
  exact .object (.members (stringText_bytes "type" (by decide)) (hself _)
    (.string (stringText_bytes "publish" (by decide))) (hself _)
    (.members (stringText_bytes "topic" (by decide)) (hself _)
      (.string (stringText_bytes "a" (by decide))) (hself _)
      (.member (stringText_bytes "payload" (by decide)) (hself _)
        (.string (stringText_bytes "x" (by decide))) (hself _))))

theorem objectMessage_publishText : ObjectMessage publishText :=
  ⟨publishText, object_publishText, [], [], by simp [Blank], by simp [Blank], by simp⟩

/-- The server with one client. -/
def oneClient : Server := (main .empty 3).acceptOne 5

theorem run_oneClient (J : Nlohmann) :
    run (Server.input J) (main .empty 3) [.accept 5] = some oneClient := by
  simp [Server.input, main, oneClient]

theorem wired_oneClient : oneClient.Wired := (wired_main .empty 3).acceptOne 5 rfl

/-- Two publishes, each in a `recv` of its own. -/
theorem framing_iff_apart :
    ∃ s', run (Server.input protocolJson) oneClient
        [.read 5 (.ok publishText), .read 5 (.ok publishText)] = some s' ∧
      oneClient.effectsSince s' 0 =
        oneClient.effectsSince (oneClient.handleMessages protocolJson 0
          [publishText, publishText]) 0 := by
  have ho : oneClient.owner 5 = some 0 := by decide
  have hsizes : ∀ x ∈ [publishText, publishText], x ≠ [] ∧ x.length ≤ 1024 := by decide
  have hrun := wired_oneClient.run_reads protocolJson ho hsizes
  have hsame : SameObject publishText publishText :=
    ⟨publishText, object_publishText, ⟨[], [], by simp [Blank], by simp [Blank], by simp⟩,
      ⟨[], [], by simp [Blank], by simp [Blank], by simp⟩⟩
  refine ⟨_, hrun, ?_⟩
  have hmessages : ∀ m ∈ [publishText, publishText], ObjectMessage m := by
    simpa using objectMessage_publishText
  exact (framing_iff protocolJson_utf8Safe (grammarJson_grammar _) ⟨_, run_oneClient _⟩ ho hrun
    (by decide) hmessages rfl).2.2 (.cons hsame (.cons hsame .nil))

/-- The same two publishes in one `recv`: nothing is published, and the client gets one error. -/
theorem framing_joined :
    ∃ s', run (Server.input protocolJson) oneClient
        [.read 5 (.ok (publishText ++ publishText))] = some s' ∧
      (∃ what, oneClient.effectsSince s' 0 = [.reply (parseFailedReply what)]) ∧
      (∀ m ∈ [publishText, publishText], ObjectMessage m) ∧
      oneClient.effectsSince s' 0 ≠
        oneClient.effectsSince (oneClient.handleMessages protocolJson 0
          [publishText, publishText]) 0 := by
  have ho : oneClient.owner 5 = some 0 := by decide
  have hsizes : ∀ x ∈ [publishText ++ publishText], x ≠ [] ∧ x.length ≤ 1024 := by decide
  have hrun := wired_oneClient.run_reads protocolJson ho hsizes
  have heffects := wired_oneClient.effects_of_reads protocolJson_utf8Safe (by decide) ho hrun
  have hmessages := wired_oneClient.effects_of_messages protocolJson_utf8Safe ho
    [publishText, publishText]
  refine ⟨_, hrun, ?_, by simpa using objectMessage_publishText, ?_⟩
  · have hreject := not_accepts_append object_publishText object_publishText
    refine ⟨bytes "[json.exception.parse_error.101] parse error", ?_⟩
    rw [heffects]
    simp [received, effect, request, readRequest, protocolJson, grammarJson, hreject, bind,
      Except.bind]
  · rw [heffects, hmessages]
    intro e
    have := congrArg List.length e
    simp [received] at this

end Server

end EllohimMQ
