import EllohimMQ.Model.JsonDump
import EllohimMQ.Model.Wire
import EllohimMQ.Proof.Framing

/-!
# Decoding what the server writes

A frame is what `dump` wrote, an object with its strings escaped, and no object is a prefix of
another, so frames and replies need no separator to be told apart.  An error reply, however, is put
together from strings, and the text of a parse error quotes the received bytes as they are: one
quotation mark among them leaves a string open in the reply, and from there on the client cannot
tell where anything ends.  `decodable_of_verbatim` says that nothing else can go wrong.
-/

namespace EllohimMQ

open Transition JsonText

/-- What a client gets that takes one object after the other off the front of the stream, for one
call of `send`. -/
def Event.ReadAs (J : Nlohmann) (text : Str) : Event → Prop
  | .frame _ _ message data => text = data ∧ Carries J text message
  | .reply _ _ data => Framed text data
  | _ => False

/-- What `dispatch` and `handle_message` should pass to `send`. -/
def Event.WellFormed (J : Nlohmann) : Event → Prop
  | .frame _ _ message data => J.dump (publishJson message) = .ok data
  | .reply _ _ data => ∃ t, Object t ∧ Framed t data
  | _ => True

namespace Server

variable {J : Nlohmann}

/-- The calls of `send` on the socket of a session. -/
def sends (s : Server) (session : ConnId) : List Event :=
  s.trace.filter fun e => (e.sentTo session).isSome

/-- The bytes sent to the session are a stream of objects in one way only, and these are the texts
of its calls of `send`, in order. -/
def Decodable (J : Nlohmann) (s : Server) (session : ConnId) : Prop :=
  ∃ texts, Stream (s.sent session).flatten texts ∧
    (∀ texts', Stream (s.sent session).flatten texts' → texts' = texts) ∧
    List.Forall₂ (Event.ReadAs J) texts (s.sends session)

/-! ## Reading well-formed texts back -/

theorem readAs_of_wellFormed (hT : J.Texts) {session : ConnId} {e : Event} {data : Str}
    (he : e.sentTo session = some data) (hw : e.WellFormed J) :
    ∃ text, Event.ReadAs J text e ∧ Object text ∧ Framed text data := by
  rcases e with _ | _ | _ | _ | ⟨fd, _ | session', message, data'⟩ | ⟨fd, _ | session', data'⟩ | _ | _
  case frame.some =>
    simp only [Event.sentTo] at he
    split_ifs at he
    obtain rfl := Option.some.inj he
    exact ⟨_, ⟨rfl, hT.parse_dump hw⟩, hT.object hw, .refl _⟩
  case reply.some =>
    simp only [Event.sentTo] at he
    split_ifs at he
    obtain rfl := Option.some.inj he
    obtain ⟨t, ht, hframed⟩ := hw
    exact ⟨t, hframed, ht, hframed⟩
  all_goals cases he

theorem exists_texts (hT : J.Texts) (session : ConnId) {events : List Event}
    (hw : ∀ e ∈ events, e.WellFormed J) :
    ∃ texts, List.Forall₂ (Event.ReadAs J) texts
        (events.filter fun e => (e.sentTo session).isSome) ∧
      List.Forall₂ (fun t x => Object t ∧ Framed t x) texts
        (events.filterMap (Event.sentTo session)) := by
  induction events with
  | nil => exact ⟨[], .nil, .nil⟩
  | cons e events ih =>
    obtain ⟨texts, hread, hstream⟩ := ih fun e' he' => hw e' (List.mem_cons_of_mem _ he')
    rcases he : e.sentTo session with _ | data
    · exact ⟨texts, by simpa [he] using hread, by simpa [List.filterMap_cons, he] using hstream⟩
    · obtain ⟨text, htext, hobj, hframed⟩ := readAs_of_wellFormed hT he (hw e (by simp))
      refine ⟨text :: texts, ?_, ?_⟩
      · rw [List.filter_cons_of_pos (by simp [he])]
        exact .cons htext hread
      · rw [List.filterMap_cons_some he]
        exact .cons ⟨hobj, hframed⟩ hstream

theorem decodable_of_wellFormed (hT : J.Texts) {s : Server} (hw : ∀ e ∈ s.trace, e.WellFormed J)
    (session : ConnId) : s.Decodable J session := by
  obtain ⟨texts, hread, hstream⟩ := exists_texts hT session hw
  exact ⟨texts, stream_flatten hstream, fun texts' h => h.unique (stream_flatten hstream), hread⟩

/-! ## What a run sends -/

/-- A message whose parse error, if there is one, needs no escaping adds well-formed events. -/
theorem Wired.handleMessage_wellFormed (hJ : J.Utf8Safe) (hT : J.Texts) {s : Server} (h : s.Wired)
    {conn : ConnId} (hc : conn < s.nextConn) {data : Str}
    (hdata : ∀ what, J.parse data = .error what → Verbatim what)
    (hw : ∀ e ∈ s.trace, e.WellFormed J) :
    ∀ e ∈ (s.handleMessage J conn data).trace, e.WellFormed J := by
  have happend : ∀ seg : List Event, (∀ e ∈ seg, e.WellFormed J) →
      ∀ e ∈ s.trace ++ seg, e.WellFormed J := fun seg hseg e he =>
    (List.mem_append.1 he).elim (hw e) (hseg e)
  rcases h.handleMessage_cases hc data with ⟨topic, -, e⟩ |
    ⟨topic, payload, called, frames, replies, hr, e, hcalled, -, hframes⟩ | ⟨fd, text, e, hr, -⟩ <;>
    rw [e]
  · exact happend _ (by simp [Event.WellFormed])
  · obtain ⟨ht, hp⟩ := valid_of_request hJ hr
    obtain ⟨text, hd⟩ := hJ.dump_valid (publishJson_valid ⟨topic, payload⟩ ht hp)
    rcases hframes with ⟨-, what, hd'⟩ | ⟨text', hd', rfl, rfl⟩
    · rw [hd] at hd'
      cases hd'
    refine happend _ fun e he => ?_
    simp only [List.mem_cons, List.append_nil, List.mem_append] at he
    rcases he with rfl | he | he
    · trivial
    · obtain ⟨c, rfl⟩ := hcalled e he
      trivial
    · obtain ⟨c, fd, -, -, rfl⟩ := h.mem_frameEvents.1 he
      exact hd'
  · refine happend _ fun e he => ?_
    obtain rfl := List.mem_singleton.1 he
    rcases hr with ⟨-, rfl⟩ | ⟨what, hr, rfl⟩
    · exact framed_unknownTypeReply
    · rcases failed_cases hr with hparse | ⟨j, key, default, hvalue⟩
      · exact framed_parseFailedReply (hdata what hparse)
      · exact framed_parseFailedReply (hT.type_error hvalue)

/-- The text of the parse error, if the input is bytes that cannot be parsed, needs no escaping. -/
def VerbatimErrors (J : Nlohmann) : Input → Prop
  | .read _ (.ok data) => ∀ what, J.parse data = .error what → Verbatim what
  | _ => True

theorem Wired.input_wellFormed (hJ : J.Utf8Safe) (hT : J.Texts) {s s' : Server} (h : s.Wired)
    {i : Input} (hok : VerbatimErrors J i) (hi : s.input J i = some s')
    (hw : ∀ e ∈ s.trace, e.WellFormed J) : ∀ e ∈ s'.trace, e.WellFormed J := by
  rcases h.input_cases hi with ⟨fd, -, -, rfl⟩ | ⟨fd, c, data, rfl, -, ho, rfl⟩ | ⟨fd, c, -, -, rfl⟩
  · intro e he
    rcases List.mem_append.1 he with he | he
    · exact hw e he
    · obtain rfl := List.mem_singleton.1 he
      trivial
  · exact h.handleMessage_wellFormed hJ hT (h.owner_lt ho) hok hw
  · intro e he
    simp only [Server.closeConnection, List.append_assoc, List.mem_append, List.mem_cons,
      List.not_mem_nil, or_false, List.cons_append, List.nil_append] at he
    rcases he with he | rfl | rfl
    · exact hw e he
    · trivial
    · trivial

/-- In every run in which no received bytes lead to a parse error whose text needs escaping, what
every session has been sent can be decoded. -/
theorem decodable_of_verbatim (hJ : J.Utf8Safe) (hT : J.Texts) {registry : Consumers}
    {serverFd : Fd} {inputs : List Input} {s : Server}
    (h : run (Server.input J) (main registry serverFd) inputs = some s)
    (hok : ∀ i ∈ inputs, VerbatimErrors J i) (session : ConnId) : s.Decodable J session := by
  have hadm : Admissible (Server.input J) (fun _ i => VerbatimErrors J i)
      (main registry serverFd) inputs := admissible_of_forall (fun _ => hok) _
  have key : s.Wired ∧ ∀ e ∈ s.trace, e.WellFormed J :=
    hadm.invariant (P := fun s => s.Wired ∧ ∀ e ∈ s.trace, e.WellFormed J)
      (fun _ _ _ hP hi hs => ⟨hP.1.input hs, hP.1.input_wellFormed hJ hT hi hs hP.2⟩)
      ⟨wired_main registry serverFd, by simp [main]⟩ h
  exact decodable_of_wellFormed hT key.2 session

/-! ### A subscriber, a publisher, and two texts that are not JSON -/

/-- The text of the parse error for one letter. -/
def letterError : Str :=
  bytes ("[json.exception.parse_error.101] parse error at line 1, column 1: " ++
    "syntax error while parsing value - invalid literal; last read: 'x'")

/-- The text of the parse error for one quotation mark. -/
def quoteError : Str :=
  bytes ("[json.exception.parse_error.101] parse error at line 1, column 2: " ++
    "syntax error while parsing value - invalid string: missing closing quote; last read: '\"'")

/-- The library on the texts of the example. -/
noncomputable def decodingJson : Nlohmann :=
  escapingJson [
    (subscribeText, .ok (.object [(bytes "type", .string (bytes "subscribe")),
      (bytes "topic", .string (bytes "a"))])),
    (publishText, .ok (publishJson ⟨bytes "a", bytes "x"⟩)),
    (bytes "x", .error letterError),
    (bytes "\"", .error quoteError)]

theorem decodingJson_utf8Safe : decodingJson.Utf8Safe := by
  refine escapingJson_utf8Safe fun e he j hj => ?_
  simp only [List.mem_cons, List.not_mem_nil, or_false] at he
  rcases he with rfl | rfl | rfl | rfl
  · obtain rfl := Except.ok.inj hj
    have hparse : sampleJson.parse subscribeText = .ok _ := rfl
    exact sampleJson_utf8Safe.parse_valid hparse
  · obtain rfl := Except.ok.inj hj
    exact publishJson_valid _ (validUtf8_bytes _) (validUtf8_bytes _)
  · cases hj
  · cases hj

theorem decodingJson_texts : decodingJson.Texts :=
  escapingJson_texts (by decide)

/-- A client subscribes and sends a letter, another publishes: the first gets an error and the
publish. -/
theorem decodable_of_verbatim_letter :
    ∃ s, run (Server.input decodingJson) (main .empty 3)
        [.accept 5, .read 5 (.ok subscribeText), .read 5 (.ok (bytes "x")), .accept 6,
          .read 6 (.ok publishText)] = some s ∧ s.Decodable decodingJson 0 := by
  obtain ⟨s, hs⟩ := Option.isSome_iff_exists.1 (show (run (Server.input decodingJson)
    (main .empty 3) [.accept 5, .read 5 (.ok subscribeText), .read 5 (.ok (bytes "x")), .accept 6,
      .read 6 (.ok publishText)]).isSome = true by rfl)
  refine ⟨s, hs, decodable_of_verbatim decodingJson_utf8Safe decodingJson_texts hs ?_ 0⟩
  simp only [List.mem_cons, List.not_mem_nil, or_false]
  rintro i (rfl | rfl | rfl | rfl | rfl) <;> try trivial
  · intro what hwhat
    cases hwhat
  · intro what hwhat
    obtain rfl : letterError = what := Except.error.inj hwhat
    exact stringText_bytes _ (by decide +kernel)
  · intro what hwhat
    cases hwhat

/-- A client sends one quotation mark: what it gets back is not a stream of objects. -/
theorem reply_undecodable :
    ∃ s, run (Server.input decodingJson) (main .empty 3)
        [.accept 5, .read 5 (.ok (bytes "\""))] = some s ∧
      s.sent 0 = [parseFailedReply quoteError] ∧ ¬ s.Decodable decodingJson 0 := by
  obtain ⟨s, hs, hsent⟩ := Option.map_eq_some_iff.1 (show (run (Server.input decodingJson)
    (main .empty 3) [.accept 5, .read 5 (.ok (bytes "\""))]).map (Server.sent · 0) =
      some [parseFailedReply quoteError] by rfl)
  refine ⟨s, hs, hsent, ?_⟩
  rintro ⟨texts, hstream, -⟩
  have hkeeps : scan (0, .out) (s.sent 0).flatten = some (0, .out) := hstream.keeps
  rw [hsent] at hkeeps
  revert hkeeps
  decide +kernel

end Server

end EllohimMQ
