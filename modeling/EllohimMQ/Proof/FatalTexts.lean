import EllohimMQ.Proof.Publishes
import EllohimMQ.Proof.Routing

/-!
# The texts that end the process

`Math::on_call` lets the exceptions of `std::stoi` escape, and the functor of `async_run` ends the
process with them.  So a client ends the process with one publish whose payload has a comma and, before
it or behind it, no number that is an `int`, and with no other text.  Which step is the last depends on
the workers; that it comes does not, unless the server's own thread ends the process first.
-/

namespace EllohimMQ

open Calls Transition

/-! ## What escapes from the two topics -/

namespace Math

theorem exists_call_add_error {payload : Str} (h : parses payload = false) (v : ℤ)
    (m : Memory TopicBody TopicEffect TopicValue StdException) :
    ∃ e m', topicProgram.call 8 m (add payload v) = .done (.exception e) m' := by
  unfold parses at h
  unfold add
  cases hpos : payload.idxOf? 44 with
  | none =>
    rw [hpos] at h
    cases h
  | some pos =>
    rw [hpos] at h
    dsimp only at h ⊢
    cases ha : stoi (payload.take pos) with
    | error e => exact ⟨e, _, rfl⟩
    | ok a =>
      cases hb : stoi (payload.drop (pos + 1)) with
      | error e => exact ⟨e, _, rfl⟩
      | ok b =>
        rw [ha, hb] at h
        cases h

theorem escapes_onCall {payload : Str} (h : parses payload = false) :
    topicProgram.Escapes (onCall payload) := by
  obtain ⟨e, m, hm⟩ := exists_call_add_error h 11 _
  exact ⟨13, e, m, hm⟩

theorem ends_onCall (payload : Str) : topicProgram.Ends (onCall payload) := by
  cases h : parses payload with
  | true => exact (returns_onCall h).ends
  | false => exact (escapes_onCall h).ends

theorem escapes_onCall_iff (payload : Str) :
    topicProgram.Escapes (onCall payload) ↔ parses payload = false :=
  ⟨fun hesc => Bool.eq_false_iff.2 fun h => (returns_onCall h).not_escapes hesc, escapes_onCall⟩

end Math

theorem ends_topicOnCall (call : Consumer × Str) :
    topicProgram.Ends (Broker.root topicOnCall call) := by
  unfold Broker.root topicOnCall
  split_ifs
  · exact Math.ends_onCall _
  · exact (Hello.returns_onCall _ _).ends

theorem escapes_topicOnCall_iff (call : Consumer × Str) :
    topicProgram.Escapes (Broker.root topicOnCall call) ↔
      call.1 = mathConsumer ∧ Math.parses call.2 = false := by
  unfold Broker.root topicOnCall
  split_ifs with hc
  · simp only [Math.escapes_onCall_iff, hc, true_and]
  · simp only [hc, false_and, iff_false]
    exact (Hello.returns_onCall _ _).not_escapes

theorem returns_of_plainRun {σ Fx V E : Type} {P : Program σ Fx V E} {root : σ} {k : ℕ} {v : V}
    {m : Memory σ Fx V E} (h : plainRun P root k = .done (.value v) m) : P.Returns root := by
  unfold plainRun at h
  split at h
  · next c m' hr =>
    cases h
    exact ⟨k, v, m', hr⟩
  · next hne => exact absurd h (hne _ _)

/-! ## Texts -/

/-- A publish request for `math.add` with a payload that it cannot parse. -/
def Fatal (J : Nlohmann) (text : Str) : Prop :=
  ∃ topic payload, request J text = .publish topic payload ∧
    joaat topic = joaat (bytes "math.add") ∧ Math.parses payload = false

/-- What an input hands to `handle_message`. -/
def Input.text? : Input → Option Str
  | .read _ (.ok (b :: data)) => some (b :: data)
  | _ => none

/-- Whichever of the two has registered first. -/
theorem getConsumerImpl_shipped {consumers : List Consumer}
    (h : consumers.Perm [mathConsumer, helloConsumer]) (hash : Joaat) :
    (Consumers.registered consumers).getConsumerImpl hash = some mathConsumer ↔
      hash = joaat (bytes "math.add") := by
  rw [Consumers.getConsumerImpl_registered]
  constructor
  · intro hfind
    have := List.find?_some hfind
    exact (of_decide_eq_true this).symm
  · rintro rfl
    cases hfind : consumers.find? fun c => c.hash = joaat (bytes "math.add") with
    | none =>
      have := List.find?_eq_none.1 hfind mathConsumer (h.mem_iff.2 (by simp))
      exact absurd (decide_eq_true rfl) this
    | some c =>
      have hhash : c.hash = joaat (bytes "math.add") := by simpa using List.find?_some hfind
      rcases List.mem_pair.1 (h.mem_iff.1 (List.mem_of_find?_eq_some hfind)) with rfl | rfl
      · rfl
      · exact absurd hhash (by decide)

theorem Input.call?_eq_some_iff {J : Nlohmann} {registry : Consumers} {i : Input}
    {call : Consumer × Str} : i.call? J registry = some call ↔
      ∃ text topic, i.text? = some text ∧ request J text = .publish topic call.2 ∧
        registry.getConsumerImpl (joaat topic) = some call.1 := by
  obtain ⟨consumer, payload⟩ := call
  unfold Input.call? Input.text?
  split
  · next fd b data =>
    cases hr : request J (b :: data) with
    | publish topic payload' => simp [hr, and_comm]
    | subscribe | unknown | failed => simp [hr]
  · simp

namespace Broker

variable {σ Fx V E : Type} {J : Nlohmann} {P : Program σ Fx V E} {onCall : Consumer → Str → σ}
  {registry : Consumers} {consumers : List Consumer} {serverFd : Fd} {n nextQueue : BitVec 64}
  {clock : TimePoint}

/-- The texts that a run has handed to `handle_message`. -/
def texts (ls : List (BrokerStep σ)) : List Str :=
  (ls.filterMap BrokerStep.input?).filterMap Input.text?

/-- A text is fatal when it calls `math.add` with a payload that it cannot parse. -/
theorem exists_fatal_iff (h : consumers.Perm [mathConsumer, helloConsumer])
    (ls : List (BrokerStep TopicBody)) :
    (∃ call ∈ wanted J (.registered consumers) ls, topicProgram.Escapes (root topicOnCall call)) ↔
      ∃ text ∈ texts ls, Fatal J text := by
  simp only [wanted, texts, List.mem_filterMap, escapes_topicOnCall_iff, Input.call?_eq_some_iff]
  constructor
  · rintro ⟨⟨_, payload⟩, ⟨i, hi, text, topic, ht, hr, hc⟩, rfl, hparses⟩
    exact ⟨text, ⟨i, hi, ht⟩, topic, payload, hr, (getConsumerImpl_shipped h _).1 hc, hparses⟩
  · rintro ⟨text, ⟨i, hi, ht⟩, topic, payload, hr, hhash, hparses⟩
    exact ⟨(mathConsumer, payload), ⟨i, hi, text, topic, ht, hr,
      (getConsumerImpl_shipped h _).2 hhash⟩, rfl, hparses⟩

variable {s : Broker σ Fx V E} {ls : List (BrokerStep σ)}

theorem Threads.escapes (h : Threads J P onCall registry n nextQueue clock ls s)
    (ht : s.service.terminated = true) :
    ∃ call ∈ wanted J registry ls, P.Escapes (root onCall call) := by
  rcases h.serves with ⟨standings, hs⟩ | hend
  · rw [hs.terminated] at ht
    cases ht
  · obtain ⟨g, hg, hesc⟩ := hend.escapes
    obtain ⟨call, hcall, hroot⟩ := h.exists_wanted hg
    exact ⟨call, hcall, hroot ▸ hesc⟩

/-- The threads do not rest before the exception of a handler has ended the process. -/
theorem Threads.terminated_of_resting (h : Threads J P onCall registry n nextQueue clock ls s)
    (hend : s.serverEnd = none) (hrest : Resting (Broker.step J P onCall) GoesOn s)
    (hesc : ∃ call ∈ wanted J registry ls, P.Escapes (root onCall call)) :
    s.service.terminated = true := by
  rcases h.serves with ⟨standings, hs⟩ | hend
  · obtain ⟨call, hcall, hesc⟩ := hesc
    obtain ⟨g, hg, hroot⟩ := h.mem_root hcall
    obtain ⟨-, j, v, m, hplain, -⟩ := completed_of_resting hs h.manned hend hrest g hg
    exact absurd (hroot ▸ hesc) (returns_of_plainRun hplain).not_escapes
  · exact hend.terminated

theorem Threads.faulted (h : Threads J P onCall registry n nextQueue clock ls s) :
    s.service.faulted = false := by
  rcases h.serves with ⟨standings, hs⟩ | hend
  · exact hs.faulted
  · exact hend.faulted

theorem Threads.exists_serves (h : Threads J P onCall registry n nextQueue clock ls s)
    (ht : s.service.terminated = false) : ∃ standings, Serves P s.service standings :=
  h.serves.resolve_right fun hend => by
    rw [hend.terminated] at ht
    cases ht

end Broker

/-! ## Every run -/

section

open Broker

variable {J : Nlohmann} {consumers : List Consumer} {serverFd : Fd} {n nextQueue : BitVec 64}
  {clock : TimePoint} {s : Broker TopicBody TopicEffect TopicValue StdException}
  {ls : List (BrokerStep TopicBody)}

/-- The process of `main` with the two topics that are shipped, registered in either order, and at
least one worker.  In every state that it reaches, in whatever order the inputs, the workers and the
timer thread take their turns:

* no coroutine was resumed that is not suspended, and no result was taken that was not there;
* a handler has ended the process only if the server has read a fatal text;
* otherwise only the server's own thread can have ended it;
* the threads take no more than a certain number of steps before the next input;
* when the threads rest and the clock has nothing to wait for, and the server's own thread has not
  ended the process, a handler has ended it if and only if the server has read a fatal text, and
  otherwise every handler has completed;
* a process that has not been ended takes every input that the server would take alone, when no
  thread can go on. -/
theorem fatal_texts (hn : 0 < n.toNat) (hconsumers : consumers.Perm [mathConsumer, helloConsumer])
    (hrun : run (Broker.step J topicProgram topicOnCall)
      (.main (.registered consumers) serverFd n nextQueue clock) ls = some s) :
    s.service.faulted = false ∧
    (s.service.terminated = true → ∃ text ∈ texts ls, Fatal J text) ∧
    (s.serverEnd = none ∨ ServerEnded J (.registered consumers) serverFd ls s) ∧
    (∃ m, ∀ ls' s', Admissible (Broker.step J topicProgram topicOnCall) GoesOn s ls' →
      run (Broker.step J topicProgram topicOnCall) s ls' = some s' → ls'.length ≤ m) ∧
    (s.serverEnd = none → Resting (Broker.step J topicProgram topicOnCall) GoesOn s →
      (s.service.terminated = true ↔ ∃ text ∈ texts ls, Fatal J text) ∧
      (s.service.terminated = false → ∀ h ∈ s.service.handlers, h.asyncTask = .destroyed)) ∧
    (s.serverEnd = none → s.service.terminated = false →
      Resting (Broker.step J topicProgram topicOnCall) Proceeds s →
        s.TakesInputs J topicProgram topicOnCall) := by
  have hthreads := threads_of_run hn (fun call _ => ends_topicOnCall call) hrun
  have hsplit := splits_of_run hrun
  have hfatal := exists_fatal_iff (J := J) hconsumers ls
  have hescapes : s.service.terminated = true → ∃ text ∈ texts ls, Fatal J text :=
    fun ht => hfatal.1 (hthreads.escapes ht)
  refine ⟨hthreads.faulted, hescapes, hsplit.ended, hthreads.exists_length_le,
    fun hend hrest => ⟨⟨hescapes, fun hf =>
      hthreads.terminated_of_resting hend hrest (hfatal.2 hf)⟩, fun ht h hh => ?_⟩,
    fun hend ht hrest => ?_⟩
  · obtain ⟨standings, hs⟩ := hthreads.exists_serves ht
    exact (completed_of_resting hs hthreads.manned hend hrest h hh).1
  · obtain ⟨standings, hs⟩ := hthreads.exists_serves ht
    exact takesInputs_of_resting hs hthreads.manned hend (hsplit.serving hend).wired hrest

end

/-- `publish` on the topic `Math.ADD`, with the payload `a,b`. -/
def fatalText : Str :=
  bytes "\x7b\"type\":\"publish\",\"topic\":\"Math.ADD\",\"payload\":\"a,b\"\x7d"

/-- The library on this text. -/
def fatalJson : Nlohmann := tableJson [(fatalText, publishJson ⟨bytes "Math.ADD", bytes "a,b"⟩)]

/-- The worker gets to the exception while a second client connects. -/
def fatalRun : List (BrokerStep TopicBody) :=
  [.thread (.pool (.lock 0)), .thread (.timers .test), .thread (.timers (.lock 0)),
    .input (.accept 5), .input (.read 5 (.ok fatalText)), .thread (.pool (.push 1)),
    .thread (.pool (.notify 1)), .thread (.pool (.lock 0)), .thread (.pool (.enter 0)),
    .thread (.invoke 0), .thread (.execute 0), .input (.accept 6)] ++
  List.replicate 14 (.thread (.execute 0))

/-- One text has ended the process; the second client is not served. -/
theorem fatal_texts_add :
    ∃ s, run (Broker.step fatalJson topicProgram topicOnCall)
        (.main (.registered [helloConsumer, mathConsumer]) 3 1 0 0) fatalRun = some s ∧
      s.service.terminated = true ∧ s.server.owner 6 ≠ none ∧
      ∃ text ∈ Broker.texts fatalRun, Fatal fatalJson text := by
  obtain ⟨s, hs, hview⟩ := Option.map_eq_some_iff.1
    (show (run (Broker.step fatalJson topicProgram topicOnCall)
        (.main (.registered [helloConsumer, mathConsumer]) 3 1 0 0) fatalRun).map
        (fun s => (s.service.terminated, s.server.owner 6)) = some (true, some 1) by rfl)
  obtain ⟨ht, howner⟩ := Prod.mk.inj hview
  exact ⟨s, hs, ht, by simp [howner],
    (fatal_texts (by decide) (List.Perm.swap ..) hs).2.1 ht⟩

end EllohimMQ
