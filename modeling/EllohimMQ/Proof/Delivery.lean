import EllohimMQ.Lib.Transition
import EllohimMQ.Model.MessageBroker

/-!
# Delivery over whole runs of the broker

A run is a sequence of `subscribe`, `publish` and "connection expires" events on one broker, in any
order and over any number of topics and connections.  `due` is the purpose of the broker, read off
the events alone: at a publish, a connection that has not expired is due one copy of the frame for
each of its earlier subscriptions to the topic.  The frames sent are exactly the frames due, in
order; the queues are empty between two events; a publish prunes the expired subscribers of its own
topic and touches nothing else.

The link between the two is `SubscriberCount`: for a connection that has not expired, the number of
its entries in a list of subscribers is the number of its subscriptions.
-/

namespace EllohimMQ

open Transition

/-- The strings that a parsed JSON value carries; every caller of the broker passes such strings. -/
abbrev Text := { s : Str // ValidUtf8 s }

namespace MessageBroker

variable {C : Type} {J : Nlohmann} {lock : C → Bool}

/-- The text that `dispatch` sends for a message. -/
def frameData (J : Nlohmann) (message : BrokerMessage) : Str :=
  (J.dump (publishJson message)).toOption.getD []

/-- The frame that carries `message` to `c`. -/
def frameTo (J : Nlohmann) (c : C) (message : BrokerMessage) : Frame C :=
  ⟨c, message, frameData J message⟩

theorem frameTo_eq {message : BrokerMessage} {data : Str}
    (hd : J.dump (publishJson message) = .ok data) (c : C) :
    frameTo J c message = ⟨c, message, data⟩ := by
  simp [frameTo, frameData, hd, Except.toOption]

/-- A publish of valid strings on a topic whose queue is empty. -/
theorem publish_of_ok {registry : Consumers} {b : MessageBroker C} {topic message data : Str}
    (hq : b.topicQueues topic = []) (hd : J.dump (publishJson ⟨topic, message⟩) = .ok data) :
    publish J lock registry b topic message =
      { called := registry.getConsumerImpl (joaat topic)
        broker := { b with
          subscribers := Function.update b.subscribers topic ((b.subscribers topic).filter lock) }
        frames := ((b.subscribers topic).filter lock).map (frameTo J · ⟨topic, message⟩)
        thrown := none } := by
  rw [publish_eq hq, sendToSubscribers_of_ok hd]
  simp only [frameTo_eq hd]

end MessageBroker

/-! ## Runs -/

open MessageBroker

/-- What happens to a broker: the calls made on it, and connections going away. -/
inductive BrokerEvent (C : Type) where
  | subscribe (topic : Str) (conn : C)
  | publish (topic message : Text)
  | expire (conn : C)
  deriving DecidableEq

/-- A broker, the connections that have expired and the frames sent so far. -/
structure BrokerRun (C : Type) where
  broker : MessageBroker C
  expired : C → Bool
  sent : List (Frame C)

variable {C : Type} [DecidableEq C] (J : Nlohmann) (registry : Consumers)

/-- Before the first call. -/
def BrokerRun.init : BrokerRun C := ⟨.empty, fun _ => false, []⟩

/-- `weak_ptr::lock` succeeds until the connection has expired. -/
def BrokerRun.lock (s : BrokerRun C) (c : C) : Bool := !s.expired c

/-- An expired connection subscribes no more. -/
def BrokerRun.step (s : BrokerRun C) : BrokerEvent C → Option (BrokerRun C)
  | .subscribe topic conn =>
    if s.expired conn then none else some { s with broker := s.broker.subscribe topic conn }
  | .publish topic message =>
    let p := publish J s.lock registry s.broker topic message
    some { s with broker := p.broker, sent := s.sent ++ p.frames }
  | .expire conn => some { s with expired := Function.update s.expired conn true }

/-- The frames due to `c` for one event, after the events `before`. -/
def dueAt (c : C) (before : List (BrokerEvent C)) : BrokerEvent C → List (Frame C)
  | .publish topic message =>
    if .expire c ∈ before then []
    else List.replicate (before.count (.subscribe topic c)) (frameTo J c ⟨topic, message⟩)
  | _ => []

/-- The frames due to `c` for the events `evs`, which come after the events `before`. -/
def due (c : C) : List (BrokerEvent C) → List (BrokerEvent C) → List (Frame C)
  | _, [] => []
  | before, e :: evs => dueAt J c before e ++ due c (before ++ [e]) evs

theorem due_concat (c : C) (before evs : List (BrokerEvent C)) (e : BrokerEvent C) :
    due J c before (evs ++ [e]) = due J c before evs ++ dueAt J c (before ++ evs) e := by
  induction evs generalizing before with
  | nil => simp [due]
  | cons e' evs ih => simp [due, ih, List.append_assoc]

/-- A live connection has as many entries under a topic as it has made subscriptions to it. -/
def SubscriberCount (evs : List (BrokerEvent C)) (b : MessageBroker C) : Prop :=
  ∀ c topic, .expire c ∉ evs → (b.subscribers topic).count c = evs.count (.subscribe topic c)

/-- What holds between two events of a run. -/
structure BrokerInv (evs : List (BrokerEvent C)) (s : BrokerRun C) : Prop where
  expired : ∀ c, s.expired c = decide (.expire c ∈ evs)
  queues : ∀ topic, s.broker.topicQueues topic = []
  count : SubscriberCount evs s.broker
  sent : ∀ c, s.sent.filter (·.conn = c) = due J c [] evs

theorem BrokerInv.lock_eq {J} {evs : List (BrokerEvent C)} {s : BrokerRun C}
    (h : BrokerInv J evs s) : s.lock = fun c => decide (.expire c ∉ evs) := by
  funext c
  simp [BrokerRun.lock, h.expired]

theorem brokerInv_init : BrokerInv J [] (BrokerRun.init : BrokerRun C) where
  expired _ := rfl
  queues _ := rfl
  count _ _ _ := rfl
  sent _ := rfl

/-- The frames of one pass that go to `c` are those due to it. -/
theorem filter_frames_eq_dueAt {evs : List (BrokerEvent C)} {s : BrokerRun C}
    (h : BrokerInv J evs s) (c : C) (topic message : Text) :
    (((s.broker.subscribers topic).filter s.lock).map (frameTo J · ⟨topic, message⟩)).filter
        (·.conn = c) = dueAt J c evs (.publish topic message) := by
  have hf : (fun f : Frame C => decide (f.conn = c)) ∘ (frameTo J · ⟨topic, message⟩) =
      fun c' => decide (c' = c) := rfl
  rw [List.filter_map, hf, List.filter_filter, h.lock_eq]
  by_cases he : .expire c ∈ evs
  · have hnone : (s.broker.subscribers topic).filter
        (fun a => decide (a = c) && decide (.expire a ∉ evs)) = [] := by
      rw [List.filter_eq_nil_iff]
      rintro a - ha
      simp only [Bool.and_eq_true, decide_eq_true_eq] at ha
      exact ha.2 (ha.1 ▸ he)
    rw [hnone]
    simp [dueAt, he]
  · have hsame : (s.broker.subscribers topic).filter
        (fun a => decide (a = c) && decide (.expire a ∉ evs)) =
        (s.broker.subscribers topic).filter (· == c) := by
      refine List.filter_congr fun a _ => ?_
      by_cases ha : a = c
      · simp [ha, he]
      · simp [ha]
    rw [hsame, List.filter_beq, h.count c topic he, List.map_replicate, dueAt, if_neg he]

/-- One event keeps the invariant. -/
theorem brokerInv_step (hdump : ∀ {j : Json}, j.ValidUtf8 → ∃ d, J.dump j = .ok d)
    {evs : List (BrokerEvent C)} {s s' : BrokerRun C} {e : BrokerEvent C}
    (h : BrokerInv J evs s) (hs : s.step J registry e = some s') :
    BrokerInv J (evs ++ [e]) s' := by
  cases e with
  | subscribe topic conn =>
    simp only [BrokerRun.step] at hs
    split_ifs at hs with hexp
    obtain rfl := Option.some.inj hs
    refine ⟨fun c => by simp [h.expired], h.queues, fun c topic' hc => ?_, fun c => ?_⟩
    · have hc' : .expire c ∉ evs := fun hm => hc (List.mem_append_left _ hm)
      rw [List.count_append, ← h.count c topic' hc']
      by_cases ht : topic' = topic
      · subst ht
        by_cases hcc : conn = c <;> simp [MessageBroker.subscribe, hcc]
      · have ht' : topic ≠ topic' := Ne.symm ht
        simp [MessageBroker.subscribe, ht, ht']
    · rw [due_concat, h.sent]
      simp [dueAt]
  | publish topic message =>
    obtain ⟨data, hd⟩ := hdump (publishJson_valid ⟨topic, message⟩ topic.2 message.2)
    simp only [BrokerRun.step, publish_of_ok (h.queues topic) hd, Option.some.injEq] at hs
    subst hs
    refine ⟨fun c => by simp [h.expired], h.queues, fun c topic' hc => ?_, fun c => ?_⟩
    · have hc' : .expire c ∉ evs := fun hm => hc (List.mem_append_left _ hm)
      have hlock : s.lock c = true := by simp [h.lock_eq, hc']
      rw [List.count_append, ← h.count c topic' hc']
      by_cases ht : topic' = (topic : Str)
      · subst ht
        simp [List.count_filter hlock]
      · simp [ht]
    · rw [List.filter_append, h.sent, due_concat]
      exact congrArg _ (filter_frames_eq_dueAt J h c topic message)
  | expire conn =>
    simp only [BrokerRun.step, Option.some.injEq] at hs
    subst hs
    refine ⟨fun c => ?_, h.queues, fun c topic' hc => ?_, fun c => ?_⟩
    · by_cases hcc : c = conn
      · simp [hcc]
      · simp [hcc, h.expired]
    · have hc' : .expire c ∉ evs := fun hm => hc (List.mem_append_left _ hm)
      rw [List.count_append, ← h.count c topic' hc']
      simp
    · rw [due_concat, h.sent]
      simp [dueAt]

theorem brokerInv_run (hdump : ∀ {j : Json}, j.ValidUtf8 → ∃ d, J.dump j = .ok d)
    {evs : List (BrokerEvent C)} {s : BrokerRun C}
    (h : run (BrokerRun.step J registry) .init evs = some s) : BrokerInv J evs s :=
  run_induction (P := BrokerInv J) (brokerInv_init J)
    (fun _ _ _ _ hP hs => brokerInv_step J registry hdump hP hs) h

/-- Exact delivery: in every run, every connection has been sent exactly the frames due to it, in
order; every queue is empty; and the next publish ends normally, removes exactly the expired
subscribers of its topic and leaves the other lists alone. -/
theorem delivery_exact (hdump : ∀ {j : Json}, j.ValidUtf8 → ∃ d, J.dump j = .ok d)
    {evs : List (BrokerEvent C)} {s : BrokerRun C}
    (h : run (BrokerRun.step J registry) .init evs = some s) :
    (∀ c, s.sent.filter (·.conn = c) = due J c [] evs) ∧
    (∀ topic, s.broker.topicQueues topic = []) ∧
    ∀ topic message : Text,
      let p := publish J s.lock registry s.broker topic message
      p.thrown = none ∧
      p.broker.subscribers topic =
        (s.broker.subscribers topic).filter (fun c => .expire c ∉ evs) ∧
      ∀ topic' : Str, topic' ≠ topic → p.broker.subscribers topic' = s.broker.subscribers topic' := by
  have hinv := brokerInv_run J registry hdump h
  refine ⟨hinv.sent, hinv.queues, fun topic message => ?_⟩
  obtain ⟨data, hd⟩ := hdump (publishJson_valid ⟨topic, message⟩ topic.2 message.2)
  rw [publish_of_ok (hinv.queues topic) hd]
  refine ⟨rfl, ?_, fun topic' ht => Function.update_of_ne ht _ _⟩
  simp only [Function.update_self, hinv.lock_eq]

/-- A run with a double subscription, a publish, an expiry and a publish that prunes. -/
theorem delivery_exact_sample :
    let J := tableJson []
    let t : Text := ⟨bytes "t", validUtf8_bytes _⟩
    let evs : List (BrokerEvent ℕ) := [.subscribe t 1, .subscribe t 2, .subscribe t 1, .publish t t,
      .expire 1, .publish t t]
    ∃ s, run (BrokerRun.step J .empty) .init evs = some s ∧
      s.sent.filter (·.conn = 1) = due J 1 [] evs ∧ (due J 1 [] evs).length = 2 := by
  refine ⟨_, rfl, ?_, by decide⟩
  exact (delivery_exact (tableJson []) .empty (tableJson_utf8Safe (by simp)).dump_valid rfl).1 1

end EllohimMQ
