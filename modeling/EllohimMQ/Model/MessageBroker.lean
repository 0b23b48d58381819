import EllohimMQ.Model.Consumers

/-!
# The message broker

`message_broker.hpp` and `message_broker.cpp`.  The broker is generic in the type `C` of connection
objects: a `std::weak_ptr<TcpConnection>` is the object it was made from, and `lock : C → Bool` says
for which objects `weak_ptr::lock` succeeds at the moment.

A function that sends returns the frames it passed to `TcpConnection::send`, in order, and the
`what()` text of the exception that ended it, if one did.
-/

namespace EllohimMQ

/-- `BrokerMessage` -/
structure BrokerMessage where
  topic : Str
  payload : Str
  deriving DecidableEq

/-- Both maps are used through `operator[]`, which makes an empty value for a missing key. -/
structure MessageBroker (C : Type) where
  topicQueues : Str → List BrokerMessage
  subscribers : Str → List C

/-- One call `conn->send(data)` made by `dispatch`, for the message it carries. -/
structure Frame (C : Type) where
  conn : C
  message : BrokerMessage
  data : Str
  deriving DecidableEq

/-- The object that `dispatch` serialises. -/
def publishJson (message : BrokerMessage) : Json :=
  .object [(bytes "type", .string (bytes "publish")), (bytes "topic", .string message.topic),
    (bytes "payload", .string message.payload)]

theorem publishJson_valid (message : BrokerMessage) (ht : ValidUtf8 message.topic)
    (hp : ValidUtf8 message.payload) : (publishJson message).ValidUtf8 := by
  refine .object (fun m hm => ?_) (fun m hm => ?_) <;>
    simp only [List.mem_cons, List.not_mem_nil, or_false] at hm <;>
    rcases hm with rfl | rfl | rfl
  · exact validUtf8_bytes _
  · exact validUtf8_bytes _
  · exact validUtf8_bytes _
  · exact .string (validUtf8_bytes _)
  · exact .string ht
  · exact .string hp

namespace MessageBroker

variable {C : Type} (J : Nlohmann) (lock : C → Bool)

/-- A broker as it is constructed. -/
def empty : MessageBroker C := ⟨fun _ => [], fun _ => []⟩

/-- The `for` loop of `dispatch`, from the iterator `it` to the end of `subs`: the entries that are
left, the frames sent, the exception. -/
def sendToSubscribers (message : BrokerMessage) : List C → List C × List (Frame C) × Option Str
  | [] => ([], [], none)
  | it :: rest =>
    if lock it then
      match J.dump (publishJson message) with
      | .error what => (it :: rest, [], some what)
      | .ok data =>
        let (subs, frames, thrown) := sendToSubscribers message rest
        (it :: subs, ⟨it, message, data⟩ :: frames, thrown)
    else
      sendToSubscribers message rest

/-- The `while` loop of `dispatch`: the queue and the subscribers that are left, the frames sent,
the exception. -/
def drain : List BrokerMessage → List C → List BrokerMessage × List C × List (Frame C) × Option Str
  | [], subs => ([], subs, [], none)
  | message :: queue, subs =>
    match sendToSubscribers J lock message subs with
    | (subs', frames, some what) => (queue, subs', frames, some what)
    | (subs', frames, none) =>
      let (queue', subs'', frames', thrown) := drain queue subs'
      (queue', subs'', frames ++ frames', thrown)

/-- `MessageBroker::dispatch`: the broker afterwards, the frames sent, the exception. -/
def dispatch (b : MessageBroker C) (topic : Str) : MessageBroker C × List (Frame C) × Option Str :=
  if b.topicQueues topic = [] then (b, [], none)
  else
    let (queue, subs, frames, thrown) := drain J lock (b.topicQueues topic) (b.subscribers topic)
    (⟨Function.update b.topicQueues topic queue, Function.update b.subscribers topic subs⟩,
      frames, thrown)

/-- What one call of `publish` did: `called` is the consumer whose `call(message)` was made. -/
structure Published (C : Type) where
  called : Option Consumer
  broker : MessageBroker C
  frames : List (Frame C)
  thrown : Option Str

/-- `MessageBroker::publish`: the consumer first, then the queue, then `dispatch`. -/
def publish (registry : Consumers) (b : MessageBroker C) (topic message : Str) : Published C :=
  let called := registry.getConsumerImpl (joaat topic)
  let queue := b.topicQueues topic ++ [⟨topic, message⟩]
  let queued := { b with topicQueues := Function.update b.topicQueues topic queue }
  let (broker, frames, thrown) := dispatch J lock queued topic
  { called, broker, frames, thrown }

/-- `MessageBroker::subscribe` -/
def subscribe (b : MessageBroker C) (topic : Str) (conn : C) : MessageBroker C :=
  { b with subscribers := Function.update b.subscribers topic (b.subscribers topic ++ [conn]) }

/-! ## What the loops of `dispatch` compute -/

variable {J lock}

/-- When the message can be serialised, the inner loop keeps exactly the subscribers that can be
locked, in order, and sends the frame to each of them. -/
theorem sendToSubscribers_of_ok {message : BrokerMessage} {data : Str}
    (hd : J.dump (publishJson message) = .ok data) (subs : List C) :
    sendToSubscribers J lock message subs =
      (subs.filter lock, (subs.filter lock).map (⟨·, message, data⟩), none) := by
  induction subs with
  | nil => rfl
  | cons it rest ih => by_cases hl : lock it = true <;> simp [sendToSubscribers, hl, hd, ih]

/-- Otherwise the loop ends at the first subscriber that can be locked, having sent nothing. -/
theorem sendToSubscribers_of_error {message : BrokerMessage} {what : Str}
    (hd : J.dump (publishJson message) = .error what) (subs : List C) :
    sendToSubscribers J lock message subs =
      (subs.dropWhile (!lock ·), [], if subs.any lock then some what else none) := by
  induction subs with
  | nil => rfl
  | cons it rest ih => by_cases hl : lock it = true <;> simp [sendToSubscribers, hl, hd, ih]

/-- A publish on a topic with an empty queue makes one pass over the subscribers and leaves the
queue empty again. -/
theorem publish_eq {registry : Consumers} {b : MessageBroker C} {topic payload : Str}
    (hq : b.topicQueues topic = []) :
    publish J lock registry b topic payload =
      let r := sendToSubscribers J lock ⟨topic, payload⟩ (b.subscribers topic)
      { called := registry.getConsumerImpl (joaat topic)
        broker := { b with subscribers := Function.update b.subscribers topic r.1 }
        frames := r.2.1
        thrown := r.2.2 } := by
  have hqueue : Function.update (Function.update b.topicQueues topic [⟨topic, payload⟩]) topic []
      = b.topicQueues := by
    rw [Function.update_idem, ← hq, Function.update_eq_self]
  rcases hr : sendToSubscribers J lock ⟨topic, payload⟩ (b.subscribers topic) with
    ⟨subs, frames, _ | what⟩ <;>
  simp [publish, dispatch, hq, drain, hr, hqueue]

end MessageBroker

end EllohimMQ
