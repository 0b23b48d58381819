import EllohimMQ.Model.Service
import EllohimMQ.Model.TcpServer
import EllohimMQ.Model.Topics

/-!
# The broker

The process of `main`.  Its own thread runs the server, the workers and the timer thread run the
handlers.  They meet in `MessageBroker::publish`, where the server calls `consumer::call`, which queues
a job on the pool.

What belongs to the server is touched by its own thread only, so all that it does for an input is one
step, in which a `queue_job` may begin.  The server takes the next input when it has returned from
there.

The process can end in three ways.  An exception that leaves a handler ends it (`terminated`, of the
service).  The other two are ends in the server's own thread: `main` catches nothing, so the
`std::length_error` that leaves `handle_read` after a `recv` of -1 calls `std::terminate`; and `::send`
is called without `MSG_NOSIGNAL` and no handler is installed for `SIGPIPE`, so a `::send` to a session
that the peer has reset kills the process.
-/

namespace EllohimMQ

open Calls

variable {σ Fx V E : Type}

/-- The arguments of a `c->call(message)`. -/
def Event.call? : Event → Option (Consumer × Str)
  | .called consumer payload => some (consumer, payload)
  | _ => none

/-- The calls of `consumer::call` that the server has made. -/
def Server.calls (s : Server) : List (Consumer × Str) := s.trace.filterMap Event.call?

/-- A call of `::send` on a descriptor that is open. -/
def Event.isSend : Event → Bool
  | .frame _ session _ _ | .reply _ session _ => session.isSome
  | _ => false

/-- The `what()` of the exception that leaves `handle_read` for an input, if one does. -/
def Server.escapes (J : Nlohmann) (s : Server) : Input → Option Str
  | .accept _ => none
  | .read fd r =>
    if (s.owner fd).isSome ∧ r.buffer.length ≤ 1024 then (s.handleRead J fd r).2 else none

/-- How the server's own thread has ended the process. -/
inductive ServerEnd where
  | lengthError
  | sigpipe
  deriving DecidableEq

/-- The process.  `before` is the number of events that the server had shown when it took its last
input, and `serverEnd` tells how its thread has ended the process, if it has. -/
structure Broker (σ Fx V E : Type) where
  server : Server
  service : Service σ Fx V E
  before : ℕ
  serverEnd : Option ServerEnd

/-- An input of the server, a step of a worker, of the timer thread or in `queue_job`, or the signal
that one of the calls of `::send` for the last input raises. -/
inductive BrokerStep (σ : Type) where
  | input (i : Input)
  | thread (l : ServiceStep σ)
  | sigpipe (event : ℕ)

/-- The input that a step takes. -/
def BrokerStep.input? : BrokerStep σ → Option Input
  | .input i => some i
  | .thread _ | .sigpipe _ => none

namespace Broker

/-- What `main` has made when it calls `server.start()`. -/
def main (registry : Consumers) (serverFd : Fd) (workers nextQueue : BitVec 64)
    (clock : TimePoint) : Broker σ Fx V E where
  server := .main registry serverFd
  service := .new workers nextQueue clock
  before := 0
  serverEnd := none

variable (J : Nlohmann) (P : Program σ Fx V E) (onCall : Consumer → Str → σ)

/-- `consumer::call`, for each of the calls. -/
def callEach (service : Service σ Fx V E) : List (Consumer × Str) → Option (Service σ Fx V E)
  | [] => some service
  | (consumer, payload) :: calls =>
    (service.step P (.call (onCall consumer payload))).bind (callEach · calls)

/-- The server's own thread takes an input. -/
def takeInput (s : Broker σ Fx V E) (i : Input) : Option (Broker σ Fx V E) :=
  match s.server.escapes J i with
  | some _ => some { s with serverEnd := some .lengthError }
  | none =>
    (s.server.input J i).bind fun server =>
      (callEach P onCall s.service (server.calls.drop s.server.calls.length)).map fun service =>
        { server, service, before := s.server.trace.length, serverEnd := none }

/-- A call of `::send` for the last input raises `SIGPIPE`: neither this call nor what was to come
after it is shown. -/
def raiseSigpipe (s : Broker σ Fx V E) (event : ℕ) : Option (Broker σ Fx V E) :=
  if s.before ≤ event ∧ s.server.trace[event]?.any Event.isSend then
    some { s with
      server := { s.server with trace := s.server.trace.take event }
      serverEnd := some .sigpipe }
  else none

/-- `onCall` is the virtual function of the consumers.  A process that has ended takes no step.
`dispatch` and the replies come after `queue_job`, so a `::send` waits for it as the next input
does. -/
def step (s : Broker σ Fx V E) (l : BrokerStep σ) : Option (Broker σ Fx V E) :=
  if s.service.terminated ∨ s.service.faulted ∨ s.serverEnd.isSome then none
  else
    match l with
    | .input i =>
      match s.service.pool.producers[(1 : ℕ)]? with
      | some .idle => s.takeInput J P onCall i
      | _ => none
    | .sigpipe event =>
      match s.service.pool.producers[(1 : ℕ)]? with
      | some .idle => s.raiseSigpipe event
      | _ => none
    | .thread (.call _) => none
    | .thread l => (s.service.step P l).map fun service => { s with service }

end Broker

/-- `on_call` of the two consumers that are shipped. -/
def topicOnCall (consumer : Consumer) (payload : Str) : TopicBody :=
  if consumer = mathConsumer then Math.onCall payload else Hello.onCall consumer.name payload

end EllohimMQ
