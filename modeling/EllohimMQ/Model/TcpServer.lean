import EllohimMQ.Model.MessageBroker
import Mathlib.Algebra.Group.Nat.Defs

/-!
# The server: connections, protocol, accept and read

`tcp_connection.cpp`, `protocol_handler.cpp`, `tcp_server.cpp` and the wiring of `main.cpp`.  A
system call is an input: `accept` and `recv` enter with their result, so that every behaviour of the
operating system is a value of the arguments.

Connection objects are owned by `std::shared_ptr`s.  The owners that outlive a call are the entries
of `connections` and the closures stored as read handlers, which `useCount` counts; the pointers on
the stack of a running call are accounted for where it returns (`release`).

`owner` is the operating system's side of a file descriptor: the client session it belongs to while
it is open.  A session is named by the connection object that was made for it.
-/

namespace EllohimMQ

/-- A file descriptor. -/
abbrev Fd := ℕ

/-- The address of a `TcpConnection` object. -/
abbrev ConnId := ℕ

/-- The closure `[protocol, conn](const std::string& msg) { .. }` that `main` installs. -/
structure ReadHandler where
  conn : ConnId
  deriving DecidableEq

/-- `closeHandler` tells whether one is installed; the one of `main` only writes a log line. -/
structure TcpConnection where
  sockFd : Fd
  readHandler : Option ReadHandler
  closeHandler : Bool
  deriving DecidableEq

/-- `errno` after a call that has failed. -/
inductive Errno where
  | eagain
  | ewouldblock
  | other (code : ℕ)
  deriving DecidableEq

/-- `errno == EAGAIN || errno == EWOULDBLOCK` -/
def Errno.wouldBlock (e : Errno) : Bool := e = .eagain || e = .ewouldblock

/-- The result of `recv`: the bytes received, none at the end of the stream, or -1. -/
inductive RecvResult where
  | ok (buffer : Str)
  | fail (errno : Errno)
  deriving DecidableEq

/-- The result of `accept`. -/
inductive AcceptResult where
  | ok (fd : Fd)
  | fail (errno : Errno)
  deriving DecidableEq

/-- What the server does that can be seen from outside, and the calls by which it does it.
`frame` and `reply` are calls of `::send`, with the session that the descriptor belongs to at that
moment; on a descriptor that is not open the call fails and writes nothing. -/
inductive Event where
  | accepted (session : ConnId) (fd : Fd)
  | publish (conn : ConnId) (topic payload : Str)
  | subscribe (conn : ConnId) (topic : Str)
  | called (consumer : Consumer) (payload : Str)
  | frame (fd : Fd) (session : Option ConnId) (message : BrokerMessage) (data : Str)
  | reply (fd : Fd) (session : Option ConnId) (data : Str)
  | closeHandler (conn : ConnId)
  | closed (fd : Fd) (session : Option ConnId)
  deriving DecidableEq

/-- `TcpServer` with the connection objects, the broker and the registry that its handlers use, the
operating system's side of its descriptors, and the record of what it has done. -/
structure Server where
  connectionHandler : Option (ConnId → TcpConnection → TcpConnection)
  connections : List (Fd × ConnId)
  objects : List (ConnId × TcpConnection)
  nextConn : ConnId
  broker : MessageBroker ConnId
  registry : Consumers
  serverFd : Fd
  owner : Fd → Option ConnId
  epoll : Fd → Bool
  trace : List Event

/-- `conn->on_message(..); conn->on_close(..); conn->start();` -/
def mainConnectionHandler (id : ConnId) (conn : TcpConnection) : TcpConnection :=
  { conn with readHandler := some ⟨id⟩, closeHandler := true }

namespace Server

/-- The server of `main` before `start`, listening on `serverFd`. -/
def main (registry : Consumers) (serverFd : Fd) : Server where
  connectionHandler := some mainConnectionHandler
  connections := []
  objects := []
  nextConn := 0
  broker := .empty
  registry
  serverFd
  owner _ := none
  epoll fd := fd = serverFd
  trace := []

/-! ## Ownership of connection objects -/

/-- The number of stored `shared_ptr`s to the object. -/
def useCount (s : Server) (c : ConnId) : ℕ :=
  s.connections.countP (·.2 = c) + s.objects.countP fun o => o.2.readHandler = some ⟨c⟩

/-- `weak_ptr::lock` -/
def lock (s : Server) (c : ConnId) : Bool := 0 < s.useCount c

/-- The last pointer on the stack goes: an object without another owner is destroyed, and its
handlers with it. -/
def release (s : Server) (c : ConnId) : Server :=
  if s.useCount c = 0 then { s with objects := s.objects.filter (·.1 ≠ c) } else s

/-! ## Sending -/

/-- `TcpConnection::send`, called by `dispatch` -/
def sendFrame (s : Server) (f : Frame ConnId) : Server :=
  match s.objects.lookup f.conn with
  | none => s
  | some o => { s with trace := s.trace ++ [.frame o.sockFd (s.owner o.sockFd) f.message f.data] }

/-- `TcpConnection::send`, called by `handle_message` for an error -/
def reply (s : Server) (conn : ConnId) (data : Str) : Server :=
  match s.objects.lookup conn with
  | none => s
  | some o => { s with trace := s.trace ++ [.reply o.sockFd (s.owner o.sockFd) data] }

/-! ## The broker, on the connections of the server -/

variable (J : Nlohmann)

/-- `broker->publish(topic, payload)`, and the text of the exception that leaves it. -/
def publish (s : Server) (conn : ConnId) (topic payload : Str) : Server × Option Str :=
  let p := MessageBroker.publish J s.lock s.registry s.broker topic payload
  let called := p.called.toList.map (Event.called · payload)
  let s' := { s with
    broker := p.broker
    trace := s.trace ++ .publish conn topic payload :: called }
  (p.frames.foldl sendFrame s', p.thrown)

/-- `broker->subscribe(topic, conn)` -/
def subscribe (s : Server) (conn : ConnId) (topic : Str) : Server :=
  { s with broker := s.broker.subscribe topic conn, trace := s.trace ++ [.subscribe conn topic] }

end Server

/-! ## `ProtocolHandler::handle_message` -/

/-- What a received text asks for; `failed` carries the `what()` of the exception on the way. -/
inductive Request where
  | publish (topic payload : Str)
  | subscribe (topic : Str)
  | unknown
  | failed (what : Str)
  deriving DecidableEq

/-- The part of the `try` block that reads the text. -/
def readRequest (J : Nlohmann) (data : Str) : Except Str Request := do
  let j ← J.parse data
  let type ← J.value j (bytes "type") []
  let topic ← J.value j (bytes "topic") []
  if type = bytes "publish" then
    let payload ← J.value j (bytes "payload") []
    return .publish topic payload
  else if type = bytes "subscribe" then
    return .subscribe topic
  else
    return .unknown

/-- What a text asks for. -/
def request (J : Nlohmann) (data : Str) : Request :=
  match readRequest J data with
  | .ok r => r
  | .error what => .failed what

/-- The reply to a text of another type. -/
def unknownTypeReply : Str := bytes "\x7b\"error\":\"unknown type\"\x7d\n"

/-- The reply to a text on whose way an exception was thrown. -/
def parseFailedReply (what : Str) : Str :=
  bytes "\x7b\"error\":\"json parse failed: " ++ what ++ bytes "\"\x7d\n"

namespace Server

variable (J : Nlohmann)

/-- `handle_message(conn, data)` -/
def handleMessage (s : Server) (conn : ConnId) (data : Str) : Server :=
  match request J data with
  | .publish topic payload =>
    match s.publish J conn topic payload with
    | (s', none) => s'
    | (s', some what) => s'.reply conn (parseFailedReply what)
  | .subscribe topic => s.subscribe conn topic
  | .unknown => s.reply conn unknownTypeReply
  | .failed what => s.reply conn (parseFailedReply what)

/-! ## `TcpServer` -/

/-- One turn of the loop of `handle_accept` in which `accept` returns a descriptor. -/
def acceptOne (s : Server) (clientFd : Fd) : Server :=
  let id := s.nextConn
  let conn : TcpConnection := ⟨clientFd, none, false⟩
  let conn := match s.connectionHandler with
    | none => conn
    | some handler => handler id conn
  { s with
    connections := (clientFd, id) :: s.connections.filter (·.1 ≠ clientFd)
    objects := (id, conn) :: s.objects
    nextConn := id + 1
    owner := Function.update s.owner clientFd (some id)
    epoll := Function.update s.epoll clientFd true
    trace := s.trace ++ [.accepted id clientFd] }

/-- `close_connection(client_fd)` -/
def closeConnection (s : Server) (clientFd : Fd) : Server :=
  { s with
    epoll := Function.update s.epoll clientFd false
    owner := Function.update s.owner clientFd none
    connections := s.connections.filter (·.1 ≠ clientFd)
    trace := s.trace ++ [.closed clientFd (s.owner clientFd)] }

end Server

namespace RecvResult

/-- `size_t bytes_read = recv(..)`: the result -1 becomes the largest 64-bit word. -/
def bytesRead : RecvResult → BitVec 64
  | .ok buffer => BitVec.ofNat 64 buffer.length
  | .fail _ => BitVec.ofInt 64 (-1)

/-- What `recv` has written into the buffer. -/
def buffer : RecvResult → Str
  | .ok buffer => buffer
  | .fail _ => []

/-- `errno == EAGAIN || errno == EWOULDBLOCK` -/
def wouldBlock : RecvResult → Bool
  | .ok _ => false
  | .fail errno => errno.wouldBlock

end RecvResult

/-- `std::string::max_size()` -/
def maxSize : ℕ := 2 ^ 63 - 1

/-- `std::string(buffer, n)`, which throws `std::length_error` when `n` exceeds `max_size`. -/
def stringOfBuffer (buffer : Str) (n : ℕ) : Except Str Str :=
  if maxSize < n then .error (bytes "basic_string::_M_create") else .ok (buffer.take n)

namespace Server

variable (J : Nlohmann)

/-- `handle_read`, when its `recv` returns `r`; the second component is the `what()` of the
exception that leaves it, if one does. -/
def handleRead (s : Server) (clientFd : Fd) (r : RecvResult) : Server × Option Str :=
  match s.connections.lookup clientFd with
  | none => (s.closeConnection clientFd, none)
  | some id =>
    let conn := s.objects.lookup id
    if 0 < r.bytesRead.toNat then
      match conn.bind TcpConnection.readHandler with
      | none => (s, none)
      | some handler =>
        match stringOfBuffer r.buffer r.bytesRead.toNat with
        | .error what => (s, some what)
        | .ok msg => (s.handleMessage J handler.conn msg, none)
    else if r.bytesRead = BitVec.ofInt 64 (-1) ∧ r.wouldBlock = true then
      (s, none)
    else
      let notified := if (conn.map TcpConnection.closeHandler).getD false then
        [Event.closeHandler id] else []
      let s' := { s with trace := s.trace ++ notified }
      ((s'.closeConnection clientFd).release id, none)

end Server

/-! ## Runs -/

/-- One input from the operating system: a new connection, or the result of the `recv` made for a
descriptor that the event loop reported. -/
inductive Input where
  | accept (fd : Fd)
  | read (fd : Fd) (r : RecvResult)
  deriving DecidableEq

/-- One step of the server.  `accept` may return any descriptor that is not open, and a buffer holds
at most 1024 bytes.  An exception that leaves `handle_read` ends the process: there is no state
after it. -/
def Server.input (J : Nlohmann) (s : Server) : Input → Option Server
  | .accept fd => if s.owner fd = none ∧ fd ≠ s.serverFd then some (s.acceptOne fd) else none
  | .read fd r =>
    if (s.owner fd).isSome ∧ r.buffer.length ≤ 1024 then
      match s.handleRead J fd r with
      | (s', none) => some s'
      | (_, some _) => none
    else none

/-! ## Texts for concrete runs -/

namespace Server

/-- A `subscribe` to the topic `a`. -/
def subscribeText : Str := bytes "\x7b\"type\":\"subscribe\",\"topic\":\"a\"\x7d"

/-- A `publish` on the topic `a`. -/
def publishText : Str := bytes "\x7b\"type\":\"publish\",\"topic\":\"a\",\"payload\":\"x\"\x7d"

/-- The library on the two texts. -/
def sampleJson : Nlohmann :=
  tableJson [
    (subscribeText, .object [(bytes "type", .string (bytes "subscribe")),
      (bytes "topic", .string (bytes "a"))]),
    (publishText, publishJson ⟨bytes "a", bytes "x"⟩)]

theorem sampleJson_utf8Safe : sampleJson.Utf8Safe := by
  refine tableJson_utf8Safe fun e he => ?_
  simp only [List.mem_cons, List.not_mem_nil, or_false] at he
  rcases he with rfl | rfl
  · refine .object (fun m hm => ?_) (fun m hm => ?_) <;>
      simp only [List.mem_cons, List.not_mem_nil, or_false] at hm <;> rcases hm with rfl | rfl
    · exact validUtf8_bytes _
    · exact validUtf8_bytes _
    · exact .string (validUtf8_bytes _)
    · exact .string (validUtf8_bytes _)
  · exact publishJson_valid _ (validUtf8_bytes _) (validUtf8_bytes _)

theorem sampleJson_values : sampleJson.Values := tableJson_values _

/-- The frame that it makes. -/
def publishFrame : Str :=
  bytes "\x7b\"payload\":\"x\",\"topic\":\"a\",\"type\":\"publish\"\x7d"

end Server

end EllohimMQ
