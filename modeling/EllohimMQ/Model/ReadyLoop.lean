import EllohimMQ.Model.EventLoop

/-!
# The loop, whatever is reported

`TcpServer::start` on Linux again, with less said about the kernel: `epoll_wait` may report any
descriptors of the epoll set, `recv` may return anything that fits into the buffer, and the
connection handler may be any function of its interface.  What holds of every run of this loop holds
of the loop of `EventLoop`, whose kernel reports only what has become ready.
-/

namespace EllohimMQ

/-- What a connection handler can do with the connection that it is given: install a read handler
and a close handler.  The descriptor is private to `TcpConnection`. -/
def installing (onMessage : ConnId → Option ReadHandler) (onClose : ConnId → Bool) (id : ConnId)
    (conn : TcpConnection) : TcpConnection :=
  { conn with readHandler := onMessage id, closeHandler := onClose id }

theorem mainConnectionHandler_eq :
    mainConnectionHandler = installing (fun id => some ⟨id⟩) fun _ => true := rfl

/-- The server and where its loop is. -/
structure ReadyLoop where
  server : Server
  phase : LoopPhase

/-- The steps of the loop, with what the system calls return. -/
inductive ReadyStep where
  | epollWait (events : List Fd)
  | epollError
  | event
  | accept (r : AcceptResult)
  | read (r : RecvResult)
  | again
  deriving DecidableEq

namespace ReadyLoop

/-- A server with handlers of any kind, or without, before its first `epoll_wait`. -/
def start (handlers : Option ((ConnId → Option ReadHandler) × (ConnId → Bool)))
    (registry : Consumers) (serverFd : Fd) : ReadyLoop where
  server := { Server.main registry serverFd with
    connectionHandler := handlers.map fun h => installing h.1 h.2 }
  phase := .waiting

/-- One step; `none` when it is not possible in the state, or ends the process. -/
def step (J : Nlohmann) (s : ReadyLoop) : ReadyStep → Option ReadyLoop
  | .epollWait events =>
    if s.phase = .waiting ∧ events.Nodup ∧ events.length ≤ 10 ∧
        ∀ fd ∈ events, s.server.epoll fd = true then
      some { s with phase := .handling events }
    else none
  | .epollError => if s.phase = .waiting then some s else none
  | .event =>
    match s.phase with
    | .handling (fd :: events) =>
      if fd = s.server.serverFd then some { s with phase := .accepting events } else none
    | _ => none
  | .accept r =>
    match s.phase, r with
    | .accepting _, .ok fd =>
      if s.server.owner fd = none ∧ fd ≠ s.server.serverFd then
        some { s with server := s.server.acceptOne fd }
      else none
    | .accepting events, .fail _ => some { s with phase := .handling events }
    | _, _ => none
  | .read r =>
    match s.phase with
    | .handling (fd :: events) =>
      if fd = s.server.serverFd ∨ 1024 < r.buffer.length then none
      else
        match s.server.handleRead J fd r with
        | (_, some _) => none
        | (server, none) => some ⟨server, .handling events⟩
    | _ => none
  | .again => if s.phase = .handling [] then some { s with phase := .waiting } else none

end ReadyLoop

end EllohimMQ
