import EllohimMQ.Model.TcpServer

/-!
# The event loop

`TcpServer::start` on Linux, with the side of the kernel that decides what the loop gets to see.
The kernel keeps for each client descriptor the bytes that have arrived and were not read, and
whether the end of the stream has arrived; for the listening socket it keeps the connections that
were not accepted.  Descriptors are registered edge-triggered: an arrival puts the descriptor on the
list of raised edges, `epoll_wait` takes descriptors off it, and nothing else reminds the loop of
what is still unread.

The peers and the kernel act at any time between two steps of the loop.
-/

namespace EllohimMQ

/-- The receiving side of a connection in the kernel. -/
structure Inbound where
  unread : Str
  eof : Bool
  deriving DecidableEq

namespace Inbound

/-- A connection on which nothing has arrived. -/
def empty : Inbound := ⟨[], false⟩

/-- There is something that `recv` can return. -/
def readable (k : Inbound) : Bool := !k.unread.isEmpty || k.eof

/-- The results that `recv` can have.  It takes any number of the unread bytes that fits into the
buffer, reports the end only when no byte is left, and would block only when there is nothing. -/
def recv (k : Inbound) : RecvResult → Bool
  | .ok [] => k.unread.isEmpty && k.eof
  | .ok data => data.isPrefixOf k.unread && data.length ≤ 1024
  | .fail errno => !(errno.wouldBlock && k.readable)

end Inbound

/-- Where the loop is: about to call `epoll_wait`, before the first of the events that are left, or
in the loop of `handle_accept`. -/
inductive LoopPhase where
  | waiting
  | handling (events : List Fd)
  | accepting (events : List Fd)
  deriving DecidableEq

/-- The events of the batch that are left. -/
def LoopPhase.events : LoopPhase → List Fd
  | .waiting => []
  | .handling events => events
  | .accepting events => events

/-- In the loop of `handle_accept`. -/
def LoopPhase.isAccepting : LoopPhase → Bool
  | .accepting _ => true
  | _ => false

/-- `edges` lists the descriptors whose edge is raised. -/
structure EventLoop where
  server : Server
  inbound : Fd → Inbound
  backlog : List Inbound
  edges : List Fd
  phase : LoopPhase

/-- The steps of the peers (on an accepted connection, or on entry `i` of the backlog) and of the
loop, with what the system calls return. -/
inductive LoopStep where
  | arrive (fd : Fd) (data : Str)
  | finish (fd : Fd)
  | connect
  | arrivePending (i : ℕ) (data : Str)
  | finishPending (i : ℕ)
  | epollWait (events : List Fd)
  | epollError
  | event
  | accept (r : AcceptResult)
  | read (r : RecvResult)
  | again
  deriving DecidableEq

namespace EventLoop

/-- The loop of `main`'s server before its first `epoll_wait`. -/
def start (registry : Consumers) (serverFd : Fd) : EventLoop where
  server := .main registry serverFd
  inbound _ := .empty
  backlog := []
  edges := []
  phase := .waiting

/-- The edge of a descriptor is raised, if it is not raised yet. -/
def raise (edges : List Fd) (fd : Fd) : List Fd := if fd ∈ edges then edges else edges ++ [fd]

/-! ## The peers -/

/-- Bytes or the end of the stream arrive on an open connection. -/
def arrival (s : EventLoop) (fd : Fd) (k : Inbound) : EventLoop :=
  { s with inbound := Function.update s.inbound fd k, edges := raise s.edges fd }

/-! ## The loop -/

/-- An iteration of the loop of `handle_accept`.  The kernel raises the edge of a descriptor that is
readable when it is registered. -/
def acceptStep (s : EventLoop) (events : List Fd) : AcceptResult → Option EventLoop
  | .ok fd =>
    match s.backlog with
    | [] => none
    | k :: backlog =>
      if s.server.owner fd = none ∧ fd ≠ s.server.serverFd then
        some { s with
          server := s.server.acceptOne fd
          inbound := Function.update s.inbound fd k
          backlog
          edges := if k.readable then raise s.edges fd else s.edges }
      else none
  | .fail errno =>
    if errno.wouldBlock = true ∧ s.backlog ≠ [] then none
    else some { s with phase := .handling events }

/-- `handle_read(fd)`.  A descriptor that is closed leaves the epoll set. -/
def readStep (J : Nlohmann) (s : EventLoop) (fd : Fd) (events : List Fd) (r : RecvResult) :
    Option EventLoop :=
  if (s.inbound fd).recv r then
    match s.server.handleRead J fd r with
    | (_, some _) => none
    | (server, none) =>
      let k := s.inbound fd
      some { s with
        server
        inbound := Function.update s.inbound fd { k with unread := k.unread.drop r.buffer.length }
        edges := if (server.owner fd).isSome then s.edges else s.edges.filter (· ≠ fd)
        phase := .handling events }
  else none

/-- One step; `none` when it is not possible in the state, or ends the process. -/
def step (J : Nlohmann) (s : EventLoop) : LoopStep → Option EventLoop
  | .arrive fd data =>
    let k := s.inbound fd
    if (s.server.owner fd).isSome ∧ data ≠ [] ∧ k.eof = false then
      some (s.arrival fd { k with unread := k.unread ++ data })
    else none
  | .finish fd =>
    let k := s.inbound fd
    if (s.server.owner fd).isSome ∧ k.eof = false then some (s.arrival fd { k with eof := true })
    else none
  | .connect =>
    some { s with
      backlog := s.backlog ++ [.empty]
      edges := raise s.edges s.server.serverFd }
  | .arrivePending i data =>
    match s.backlog[i]? with
    | none => none
    | some k =>
      if k.eof then none
      else some { s with backlog := s.backlog.set i { k with unread := k.unread ++ data } }
  | .finishPending i =>
    match s.backlog[i]? with
    | none => none
    | some k => some { s with backlog := s.backlog.set i { k with eof := true } }
  | .epollWait events =>
    if s.phase = .waiting ∧ events ≠ [] ∧ events.Nodup ∧ events.length ≤ 10 ∧
        ∀ fd ∈ events, fd ∈ s.edges then
      some { s with edges := s.edges.filter (· ∉ events), phase := .handling events }
    else none
  | .epollError => if s.phase = .waiting then some s else none
  | .event =>
    match s.phase with
    | .handling (fd :: events) =>
      if fd = s.server.serverFd then some { s with phase := .accepting events } else none
    | _ => none
  | .accept r =>
    match s.phase with
    | .accepting events => s.acceptStep events r
    | _ => none
  | .read r =>
    match s.phase with
    | .handling (fd :: events) =>
      if fd = s.server.serverFd then none else s.readStep J fd events r
    | _ => none
  | .again => if s.phase = .handling [] then some { s with phase := .waiting } else none

end EventLoop

end EllohimMQ
