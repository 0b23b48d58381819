import EllohimMQ.Model.TcpServer

/-!
# The loop on Windows

`TcpServer::start` with `WSAPoll`, where the set of descriptors is a vector of the server's own.  One
pass takes what `WSAPoll` has written into the `revents`, accepts while there are clients, and walks
over the vector with an index that stays where it is when the entry there is erased.  The epoll set of
`Server` plays no part.

Every use of `poll_fds[i]` is a lookup that can fail.  `examined` and `reads` record the entries for
which the walk has looked `connections` up and the calls of `handle_read`; the code keeps no record.
-/

namespace EllohimMQ

/-- `pollfd`; its `events` are `POLLIN` in every entry, and only `WSAPoll` reads them. -/
structure PollFd where
  fd : Fd
  revents : BitVec 16
  deriving DecidableEq

/-- `POLLIN`, which is `POLLRDNORM | POLLRDBAND` on Windows -/
def pollIn : BitVec 16 := 0x0300

/-- `revents & POLLIN` -/
def PollFd.readable (p : PollFd) : Bool := p.revents &&& pollIn ≠ 0

/-- The server and the vector that `WSAPoll` is given. -/
structure PollServer where
  server : Server
  pollFds : List PollFd

/-- The walk over `poll_fds`. -/
structure Walk extends PollServer where
  i : ℕ
  examined : List PollFd
  reads : List Fd

namespace PollServer

/-- The loop of `handle_accept`, with the descriptors that `accept` returns before it fails.  The
`revents` of an appended entry are not set: they are what was in memory. -/
def handleAccept (s : PollServer) (accepts : List PollFd) : PollServer :=
  accepts.foldl
    (fun s client => ⟨s.server.acceptOne client.fd, s.pollFds ++ [client]⟩) s

/-- The state in which the walk begins; `accepts` is used when the listening socket is readable. -/
def beforeWalk (s : PollServer) (accepts : List PollFd) : Option Walk :=
  match s.pollFds[(0 : ℕ)]? with
  | none => none
  | some p =>
    let s' := if p.readable then s.handleAccept accepts else s
    some ⟨s', 1, [], []⟩

end PollServer

namespace Walk

variable (J : Nlohmann) (recv : ℕ → RecvResult)

/-- `if (poll_fds[i].revents & POLLIN) handle_read(poll_fds[i].fd);`, where `recv k` is the result of
the `recv` in the `k`-th call of the pass; `none` when an exception leaves it. -/
def read (w : Walk) (p : PollFd) : Option Walk :=
  if p.readable then
    match w.server.handleRead J p.fd (recv w.reads.length) with
    | (server, none) => some { w with server, reads := w.reads ++ [p.fd] }
    | (_, some _) => none
  else some w

/-- Erase the entry that has lost its connection, or go on to the next one. -/
def advance (w : Walk) (p : PollFd) : Walk :=
  match w.server.connections.lookup p.fd with
  | none => { w with pollFds := w.pollFds.eraseIdx w.i, examined := w.examined ++ [p] }
  | some _ => { w with i := w.i + 1, examined := w.examined ++ [p] }

/-- The body of the loop; `none` also when an index is past the end. -/
def turn (w : Walk) : Option Walk :=
  match w.pollFds[w.i]? with
  | none => none
  | some p => (w.read J recv p).bind fun w' => w'.pollFds[w'.i]?.map w'.advance

/-- The loop, for at most `fuel` tests of its condition. -/
def loop : ℕ → Walk → Option Walk
  | 0, _ => none
  | fuel + 1, w =>
    if w.i < w.pollFds.length then (w.turn J recv).bind (loop fuel) else some w

end Walk

/-- One pass of the outer loop, from after `WSAPoll` to before the sleep. -/
def PollServer.pass (J : Nlohmann) (recv : ℕ → RecvResult) (fuel : ℕ) (s : PollServer)
    (accepts : List PollFd) : Option Walk :=
  (s.beforeWalk accepts).bind (Walk.loop J recv fuel)

/-! ## Runs -/

/-- What the operating system does in one turn of the outer loop: what `WSAPoll` writes for a
descriptor, the clients that `accept` returns, and the results of the calls of `recv`, whose buffer
holds 1024 bytes. -/
structure PollTurn where
  revents : Fd → BitVec 16
  accepts : List PollFd
  recv : ℕ → RecvResult
  fits : ∀ k, (recv k).buffer.length ≤ 1024

namespace PollServer

/-- The server of `main` before its first `WSAPoll`. -/
def start (registry : Consumers) (serverFd : Fd) : PollServer :=
  ⟨.main registry serverFd, [⟨serverFd, 0⟩]⟩

/-- `WSAPoll(poll_fds.data(), poll_fds.size(), -1)` -/
def wsaPoll (s : PollServer) (revents : Fd → BitVec 16) : PollServer :=
  { s with pollFds := s.pollFds.map fun p => { p with revents := revents p.fd } }

/-- One turn of the outer loop; `none` stands for a `WSAPoll` that fails.  `accept` returns
descriptors that are not open. -/
def step (J : Nlohmann) (s : PollServer) : Option PollTurn → Option PollServer
  | none => some s
  | some turn =>
    if (turn.accepts.map PollFd.fd).Nodup ∧ ∀ client ∈ turn.accepts,
        s.server.owner client.fd = none ∧ client.fd ≠ s.server.serverFd then
      ((s.wsaPoll turn.revents).pass J turn.recv (s.pollFds.length + turn.accepts.length)
        turn.accepts).map Walk.toPollServer
    else none

end PollServer

end EllohimMQ
