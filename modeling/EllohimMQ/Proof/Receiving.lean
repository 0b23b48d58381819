import EllohimMQ.Proof.Wired

/-!
# The outcomes of `recv` in `handle_read`

`handle_read` stores the result of `recv` in a `size_t` and tests `bytes_read > 0` first, so -1 is
taken for 2^64 - 1 received bytes: `std::string(buffer, bytes_read)` throws before the test for
`EAGAIN` is reached, and nothing between there and the event loop catches the exception.  Bytes and
the end of the stream are handled as intended (`receive_iff`).
-/

namespace EllohimMQ

open Transition

namespace Server

variable {J : Nlohmann}

/-- The read handler that `handle_read` finds for a descriptor. -/
def readHandlerOf (s : Server) (fd : Fd) : Option ReadHandler :=
  (s.connections.lookup fd).bind fun id => (s.objects.lookup id).bind TcpConnection.readHandler

/-- The connection `c` on `fd` is told that it has ended, once, and is given up: the descriptor
leaves `connections` and the epoll set, in which nothing else changes. -/
structure Ended (s s' : Server) (fd : Fd) (c : ConnId) : Prop where
  notified : s'.trace.count (.closeHandler c) = s.trace.count (.closeHandler c) + 1
  connections : ∀ fd', s'.connections.lookup fd' =
    if fd' = fd then none else s.connections.lookup fd'
  epoll : s'.epoll = Function.update s.epoll fd false

/-- What each outcome of `recv` on the descriptor of the connection `c` should lead to. -/
def Received (J : Nlohmann) (s s' : Server) (fd : Fd) (c : ConnId) : RecvResult → Prop
  | .ok [] => s.Ended s' fd c
  | .ok data => ∃ handler, s.readHandlerOf fd = some handler ∧
      s' = s.handleMessage J handler.conn data
  | .fail errno => if errno.wouldBlock = true then s' = s else s.Ended s' fd c

theorem ended_closeConnection {s : Server} (fd : Fd) (c : ConnId) :
    s.Ended (({ s with trace := s.trace ++ [.closeHandler c] } : Server).closeConnection fd) fd c
    where
  notified := by simp [closeConnection]
  connections := lookup_filter_ne s.connections fd
  epoll := rfl

theorem Wired.readHandlerOf_eq {s : Server} (h : s.Wired) {fd : Fd} {c : ConnId}
    (ho : s.owner fd = some c) : s.readHandlerOf fd = some ⟨c⟩ := by
  obtain ⟨fd', hobj, -⟩ := h.objects c (h.owner_lt ho)
  have hconn : s.connections.lookup fd = some c := (h.connections fd).trans ho
  simp [readHandlerOf, hconn, hobj, wiredConnection]

/-- On a client's descriptor `handle_read` does what the outcome of `recv` asks for, and returns, if
and only if `recv` did not return -1. -/
theorem receive_iff {registry : Consumers} {serverFd : Fd} {s : Server}
    (h : Reachable (Server.input J) (main registry serverFd) s) {fd : Fd} {c : ConnId}
    (hc : s.connections.lookup fd = some c) {r : RecvResult} (hlen : r.buffer.length ≤ 1024) :
    (∃ s', s.handleRead J fd r = (s', none) ∧ s.Received J s' fd c r) ↔ ∃ data, r = .ok data := by
  have hw := wired_of_reachable h
  have ho : s.owner fd = some c := (hw.connections fd).symm.trans hc
  rcases hw.handleRead_cases ho hlen with ⟨data, rfl, hne, e⟩ | ⟨rfl, e⟩ | ⟨errno, what, rfl, e⟩
  · refine iff_of_true ⟨_, e, ?_⟩ ⟨data, rfl⟩
    cases data with
    | nil => exact absurd rfl hne
    | cons b bs => exact ⟨⟨c⟩, hw.readHandlerOf_eq ho, rfl⟩
  · exact iff_of_true ⟨_, e, ended_closeConnection fd c⟩ ⟨[], rfl⟩
  · refine iff_of_false ?_ ?_
    · rintro ⟨s', e', -⟩
      rw [e, Prod.mk.injEq] at e'
      cases e'.2
    · rintro ⟨data, hr⟩
      cases hr

/-- A subscribe received on the descriptor of the first client. -/
theorem receive_iff_subscribe :
    ∃ s s', run (Server.input sampleJson) (main .empty 3) [.accept 5] = some s ∧
      s.handleRead sampleJson 5 (.ok subscribeText) = (s', none) ∧
      s.Received sampleJson s' 5 0 (.ok subscribeText) := by
  let s := (main .empty 3).acceptOne 5
  have hrun : run (Server.input sampleJson) (main .empty 3) [.accept 5] = some s := rfl
  have hlookup : s.connections.lookup 5 = some 0 := rfl
  have hlen : (RecvResult.ok subscribeText).buffer.length ≤ 1024 := by decide
  obtain ⟨s', hs', hr⟩ := (receive_iff (J := sampleJson) ⟨[.accept 5], hrun⟩ hlookup hlen).2 ⟨_, rfl⟩
  exact ⟨s, s', hrun, hs', hr⟩

/-- The first client resets its connection (errno 104): an exception leaves `handle_read`. -/
theorem receive_throws :
    ∃ s, run (Server.input sampleJson) (main .empty 3) [.accept 5] = some s ∧
      s.connections.lookup 5 = some 0 ∧
      (s.handleRead sampleJson 5 (.fail (.other 104))).2 = some (bytes "basic_string::_M_create") ∧
      ¬ ∃ s', s.handleRead sampleJson 5 (.fail (.other 104)) = (s', none) ∧
        s.Received sampleJson s' 5 0 (.fail (.other 104)) := by
  refine ⟨(main .empty 3).acceptOne 5, rfl, rfl, by decide, ?_⟩
  rintro ⟨s', hs', -⟩
  have hthrown : _ = none := congrArg Prod.snd hs'
  exact absurd hthrown (by decide)

end Server

end EllohimMQ
