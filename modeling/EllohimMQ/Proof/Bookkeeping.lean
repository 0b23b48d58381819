import EllohimMQ.Model.ReadyLoop
import EllohimMQ.Proof.Readiness

/-!
# Connections, descriptors and events

Accepting and closing happen in the middle of a batch that was computed before, and a descriptor
number is free for the next `accept` as soon as it is closed.  `Booked` ties the map of connections,
the epoll set and the open descriptors together, and `Kept` adds the events that are left: they are
pairwise different, so a close takes away no event but its own, and each names the listening socket
or a key of the map, so no `accept` can return the descriptor of one of them.
-/

namespace EllohimMQ

open Transition

namespace Server

variable {J : Nlohmann}

/-- The descriptor is a key of `connections`. -/
def HasKey (s : Server) (fd : Fd) : Prop := (s.connections.lookup fd).isSome

/-- The books of the server: the keys of `connections` are the open client descriptors, the epoll
set has these and the listening socket, every key has an object with its own descriptor, and every
`close` was made on an open descriptor. -/
structure Booked (s : Server) : Prop where
  handler : ∀ f, s.connectionHandler = some f → ∀ id conn, (f id conn).sockFd = conn.sockFd
  connections : ∀ fd, s.connections.lookup fd = s.owner fd
  epoll : ∀ fd, s.epoll fd = true ↔ fd = s.serverFd ∨ s.HasKey fd
  serverFd : s.owner s.serverFd = none
  objects : ∀ e ∈ s.connections, e.2 < s.nextConn ∧
    ∃ o, s.objects.lookup e.2 = some o ∧ o.sockFd = e.1
  closed : ∀ fd session, .closed fd session ∈ s.trace → session.isSome

theorem Booked.hasKey_iff {s : Server} (h : s.Booked) (fd : Fd) :
    s.HasKey fd ↔ (s.owner fd).isSome := by rw [HasKey, h.connections]

/-! ## What handling a message leaves alone -/

/-- `s'` differs from `s` in its broker and in further events, which close no descriptor. -/
def Extends (s s' : Server) : Prop :=
  ∃ broker tr, s' = { s with broker := broker, trace := s.trace ++ tr } ∧
    ∀ fd session, .closed fd session ∉ tr

theorem Extends.refl (s : Server) : s.Extends s := ⟨s.broker, [], by simp, by simp⟩

theorem Extends.trans {s s' s'' : Server} (h : s.Extends s') (h' : s'.Extends s'') :
    s.Extends s'' := by
  obtain ⟨broker, tr, rfl, hn⟩ := h
  obtain ⟨broker', tr', rfl, hn'⟩ := h'
  refine ⟨broker', tr ++ tr', by simp, fun fd session hm => ?_⟩
  rcases List.mem_append.1 hm with hm | hm
  · exact hn fd session hm
  · exact hn' fd session hm

theorem extends_reply (s : Server) (conn : ConnId) (data : Str) : s.Extends (s.reply conn data) := by
  unfold reply
  rcases s.objects.lookup conn with _ | o
  · exact .refl s
  · exact ⟨s.broker, _, rfl, by simp⟩

theorem extends_sendFrame (s : Server) (f : Frame ConnId) : s.Extends (s.sendFrame f) := by
  unfold sendFrame
  rcases s.objects.lookup f.conn with _ | o
  · exact .refl s
  · exact ⟨s.broker, _, rfl, by simp⟩

theorem extends_foldl_sendFrame (frames : List (Frame ConnId)) (s : Server) :
    s.Extends (frames.foldl sendFrame s) := by
  induction frames generalizing s with
  | nil => exact .refl s
  | cons f frames ih => exact (extends_sendFrame s f).trans (ih (s.sendFrame f))

theorem extends_publish (s : Server) (conn : ConnId) (topic payload : Str) :
    s.Extends (s.publish J conn topic payload).1 := by
  refine .trans ?_ (extends_foldl_sendFrame _ _)
  exact ⟨_, _, rfl, by simp⟩

/-- Handling a message changes the broker and adds events. -/
theorem extends_handleMessage (s : Server) (conn : ConnId) (data : Str) :
    s.Extends (s.handleMessage J conn data) := by
  rcases hr : request J data with ⟨topic, payload⟩ | topic | _ | what <;>
    simp only [handleMessage, hr]
  · have hp := extends_publish (J := J) s conn topic payload
    rcases hs : s.publish J conn topic payload with ⟨s', _ | what⟩ <;> rw [hs] at hp
    · exact hp
    · exact hp.trans (extends_reply s' conn _)
  · exact ⟨_, _, rfl, by simp⟩
  · exact extends_reply s conn _
  · exact extends_reply s conn _

/-- What `handle_read` does when it returns: more events, or the end of the connection. -/
theorem handleRead_returns {s s' : Server} {fd : Fd} {c : ConnId} {r : RecvResult}
    (hc : s.connections.lookup fd = some c) (h : s.handleRead J fd r = (s', none)) :
    s.Extends s' ∨ ∃ s₁, s.Extends s₁ ∧ s' = (s₁.closeConnection fd).release c := by
  simp only [handleRead, hc] at h
  by_cases hpos : 0 < r.bytesRead.toNat
  · rw [if_pos hpos] at h
    rcases hh : (s.objects.lookup c).bind TcpConnection.readHandler with _ | handler <;>
      simp only [hh] at h
    · exact .inl ((Prod.mk.inj h).1 ▸ .refl s)
    · rcases hs : stringOfBuffer r.buffer r.bytesRead.toNat with what | msg <;> simp only [hs] at h
      · cases (Prod.mk.inj h).2
      · exact .inl ((Prod.mk.inj h).1 ▸ extends_handleMessage s handler.conn msg)
  · rw [if_neg hpos] at h
    split_ifs at h
    · exact .inl ((Prod.mk.inj h).1 ▸ .refl s)
    · exact .inr ⟨_, ⟨s.broker, [.closeHandler c], rfl, by simp⟩, (Prod.mk.inj h).1.symm⟩
    · exact .inr ⟨_, ⟨s.broker, [], rfl, by simp⟩, (Prod.mk.inj h).1.symm⟩

/-! ## What each operation does to the books -/

theorem Booked.extends {s s' : Server} (h : s.Booked) (hs : s.Extends s') : s'.Booked := by
  obtain ⟨broker, tr, rfl, hn⟩ := hs
  refine ⟨h.handler, h.connections, h.epoll, h.serverFd, h.objects, fun fd session hm => ?_⟩
  exact h.closed fd session ((List.mem_append.1 hm).resolve_right (hn fd session))

theorem lookup_acceptOne (s : Server) (fd fd' : Fd) : (s.acceptOne fd).connections.lookup fd' =
    if fd' = fd then some s.nextConn else s.connections.lookup fd' := by
  show List.lookup fd' ((fd, s.nextConn) :: s.connections.filter (·.1 ≠ fd)) = _
  by_cases hf : fd' = fd
  · simp [hf]
  · rw [List.lookup_cons, beq_false_of_ne hf, if_neg hf]
    exact (lookup_filter_ne _ _ _).trans (if_neg hf)

theorem Booked.acceptOne {s : Server} (h : s.Booked) {fd : Fd} (hne : fd ≠ s.serverFd) :
    (s.acceptOne fd).Booked := by
  have hlookup := s.lookup_acceptOne fd
  constructor
  · exact h.handler
  · intro fd'
    rw [hlookup]
    by_cases hf : fd' = fd <;> simp [Server.acceptOne, hf, h.connections]
  · intro fd'
    rw [HasKey, hlookup]
    by_cases hf : fd' = fd
    · simp [Server.acceptOne, hf]
    · have hepoll : (s.acceptOne fd).epoll fd' = s.epoll fd' := Function.update_of_ne hf _ _
      rw [hepoll, if_neg hf]
      exact h.epoll fd'
  · exact (Function.update_of_ne (Ne.symm hne) _ _).trans h.serverFd
  · intro e he
    have hobj : ∃ o, (s.acceptOne fd).objects = (s.nextConn, o) :: s.objects ∧ o.sockFd = fd := by
      rcases hf : s.connectionHandler with _ | f
      · exact ⟨⟨fd, none, false⟩, by simp only [Server.acceptOne, hf], rfl⟩
      · exact ⟨f s.nextConn ⟨fd, none, false⟩, by simp only [Server.acceptOne, hf],
          h.handler f hf _ _⟩
    obtain ⟨o, ho, hsock⟩ := hobj
    rw [ho]
    rcases List.mem_cons.1 he with rfl | he
    · exact ⟨Nat.lt_succ_self _, o, by simp, hsock⟩
    · obtain ⟨hlt, o', ho', hsock'⟩ := h.objects e (List.mem_filter.1 he).1
      have hnew : e.2 ≠ s.nextConn := Nat.ne_of_lt hlt
      refine ⟨Nat.lt_succ_of_lt hlt, o', ?_, hsock'⟩
      rw [List.lookup_cons, beq_false_of_ne hnew]
      exact ho'
  · intro fd' session hm
    have hm' : .closed fd' session ∈ s.trace := by simpa [Server.acceptOne] using hm
    exact h.closed fd' session hm'

theorem Booked.closeConnection {s : Server} (h : s.Booked) {fd : Fd} (hfd : s.HasKey fd) :
    (s.closeConnection fd).Booked := by
  have hlookup : ∀ fd', (s.closeConnection fd).connections.lookup fd' =
      if fd' = fd then none else s.connections.lookup fd' := lookup_filter_ne _ _
  have hne : s.serverFd ≠ fd := by
    rintro rfl
    simp [h.hasKey_iff, h.serverFd] at hfd
  constructor
  · exact h.handler
  · intro fd'
    rw [hlookup]
    by_cases hf : fd' = fd <;> simp [Server.closeConnection, hf, h.connections]
  · intro fd'
    rw [HasKey, hlookup]
    by_cases hf : fd' = fd
    · subst hf
      simp [Server.closeConnection, Ne.symm hne]
    · have hepoll : (s.closeConnection fd).epoll fd' = s.epoll fd' := Function.update_of_ne hf _ _
      rw [hepoll, if_neg hf]
      exact h.epoll fd'
  · exact (Function.update_of_ne hne _ _).trans h.serverFd
  · intro e he
    exact h.objects e (List.mem_filter.1 he).1
  · intro fd' session hm
    have hm' : .closed fd' session ∈ s.trace ∨ fd' = fd ∧ session = s.owner fd := by
      simpa [Server.closeConnection] using hm
    rcases hm' with hm' | ⟨rfl, rfl⟩
    · exact h.closed fd' session hm'
    · exact (h.hasKey_iff fd').1 hfd

theorem Booked.release {s : Server} (h : s.Booked) (c : ConnId) : (s.release c).Booked := by
  unfold Server.release
  split_ifs with hzero
  · refine ⟨h.handler, h.connections, h.epoll, h.serverFd, fun e he => ?_, h.closed⟩
    obtain ⟨hlt, o, ho, hfd⟩ := h.objects e he
    have hcount : s.connections.countP (·.2 = c) = 0 := by
      unfold useCount at hzero
      omega
    have hne : e.2 ≠ c := by
      have := List.countP_eq_zero.1 hcount e he
      simpa using this
    exact ⟨hlt, o, ((lookup_filter_ne _ _ _).trans (if_neg hne)).trans ho, hfd⟩
  · exact h

/-- After the end of the connection on `fd` the books are in order, and only the key `fd` is gone. -/
theorem Booked.ended {s s₁ : Server} (h : s.Booked) (hs : s.Extends s₁) {fd : Fd} (c : ConnId)
    (hfd : s.HasKey fd) : ((s₁.closeConnection fd).release c).Booked ∧
      ∀ fd' ≠ fd, s.HasKey fd' → ((s₁.closeConnection fd).release c).HasKey fd' := by
  have hs₁ := h.extends hs
  obtain ⟨broker, tr, rfl, -⟩ := hs
  refine ⟨(hs₁.closeConnection hfd).release c, fun fd' hne hkey => ?_⟩
  have hlookup := lookup_filter_ne s.connections fd fd'
  rw [if_neg hne] at hlookup
  unfold Server.release
  split_ifs <;> exact (congrArg Option.isSome hlookup).trans hkey

theorem serverFd_ended {s s₁ : Server} (hs : s.Extends s₁) {fd : Fd} {c : ConnId} :
    ((s₁.closeConnection fd).release c).serverFd = s.serverFd := by
  obtain ⟨broker, tr, rfl, -⟩ := hs
  unfold Server.release
  split_ifs <;> rfl

end Server

namespace ReadyLoop

open Server

variable {J : Nlohmann}

/-- The books are in order, and the events that are left are different descriptors, each the
listening socket or a key of `connections`. -/
structure Kept (s : ReadyLoop) : Prop where
  booked : s.server.Booked
  nodup : s.phase.events.Nodup
  events : ∀ fd ∈ s.phase.events, fd = s.server.serverFd ∨ s.server.HasKey fd

theorem kept_start (handlers : Option ((ConnId → Option ReadHandler) × (ConnId → Bool)))
    (registry : Consumers) (serverFd : Fd) : (start handlers registry serverFd).Kept where
  booked := {
    handler := by
      rintro f hf id conn
      obtain ⟨h, -, rfl⟩ := Option.map_eq_some_iff.1 hf
      rfl
    connections := fun _ => rfl
    epoll := fun fd => by simp [start, Server.main, HasKey]
    serverFd := rfl
    objects := by simp [start, Server.main]
    closed := by simp [start, Server.main] }
  nodup := List.nodup_nil
  events := by simp [start, LoopPhase.events]

/-- The steps, with what each needs and the state it ends in. -/
inductive Moves (s : ReadyLoop) : ReadyStep → ReadyLoop → Prop
  | epollWait {events : List Fd} (hphase : s.phase = .waiting) (hnodup : events.Nodup)
    (hepoll : ∀ fd ∈ events, s.server.epoll fd = true) :
    Moves s (.epollWait events) { s with phase := .handling events }
  | epollError : Moves s .epollError s
  | event {fd : Fd} {events : List Fd} (hphase : s.phase = .handling (fd :: events)) :
    Moves s .event { s with phase := .accepting events }
  | accepted {fd : Fd} {events : List Fd} (hphase : s.phase = .accepting events)
    (hfree : s.server.owner fd = none) (hfd : fd ≠ s.server.serverFd) :
    Moves s (.accept (.ok fd)) ⟨s.server.acceptOne fd, .accepting events⟩
  | acceptFailed {events : List Fd} {errno : Errno} (hphase : s.phase = .accepting events) :
    Moves s (.accept (.fail errno)) { s with phase := .handling events }
  | handled {fd : Fd} {events : List Fd} {r : RecvResult} {server : Server}
    (hphase : s.phase = .handling (fd :: events)) (hs : s.server.Extends server) :
    Moves s (.read r) ⟨server, .handling events⟩
  | ended {fd : Fd} {events : List Fd} {r : RecvResult} {server : Server} (c : ConnId)
    (hphase : s.phase = .handling (fd :: events)) (hkey : s.server.HasKey fd)
    (hs : s.server.Extends server) :
    Moves s (.read r) ⟨(server.closeConnection fd).release c, .handling events⟩
  | again (hphase : s.phase = .handling []) : Moves s .again { s with phase := .waiting }

/-- `handle_read` finds a connection for every event. -/
theorem step_cases {s s' : ReadyLoop} (h : s.Kept) {l : ReadyStep} (hs : s.step J l = some s') :
    s.Moves l s' := by
  cases l with
  | epollWait events =>
    simp only [step] at hs
    split_ifs at hs with hg
    exact Option.some.inj hs ▸ .epollWait hg.1 hg.2.1 hg.2.2.2
  | epollError =>
    simp only [step] at hs
    split_ifs at hs
    exact Option.some.inj hs ▸ .epollError
  | event =>
    rcases hp : s.phase with _ | (_ | ⟨fd, events⟩) | events <;> simp only [step, hp] at hs
    · cases hs
    · cases hs
    · split_ifs at hs
      exact Option.some.inj hs ▸ .event hp
    · cases hs
  | accept r =>
    rcases hp : s.phase with _ | events | events <;> simp only [step, hp] at hs
    · cases hs
    · cases hs
    · cases r with
      | ok fd =>
        simp only at hs
        split_ifs at hs with hfree
        exact Option.some.inj hs ▸ .accepted hp hfree.1 hfree.2
      | fail errno => exact Option.some.inj hs ▸ .acceptFailed hp
  | read r =>
    rcases hp : s.phase with _ | (_ | ⟨fd, events⟩) | events <;> simp only [step, hp] at hs
    · cases hs
    · cases hs
    · split_ifs at hs with hguard
      have hkey : s.server.HasKey fd :=
        (h.events fd (by simp [hp, LoopPhase.events])).resolve_left fun e => hguard (.inl e)
      obtain ⟨c, hc⟩ := Option.isSome_iff_exists.1 hkey
      rcases hr : s.server.handleRead J fd r with ⟨server, _ | what⟩ <;> rw [hr] at hs
      · obtain rfl := Option.some.inj hs
        rcases handleRead_returns hc hr with hext | ⟨s₁, hext, rfl⟩
        · exact .handled hp hext
        · exact .ended c hp hkey hext
      · cases hs
    · cases hs
  | again =>
    simp only [step] at hs
    split_ifs at hs with hp
    exact Option.some.inj hs ▸ .again hp

theorem Kept.step {s s' : ReadyLoop} (h : s.Kept) {l : ReadyStep} (hs : s.step J l = some s') :
    s'.Kept := by
  have hevents := h.events
  have hnodup := h.nodup
  cases step_cases h hs with
  | epollWait hphase hnodup hepoll =>
    exact ⟨h.booked, hnodup, fun fd hfd => (h.booked.epoll fd).1 (hepoll fd hfd)⟩
  | epollError => exact h
  | event hphase =>
    rw [hphase] at hevents hnodup
    exact ⟨h.booked, hnodup.of_cons, fun fd hfd => hevents fd (List.mem_cons_of_mem _ hfd)⟩
  | accepted hphase hfree hfd =>
    rw [hphase] at hevents hnodup
    refine ⟨h.booked.acceptOne hfd, hnodup, fun fd' hfd' => ?_⟩
    refine (hevents fd' hfd').imp id fun hkey => ?_
    rw [HasKey, lookup_acceptOne]
    split_ifs
    · rfl
    · exact hkey
  | acceptFailed hphase =>
    rw [hphase] at hevents hnodup
    exact ⟨h.booked, hnodup, hevents⟩
  | handled hphase hext =>
    rw [hphase] at hevents hnodup
    have hbooked := h.booked.extends hext
    obtain ⟨broker, tr, rfl, -⟩ := hext
    exact ⟨hbooked, hnodup.of_cons, fun fd hfd => hevents fd (List.mem_cons_of_mem _ hfd)⟩
  | ended c hphase hkey hext =>
    rw [hphase] at hevents hnodup
    obtain ⟨hbooked, hkeys⟩ := h.booked.ended hext c hkey
    refine ⟨hbooked, hnodup.of_cons, fun fd' hfd' => ?_⟩
    -- the other events are other descriptors, so the close does not concern them
    have hne := ne_of_mem_of_not_mem hfd' (List.nodup_cons.1 hnodup).1
    rw [serverFd_ended hext]
    exact (hevents fd' (List.mem_cons_of_mem _ hfd')).imp id fun hkey' => hkeys fd' hne hkey'
  | again hphase => exact ⟨h.booked, List.nodup_nil, by simp [LoopPhase.events]⟩

/-- In every run of the loop, whatever is reported, accepted and received, and whatever handlers are
installed: the books are in order after every event; every event that is left is the listening
socket or a key of `connections`, so the next read finds its connection; and a descriptor that
`accept` returns is neither a key nor among the events that are left. -/
theorem bookkeeping (handlers : Option ((ConnId → Option ReadHandler) × (ConnId → Bool)))
    {registry : Consumers} {serverFd : Fd} {s : ReadyLoop}
    (h : Reachable (ReadyLoop.step J) (start handlers registry serverFd) s) :
    s.server.Booked ∧
    (∀ fd ∈ s.phase.events, fd = s.server.serverFd ∨ s.server.HasKey fd) ∧
    ∀ fd s', s.step J (.accept (.ok fd)) = some s' →
      ¬ s.server.HasKey fd ∧ fd ∉ s.phase.events := by
  have hkept : s.Kept := h.invariant (fun _ _ _ hk hs => hk.step hs) (kept_start _ _ _)
  refine ⟨hkept.booked, hkept.events, fun fd s' hs => ?_⟩
  cases step_cases hkept hs with
  | accepted hphase hfree hfd =>
    have hkey : ¬ s.server.HasKey fd := by simp [hkept.booked.hasKey_iff, hfree]
    exact ⟨hkey, fun hmem => (hkept.events fd hmem).elim hfd hkey⟩

/-- A batch reports client 5 and the listening socket; the client has gone, and the kernel gives its
number to the next one before the batch is done. -/
theorem bookkeeping_reuse :
    ∃ s, run (ReadyLoop.step sampleJson) (start none .empty 3)
        [.epollWait [3], .event, .accept (.ok 5), .accept (.fail .eagain), .again,
          .epollWait [5, 3], .read (.ok []), .event, .accept (.ok 5)] = some s ∧
      s.server.Booked ∧ s.server.connections = [(5, 1)] := by
  obtain ⟨s, hs, hconn⟩ := Option.map_eq_some_iff.1 (show (run (ReadyLoop.step sampleJson)
    (start none .empty 3) [.epollWait [3], .event, .accept (.ok 5), .accept (.fail .eagain),
      .again, .epollWait [5, 3], .read (.ok []), .event, .accept (.ok 5)]).map
        (·.server.connections) = some [(5, 1)] by rfl)
  exact ⟨s, hs, (bookkeeping none ⟨_, hs⟩).1, hconn⟩

/-! ## The loop with its kernel -/

/-- The loop of `main`, forgetting what the kernel holds. -/
def ofEventLoop (s : EventLoop) : ReadyLoop := ⟨s.server, s.phase⟩

/-- A step of the loop with its kernel is a step of this loop, or none of its business. -/
theorem step_ofEventLoop {s s' : EventLoop} (hreg : s.Registered) (hkept : (ofEventLoop s).Kept)
    {l : LoopStep} (hs : s.step J l = some s') :
    ofEventLoop s' = ofEventLoop s ∨
      ∃ l', (ofEventLoop s).step J l' = some (ofEventLoop s') := by
  have hbooked : s.server.Booked := hkept.booked
  cases EventLoop.step_cases hreg hs with
  | @epollWait events hphase hnodup hedges =>
    simp only [EventLoop.step] at hs
    split_ifs at hs with hg
    -- an edge is raised only for descriptors of the epoll set
    have hepoll : ∀ fd ∈ events, s.server.epoll fd = true := fun fd hfd =>
      (hbooked.epoll fd).2 ((hreg.edges fd (hedges fd hfd)).imp id (hbooked.hasKey_iff fd).2)
    refine .inr ⟨.epollWait events, ?_⟩
    rw [step, if_pos ⟨hphase, hnodup, hg.2.2.2.1, hepoll⟩]
    rfl
  | event hphase => exact .inr ⟨.event, by simp [step, ofEventLoop, hphase]⟩
  | @accepted events fd k backlog server hphase _ hserver =>
    simp only [Server.input] at hserver
    split_ifs at hserver with hg
    obtain rfl := Option.some.inj hserver
    exact .inr ⟨.accept (.ok fd), by simp [step, ofEventLoop, hphase, hg]⟩
  | @acceptFailed events errno hphase _ =>
    exact .inr ⟨.accept (.fail errno), by simp [step, ofEventLoop, hphase]⟩
  | @read events fd r server hphase _ hserver =>
    simp only [Server.input] at hserver
    split_ifs at hserver with hg
    have hguard : ¬ (fd = s.server.serverFd ∨ 1024 < r.buffer.length) := by
      rintro (rfl | hlen)
      · simp [hreg.serverFd] at hg
      · omega
    rcases hr : s.server.handleRead J fd r with ⟨server', _ | what⟩ <;> rw [hr] at hserver
    · obtain rfl := Option.some.inj hserver
      exact .inr ⟨.read r, by simp [step, ofEventLoop, hphase, hguard, hr]⟩
    · cases hserver
  | again hphase => exact .inr ⟨.again, by simp [step, ofEventLoop, hphase]⟩
  | _ => exact .inl rfl

/-- Every run of the loop with its kernel is a run of this loop. -/
theorem reachable_ofEventLoop {registry : Consumers} {serverFd : Fd} {s : EventLoop}
    (h : Reachable (EventLoop.step J) (.start registry serverFd) s) :
    Reachable (ReadyLoop.step J)
      (start (some (fun id => some ⟨id⟩, fun _ => true)) registry serverFd) (ofEventLoop s) := by
  refine (h.invariant (P := fun s => s.Registered ∧ Reachable (ReadyLoop.step J)
    (start (some (fun id => some ⟨id⟩, fun _ => true)) registry serverFd) (ofEventLoop s)) ?_
    ⟨EventLoop.registered_start registry serverFd, .refl _⟩).2
  rintro s l s' ⟨hreg, hreach⟩ hs
  have hkept : (ofEventLoop s).Kept :=
    hreach.invariant (fun _ _ _ hk hs => hk.step hs) (kept_start _ _ _)
  refine ⟨hreg.step hs, ?_⟩
  rcases step_ofEventLoop hreg hkept hs with heq | ⟨l', hl'⟩
  · exact heq ▸ hreach
  · exact hreach.tail hl'

end ReadyLoop

end EllohimMQ
