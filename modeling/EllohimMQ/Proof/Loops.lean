import EllohimMQ.Proof.PollPass

/-!
# The loops and the server

What the server does for an input does not depend on the loop that brings the input.  On Linux and on
Windows the loop only ever brings inputs that the server may get, and every sequence of inputs is one
that each of the loops can bring.  So the two loops reach the same servers, and what holds in every run
of `Server.input` holds in every run of either.
-/

namespace EllohimMQ

open Transition

variable {J : Nlohmann} {registry : Consumers} {serverFd : Fd}

/-! ## Linux -/

namespace EventLoop

/-- The loop is about to wait, and nothing has arrived that it has not read. -/
structure Calm (s : EventLoop) : Prop where
  registered : s.Registered
  phase : s.phase = .waiting
  backlog : s.backlog = []
  edges : s.edges = []
  inbound : ∀ fd, (s.server.owner fd).isSome → s.inbound fd = .empty

/-- A client connects, and the loop accepts it. -/
theorem Calm.accept {s : EventLoop} (h : s.Calm) {fd : Fd} {t : Server}
    (ht : s.server.input J (.accept fd) = some t) :
    ∃ s', Steps (step J) s s' ∧ s'.Calm ∧ s'.server = t := by
  obtain ⟨hserverFd, hne, howner⟩ := Server.input_accept ht
  rw [Server.input] at ht
  split_ifs at ht with hfd
  obtain rfl := Option.some.inj ht
  let s' : EventLoop :=
    ⟨s.server.acceptOne fd, Function.update s.inbound fd .empty, [], [], .waiting⟩
  have hrun : run (step J) s [.connect, .epollWait [s.server.serverFd], .event, .accept (.ok fd),
      .accept (.fail .eagain), .again] = some s' := by
    simp [step, raise, acceptStep, hfd.1, hfd.2, h.phase, h.backlog, h.edges, Inbound.readable,
      Inbound.empty, s']
  have hregistered := Steps.invariant (fun _ _ _ hr => hr.step) ⟨_, hrun⟩ h.registered
  refine ⟨s', ⟨_, hrun⟩, ⟨hregistered, rfl, rfl, rfl, fun fd' hfd' => ?_⟩, rfl⟩
  by_cases he : fd' = fd
  · rw [he]
    exact Function.update_self ..
  · refine (Function.update_of_ne he ..).trans (h.inbound fd' ?_)
    change ((s.server.acceptOne fd).owner fd').isSome at hfd'
    rwa [howner, Function.update_of_ne he] at hfd'

/-- Bytes arrive, or the end of the stream, and the loop reads them all. -/
theorem Calm.read {s : EventLoop} (h : s.Calm) {fd : Fd} {r : RecvResult} {t : Server}
    (ht : s.server.input J (.read fd r) = some t) :
    ∃ s', Steps (step J) s s' ∧ s'.Calm ∧ s'.server = t := by
  have hinput := ht
  rw [Server.input] at ht
  split_ifs at ht with hfd
  rcases hread : s.server.handleRead J fd r with ⟨server, _ | what⟩ <;> rw [hread] at ht
  · obtain rfl := Option.some.inj ht
    have hne : fd ≠ s.server.serverFd := fun he => by
      simp [he, h.registered.serverFd] at hfd
    obtain ⟨-, hcase⟩ := h.registered.wired.input_read hinput
    have hinbound := h.inbound fd hfd.1
    -- what the peer does before
    obtain ⟨l, k, harrive, hrecv, hleft⟩ : ∃ l k, s.step J l = some (s.arrival fd k) ∧
        k.recv r = true ∧
        ((server.owner fd).isSome → { k with unread := k.unread.drop r.buffer.length } = .empty) := by
      rcases hcase with ⟨data, rfl, hdata, howner⟩ | ⟨rfl, howner⟩
      · refine ⟨.arrive fd data, ⟨data, false⟩, ?_, ?_, fun _ => ?_⟩
        · simp [step, hfd.1, hdata, hinbound, Inbound.empty]
        · obtain ⟨b, bs, rfl⟩ := List.exists_cons_of_ne_nil hdata
          simpa [Inbound.recv, RecvResult.buffer] using hfd.2
        · simp [RecvResult.buffer, Inbound.empty]
      · refine ⟨.finish fd, ⟨[], true⟩, ?_, rfl, fun ho => ?_⟩
        · simp [step, hfd.1, hinbound, Inbound.empty]
        · simp [howner] at ho
    let s' : EventLoop := ⟨server, Function.update (s.arrival fd k).inbound fd
      { k with unread := k.unread.drop r.buffer.length }, [], [], .waiting⟩
    have hrun : run (step J) s [l, .epollWait [fd], .read r, .again] = some s' := by
      rw [run_cons, harrive, Option.bind_some]
      simp [arrival, step, raise, readStep, h.phase, h.backlog, h.edges, hne, hrecv, hread, s']
    have hregistered := Steps.invariant (fun _ _ _ hr => hr.step) ⟨_, hrun⟩ h.registered
    refine ⟨s', ⟨_, hrun⟩, ⟨hregistered, rfl, rfl, rfl, fun fd' hfd' => ?_⟩, rfl⟩
    by_cases he : fd' = fd
    · rw [he] at hfd' ⊢
      exact (Function.update_self ..).trans (hleft hfd')
    · refine ((Function.update_of_ne he ..).trans (Function.update_of_ne he ..)).trans
        (h.inbound fd' ?_)
      change (server.owner fd').isSome at hfd'
      rcases hcase with ⟨-, -, -, howner⟩ | ⟨-, howner⟩ <;> rw [howner] at hfd'
      · exact hfd'
      · rwa [Function.update_of_ne he] at hfd'
  · cases ht

end EventLoop

/-! ## Windows -/

/-- The inputs of the server in the calls of `handle_read` from the `k`-th on. -/
def readInputs (recv : ℕ → RecvResult) : ℕ → List Fd → List Input
  | _, [] => []
  | k, fd :: fds => .read fd (recv k) :: readInputs recv (k + 1) fds

theorem readInputs_append (recv : ℕ → RecvResult) (k : ℕ) (fds fds' : List Fd) :
    readInputs recv k (fds ++ fds') =
      readInputs recv k fds ++ readInputs recv (k + fds.length) fds' := by
  induction fds generalizing k with
  | nil => rfl
  | cons fd fds ih =>
    rw [List.cons_append, readInputs, ih, readInputs, List.cons_append, List.length_cons]
    congr 3
    omega

/-- The listening socket is never the descriptor of a client. -/
theorem Server.Wired.listening {s s' : Server} (h : s.Wired) (hs : s.owner s.serverFd = none)
    {i : Input} (hi : s.input J i = some s') : s'.owner s'.serverFd = none := by
  cases i with
  | accept fd =>
    obtain ⟨hfd, hne, howner⟩ := Server.input_accept hi
    rw [hfd, howner, Function.update_of_ne hne.symm, hs]
  | read fd r =>
    obtain ⟨hfd, ⟨-, -, -, howner⟩ | ⟨-, howner⟩⟩ := h.input_read hi
    · rw [hfd, howner, hs]
    · rw [hfd, howner, Function.update_apply, hs, ite_self]

namespace PollServer

/-- The server is that of `main`, the listening socket is no client, and the vector lists the
connections. -/
structure Sane (s : PollServer) : Prop where
  wired : s.server.Wired
  listening : s.server.owner s.server.serverFd = none
  inStep : s.InStep

theorem Sane.hasKey_iff {s : PollServer} (h : s.Sane) (fd : Fd) :
    s.server.HasKey fd ↔ (s.server.owner fd).isSome := by
  rw [Server.HasKey, h.wired.connections]

end PollServer

namespace Walk

variable {recv : ℕ → RecvResult} {w w' : Walk}

/-- The vector after the entry `p` behind the listening socket has been read and looked at. -/
theorem inStep_advance {p : PollFd} (hin : w.toPollServer.InStep) (hi : 1 ≤ w.i)
    (hp : w.pollFds[w.i]? = some p) {server : Server} (hcloses : w.server.ClosesOnly server [p.fd])
    (reads : List Fd) :
    (advance { w with server, reads } p).toPollServer.InStep ∧
      1 ≤ (advance { w with server, reads } p).i := by
  obtain ⟨first, rest, hfds⟩ := hin.exists_cons
  have hfds' : w.pollFds = first :: rest := hfds
  obtain ⟨j, hj⟩ : ∃ j, w.i = j + 1 := ⟨w.i - 1, by omega⟩
  rw [hfds', hj, List.getElem?_cons_succ] at hp
  obtain ⟨hhead, hnodup, hkeys⟩ := hin
  rw [hfds', List.tail_cons] at hnodup hkeys
  have hhead' : first.fd = server.serverFd := by
    rw [hcloses.serverFd]
    simpa [hfds'] using hhead
  obtain ⟨pre, post, rfl, rfl⟩ : ∃ pre post, rest = pre ++ p :: post ∧ pre.length = j := by
    obtain ⟨hlt, rfl⟩ := List.getElem?_eq_some_iff.1 hp
    exact ⟨rest.take j, rest.drop (j + 1), by simp, by simp [hlt.le]⟩
  have hother : ∀ fd, fd ≠ p.fd → (server.HasKey fd ↔ w.server.HasKey fd) := fun fd hne =>
    ⟨hcloses.hasKey fd, hcloses.keeps fd (by simpa using hne)⟩
  have hnodup' : (p.fd :: (pre ++ post).map PollFd.fd).Nodup := by
    rw [List.map_append, List.map_cons] at hnodup
    rw [List.map_append]
    exact List.nodup_middle.1 hnodup
  unfold advance
  cases hlookup : server.connections.lookup p.fd with
  | none =>
    have herase : (pre ++ p :: post).eraseIdx pre.length = pre ++ post := by
      simp [List.eraseIdx_append_of_length_le]
    refine ⟨⟨?_, ?_, fun fd => ?_⟩, hi⟩
    · simp [hfds', hj, hhead']
    · simp only [hfds', hj, List.eraseIdx_cons_succ, List.tail_cons, herase]
      exact (List.nodup_cons.1 hnodup').2
    · simp only [hfds', hj, List.eraseIdx_cons_succ, List.tail_cons, herase]
      by_cases hfd : fd = p.fd
      · simp only [hfd, hnodup'.notMem, Server.HasKey, hlookup, false_iff]
        exact Bool.false_ne_true
      · rw [hother fd hfd, ← hkeys]
        simp [hfd]
  | some c =>
    refine ⟨⟨?_, ?_, fun fd => ?_⟩, Nat.le_succ_of_le hi⟩
    · simp [hfds', hhead']
    · simpa only [hfds', List.tail_cons] using hnodup
    · simp only [hfds', List.tail_cons]
      by_cases hfd : fd = p.fd
      · have hkey : server.HasKey p.fd := by rw [Server.HasKey, hlookup]; rfl
        simp [hfd, hkey]
      · rw [hkeys, hother fd hfd]

/-- What a turn of the walk, or the whole of it, does: the vector is in step again, and the server has
got the results of the calls of `recv`. -/
structure Serves (J : Nlohmann) (recv : ℕ → RecvResult) (w w' : Walk) : Prop where
  sane : w'.toPollServer.Sane
  pos : 1 ≤ w'.i
  inputs : ∃ fds, w'.reads = w.reads ++ fds ∧
    run (Server.input J) w.server (readInputs recv w.reads.length fds) = some w'.server

theorem Serves.trans {w'' : Walk} (h : Serves J recv w w') (h' : Serves J recv w' w'') :
    Serves J recv w w'' := by
  obtain ⟨fds, hreads, hrun⟩ := h.inputs
  obtain ⟨fds', hreads', hrun'⟩ := h'.inputs
  refine ⟨h'.sane, h'.pos, fds ++ fds', by rw [hreads', hreads, List.append_assoc], ?_⟩
  rw [hreads, List.length_append] at hrun'
  rw [readInputs_append]
  exact run_append_eq_some_iff.2 ⟨_, hrun, hrun'⟩

theorem serves_turn (hrecv : ∀ k, (recv k).buffer.length ≤ 1024) (hw : w.toPollServer.Sane)
    (hi : 1 ≤ w.i) (h : w.turn J recv = some w') : Serves J recv w w' := by
  unfold turn at h
  split at h
  · cases h
  next p hp =>
    have hkey : w.server.HasKey p.fd := by
      obtain ⟨first, rest, hfds⟩ := hw.inStep.exists_cons
      obtain ⟨j, hj⟩ : ∃ j, w.i = j + 1 := ⟨w.i - 1, by omega⟩
      rw [hfds, hj, List.getElem?_cons_succ] at hp
      refine (hw.inStep.keys p.fd).1 ?_
      rw [hfds, List.tail_cons]
      exact List.mem_map_of_mem (List.mem_of_getElem? hp)
    obtain ⟨w₁, hread, hmap⟩ := Option.bind_eq_some_iff.1 h
    unfold read at hread
    split_ifs at hread with hr
    · split at hread
      · next server hserver =>
        obtain rfl := Option.some.inj hread
        rw [hp, Option.map_some, Option.some.injEq] at hmap
        have hinput : w.server.input J (.read p.fd (recv w.reads.length)) = some server := by
          rw [Server.input, if_pos ⟨(hw.hasKey_iff _).1 hkey, hrecv _⟩, hserver]
        obtain ⟨hin, hpos⟩ := inStep_advance hw.inStep hi hp
          (w.server.closesOnly_handleRead hkey hserver) (w.reads ++ [p.fd])
        have hsame : w'.server = server ∧ w'.reads = w.reads ++ [p.fd] := by
          rw [← hmap]
          unfold advance
          split <;> exact ⟨rfl, rfl⟩
        rw [hmap] at hin hpos
        refine ⟨⟨?_, ?_, hin⟩, hpos, [p.fd], hsame.2, ?_⟩
        · rw [hsame.1]
          exact hw.wired.input hinput
        · rw [hsame.1]
          exact hw.wired.listening hw.listening hinput
        · simp [readInputs, hinput, hsame.1]
      · cases hread
    · obtain rfl := Option.some.inj hread
      rw [hp, Option.map_some, Option.some.injEq] at hmap
      obtain ⟨hin, hpos⟩ := inStep_advance hw.inStep hi hp (.refl _ _) w.reads
      have hsame : w'.server = w.server ∧ w'.reads = w.reads := by
        rw [← hmap]
        unfold advance
        split <;> exact ⟨rfl, rfl⟩
      rw [show advance { w with server := w.server, reads := w.reads } p = w' from hmap] at hin hpos
      refine ⟨⟨hsame.1 ▸ hw.wired, hsame.1 ▸ hw.listening, hin⟩, hpos, [], ?_, ?_⟩
      · rw [hsame.2, List.append_nil]
      · rw [hsame.1]
        rfl

theorem serves_loop (hrecv : ∀ k, (recv k).buffer.length ≤ 1024) {fuel : ℕ}
    (hw : w.toPollServer.Sane) (hi : 1 ≤ w.i) (h : loop J recv fuel w = some w') :
    Serves J recv w w' := by
  induction fuel generalizing w with
  | zero => cases h
  | succ fuel ih =>
    rw [loop] at h
    split_ifs at h
    · obtain ⟨w₁, hturn, hloop⟩ := Option.bind_eq_some_iff.1 h
      have h₁ := serves_turn hrecv hw hi hturn
      exact h₁.trans (ih h₁.sane h₁.pos hloop)
    · obtain rfl := Option.some.inj h
      exact ⟨hw, hi, [], (List.append_nil _).symm, rfl⟩

end Walk

namespace PollServer

variable {s s' : PollServer} {accepts : List PollFd} {recv : ℕ → RecvResult}

/-- The clients are accepted on descriptors that are not open. -/
structure Openable (s : PollServer) (accepts : List PollFd) : Prop where
  nodup : (accepts.map PollFd.fd).Nodup
  closed : ∀ client ∈ accepts,
    s.server.owner client.fd = none ∧ client.fd ≠ s.server.serverFd

theorem run_handleAccept (h : s.Openable accepts) :
    run (Server.input J) s.server (accepts.map fun client => .accept client.fd) =
      some (s.handleAccept accepts).server := by
  induction accepts generalizing s with
  | nil => rfl
  | cons client accepts ih =>
    obtain ⟨hnodup, hclosed⟩ := h
    rw [List.map_cons, List.nodup_cons] at hnodup
    have hfirst : s.server.input J (.accept client.fd) = some (s.server.acceptOne client.fd) := by
      rw [Server.input, if_pos (hclosed client (List.mem_cons_self ..))]
    rw [List.map_cons, run_cons, hfirst, Option.bind_some]
    refine ih (s := ⟨s.server.acceptOne client.fd, s.pollFds ++ [client]⟩)
      ⟨hnodup.2, fun client' hmem => ?_⟩
    obtain ⟨howner, hne⟩ := hclosed client' (List.mem_cons_of_mem _ hmem)
    have hfd : client'.fd ≠ client.fd := fun he => hnodup.1 (he ▸ List.mem_map_of_mem hmem)
    exact ⟨(Function.update_of_ne hfd ..).trans howner, hne⟩

theorem Sane.handleAccept (h : s.Sane) (hopen : s.Openable accepts) :
    (s.handleAccept accepts).Sane := by
  have hrun := run_handleAccept (J := Server.sampleJson) hopen
  obtain ⟨hwired, hlistening⟩ := Steps.invariant
    (P := fun t : Server => t.Wired ∧ t.owner t.serverFd = none)
    (fun t _ _ ht hi => ⟨ht.1.input hi, ht.1.listening ht.2 hi⟩) ⟨_, hrun⟩ ⟨h.wired, h.listening⟩
  refine ⟨hwired, hlistening, h.inStep.handleAccept hopen.nodup fun client hmem hkey => ?_⟩
  rw [h.hasKey_iff, (hopen.closed client hmem).1] at hkey
  cases hkey

theorem beforeWalk_eq (h : s.InStep) :
    s.beforeWalk accepts = some ⟨s.handleAccept (s.accepted accepts), 1, [], []⟩ := by
  obtain ⟨p, rest, hp⟩ := h.exists_cons
  by_cases hr : p.readable <;> simp [beforeWalk, accepted, hp, hr, handleAccept]

theorem Openable.accepted (h : s.Openable accepts) : s.Openable (s.accepted accepts) := by
  unfold PollServer.accepted
  split_ifs
  · exact h
  · exact ⟨List.nodup_nil, List.forall_mem_nil _⟩

/-- What a pass is to the server: the clients, and then the results of the calls of `recv`. -/
theorem run_pass (h : s.Sane) (hopen : s.Openable accepts)
    (hrecv : ∀ k, (recv k).buffer.length ≤ 1024) {fuel : ℕ} {w : Walk}
    (hp : s.pass J recv fuel accepts = some w) :
    w.toPollServer.Sane ∧ run (Server.input J) s.server
      ((s.accepted accepts).map (fun client => .accept client.fd) ++ readInputs recv 0 w.reads) =
        some w.server := by
  rw [pass, beforeWalk_eq h.inStep, Option.bind_some] at hp
  have hserves := Walk.serves_loop hrecv (h.handleAccept hopen.accepted) (Nat.le_refl 1) hp
  obtain ⟨fds, hreads, hrun⟩ := hserves.inputs
  rw [List.nil_append] at hreads
  exact ⟨hserves.sane, run_append_eq_some_iff.2 ⟨_, run_handleAccept hopen.accepted, hreads ▸ hrun⟩⟩

theorem Sane.wsaPoll (h : s.Sane) (revents : Fd → BitVec 16) : (s.wsaPoll revents).Sane := by
  have hmap : (s.wsaPoll revents).pollFds.map PollFd.fd = s.pollFds.map PollFd.fd := by
    simp [PollServer.wsaPoll, Function.comp_def]
  obtain ⟨hhead, hnodup, hkeys⟩ := h.inStep
  refine ⟨h.wired, h.listening, ?_, ?_, fun fd => ?_⟩
  · rw [← List.head?_map, hmap, List.head?_map, hhead]
    rfl
  · rwa [List.map_tail, hmap, ← List.map_tail]
  · rw [List.map_tail, hmap, ← List.map_tail]
    exact hkeys fd

/-- A turn of the outer loop is a run of the server. -/
theorem Sane.step (h : s.Sane) {l : Option PollTurn} (hs : s.step J l = some s') :
    s'.Sane ∧ Steps (Server.input J) s.server s'.server := by
  cases l with
  | none => exact Option.some.inj hs ▸ ⟨h, .refl _⟩
  | some turn =>
    simp only [PollServer.step] at hs
    split_ifs at hs with hopen
    obtain ⟨w, hp, rfl⟩ := Option.map_eq_some_iff.1 hs
    obtain ⟨hsane, hrun⟩ :=
      run_pass (h.wsaPoll turn.revents) ⟨hopen.1, hopen.2⟩ turn.fits hp
    exact ⟨hsane, _, hrun⟩

theorem sane_start : (start registry serverFd).Sane where
  wired := Server.wired_main registry serverFd
  listening := rfl
  inStep := ⟨rfl, List.nodup_nil, fun fd => by simp [start, Server.HasKey, Server.main]⟩

/-- A pass in which every `recv` returns the same. -/
theorem exists_pass (h : s.Sane) (hopen : s.Openable accepts) {buffer : Str}
    (hlen : buffer.length ≤ 1024) :
    ∃ w, s.pass J (fun _ => .ok buffer) (s.pollFds.length + accepts.length) accepts = some w ∧
      w.reads = ((s.pollFds.tail ++ s.accepted accepts).filter PollFd.readable).map PollFd.fd := by
  have hclosed : ∀ client ∈ accepts, ¬ s.server.HasKey client.fd := fun client hmem hkey => by
    rw [h.hasKey_iff, (hopen.closed client hmem).1] at hkey
    cases hkey
  have hrecv : ∀ k : ℕ, ∃ b, (fun _ => RecvResult.ok buffer) k = .ok b ∧ b.length ≤ 1024 :=
    fun _ => ⟨buffer, rfl, hlen⟩
  obtain ⟨p, s₁, hbefore, hin, hfds⟩ := h.inStep.beforeWalk hopen.nodup hclosed
  obtain ⟨w, hloop, -, -, -, hreads⟩ := Walk.loop_eq (J := J) hrecv
    (s.pollFds.tail ++ s.accepted accepts) (w := ⟨s₁, 1, [], []⟩)
    (show s₁.pollFds = [p] ++ (s.pollFds.tail ++ s.accepted accepts) from hfds) rfl
    (fun q hq => (hin.keys q.fd).1 (by simpa [hfds] using List.mem_map_of_mem hq))
    (by simpa [hfds] using hin.nodup)
  refine ⟨w, ?_, hreads⟩
  rw [pass, hbefore, Option.bind_some]
  apply hloop
  have hle : (s.accepted accepts).length ≤ accepts.length := by
    unfold PollServer.accepted
    split_ifs <;> simp
  obtain ⟨first, rest, hfirst⟩ := h.inStep.exists_cons
  rw [List.length_append, hfirst, List.tail_cons, List.length_cons]
  omega

theorem readable_wsaPoll (s : PollServer) (revents : Fd → BitVec 16) :
    ((s.wsaPoll revents).pollFds.tail.filter PollFd.readable).map PollFd.fd =
      (s.pollFds.tail.map PollFd.fd).filter fun fd => revents fd &&& pollIn ≠ 0 := by
  rw [wsaPoll, ← List.map_tail, List.filter_map, List.filter_map, List.map_map]
  rfl

/-- `POLLIN` for one descriptor. -/
def onlyReady (fd fd' : Fd) : BitVec 16 := if fd' = fd then pollIn else 0

theorem filter_onlyReady (fd : Fd) (fds : List Fd) :
    fds.filter (fun fd' => onlyReady fd fd' &&& pollIn ≠ 0) = fds.filter (· = fd) := by
  refine List.filter_congr fun fd' _ => ?_
  by_cases he : fd' = fd <;> simp [onlyReady, he, pollIn]

/-- What a turn does in which `WSAPoll` reports one descriptor. -/
theorem Sane.step_onlyReady (h : s.Sane) (fd : Fd) (accepts : List PollFd)
    (hopen : s.Openable accepts) (buffer : Str) (hlen : buffer.length ≤ 1024) :
    ∃ s', Steps (PollServer.step J) s s' ∧ s'.Sane ∧ run (Server.input J) s.server
      (((s.wsaPoll (onlyReady fd)).accepted accepts).map (fun client => .accept client.fd) ++
        readInputs (fun _ => .ok buffer) 0 ((s.pollFds.tail.map PollFd.fd).filter (· = fd) ++
          (((s.wsaPoll (onlyReady fd)).accepted accepts).filter PollFd.readable).map PollFd.fd)) =
      some s'.server := by
  let turn : PollTurn := ⟨onlyReady fd, accepts, fun _ => .ok buffer, fun _ => hlen⟩
  have hsane := h.wsaPoll (onlyReady fd)
  have hopen' : (s.wsaPoll (onlyReady fd)).Openable accepts := ⟨hopen.nodup, hopen.closed⟩
  obtain ⟨w, hpass, hreads⟩ := exists_pass (J := J) hsane hopen' hlen
  obtain ⟨hw, hrun⟩ := run_pass hsane hopen' turn.fits hpass
  rw [hreads, List.filter_append, List.map_append, readable_wsaPoll, filter_onlyReady] at hrun
  have hlength : (s.wsaPoll (onlyReady fd)).pollFds.length = s.pollFds.length := List.length_map ..
  rw [hlength] at hpass
  have hstep : s.step J (some turn) = some w.toPollServer := by
    rw [PollServer.step, if_pos ⟨hopen.nodup, hopen.closed⟩, hpass, Option.map_some]
  exact ⟨w.toPollServer, .single hstep, hw, hrun⟩

theorem Sane.clients_ne (h : s.Sane) {fd : Fd} (hfd : fd ∈ s.pollFds.tail.map PollFd.fd) :
    fd ≠ s.server.serverFd := by
  rintro rfl
  have hkey := (h.inStep.keys _).1 hfd
  rw [h.hasKey_iff, h.listening] at hkey
  cases hkey

/-- Each input of the server is one that a turn of the loop can bring. -/
theorem Sane.input (h : s.Sane) {i : Input} {t : Server} (ht : s.server.input J i = some t) :
    ∃ s', Steps (PollServer.step J) s s' ∧ s'.Sane ∧ s'.server = t := by
  cases i with
  | accept fd =>
    have hfd : s.server.owner fd = none ∧ fd ≠ s.server.serverFd := by
      rw [Server.input] at ht
      split_ifs at ht with hfd
      exact hfd
    obtain ⟨s', hsteps, hsane, hrun⟩ := h.step_onlyReady (J := J) s.server.serverFd
      [⟨fd, 0⟩] ⟨List.nodup_singleton _, by simpa using hfd⟩ [] (Nat.zero_le _)
    have haccepted : (s.wsaPoll (onlyReady s.server.serverFd)).accepted [⟨fd, 0⟩] = [⟨fd, 0⟩] := by
      obtain ⟨first, rest, hp⟩ := h.inStep.exists_cons
      have hfirst : first.fd = s.server.serverFd := by simpa [hp] using h.inStep.head
      simp [PollServer.accepted, PollServer.wsaPoll, hp, hfirst, onlyReady, PollFd.readable, pollIn]
    have hnone : (s.pollFds.tail.map PollFd.fd).filter (· = s.server.serverFd) = [] :=
      List.filter_eq_nil_iff.2 fun fd' hfd' => by simpa using h.clients_ne hfd'
    rw [haccepted, hnone] at hrun
    simp only [List.map_cons, List.map_nil, List.nil_append] at hrun
    have hunread : [(⟨fd, 0⟩ : PollFd)].filter PollFd.readable = [] := by
      simp [PollFd.readable]
    rw [hunread, List.map_nil, readInputs, List.append_nil, run_cons, ht, Option.bind_some, run_nil,
      Option.some.injEq] at hrun
    exact ⟨s', hsteps, hsane, hrun.symm⟩
  | read fd r =>
    have hfd : (s.server.owner fd).isSome ∧ r.buffer.length ≤ 1024 := by
      rw [Server.input] at ht
      split_ifs at ht with hfd
      exact hfd
    obtain ⟨buffer, rfl⟩ : ∃ buffer, r = .ok buffer := by
      obtain ⟨-, ⟨data, rfl, -⟩ | ⟨rfl, -⟩⟩ := h.wired.input_read ht <;> exact ⟨_, rfl⟩
    obtain ⟨s', hsteps, hsane, hrun⟩ := h.step_onlyReady (J := J) fd []
      ⟨List.nodup_nil, List.forall_mem_nil _⟩ buffer hfd.2
    have haccepted : (s.wsaPoll (onlyReady fd)).accepted [] = [] := by
      unfold accepted
      split_ifs <;> rfl
    have hone : (s.pollFds.tail.map PollFd.fd).filter (· = fd) = [fd] := by
      have hmem := (h.inStep.keys fd).2 ((h.hasKey_iff fd).2 hfd.1)
      have hcount := List.count_eq_one_of_mem h.inStep.nodup hmem
      rw [List.filter_eq, hcount, List.replicate_one]
    rw [haccepted, hone] at hrun
    simp only [List.map_nil, List.filter_nil, List.append_nil, List.nil_append, readInputs, run_cons,
      ht, Option.bind_some, run_nil, Option.some.injEq] at hrun
    exact ⟨s', hsteps, hsane, hrun.symm⟩

end PollServer

/-! ## Both -/

/-- The loop of Linux and the loop of Windows reach the same servers, which are those that the inputs
alone reach: accepted clients, texts of at most 1024 bytes and ends of streams, in any order. -/
theorem loops_agree (J : Nlohmann) (registry : Consumers) (serverFd : Fd) (t : Server) :
    (Reachable (Server.input J) (.main registry serverFd) t ↔
      ∃ s, Reachable (EventLoop.step J) (.start registry serverFd) s ∧ s.server = t) ∧
    (Reachable (Server.input J) (.main registry serverFd) t ↔
      ∃ s, Reachable (PollServer.step J) (.start registry serverFd) s ∧ s.server = t) := by
  refine ⟨⟨fun h => ?_, ?_⟩, ⟨fun h => ?_, ?_⟩⟩
  · have hcalm : (EventLoop.start registry serverFd).Calm :=
      ⟨EventLoop.registered_start registry serverFd, rfl, rfl, rfl, fun _ _ => rfl⟩
    obtain ⟨s, hs, -, heq⟩ := Steps.lift (f := EventLoop.server) (fun s i t hs ht => by
      cases i with
      | accept fd => exact hs.accept ht
      | read fd r => exact hs.read ht) hcalm h
    exact ⟨s, hs, heq⟩
  · rintro ⟨s, hs, rfl⟩
    exact (EventLoop.reachable_server hs).2
  · obtain ⟨s, hs, -, heq⟩ := Steps.lift (f := PollServer.server)
      (fun _ _ _ hs ht => hs.input ht) PollServer.sane_start h
    exact ⟨s, hs, heq⟩
  · rintro ⟨s, hs, rfl⟩
    exact (Steps.refine (f := PollServer.server) (fun _ _ _ hs hl => hs.step hl)
      PollServer.sane_start hs).2

end EllohimMQ
