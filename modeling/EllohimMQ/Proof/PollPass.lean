import EllohimMQ.Model.PollLoop
import EllohimMQ.Proof.Bookkeeping

/-!
# One pass of the poll loop

The walk has a part behind it, in which every entry is that of a connection, and a part in front of
it, which it has not looked at and in which every entry still is one, because reading an entry closes
no descriptor but its own (`loop_eq`).  So an erasure moves exactly one entry out and the next one
under the index, and at the end the vector lists the keys of `connections` again.
-/

namespace EllohimMQ

variable {J : Nlohmann} {recv : ℕ → RecvResult}

namespace Server

/-- From `s` to `s'` no connection is made, and none is closed but that of one of `fds`. -/
structure ClosesOnly (s s' : Server) (fds : List Fd) : Prop where
  serverFd : s'.serverFd = s.serverFd
  hasKey : ∀ fd, s'.HasKey fd → s.HasKey fd
  keeps : ∀ fd, fd ∉ fds → s.HasKey fd → s'.HasKey fd

theorem ClosesOnly.refl (s : Server) (fds : List Fd) : s.ClosesOnly s fds :=
  ⟨rfl, fun _ h => h, fun _ _ h => h⟩

theorem ClosesOnly.trans {s s' s'' : Server} {fds fds' : List Fd} (h : s.ClosesOnly s' fds)
    (h' : s'.ClosesOnly s'' fds') : s.ClosesOnly s'' (fds ++ fds') := by
  refine ⟨h'.serverFd.trans h.serverFd, fun fd hfd => h.hasKey fd (h'.hasKey fd hfd), ?_⟩
  intro fd hnot hfd
  rw [List.mem_append, not_or] at hnot
  exact h'.keeps fd hnot.2 (h.keeps fd hnot.1 hfd)

theorem Extends.hasKey_iff {s s' : Server} (h : s.Extends s') (fd : Fd) :
    s'.HasKey fd ↔ s.HasKey fd := by
  obtain ⟨broker, tr, rfl, -⟩ := h
  exact Iff.rfl

theorem Extends.serverFd_eq {s s' : Server} (h : s.Extends s') : s'.serverFd = s.serverFd := by
  obtain ⟨broker, tr, rfl, -⟩ := h
  rfl

theorem hasKey_closeConnection (s : Server) (c : ConnId) (fd fd' : Fd) :
    ((s.closeConnection fd).release c).HasKey fd' ↔ fd' ≠ fd ∧ s.HasKey fd' := by
  have hlookup : ((s.closeConnection fd).release c).connections.lookup fd' =
      if fd' = fd then none else s.connections.lookup fd' := by
    have hrelease : ((s.closeConnection fd).release c).connections =
        s.connections.filter (·.1 ≠ fd) := by
      unfold release
      split_ifs <;> rfl
    rw [hrelease]
    exact lookup_filter_ne ..
  rw [HasKey, hlookup]
  split_ifs with hfd <;> simp [hfd, HasKey]

/-- With at most 1024 bytes received, or the end of the stream, no exception leaves `handle_read`. -/
theorem exists_handleRead (s : Server) (fd : Fd) {buffer : Str} (hlen : buffer.length ≤ 1024) :
    ∃ s', s.handleRead J fd (.ok buffer) = (s', none) := by
  have hmax : ¬ maxSize < (RecvResult.ok buffer).bytesRead.toNat := by
    have hmod := Nat.mod_le buffer.length (2 ^ 64)
    simp only [RecvResult.bytesRead, BitVec.toNat_ofNat, maxSize]
    omega
  simp only [handleRead, stringOfBuffer, if_neg hmax]
  split
  · exact ⟨_, rfl⟩
  · split_ifs
    · split <;> exact ⟨_, rfl⟩
    · exact ⟨_, rfl⟩
    · exact ⟨_, rfl⟩
    · exact ⟨_, rfl⟩

theorem closesOnly_handleRead {s s' : Server} {fd : Fd} {r : RecvResult} (hkey : s.HasKey fd)
    (h : s.handleRead J fd r = (s', none)) : s.ClosesOnly s' [fd] := by
  obtain ⟨c, hc⟩ := Option.isSome_iff_exists.1 hkey
  rcases handleRead_returns hc h with hext | ⟨s₁, hext, rfl⟩
  · exact ⟨hext.serverFd_eq, fun fd' => (hext.hasKey_iff fd').1, fun fd' _ => (hext.hasKey_iff fd').2⟩
  · refine ⟨?_, fun fd' hfd' => ?_, fun fd' hne hfd' => ?_⟩
    · unfold release
      split_ifs <;> exact hext.serverFd_eq
    · exact (hext.hasKey_iff fd').1 ((hasKey_closeConnection s₁ c fd fd').1 hfd').2
    · rw [hasKey_closeConnection, hext.hasKey_iff]
      exact ⟨List.ne_of_not_mem_cons hne, hfd'⟩

end Server

/-! ## The walk -/

namespace Walk

/-- The entry is that of a connection. -/
def keeps (s : Server) (p : PollFd) : Bool := (s.connections.lookup p.fd).isSome

theorem read_eq {w : Walk} {p : PollFd} (hrecv : ∀ k, ∃ buffer, recv k = .ok buffer ∧
    buffer.length ≤ 1024) (hkey : w.server.HasKey p.fd) :
    ∃ server, w.server.ClosesOnly server [p.fd] ∧
      w.read J recv p = some { w with
        server, reads := w.reads ++ if p.readable then [p.fd] else [] } := by
  unfold read
  split_ifs with hp
  · obtain ⟨buffer, hbuffer, hlen⟩ := hrecv w.reads.length
    rw [hbuffer]
    obtain ⟨server, hserver⟩ := w.server.exists_handleRead (J := J) p.fd hlen
    rw [hserver]
    exact ⟨server, w.server.closesOnly_handleRead hkey hserver, rfl⟩
  · exact ⟨w.server, .refl _ _, by simp⟩

theorem turn_eq {w : Walk} {pre rest : List PollFd} {p : PollFd}
    (hrecv : ∀ k, ∃ buffer, recv k = .ok buffer ∧ buffer.length ≤ 1024)
    (hfds : w.pollFds = pre ++ p :: rest) (hi : w.i = pre.length) (hkey : w.server.HasKey p.fd) :
    ∃ w', w.turn J recv = some w' ∧ w.server.ClosesOnly w'.server [p.fd] ∧
      w'.pollFds = pre ++ [p].filter (keeps w'.server) ++ rest ∧
      w'.i = (pre ++ [p].filter (keeps w'.server)).length ∧ w'.examined = w.examined ++ [p] ∧
      w'.reads = w.reads ++ ([p].filter PollFd.readable).map PollFd.fd := by
  have hp : w.pollFds[w.i]? = some p := by simp [hfds, hi]
  obtain ⟨server, hcloses, hread⟩ := read_eq (J := J) hrecv hkey
  have hturn : w.turn J recv = some (advance { w with
      server, reads := w.reads ++ if p.readable then [p.fd] else [] } p) := by
    simp [turn, hp, hread]
  refine ⟨_, hturn, ?_⟩
  unfold advance
  cases hlookup : server.connections.lookup p.fd with
  | none =>
    refine ⟨hcloses, ?_, ?_, rfl, ?_⟩
    · simp [keeps, hlookup, hfds, hi, List.eraseIdx_append_of_length_le]
    · simp [keeps, hlookup, hi]
    · by_cases hr : p.readable <;> simp [hr]
  | some c =>
    refine ⟨hcloses, ?_, ?_, rfl, ?_⟩
    · simp [keeps, hlookup, hfds]
    · simp [keeps, hlookup, hi]
    · by_cases hr : p.readable <;> simp [hr]

/-- The walk from an entry on: with `rest` in front of it, it looks at all of `rest`, reads those that
are readable, and leaves behind those whose connection is still there at the end. -/
theorem loop_eq (hrecv : ∀ k, ∃ buffer, recv k = .ok buffer ∧ buffer.length ≤ 1024)
    (rest : List PollFd) {w : Walk} {pre : List PollFd} (hfds : w.pollFds = pre ++ rest)
    (hi : w.i = pre.length) (hkeys : ∀ p ∈ rest, w.server.HasKey p.fd)
    (hnodup : (rest.map PollFd.fd).Nodup) :
    ∃ w', (∀ fuel, rest.length < fuel → loop J recv fuel w = some w') ∧
      w.server.ClosesOnly w'.server (rest.map PollFd.fd) ∧
      w'.pollFds = pre ++ rest.filter (keeps w'.server) ∧ w'.examined = w.examined ++ rest ∧
      w'.reads = w.reads ++ (rest.filter PollFd.readable).map PollFd.fd := by
  induction rest generalizing w pre with
  | nil =>
    refine ⟨w, fun fuel hfuel => ?_, .refl _ _, hfds, by simp, by simp⟩
    obtain ⟨fuel, rfl⟩ := Nat.exists_eq_succ_of_ne_zero (Nat.ne_of_gt hfuel)
    rw [List.append_nil] at hfds
    simp [loop, hfds, hi]
  | cons p rest ih =>
    rw [List.map_cons, List.nodup_cons] at hnodup
    obtain ⟨w₁, hturn, hcloses₁, hfds₁, hi₁, hexamined₁, hreads₁⟩ :=
      turn_eq (J := J) hrecv hfds hi (hkeys p (List.mem_cons_self ..))
    -- reading `p` closes no descriptor of the entries in front
    have hkeys₁ : ∀ q ∈ rest, w₁.server.HasKey q.fd := fun q hq => by
      apply hcloses₁.keeps q.fd _ (hkeys q (List.mem_cons_of_mem _ hq))
      rw [List.mem_singleton]
      exact fun he => hnodup.1 (he ▸ List.mem_map_of_mem hq)
    obtain ⟨w₂, hloop, hcloses₂, hfds₂, hexamined₂, hreads₂⟩ := ih hfds₁ hi₁ hkeys₁ hnodup.2
    -- and the entries in front leave the descriptor of `p` as it is
    have hkeeps : keeps w₁.server p = keeps w₂.server p :=
      Bool.eq_iff_iff.2 ⟨hcloses₂.keeps p.fd hnodup.1, hcloses₂.hasKey p.fd⟩
    refine ⟨w₂, fun fuel hfuel => ?_, hcloses₁.trans hcloses₂, ?_, ?_, ?_⟩
    · obtain ⟨fuel, rfl⟩ := Nat.exists_eq_succ_of_ne_zero (Nat.ne_of_gt (Nat.zero_lt_of_lt hfuel))
      have hlt : w.i < w.pollFds.length := by simp [hfds, hi]
      rw [loop, if_pos hlt, hturn, Option.bind_some]
      exact hloop fuel (Nat.lt_of_succ_lt_succ hfuel)
    · rw [hfds₂, List.append_assoc, List.filter_singleton, hkeeps]
      by_cases hk : keeps w₂.server p <;> simp [hk]
    · rw [hexamined₂, hexamined₁, List.append_assoc, List.singleton_append]
    · rw [hreads₂, hreads₁, List.append_assoc, ← List.map_append, ← List.filter_append,
        List.singleton_append]

end Walk

/-! ## The pass -/

namespace PollServer

/-- The vector begins with the listening socket, and the rest of it lists the keys of `connections`,
each of them once. -/
structure InStep (s : PollServer) : Prop where
  head : s.pollFds.head?.map PollFd.fd = some s.server.serverFd
  nodup : (s.pollFds.tail.map PollFd.fd).Nodup
  keys : ∀ fd, fd ∈ s.pollFds.tail.map PollFd.fd ↔ s.server.HasKey fd

theorem InStep.exists_cons {s : PollServer} (h : s.InStep) : ∃ p rest, s.pollFds = p :: rest :=
  List.exists_cons_of_ne_nil fun hnil => by simpa [hnil] using h.head

/-- The clients of this pass: none when the listening socket is not readable. -/
def accepted (s : PollServer) (accepts : List PollFd) : List PollFd :=
  if s.pollFds.head?.any PollFd.readable then accepts else []

theorem handleAccept_eq (s : PollServer) (accepts : List PollFd) :
    (s.handleAccept accepts).pollFds = s.pollFds ++ accepts ∧
      (s.handleAccept accepts).server.serverFd = s.server.serverFd ∧
      ∀ fd, (s.handleAccept accepts).server.HasKey fd ↔
        fd ∈ accepts.map PollFd.fd ∨ s.server.HasKey fd := by
  unfold handleAccept
  induction accepts generalizing s with
  | nil => simp
  | cons client accepts ih =>
    obtain ⟨hfds, hserver, hkeys⟩ := ih ⟨s.server.acceptOne client.fd, s.pollFds ++ [client]⟩
    rw [List.foldl_cons]
    refine ⟨by rw [hfds, List.append_assoc, List.singleton_append], hserver, fun fd => ?_⟩
    rw [hkeys, List.map_cons, List.mem_cons, Server.HasKey, Server.lookup_acceptOne, Server.HasKey]
    by_cases hfd : fd = client.fd <;> simp [hfd]

theorem InStep.handleAccept {s : PollServer} (h : s.InStep) {accepts : List PollFd}
    (hnodup : (accepts.map PollFd.fd).Nodup)
    (hopen : ∀ client ∈ accepts, ¬ s.server.HasKey client.fd) : (s.handleAccept accepts).InStep := by
  obtain ⟨hfds, hserver, hkeys⟩ := s.handleAccept_eq accepts
  obtain ⟨p, rest, hp⟩ := h.exists_cons
  refine ⟨?_, ?_, fun fd => ?_⟩
  · rw [hfds, hserver, ← h.head, hp]
    rfl
  · rw [hfds, hp, List.cons_append, List.tail_cons, List.map_append, List.nodup_append]
    refine ⟨by simpa [hp] using h.nodup, hnodup, ?_⟩
    rintro fd hfd fd' hfd' rfl
    obtain ⟨client, hclient, rfl⟩ := List.mem_map.1 hfd'
    exact hopen client hclient ((h.keys _).1 (by simpa [hp] using hfd))
  · rw [hkeys, ← h.keys, hfds, hp, List.cons_append, List.tail_cons, List.map_append,
      List.mem_append, List.tail_cons, or_comm]

/-- The walk begins behind the listening socket, in a state that is in step. -/
theorem InStep.beforeWalk {s : PollServer} (h : s.InStep) {accepts : List PollFd}
    (hnodup : (accepts.map PollFd.fd).Nodup)
    (hopen : ∀ client ∈ accepts, ¬ s.server.HasKey client.fd) :
    ∃ p s', s.beforeWalk accepts = some ⟨s', 1, [], []⟩ ∧ s'.InStep ∧
      s'.pollFds = p :: (s.pollFds.tail ++ s.accepted accepts) := by
  obtain ⟨p, rest, hp⟩ := h.exists_cons
  by_cases hr : p.readable
  · refine ⟨p, s.handleAccept accepts, ?_, h.handleAccept hnodup hopen, ?_⟩
    · simp [PollServer.beforeWalk, hp, hr]
    · simp [(s.handleAccept_eq accepts).1, accepted, hp, hr]
  · refine ⟨p, s, ?_, h, ?_⟩
    · simp [PollServer.beforeWalk, hp, hr]
    · simp [accepted, hp, hr]

end PollServer

end EllohimMQ
