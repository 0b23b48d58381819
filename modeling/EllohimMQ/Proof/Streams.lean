import EllohimMQ.Proof.Readiness

/-!
# No byte is lost, repeated or given to another session

The loop calls `recv` with a descriptor number, and numbers are used again.  Peers are numbered in the
order in which they connect, sessions in the order in which they are accepted.  What the peer `k` has
sent is what has been handed to `handle_message` for the session `k`, in order, and behind it what the
kernel still holds for it; nothing is held for a session that has been closed.
-/

namespace EllohimMQ

open Transition

/-- Only an accept makes a connection. -/
theorem Server.Wired.read_nextConn {J : Nlohmann} {s s' : Server} (h : s.Wired) {fd : Fd}
    {r : RecvResult} (hi : s.input J (.read fd r) = some s') : s'.nextConn = s.nextConn := by
  rcases h.input_cases hi with ⟨_, ⟨⟩, -⟩ | ⟨_, c, data, ⟨⟩, -, ho, rfl⟩ | ⟨_, _, ⟨⟩, -, rfl⟩
  · rcases h.handleMessage_quiet (J := J) (h.owner_lt ho) data with ⟨topic, e⟩ | ⟨seg, -, e⟩ <;> rw [e]
    rfl
  · rfl

theorem Server.acceptOne_of_input {J : Nlohmann} {s s' : Server} {fd : Fd}
    (hi : s.input J (.accept fd) = some s') : s.owner fd = none ∧ s' = s.acceptOne fd := by
  simp only [input] at hi
  split_ifs at hi with hfd
  exact ⟨hfd.1, (Option.some.inj hi).symm⟩

/-- What is read are bytes, or the end of the stream, of an open session. -/
theorem Server.Wired.exists_of_read {J : Nlohmann} {s s' : Server} (h : s.Wired) {fd : Fd}
    {r : RecvResult} (hi : s.input J (.read fd r) = some s') :
    ∃ (k : ℕ) (data : Str), r = .ok data ∧ s.owner fd = some k := by
  rcases h.input_cases hi with ⟨_, ⟨⟩, -⟩ | ⟨_, c, data, ⟨⟩, -, ho, -⟩ | ⟨_, c, ⟨⟩, ho, -⟩
  · exact ⟨c, data, rfl, ho⟩
  · exact ⟨c, [], rfl, ho⟩

namespace EventLoop

/-- How many connections have been accepted. -/
def accepted (s : EventLoop) : ℕ := s.server.nextConn

/-- The peer that sends in a step, and the bytes. -/
def sends (s : EventLoop) : LoopStep → Option (ℕ × Str)
  | .arrive fd data => (s.server.owner fd).map (·, data)
  | .arrivePending i data => some (s.accepted + i, data)
  | _ => none

/-- The session for which a step hands bytes to `handle_message`. -/
def hands (s : EventLoop) : LoopStep → Option (ℕ × Str)
  | .read (.ok data) =>
    match s.phase with
    | .handling (fd :: _) => (s.server.owner fd).map (·, data)
    | _ => none
  | _ => none

end EventLoop

/-- The loop, with what each peer has sent and what has been handed on for each session. -/
structure Streams where
  loop : EventLoop
  sent : ℕ → Str
  handed : ℕ → Str

namespace Streams

/-- The streams with further bytes. -/
def extend (f : ℕ → Str) : Option (ℕ × Str) → ℕ → Str
  | none => f
  | some (k, data) => Function.update f k (f k ++ data)

/-- Nobody has sent anything. -/
def start (registry : Consumers) (serverFd : Fd) : Streams :=
  ⟨.start registry serverFd, fun _ => [], fun _ => []⟩

/-- One step of the loop, with what it adds to the streams. -/
def step (J : Nlohmann) (s : Streams) (l : LoopStep) : Option Streams :=
  (s.loop.step J l).map fun loop =>
    ⟨loop, extend s.sent (s.loop.sends l), extend s.handed (s.loop.hands l)⟩

variable {J : Nlohmann} {registry : Consumers} {serverFd : Fd} {s s' : EventLoop}
  {sent handed : ℕ → Str}

/-- Where the bytes are that the peers have sent. -/
structure Kept (s : EventLoop) (sent handed : ℕ → Str) : Prop where
  registered : s.Registered
  opened : ∀ (fd : Fd) (k : ℕ), s.server.owner fd = some k → sent k = handed k ++ (s.inbound fd).unread
  pending : ∀ (i : ℕ) (e : Inbound), s.backlog[i]? = some e →
    sent (s.accepted + i) = e.unread ∧ handed (s.accepted + i) = []
  fresh : ∀ k : ℕ, s.accepted + s.backlog.length ≤ k → sent k = [] ∧ handed k = []
  closed : ∀ k : ℕ, k < s.accepted → (∀ fd, s.server.owner fd ≠ some k) → sent k = handed k

theorem kept_start :
    Kept (.start registry serverFd) (fun _ => []) fun _ => [] where
  registered := EventLoop.registered_start registry serverFd
  opened _ _ h := by cases h
  pending _ _ h := by cases h
  fresh _ _ := ⟨rfl, rfl⟩
  closed _ _ _ := rfl

/-- A session has one descriptor. -/
theorem owner_inj {t : Server} (h : t.Wired) {fd fd' : Fd} {k : ℕ}
    (hfd : t.owner fd = some k) (hfd' : t.owner fd' = some k) : fd = fd' :=
  h.accepted_inj k fd fd' ((h.owner fd k).1 hfd).1 ((h.owner fd' k).1 hfd').1

/-! ## The peers -/

/-- Bytes arrive on an open connection. -/
theorem Kept.arrive (h : Kept s sent handed) {fd : Fd} {k : ℕ} (ho : s.server.owner fd = some k)
    (data : Str) (eof : Bool)
    (hreg : (s.arrival fd ⟨(s.inbound fd).unread ++ data, eof⟩).Registered) :
    Kept (s.arrival fd ⟨(s.inbound fd).unread ++ data, eof⟩) (extend sent (some (k, data)))
      handed := by
  have hk : k < s.accepted := h.registered.wired.owner_lt ho
  refine ⟨hreg, fun fd' k' ho' => ?_, fun i e he => ?_, fun k' hk' => ?_, fun k' hk' hclosed => ?_⟩
  · by_cases hfd : fd' = fd
    · obtain rfl : k = k' := Option.some.inj (ho.symm.trans (hfd ▸ ho'))
      simp [extend, EventLoop.arrival, hfd, h.opened fd k ho]
    · have hne : k' ≠ k := fun he => hfd (owner_inj h.registered.wired (he ▸ ho') ho)
      simpa [extend, EventLoop.arrival, hfd, hne] using h.opened fd' k' ho'
  · have hne : s.accepted + i ≠ k := by omega
    change extend sent (some (k, data)) (s.accepted + i) = e.unread ∧ handed (s.accepted + i) = []
    rw [extend, Function.update_of_ne hne]
    exact h.pending i e he
  · have hne : k' ≠ k := by
      change s.accepted + s.backlog.length ≤ k' at hk'
      omega
    simpa [extend, hne] using h.fresh k' hk'
  · have hne : k' ≠ k := fun he => hclosed fd (he ▸ ho)
    simpa [extend, hne] using h.closed k' hk' hclosed

/-- A peer connects. -/
theorem Kept.connect (h : Kept s sent handed) {edges : List Fd}
    (hreg : ({ s with backlog := s.backlog ++ [.empty], edges } : EventLoop).Registered) :
    Kept { s with backlog := s.backlog ++ [.empty], edges } sent handed := by
  refine ⟨hreg, h.opened, fun i e he => ?_, fun k hk => h.fresh k ?_, h.closed⟩
  · change (s.backlog ++ [Inbound.empty])[i]? = some e at he
    rcases Nat.lt_trichotomy i s.backlog.length with hi | rfl | hi
    · rw [List.getElem?_append_left hi] at he
      exact h.pending i e he
    · rw [List.getElem?_concat_length, Option.some.injEq] at he
      exact he ▸ h.fresh _ (Nat.le_refl _)
    · rw [List.getElem?_eq_none (by rw [List.length_append]; exact hi)] at he
      cases he
  · change s.accepted + (s.backlog ++ [Inbound.empty]).length ≤ k at hk
    rw [List.length_append] at hk
    omega

/-- Bytes arrive on a connection that has not been accepted. -/
theorem Kept.arrivePending (h : Kept s sent handed) {i : ℕ} {e : Inbound}
    (hi : s.backlog[i]? = some e) (data : Str) (eof : Bool)
    (hreg : ({ s with backlog := s.backlog.set i ⟨e.unread ++ data, eof⟩ } : EventLoop).Registered) :
    Kept { s with backlog := s.backlog.set i ⟨e.unread ++ data, eof⟩ }
      (extend sent (some (s.accepted + i, data))) handed := by
  have hlt := (List.getElem?_eq_some_iff.1 hi).1
  refine ⟨hreg, fun fd k ho => ?_, fun j e' he => ?_, fun k hk => ?_, fun k hk hclosed => ?_⟩
  · have : k < s.accepted := h.registered.wired.owner_lt ho
    have hne : k ≠ s.accepted + i := by omega
    simpa [extend, hne] using h.opened fd k ho
  · change (s.backlog.set i ⟨e.unread ++ data, eof⟩)[j]? = some e' at he
    change extend sent (some (s.accepted + i, data)) (s.accepted + j) = e'.unread ∧
      handed (s.accepted + j) = []
    by_cases hj : i = j
    · subst hj
      rw [List.getElem?_set_self hlt, Option.some.injEq] at he
      obtain ⟨hsent, hhanded⟩ := h.pending i e hi
      simp [extend, ← he, hsent, hhanded]
    · rw [List.getElem?_set_ne hj] at he
      have hne : s.accepted + j ≠ s.accepted + i := by omega
      rw [extend, Function.update_of_ne hne]
      exact h.pending j e' he
  · change s.accepted + (s.backlog.set i ⟨e.unread ++ data, eof⟩).length ≤ k at hk
    rw [List.length_set] at hk
    have hne : k ≠ s.accepted + i := by omega
    simpa [extend, hne] using h.fresh k hk
  · have hne : k ≠ s.accepted + i := by
      change k < s.accepted at hk
      omega
    simpa [extend, hne] using h.closed k hk hclosed

/-! ## The loop -/

/-- The oldest of the connections that wait is accepted, and its number is the next one. -/
theorem Kept.accept (h : Kept s sent handed) {fd : Fd} {e : Inbound} {backlog : List Inbound}
    {edges : List Fd} (hbacklog : s.backlog = e :: backlog) (ho : s.server.owner fd = none)
    (hreg : ({ s with
      server := s.server.acceptOne fd
      inbound := Function.update s.inbound fd e
      backlog
      edges } : EventLoop).Registered) :
    Kept { s with
      server := s.server.acceptOne fd
      inbound := Function.update s.inbound fd e
      backlog
      edges } sent handed := by
  have howner : (s.server.acceptOne fd).owner =
      Function.update s.server.owner fd (some s.accepted) := rfl
  refine ⟨hreg, fun fd' k ho' => ?_, fun i e' he => ?_, fun k hk => ?_, fun k hk hclosed => ?_⟩
  · rw [howner] at ho'
    by_cases hfd : fd' = fd
    · obtain ⟨hsent, hhanded⟩ := h.pending 0 e (by rw [hbacklog]; rfl)
      rw [Nat.add_zero] at hsent hhanded
      rw [hfd, Function.update_self, Option.some.injEq] at ho'
      simp [hfd, ← ho', hhanded, ← hsent]
    · rw [Function.update_of_ne hfd] at ho'
      simpa [hfd] using h.opened fd' k ho'
  · have := h.pending (i + 1) e' (by rw [hbacklog]; exact he)
    rwa [← Nat.add_assoc, Nat.add_right_comm] at this
  · refine h.fresh k ?_
    rw [hbacklog, List.length_cons]
    change s.accepted + 1 + backlog.length ≤ k at hk
    omega
  · change k < s.accepted + 1 at hk
    rw [howner] at hclosed
    have hne : k ≠ s.accepted := fun he => hclosed fd (by rw [he, Function.update_self])
    refine h.closed k (by omega) fun fd' ho' => ?_
    by_cases hfd : fd' = fd
    · rw [hfd, ho] at ho'
      cases ho'
    · exact hclosed fd' (by rwa [Function.update_of_ne hfd])

/-- `recv` takes the bytes from the front, and reports the end only when none is left. -/
theorem recv_ok {e : Inbound} {data : Str} (h : e.recv (.ok data) = true) :
    e.unread = data ++ e.unread.drop data.length ∧ (data = [] → e.unread = []) := by
  cases data with
  | nil =>
    simp only [Inbound.recv, Bool.and_eq_true, List.isEmpty_iff] at h
    exact ⟨rfl, fun _ => h.1⟩
  | cons b bs =>
    simp only [Inbound.recv, Bool.and_eq_true] at h
    obtain ⟨rest, hrest⟩ := List.isPrefixOf_iff_prefix.1 h.1
    exact ⟨by rw [← hrest, List.drop_left], fun hnil => by cases hnil⟩

/-- What one call of `recv` returns is handed on for the session that the descriptor belongs to.  At
the end of the stream nothing is left unread, and the session is closed. -/
theorem Kept.read (h : Kept s sent handed) {fd : Fd} {k : ℕ} {data : Str} {server : Server}
    {edges : List Fd} {phase : LoopPhase} (ho : s.server.owner fd = some k)
    (hrecv : (s.inbound fd).recv (.ok data) = true)
    (hserver : s.server.input J (.read fd (.ok data)) = some server)
    (hreg : ({ s with
      server
      inbound := Function.update s.inbound fd
        { s.inbound fd with unread := (s.inbound fd).unread.drop data.length }
      edges
      phase } : EventLoop).Registered) :
    Kept { s with
      server
      inbound := Function.update s.inbound fd
        { s.inbound fd with unread := (s.inbound fd).unread.drop data.length }
      edges
      phase } sent (extend handed (some (k, data))) := by
  have hk : k < s.accepted := h.registered.wired.owner_lt ho
  have hnext : server.nextConn = s.accepted := h.registered.wired.read_nextConn hserver
  obtain ⟨hunread, hend⟩ := recv_ok hrecv
  have hsent : sent k = handed k ++ data ++ (s.inbound fd).unread.drop data.length := by
    rw [List.append_assoc, ← hunread]
    exact h.opened fd k ho
  -- a session that is still open had its descriptor before
  have howner : ∀ (fd' : Fd) (k' : ℕ), server.owner fd' = some k' → s.server.owner fd' = some k' := by
    intro fd' k' ho'
    obtain ⟨-, ⟨data', -, -, he⟩ | ⟨-, he⟩⟩ := h.registered.wired.input_read hserver <;> rw [he] at ho'
    · exact ho'
    · by_cases hfd : fd' = fd
      · rw [hfd, Function.update_self] at ho'
        cases ho'
      · rwa [Function.update_of_ne hfd] at ho'
  refine ⟨hreg, fun fd' k' ho' => ?_, fun i e he => ?_, fun k' hk' => ?_, fun k' hk' hclosed => ?_⟩
  · have hbefore := howner fd' k' ho'
    by_cases hfd : fd' = fd
    · obtain rfl : k = k' := Option.some.inj (ho.symm.trans (hfd ▸ hbefore))
      simp [extend, hfd, hsent]
    · have hne : k' ≠ k := fun he => hfd (owner_inj h.registered.wired (he ▸ hbefore) ho)
      simpa [extend, hfd, hne] using h.opened fd' k' hbefore
  · have hne : s.accepted + i ≠ k := by omega
    change sent (server.nextConn + i) = e.unread ∧
      extend handed (some (k, data)) (server.nextConn + i) = []
    rw [hnext, extend, Function.update_of_ne hne]
    exact h.pending i e he
  · have hle : s.accepted + s.backlog.length ≤ k' := hnext ▸ hk'
    have hne : k' ≠ k := by omega
    simpa [extend, hne] using h.fresh k' hle
  · change k' < server.nextConn at hk'
    rw [hnext] at hk'
    by_cases hne : k' = k
    · -- the session of this descriptor is closed only at the end of the stream
      obtain ⟨-, ⟨data', -, -, he⟩ | ⟨hdata, -⟩⟩ := h.registered.wired.input_read hserver
      · exact absurd (by rw [hne, ← ho]; exact congrFun he fd) (hclosed fd)
      · obtain rfl := RecvResult.ok.inj hdata
        rw [hne, hsent, hend rfl]
        simp [extend]
    · rw [extend, Function.update_of_ne hne]
      refine h.closed k' hk' fun fd' ho' => ?_
      have hfd : fd' ≠ fd := fun he => hne (Option.some.inj (ho'.symm.trans (he ▸ ho)))
      refine hclosed fd' ?_
      obtain ⟨-, ⟨data', -, -, he⟩ | ⟨-, he⟩⟩ := h.registered.wired.input_read hserver
      · exact (congrFun he fd').trans ho'
      · exact (congrFun he fd').trans ((Function.update_of_ne hfd ..).trans ho')

/-! ## Every step -/

theorem extend_nil (f : ℕ → Str) (k : ℕ) : extend f (some (k, [])) = f := by
  rw [extend, List.append_nil, Function.update_eq_self]

/-- Steps that concern neither the streams nor the server. -/
theorem Kept.same (h : Kept s sent handed) {edges : List Fd} {phase : LoopPhase}
    (hreg : ({ s with edges, phase } : EventLoop).Registered) :
    Kept { s with edges, phase } sent handed :=
  ⟨hreg, h.opened, h.pending, h.fresh, h.closed⟩

theorem Kept.step (h : Kept s sent handed) {l : LoopStep} (hs : s.step J l = some s') :
    Kept s' (extend sent (s.sends l)) (extend handed (s.hands l)) := by
  have hreg := h.registered.step hs
  cases EventLoop.step_cases h.registered hs with
  | @arrive fd data hfd =>
    obtain ⟨k, ho⟩ := Option.isSome_iff_exists.1 hfd
    rw [show s.sends (.arrive fd data) = some (k, data) by simp [EventLoop.sends, ho]]
    exact h.arrive ho data _ hreg
  | @finish fd hfd =>
    obtain ⟨k, ho⟩ := Option.isSome_iff_exists.1 hfd
    have hk := h.arrive ho [] true
    rw [extend_nil, List.append_nil] at hk
    exact hk hreg
  | connect => exact h.connect hreg
  | @arrivePending i data e hi => exact h.arrivePending hi data e.eof hreg
  | finishPending hi =>
    have hk := h.arrivePending hi [] true
    rw [extend_nil, List.append_nil] at hk
    exact hk hreg
  | epollWait | event | acceptFailed | again => exact h.same hreg
  | epollError => exact h
  | accepted _ hbacklog hserver =>
    obtain ⟨ho, rfl⟩ := Server.acceptOne_of_input hserver
    exact h.accept hbacklog ho hreg
  | read hphase hrecv hserver =>
    obtain ⟨k, data, rfl, ho⟩ := h.registered.wired.exists_of_read hserver
    rw [show s.hands (.read (.ok data)) = some (k, data) by simp [EventLoop.hands, hphase, ho]]
    exact h.read ho hrecv hserver hreg

/-- The bytes that a step hands on go to `handle_message`, in one call. -/
theorem Kept.handleMessage (h : Kept s sent handed) {l : LoopStep} (hs : s.step J l = some s')
    {k : ℕ} {data : Str} (hhands : s.hands l = some (k, data)) (hdata : data ≠ []) :
    s'.server = s.server.handleMessage J k data := by
  cases EventLoop.step_cases h.registered hs with
  | read hphase hrecv hserver =>
    obtain ⟨c, data', rfl, ho⟩ := h.registered.wired.exists_of_read hserver
    simp only [EventLoop.hands, hphase, ho, Option.map_some, Option.some.injEq,
      Prod.mk.injEq] at hhands
    obtain ⟨rfl, rfl⟩ := hhands
    rw [h.registered.wired.input_read_ok ho hdata (EventLoop.recv_length hrecv)] at hserver
    exact (Option.some.inj hserver).symm
  | _ => cases hhands

theorem kept_of_reachable {t : Streams}
    (h : Reachable (Streams.step J) (.start registry serverFd) t) : Kept t.loop t.sent t.handed := by
  refine h.invariant (P := fun t : Streams => Kept t.loop t.sent t.handed) (fun t l t' ht hl => ?_)
    kept_start
  obtain ⟨loop, hloop, rfl⟩ := Option.map_eq_some_iff.1 hl
  exact ht.step hloop

/-- In every run: what an open session's peer has sent is what was handed to `handle_message` for that
session and what can still be read, in this order; of a peer that was not accepted everything can
still be read, and of a closed session nothing was left.  A step hands on what it reads in one call, for
the session that the bytes were sent to. -/
theorem bytes_kept (J : Nlohmann) (registry : Consumers) (serverFd : Fd) {t : Streams}
    (h : Reachable (Streams.step J) (.start registry serverFd) t) :
    (∀ (fd : Fd) (k : ℕ), t.loop.server.owner fd = some k →
      t.sent k = t.handed k ++ (t.loop.inbound fd).unread) ∧
    (∀ (i : ℕ) (e : Inbound), t.loop.backlog[i]? = some e →
      t.sent (t.loop.accepted + i) = e.unread ∧ t.handed (t.loop.accepted + i) = []) ∧
    (∀ k : ℕ, k < t.loop.accepted → (∀ fd, t.loop.server.owner fd ≠ some k) →
      t.sent k = t.handed k) ∧
    ∀ (l : LoopStep) (t' : Streams), t.step J l = some t' →
      t'.sent = extend t.sent (t.loop.sends l) ∧ t'.handed = extend t.handed (t.loop.hands l) ∧
      ∀ (k : ℕ) (data : Str), t.loop.hands l = some (k, data) → data ≠ [] →
        t'.loop.server = t.loop.server.handleMessage J k data := by
  have hkept := kept_of_reachable h
  refine ⟨hkept.opened, hkept.pending, hkept.closed, fun l t' hl => ?_⟩
  obtain ⟨loop, hloop, rfl⟩ := Option.map_eq_some_iff.1 hl
  exact ⟨rfl, rfl, fun k data hhands hdata => hkept.handleMessage hloop hhands hdata⟩

/-- The first client subscribes and leaves; the second gets its descriptor number, and half of its text
has been read. -/
theorem bytes_kept_reused :
    ∃ t, Reachable (step Server.sampleJson) (start .empty 3) t ∧
      t.handed 0 = Server.subscribeText ∧ t.sent 0 = t.handed 0 ∧
      t.handed 1 = bytes "x" ∧ t.sent 1 = t.handed 1 ++ (t.loop.inbound 5).unread := by
  obtain ⟨t, ht, hview⟩ := Option.map_eq_some_iff.1 (show (run (step Server.sampleJson) (start .empty 3)
    [.connect, .epollWait [3], .event, .accept (.ok 5), .accept (.fail .eagain), .again,
      .arrive 5 Server.subscribeText, .epollWait [5], .read (.ok Server.subscribeText), .again, .finish 5,
      .epollWait [5], .read (.ok []), .again, .connect, .arrivePending 0 (bytes "xy"),
      .epollWait [3], .event, .accept (.ok 5), .accept (.fail .eagain), .again, .epollWait [5],
      .read (.ok (bytes "x")), .again]).map (fun t => (t.loop.server.owner 5, t.loop.server.nextConn,
        decide (.accepted 0 5 ∈ t.loop.server.trace), t.handed 0, t.handed 1)) =
          some (some 1, 2, true, Server.subscribeText, bytes "x") by decide)
  simp only [Prod.mk.injEq, decide_eq_true_eq] at hview
  obtain ⟨howner, hnext, haccepted, hfirst, hsecond⟩ := hview
  have hreach : Reachable (step Server.sampleJson) (start .empty 3) t := ⟨_, ht⟩
  have hwired := (kept_of_reachable hreach).registered.wired
  obtain ⟨hopened, -, hclosed, -⟩ := bytes_kept Server.sampleJson .empty 3 hreach
  refine ⟨t, hreach, hfirst, hclosed 0 ?_ fun fd ho => ?_, hsecond, hopened 5 1 howner⟩
  · rw [EventLoop.accepted, hnext]
    exact Nat.zero_lt_two
  · obtain rfl := hwired.accepted_inj 0 fd 5 ((hwired.owner fd 0).1 ho).1 haccepted
    cases howner.symm.trans ho

end Streams

end EllohimMQ
