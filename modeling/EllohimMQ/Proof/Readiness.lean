import EllohimMQ.Model.EventLoop
import EllohimMQ.Proof.Wired

/-!
# Readiness under edge-triggered epoll

`handle_read` makes one call of `recv` for an event, and the edge of the descriptor is gone by then.
What that call leaves unread is noticed only if something else arrives; the same holds for the
connections that `handle_accept` leaves in the backlog when `accept` fails.

`readiness_noticed` says that nothing else goes wrong: in a run in which every `recv` takes all
there is, and `accept` fails only on an empty backlog, the loop never waits on anything unnoticed.
-/

namespace EllohimMQ

open Transition

namespace EventLoop

variable {J : Nlohmann}

/-! ## The descriptors of a batch -/

/-- What holds in every run: the events that are left, and the edges, belong to the listening socket
or to open clients. -/
structure Registered (s : EventLoop) : Prop where
  wired : s.server.Wired
  serverFd : s.server.owner s.server.serverFd = none
  nodup : s.phase.events.Nodup
  events : ∀ fd ∈ s.phase.events, fd = s.server.serverFd ∨ (s.server.owner fd).isSome
  edges : ∀ fd ∈ s.edges, fd = s.server.serverFd ∨ (s.server.owner fd).isSome

theorem mem_raise {edges : List Fd} {fd fd' : Fd} : fd' ∈ raise edges fd ↔ fd' ∈ edges ∨ fd' = fd := by
  unfold raise
  split_ifs with h
  · constructor
    · exact .inl
    · rintro (h' | rfl)
      · exact h'
      · exact h
  · simp

theorem registered_start (registry : Consumers) (serverFd : Fd) :
    (start registry serverFd).Registered where
  wired := Server.wired_main registry serverFd
  serverFd := rfl
  nodup := List.nodup_nil
  events _ h := by cases h
  edges _ h := by cases h

/-! ## What a step does -/

variable (J) in
/-- The steps, with what each needs and the state it ends in. -/
inductive Moves (s : EventLoop) : LoopStep → EventLoop → Prop
  | arrive {fd : Fd} {data : Str} (hfd : (s.server.owner fd).isSome) (hdata : data ≠ [])
    (heof : (s.inbound fd).eof = false) :
    Moves s (.arrive fd data)
      (s.arrival fd { s.inbound fd with unread := (s.inbound fd).unread ++ data })
  | finish {fd : Fd} (hfd : (s.server.owner fd).isSome) (heof : (s.inbound fd).eof = false) :
    Moves s (.finish fd) (s.arrival fd { s.inbound fd with eof := true })
  | connect :
    Moves s .connect
      { s with backlog := s.backlog ++ [.empty], edges := raise s.edges s.server.serverFd }
  | arrivePending {i : ℕ} {data : Str} {k : Inbound} (hi : s.backlog[i]? = some k)
    (heof : k.eof = false) :
    Moves s (.arrivePending i data)
      { s with backlog := s.backlog.set i { k with unread := k.unread ++ data } }
  | finishPending {i : ℕ} {k : Inbound} (hi : s.backlog[i]? = some k) :
    Moves s (.finishPending i) { s with backlog := s.backlog.set i { k with eof := true } }
  | epollWait {events : List Fd} (hphase : s.phase = .waiting) (hnodup : events.Nodup)
    (hedges : ∀ fd ∈ events, fd ∈ s.edges) :
    Moves s (.epollWait events)
      { s with edges := s.edges.filter (· ∉ events), phase := .handling events }
  | epollError (hphase : s.phase = .waiting) : Moves s .epollError s
  | event {events : List Fd} (hphase : s.phase = .handling (s.server.serverFd :: events)) :
    Moves s .event { s with phase := .accepting events }
  | accepted {events : List Fd} {fd : Fd} {k : Inbound} {backlog : List Inbound}
    {server : Server} (hphase : s.phase = .accepting events) (hbacklog : s.backlog = k :: backlog)
    (hserver : s.server.input J (.accept fd) = some server) :
    Moves s (.accept (.ok fd))
      { s with
        server
        inbound := Function.update s.inbound fd k
        backlog
        edges := if k.readable then raise s.edges fd else s.edges }
  | acceptFailed {events : List Fd} {errno : Errno} (hphase : s.phase = .accepting events)
    (hfail : errno.wouldBlock = true → s.backlog = []) :
    Moves s (.accept (.fail errno)) { s with phase := .handling events }
  | read {events : List Fd} {fd : Fd} {r : RecvResult} {server : Server}
    (hphase : s.phase = .handling (fd :: events)) (hrecv : (s.inbound fd).recv r = true)
    (hserver : s.server.input J (.read fd r) = some server) :
    Moves s (.read r)
      { s with
        server
        inbound := Function.update s.inbound fd
          { s.inbound fd with unread := (s.inbound fd).unread.drop r.buffer.length }
        edges := if (server.owner fd).isSome then s.edges else s.edges.filter (· ≠ fd)
        phase := .handling events }
  | again (hphase : s.phase = .handling []) : Moves s .again { s with phase := .waiting }

theorem recv_length {k : Inbound} {r : RecvResult} (h : k.recv r = true) :
    r.buffer.length ≤ 1024 := by
  rcases r with data | errno
  · rcases data with _ | ⟨b, bs⟩
    · simp [RecvResult.buffer]
    · simp only [Inbound.recv, Bool.and_eq_true, decide_eq_true_eq] at h
      exact h.2
  · simp [RecvResult.buffer]

theorem acceptStep_cases {s s' : EventLoop} {events : List Fd} {r : AcceptResult}
    (hphase : s.phase = .accepting events) (h : s.acceptStep events r = some s') :
    s.Moves J (.accept r) s' := by
  rcases r with fd | errno
  · rcases hb : s.backlog with _ | ⟨k, backlog⟩
    · simp [acceptStep, hb] at h
    · simp only [acceptStep, hb] at h
      by_cases hfd : s.server.owner fd = none ∧ fd ≠ s.server.serverFd
      · have hserver : s.server.input J (.accept fd) = some (s.server.acceptOne fd) := by
          rw [Server.input, if_pos hfd]
        rw [if_pos hfd] at h
        exact Option.some.inj h ▸ .accepted hphase hb hserver
      · rw [if_neg hfd] at h
        cases h
  · simp only [acceptStep] at h
    split_ifs at h with hfail
    obtain rfl := Option.some.inj h
    exact .acceptFailed hphase fun hw => by_contra fun hb => hfail ⟨hw, hb⟩

/-- `handle_read` finds the connection, because the event belongs to an open client. -/
theorem readStep_cases {s s' : EventLoop} (hreg : s.Registered) {fd : Fd} {events : List Fd}
    {r : RecvResult} (hphase : s.phase = .handling (fd :: events)) (hfd : fd ≠ s.server.serverFd)
    (h : s.readStep J fd events r = some s') : s.Moves J (.read r) s' := by
  have hopen : (s.server.owner fd).isSome :=
    (hreg.events fd (by simp [hphase, LoopPhase.events])).resolve_left hfd
  unfold readStep at h
  split_ifs at h with hrecv
  rcases hread : s.server.handleRead J fd r with ⟨server, _ | what⟩ <;> rw [hread] at h
  · obtain rfl := Option.some.inj h
    exact .read hphase hrecv (by simp [Server.input, hopen, recv_length hrecv, hread])
  · cases h

theorem step_cases {s s' : EventLoop} (hreg : s.Registered) {l : LoopStep}
    (h : s.step J l = some s') : s.Moves J l s' := by
  cases l with
  | arrive fd data =>
    simp only [step] at h
    split_ifs at h with hg
    exact Option.some.inj h ▸ .arrive hg.1 hg.2.1 hg.2.2
  | finish fd =>
    simp only [step] at h
    split_ifs at h with hg
    exact Option.some.inj h ▸ .finish hg.1 hg.2
  | connect => exact Option.some.inj h ▸ .connect
  | arrivePending i data =>
    simp only [step] at h
    split at h
    · cases h
    · next hi =>
      split_ifs at h with heof
      exact Option.some.inj h ▸ .arrivePending hi (Bool.eq_false_iff.2 heof)
  | finishPending i =>
    simp only [step] at h
    split at h
    · cases h
    · next hi => exact Option.some.inj h ▸ .finishPending hi
  | epollWait events =>
    simp only [step] at h
    split_ifs at h with hg
    exact Option.some.inj h ▸ .epollWait hg.1 hg.2.2.1 hg.2.2.2.2
  | epollError =>
    simp only [step] at h
    split_ifs at h with hphase
    exact Option.some.inj h ▸ .epollError hphase
  | event =>
    simp only [step] at h
    split at h
    · next fd events hphase =>
      split_ifs at h with hfd
      exact Option.some.inj h ▸ .event (hfd ▸ hphase)
    · cases h
  | accept r =>
    simp only [step] at h
    split at h
    · next hphase => exact acceptStep_cases hphase h
    · cases h
  | read r =>
    simp only [step] at h
    split at h
    · next fd events hphase =>
      split_ifs at h with hfd
      exact readStep_cases hreg hphase hfd h
    · cases h
  | again =>
    simp only [step] at h
    split_ifs at h with hphase
    exact Option.some.inj h ▸ .again hphase

/-- The steps of the loop act on the server as inputs of a run of it. -/
theorem Moves.server {s s' : EventLoop} {l : LoopStep} (h : s.Moves J l s') :
    s'.server = s.server ∨ ∃ i, s.server.input J i = some s'.server := by
  cases h with
  | accepted _ _ hserver => exact .inr ⟨_, hserver⟩
  | read _ _ hserver => exact .inr ⟨_, hserver⟩
  | _ => exact .inl rfl

/-- The descriptors of a step that accepts or reads. -/
theorem owner_isSome_of_input {s s' : Server} (h : s.Wired) {i : Input}
    (hi : s.input J i = some s') {fd : Fd} (hfd : (s.owner fd).isSome)
    (hclose : i ≠ .read fd (.ok [])) : (s'.owner fd).isSome := by
  cases i with
  | accept fd' =>
    obtain ⟨-, -, e⟩ := Server.input_accept hi
    rw [e]
    by_cases hne : fd = fd'
    · simp [hne]
    · rwa [Function.update_of_ne hne]
  | read fd' r =>
    obtain ⟨-, ⟨data, -, -, e⟩ | ⟨rfl, e⟩⟩ := h.input_read hi
    · rwa [e]
    · rw [e, Function.update_of_ne fun hne => hclose (by rw [hne])]
      exact hfd

theorem Registered.accepted {s : EventLoop} (h : s.Registered) {fd : Fd} {server : Server}
    (hserver : s.server.input J (.accept fd) = some server) (inbound : Fd → Inbound)
    (backlog : List Inbound) (readable : Bool) :
    ({ s with
      server
      inbound
      backlog
      edges := if readable then raise s.edges fd else s.edges } : EventLoop).Registered := by
  obtain ⟨hfd, hne, howner⟩ := Server.input_accept hserver
  have hopen : ∀ fd', fd' = s.server.serverFd ∨ (s.server.owner fd').isSome →
      fd' = server.serverFd ∨ (server.owner fd').isSome := fun fd' => by
    rw [hfd]
    exact Or.imp_right fun ho => owner_isSome_of_input h.wired hserver ho nofun
  refine ⟨h.wired.input hserver, ?_, h.nodup, fun fd' hm => hopen fd' (h.events fd' hm),
    fun fd' hm => ?_⟩
  · rw [hfd, howner, Function.update_of_ne hne.symm]
    exact h.serverFd
  · have hm' : fd' ∈ s.edges ∨ fd' = fd := by
      dsimp only at hm
      split_ifs at hm
      · exact mem_raise.1 hm
      · exact .inl hm
    rcases hm' with hm' | rfl
    · exact hopen fd' (h.edges fd' hm')
    · exact .inr (by simp [howner])

theorem Registered.read {s : EventLoop} (h : s.Registered) {fd : Fd} {events : List Fd}
    {r : RecvResult} {server : Server} (hphase : s.phase = .handling (fd :: events))
    (hserver : s.server.input J (.read fd r) = some server) (inbound : Fd → Inbound) :
    ({ s with
      server
      inbound
      edges := if (server.owner fd).isSome then s.edges else s.edges.filter (· ≠ fd)
      phase := .handling events } : EventLoop).Registered := by
  obtain ⟨hfd, hcase⟩ := h.wired.input_read hserver
  have hnodup := h.nodup
  have hevents := h.events
  rw [hphase] at hnodup hevents
  have hopen : ∀ fd', fd' ≠ fd → fd' = s.server.serverFd ∨ (s.server.owner fd').isSome →
      fd' = server.serverFd ∨ (server.owner fd').isSome := fun fd' hne => by
    rw [hfd]
    exact Or.imp_right fun ho => owner_isSome_of_input h.wired hserver ho
      fun e => hne (Input.read.inj e).1.symm
  refine ⟨h.wired.input hserver, ?_, (List.nodup_cons.1 hnodup).2, fun fd' hm => ?_,
    fun fd' hm => ?_⟩
  · rw [hfd]
    rcases hcase with ⟨_, -, -, e⟩ | ⟨-, e⟩ <;> rw [e]
    · exact h.serverFd
    · by_cases hne : s.server.serverFd = fd
      · rw [hne, Function.update_self]
      · rw [Function.update_of_ne hne]
        exact h.serverFd
  · refine hopen fd' (fun e => ?_) (hevents fd' (List.mem_cons_of_mem _ hm))
    exact (List.nodup_cons.1 hnodup).1 (e ▸ hm)
  · dsimp only at hm
    split_ifs at hm with ho
    · by_cases hne : fd' = fd
      · exact .inr (hne ▸ ho)
      · exact hopen fd' hne (h.edges fd' hm)
    · obtain ⟨hm, hne⟩ := List.mem_filter.1 hm
      exact hopen fd' (of_decide_eq_true hne) (h.edges fd' hm)

/-- A raised edge belongs to the listening socket or to an open client. -/
theorem Registered.mem_edges_raise {s : EventLoop} (h : s.Registered) {fd : Fd}
    (hfd : fd = s.server.serverFd ∨ (s.server.owner fd).isSome) :
    ∀ fd' ∈ raise s.edges fd, fd' = s.server.serverFd ∨ (s.server.owner fd').isSome := by
  intro fd' hmem
  rcases mem_raise.1 hmem with hmem | rfl
  · exact h.edges fd' hmem
  · exact hfd

/-- Every event of a batch is handled while its descriptor is the listening socket or belongs to an
open client; `handle_read` never fails to find the connection. -/
theorem Registered.step {s s' : EventLoop} (h : s.Registered) {l : LoopStep}
    (hs : s.step J l = some s') : s'.Registered := by
  cases step_cases h hs with
  | arrive hfd | finish hfd => exact { h with edges := h.mem_edges_raise (.inr hfd) }
  | connect => exact { h with edges := h.mem_edges_raise (.inl rfl) }
  | arrivePending | finishPending => exact { h with }
  | epollWait hphase hnodup hedges =>
    exact { h with
      nodup := hnodup
      events := fun fd hfd => h.edges fd (hedges fd hfd)
      edges := fun fd hfd => h.edges fd (List.mem_of_mem_filter hfd) }
  | epollError => exact h
  | event hphase =>
    have hnodup := h.nodup
    have hevents := h.events
    rw [hphase] at hnodup hevents
    exact { h with
      nodup := (List.nodup_cons.1 hnodup).2
      events := fun fd hfd => hevents fd (List.mem_cons_of_mem _ hfd) }
  | accepted hphase hbacklog hserver => exact h.accepted hserver _ _ _
  | acceptFailed hphase hfail =>
    have hnodup := h.nodup
    have hevents := h.events
    rw [hphase] at hnodup hevents
    exact { h with nodup := hnodup, events := hevents }
  | read hphase hrecv hserver => exact h.read hphase hserver _
  | again hphase => exact { h with nodup := List.nodup_nil, events := List.forall_mem_nil _ }

/-- The loop runs the server, so what holds in every run of the server holds in every run of the
loop. -/
theorem reachable_server {registry : Consumers} {serverFd : Fd} {s : EventLoop}
    (h : Reachable (step J) (start registry serverFd) s) :
    s.Registered ∧ Reachable (Server.input J) (.main registry serverFd) s.server := by
  refine h.invariant (P := fun s => s.Registered ∧
    Reachable (Server.input J) (.main registry serverFd) s.server) ?_
    ⟨registered_start registry serverFd, .refl _⟩
  rintro s l s' ⟨hreg, hreach⟩ hs
  refine ⟨hreg.step hs, ?_⟩
  rcases (step_cases hreg hs).server with heq | ⟨i, hi⟩
  · exact heq ▸ hreach
  · exact hreach.tail hi

/-! ## Nothing is left unnoticed -/

/-- The steps that leave nothing behind: a `recv` that returns bytes returns all that are unread,
with no end of the stream behind them, and `accept` fails only when the backlog is empty, unless the
edge has been raised again since `epoll_wait` reported the descriptor. -/
def Drains (s : EventLoop) : LoopStep → Prop
  | .read (.ok data) => ∀ fd ∈ s.phase.events.head?, data = [] ∨ fd ∈ s.edges ∨
      data = (s.inbound fd).unread ∧ (s.inbound fd).eof = false
  | .accept (.fail _) => s.backlog = [] ∨ s.server.serverFd ∈ s.edges
  | _ => True

instance (s : EventLoop) (l : LoopStep) : Decidable (s.Drains l) := by
  rcases l with _ | _ | _ | _ | _ | _ | _ | _ | r | r | _ <;> try exact isTrue trivial
  · rcases r with _ | errno
    · exact isTrue trivial
    · unfold Drains; infer_instance
  · rcases r with data | errno
    · unfold Drains; infer_instance
    · exact isTrue trivial

/-- Whatever can be read or accepted has its edge raised or is about to be handled. -/
structure Noticed (s : EventLoop) : Prop where
  registered : s.Registered
  clients : ∀ fd, (s.server.owner fd).isSome → (s.inbound fd).readable = true →
    fd ∈ s.edges ∨ fd ∈ s.phase.events
  listening : s.backlog ≠ [] → s.server.serverFd ∈ s.edges ∨ s.server.serverFd ∈ s.phase.events ∨
    s.phase.isAccepting = true

theorem noticed_start (registry : Consumers) (serverFd : Fd) :
    (start registry serverFd).Noticed where
  registered := registered_start registry serverFd
  clients _ h := by cases h
  listening h := absurd rfl h

variable {s s' : EventLoop}

/-- An arrival raises the edge of its connection. -/
theorem Noticed.arrival (h : s.Noticed) {fd : Fd} {k : Inbound}
    (hreg : (s.arrival fd k).Registered) : (s.arrival fd k).Noticed := by
  refine ⟨hreg, fun fd' ho hr => ?_, fun hb =>
    (h.listening hb).imp_left fun hm => mem_raise.2 (.inl hm)⟩
  change fd' ∈ raise s.edges fd ∨ fd' ∈ s.phase.events
  rw [mem_raise]
  by_cases hfd : fd' = fd
  · exact .inl (.inr hfd)
  · change (Function.update s.inbound fd k fd').readable = true at hr
    rw [Function.update_of_ne hfd] at hr
    exact (h.clients fd' ho hr).imp_left .inl

/-- The backlog keeps its connections. -/
theorem Noticed.setBacklog (h : s.Noticed) {i : ℕ} {k : Inbound}
    (hreg : ({ s with backlog := s.backlog.set i k } : EventLoop).Registered) :
    ({ s with backlog := s.backlog.set i k } : EventLoop).Noticed :=
  ⟨hreg, h.clients, fun hne => h.listening fun hnil => hne (by simp [hnil])⟩

theorem Noticed.clients_read (h : s.Noticed) {fd : Fd} {events : List Fd} {r : RecvResult}
    {server : Server} (hphase : s.phase = .handling (fd :: events))
    (hserver : s.server.input J (.read fd r) = some server) (hdrains : s.Drains (.read r)) :
    ∀ fd', (server.owner fd').isSome →
      (Function.update s.inbound fd
        { s.inbound fd with unread := (s.inbound fd).unread.drop r.buffer.length }
        fd').readable = true →
      fd' ∈ (if (server.owner fd).isSome then s.edges else s.edges.filter (· ≠ fd)) ∨
        fd' ∈ events := by
  intro fd' ho hr
  obtain ⟨-, hcase⟩ := h.registered.wired.input_read hserver
  by_cases hfd : fd' = fd
  · -- the descriptor that was read: closed, raised again, or empty
    subst hfd
    rw [Function.update_self] at hr
    rcases hcase with ⟨data, rfl, hne, -⟩ | ⟨-, e⟩
    · rcases hdrains fd' (by simp [hphase, LoopPhase.events]) with hnil | hedge | ⟨hall, heof⟩
      · exact absurd hnil hne
      · rw [if_pos ho]
        exact .inl hedge
      · simp [Inbound.readable, RecvResult.buffer, ← hall, heof] at hr
    · simp [e] at ho
  · have hsame : server.owner fd' = s.server.owner fd' := by
      rcases hcase with ⟨_, -, -, e⟩ | ⟨-, e⟩ <;> rw [e]
      rw [Function.update_of_ne hfd]
    rw [Function.update_of_ne hfd] at hr
    rw [hsame] at ho
    rcases h.clients fd' ho hr with hedge | hevent
    · left
      split_ifs
      · exact hedge
      · exact List.mem_filter.2 ⟨hedge, by simpa using hfd⟩
    · rw [hphase] at hevent
      exact .inr ((List.mem_cons.1 hevent).resolve_left hfd)

theorem Noticed.listening_read (h : s.Noticed) {fd : Fd} {events : List Fd} {r : RecvResult}
    {server : Server} (hphase : s.phase = .handling (fd :: events))
    (hserver : s.server.input J (.read fd r) = some server) (hb : s.backlog ≠ []) :
    s.server.serverFd ∈ (if (server.owner fd).isSome then s.edges else s.edges.filter (· ≠ fd)) ∨
      s.server.serverFd ∈ events := by
  have hne : s.server.serverFd ≠ fd := by
    rintro rfl
    simp only [Server.input, h.registered.serverFd] at hserver
    simp at hserver
  have hlisten := h.listening hb
  rw [hphase] at hlisten
  rcases hlisten with hedge | hevent | hacc
  · left
    split_ifs
    · exact hedge
    · exact List.mem_filter.2 ⟨hedge, by simpa using hne⟩
  · exact .inr ((List.mem_cons.1 hevent).resolve_left hne)
  · cases hacc

/-- A step that leaves nothing behind keeps everything noticed. -/
theorem Noticed.step (h : s.Noticed) {l : LoopStep} (hdrains : s.Drains l)
    (hs : s.step J l = some s') : s'.Noticed := by
  have hreg := h.registered.step hs
  cases step_cases h.registered hs with
  | arrive | finish => exact h.arrival hreg
  | connect =>
    refine ⟨hreg, fun fd ho hr => ?_, fun _ => .inl (mem_raise.2 (.inr rfl))⟩
    exact (h.clients fd ho hr).imp_left fun hm => mem_raise.2 (.inl hm)
  | arrivePending | finishPending => exact h.setBacklog hreg
  | @epollWait events hphase hnodup hedges =>
    have hmem : ∀ fd, fd ∈ s.edges → fd ∈ s.edges.filter (· ∉ events) ∨ fd ∈ events := by
      intro fd hfd
      by_cases hev : fd ∈ events
      · exact .inr hev
      · exact .inl (List.mem_filter.2 ⟨hfd, by simpa using hev⟩)
    refine ⟨hreg, fun fd ho hr => ?_, fun hb => ?_⟩
    · have hclient := h.clients fd ho hr
      rw [hphase] at hclient
      exact hmem fd (hclient.resolve_right List.not_mem_nil)
    · have hlisten := h.listening hb
      rw [hphase] at hlisten
      rcases hlisten with hedge | hevent | hacc
      · exact (hmem _ hedge).imp_right .inl
      · cases hevent
      · cases hacc
  | epollError => exact h
  | @event events hphase =>
    refine ⟨hreg, fun fd ho hr => ?_, fun _ => .inr (.inr rfl)⟩
    have hclient := h.clients fd ho hr
    rw [hphase] at hclient
    refine hclient.imp_right fun hm => (List.mem_cons.1 hm).resolve_left fun e => ?_
    rw [e, h.registered.serverFd] at ho
    cases ho
  | @accepted events fd k backlog server hphase hbacklog hserver =>
    obtain ⟨hfd, -, howner⟩ := Server.input_accept hserver
    refine ⟨hreg, fun fd' ho hr => ?_, fun _ => .inr (.inr (by simp [hphase, LoopPhase.isAccepting]))⟩
    dsimp only at ho hr ⊢
    by_cases hne : fd' = fd
    · rw [hne, Function.update_self] at hr
      rw [if_pos hr]
      exact .inl (mem_raise.2 (.inr hne))
    · rw [howner, Function.update_of_ne hne] at ho
      rw [Function.update_of_ne hne] at hr
      refine (h.clients fd' ho hr).imp_left fun hm => ?_
      split_ifs
      · exact mem_raise.2 (.inl hm)
      · exact hm
  | @acceptFailed events errno hphase hfail =>
    refine ⟨hreg, fun fd ho hr => ?_, fun hb => .inl (hdrains.resolve_left hb)⟩
    have hclient := h.clients fd ho hr
    rwa [hphase] at hclient
  | @read events fd r server hphase hrecv hserver =>
    obtain ⟨hfd, -⟩ := h.registered.wired.input_read hserver
    refine ⟨hreg, h.clients_read hphase hserver hdrains, fun hb => ?_⟩
    dsimp only at hb ⊢
    rw [hfd]
    exact (h.listening_read hphase hserver hb).imp_right .inl
  | again hphase =>
    refine ⟨hreg, fun fd ho hr => ?_, fun hb => ?_⟩
    · have hclient := h.clients fd ho hr
      rwa [hphase] at hclient
    · have hlisten := h.listening hb
      rwa [hphase] at hlisten

/-- No open client has unread bytes or an unread end of the stream, and no connection is pending. -/
def Quiescent (s : EventLoop) : Prop :=
  (∀ fd, (s.server.owner fd).isSome → (s.inbound fd).readable = false) ∧ s.backlog = []

/-- In every run in which every `recv` and every loop of `handle_accept` leaves nothing behind, the
loop never gets to `epoll_wait` with no edge raised while something is unnoticed. -/
theorem readiness_noticed {registry : Consumers} {serverFd : Fd} {ls : List LoopStep}
    (h : run (step J) (start registry serverFd) ls = some s)
    (hdrains : Admissible (step J) Drains (start registry serverFd) ls)
    (hphase : s.phase = .waiting) (hedges : s.edges = []) : s.Quiescent := by
  have hn : s.Noticed := hdrains.invariant (fun _ _ _ hn hok hs => hn.step hok hs)
    (noticed_start registry serverFd) h
  constructor
  · intro fd ho
    by_contra hr
    rcases hn.clients fd ho (by simpa using hr) with hm | hm
    · simp [hedges] at hm
    · simp [hphase, LoopPhase.events] at hm
  · by_contra hb
    rcases hn.listening hb with hm | hm | hm
    · simp [hedges] at hm
    · simp [hphase, LoopPhase.events] at hm
    · simp [hphase, LoopPhase.isAccepting] at hm

open Server in
/-- A subscription is read, then the disconnection. -/
theorem readiness_noticed_disconnect :
    ∃ s, run (step sampleJson) (start .empty 3)
        [.connect, .epollWait [3], .event, .accept (.ok 5), .accept (.fail .eagain), .again,
          .arrive 5 subscribeText, .epollWait [5], .read (.ok subscribeText), .again, .finish 5,
          .epollWait [5], .read (.ok []), .again] = some s ∧ s.Quiescent := by
  obtain ⟨s, hs, hview⟩ := Option.map_eq_some_iff.1 (show (run (step sampleJson) (start .empty 3)
    [.connect, .epollWait [3], .event, .accept (.ok 5), .accept (.fail .eagain), .again,
      .arrive 5 subscribeText, .epollWait [5], .read (.ok subscribeText), .again, .finish 5,
      .epollWait [5], .read (.ok []), .again]).map (fun s => (s.phase, s.edges)) =
        some (.waiting, []) by decide)
  obtain ⟨hphase, hedges⟩ := Prod.mk.inj hview
  exact ⟨s, hs, readiness_noticed hs (by decide) hphase hedges⟩

open Server in
/-- The client disconnects right behind its subscription: one `recv` returns the bytes, and the loop
waits on while the end of the stream is unread. -/
theorem disconnect_unnoticed :
    ∃ s, run (step sampleJson) (start .empty 3)
        [.connect, .epollWait [3], .event, .accept (.ok 5), .accept (.fail .eagain), .again,
          .arrive 5 subscribeText, .finish 5, .epollWait [5], .read (.ok subscribeText),
          .again] = some s ∧
      s.phase = .waiting ∧ s.edges = [] ∧ ¬ s.Quiescent := by
  obtain ⟨s, hs, hview⟩ := Option.map_eq_some_iff.1 (show (run (step sampleJson) (start .empty 3)
    [.connect, .epollWait [3], .event, .accept (.ok 5), .accept (.fail .eagain), .again,
      .arrive 5 subscribeText, .finish 5, .epollWait [5], .read (.ok subscribeText),
      .again]).map (fun s => (s.phase, s.edges, s.server.owner 5, (s.inbound 5).readable)) =
        some (.waiting, [], some 0, true) by decide)
  simp only [Prod.mk.injEq] at hview
  obtain ⟨hphase, hedges, howner, hreadable⟩ := hview
  refine ⟨s, hs, hphase, hedges, fun hq => ?_⟩
  have := hq.1 5 (by simp [howner])
  rw [hreadable] at this
  cases this

end EventLoop

end EllohimMQ
