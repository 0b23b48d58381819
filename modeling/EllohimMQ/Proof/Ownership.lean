import EllohimMQ.Proof.Wired

/-!
# Who owns a connection after it has ended

A connection object has an owner in `connections` and one more: the closure that `main` stores in
the object itself.  Closing the descriptor takes the first away and leaves the second, so the object
of a session that has ended keeps a use count of one for ever.  The weak pointers of the broker
therefore never expire, and the loop of `dispatch` that should remove disconnected subscribers
removes nothing.
-/

namespace EllohimMQ

open Transition

/-- The connection that the event subscribes to the topic. -/
def Event.subscriberOf (topic : Str) : Event → Option ConnId
  | .subscribe conn topic' => if topic' = topic then some conn else none
  | _ => none

theorem Quiet.subscriberOf {e : Event} (h : Server.Quiet e) (topic : Str) :
    e.subscriberOf topic = none := by
  cases e <;> first | rfl | exact h.elim

namespace Server

variable {J : Nlohmann}

/-- The object is the value of an entry of `connections`. -/
def connected (s : Server) (c : ConnId) : Bool := s.connections.any fun e => e.2 = c

/-- Sessions that have ended are forgotten: their objects have no owner, and a publish leaves the
topic with entries of current connections only, no more of them than these have subscribed. -/
structure Forgotten (J : Nlohmann) (s : Server) : Prop where
  unowned : ∀ fd c, .closed fd (some c) ∈ s.trace → s.useCount c = 0
  pruned : ∀ conn topic payload, let s' := (s.publish J conn topic payload).1
    ∀ c ∈ s'.broker.subscribers topic, s'.connected c = true
  bounded : ∀ conn topic payload, let s' := (s.publish J conn topic payload).1
    (s'.broker.subscribers topic).length ≤
      (s'.trace.filterMap (Event.subscriberOf topic)).countP s'.connected

/-! ## The entries of a topic -/

/-- The entries of a topic are the subscribes of the whole run. -/
def Recorded (s : Server) : Prop :=
  ∀ topic, s.broker.subscribers topic = s.trace.filterMap (Event.subscriberOf topic)

theorem Recorded.append_quiet {s : Server} (h : s.Recorded) {seg : List Event}
    (hq : ∀ e ∈ seg, Quiet e) : ({ s with trace := s.trace ++ seg } : Server).Recorded := by
  intro topic
  have hseg : seg.filterMap (Event.subscriberOf topic) = [] :=
    List.filterMap_eq_nil_iff.2 fun e he => Quiet.subscriberOf (hq e he) topic
  show s.broker.subscribers topic = _
  rw [List.filterMap_append, hseg, List.append_nil]
  exact h topic

theorem Recorded.subscribe {s : Server} (h : s.Recorded) (conn : ConnId) (topic : Str) :
    (s.subscribe conn topic).Recorded := by
  intro topic'
  by_cases ht : topic' = topic
  · subst ht
    simp [Server.subscribe, MessageBroker.subscribe, Event.subscriberOf, h topic']
  · simp [Server.subscribe, MessageBroker.subscribe, Event.subscriberOf, ht, Ne.symm ht, h topic']

theorem Recorded.handleMessage {s : Server} (h : s.Recorded) (hw : s.Wired) {conn : ConnId}
    (hc : conn < s.nextConn) (data : Str) : (s.handleMessage J conn data).Recorded := by
  rcases hw.handleMessage_quiet hc data with ⟨topic, e⟩ | ⟨seg, hseg, e⟩
  · exact e ▸ h.subscribe conn topic
  · exact e ▸ h.append_quiet hseg

theorem Recorded.input {s s' : Server} (h : s.Recorded) (hw : s.Wired) {i : Input}
    (hi : s.input J i = some s') : s'.Recorded := by
  rcases hw.input_cases hi with ⟨fd, -, -, rfl⟩ | ⟨fd, c, data, -, -, ho, rfl⟩ | ⟨fd, c, -, -, rfl⟩
  · intro topic
    simpa [Server.acceptOne, Event.subscriberOf, List.filterMap_cons] using h topic
  · exact h.handleMessage hw (hw.owner_lt ho) data
  · intro topic
    simpa [Server.closeConnection, Event.subscriberOf, List.filterMap_cons] using h topic

theorem recorded_of_reachable {registry : Consumers} {serverFd : Fd} {s : Server}
    (h : Reachable (Server.input J) (main registry serverFd) s) : s.Recorded :=
  (h.invariant (P := fun s => s.Wired ∧ s.Recorded)
    (fun _ _ _ hw hi => ⟨hw.1.input hi, hw.2.input hw.1 hi⟩)
    ⟨wired_main registry serverFd, fun _ => rfl⟩).2

/-! ## Disconnections -/

/-- Handling a message ends no session. -/
theorem Wired.closed_handleMessage {s : Server} (h : s.Wired) {conn : ConnId}
    (hc : conn < s.nextConn) (data : Str) (fd : Fd) (session : Option ConnId) :
    .closed fd session ∈ (s.handleMessage J conn data).trace ↔ .closed fd session ∈ s.trace := by
  rcases h.handleMessage_quiet hc data with ⟨topic, e⟩ | ⟨seg, hseg, e⟩ <;> rw [e]
  · simp [Server.subscribe]
  · have hnot : .closed fd session ∉ seg := fun hm => hseg _ hm
    simp [hnot]

/-- A session has ended when, and only when, `recv` has reported the end of its stream. -/
theorem closed_iff_read {registry : Consumers} {serverFd : Fd} {inputs : List Input} {s : Server}
    (h : run (Server.input J) (main registry serverFd) inputs = some s) :
    (∃ fd c, .closed fd (some c) ∈ s.trace) ↔ ∃ fd, .read fd (.ok []) ∈ inputs := by
  have key : s.Wired ∧
      ((∃ fd c, .closed fd (some c) ∈ s.trace) ↔ ∃ fd, .read fd (.ok []) ∈ inputs) := by
    refine run_induction (P := fun inputs s => s.Wired ∧
      ((∃ fd c, .closed fd (some c) ∈ s.trace) ↔ ∃ fd, .read fd (.ok []) ∈ inputs)) ?_ ?_ h
    · exact ⟨wired_main registry serverFd, by simp [main]⟩
    · rintro inputs s i s' ⟨hw, hiff⟩ hi
      refine ⟨hw.input hi, ?_⟩
      rcases hw.input_cases hi with ⟨fd, rfl, -, rfl⟩ | ⟨fd, c, data, rfl, hne, ho, rfl⟩ |
        ⟨fd, c, rfl, ho, rfl⟩
      · simpa [Server.acceptOne] using hiff
      · simpa [hw.closed_handleMessage (hw.owner_lt ho), Ne.symm hne] using hiff
      · refine iff_of_true ⟨fd, c, ?_⟩ ⟨fd, by simp⟩
        simp [Server.closeConnection, ho]
  exact key.2

/-- The use count of an object never falls to zero. -/
theorem Wired.useCount_pos {s : Server} (h : s.Wired) {c : ConnId} (hc : c < s.nextConn) :
    0 < s.useCount c := of_decide_eq_true (h.lock_eq_true hc)

/-- Sessions that have ended are forgotten in no run in which one has ended. -/
theorem forgotten_iff {registry : Consumers} {serverFd : Fd} {inputs : List Input} {s : Server}
    (h : run (Server.input J) (main registry serverFd) inputs = some s) :
    s.Forgotten J ↔ ∀ fd, .read fd (.ok []) ∉ inputs := by
  have hw := wired_of_reachable ⟨inputs, h⟩
  have hrec := recorded_of_reachable ⟨inputs, h⟩
  constructor
  · intro hf fd hread
    obtain ⟨fd', c, hclosed⟩ := (closed_iff_read h).2 ⟨fd, hread⟩
    have hzero := hf.unowned fd' c hclosed
    have hpos := hw.useCount_pos (hw.closed fd' c hclosed)
    omega
  · intro hread
    have hopen : ∀ fd c, .closed fd (some c) ∉ s.trace := fun fd c hm => by
      obtain ⟨fd', hm'⟩ := (closed_iff_read h).1 ⟨fd, c, hm⟩
      exact hread fd' hm'
    have hconn : ∀ topic, ∀ c ∈ s.broker.subscribers topic, s.connected c = true := by
      intro topic c hc
      obtain ⟨fd, -, hacc⟩ := hw.objects c (hw.subscribed c topic ((hw.subscribers c topic).1 hc))
      have ho := (hw.owner fd c).2 ⟨hacc, hopen fd c⟩
      have hmem := lookup_mem ((hw.connections fd).trans ho)
      exact List.any_eq_true.2 ⟨_, hmem, decide_eq_true rfl⟩
    refine ⟨fun fd c hm => absurd hm (hopen fd c), fun conn topic payload => ?_,
      fun conn topic payload => ?_⟩
    · obtain ⟨called, frames, thrown, hp, -⟩ := hw.publish_eq J conn topic payload
      rw [hp]
      exact hconn topic
    · obtain ⟨called, frames, thrown, hp, -⟩ := hw.publish_eq J conn topic payload
      rw [hp]
      let seg := Event.publish conn topic payload :: (called ++ frames)
      calc (s.broker.subscribers topic).length
          = (s.broker.subscribers topic).countP s.connected :=
            (List.countP_eq_length.2 (hconn topic)).symm
        _ ≤ (s.trace.filterMap (Event.subscriberOf topic) ++
              seg.filterMap (Event.subscriberOf topic)).countP s.connected := by
            rw [List.countP_append, ← hrec topic]
            exact Nat.le_add_right _ _
        _ = ((s.trace ++ seg).filterMap (Event.subscriberOf topic)).countP s.connected := by
            rw [List.filterMap_append]

/-- One client, which subscribes and stays. -/
theorem forgotten_iff_connected :
    ∃ s, run (Server.input sampleJson) (main .empty 3)
        [.accept 5, .read 5 (.ok subscribeText)] = some s ∧ s.Forgotten sampleJson := by
  obtain ⟨s, hs⟩ := Option.isSome_iff_exists.1 (show (run (Server.input sampleJson)
    (main .empty 3) [.accept 5, .read 5 (.ok subscribeText)]).isSome = true by rfl)
  refine ⟨s, hs, (forgotten_iff hs).2 fun fd => ?_⟩
  simp [show subscribeText ≠ [] by decide]

/-- A subscriber of `a` disconnects: its object keeps an owner, and the next publish on `a` leaves
its entry, which belongs to no current connection, where it was. -/
theorem forgotten_broken :
    ∃ s, run (Server.input sampleJson) (main .empty 3)
        [.accept 5, .read 5 (.ok subscribeText), .read 5 (.ok []), .accept 6] = some s ∧
      .closed 5 (some 0) ∈ s.trace ∧ s.useCount 0 = 1 ∧
      (s.publish sampleJson 1 (bytes "a") (bytes "x")).1.broker.subscribers (bytes "a") = [0] ∧
      (s.publish sampleJson 1 (bytes "a") (bytes "x")).1.connected 0 = false ∧
      ¬ s.Forgotten sampleJson := by
  let inputs : List Input :=
    [.accept 5, .read 5 (.ok subscribeText), .read 5 (.ok []), .accept 6]
  obtain ⟨s, hs, hfacts⟩ := Option.map_eq_some_iff.1 (show (run (Server.input sampleJson)
    (main .empty 3) inputs).map (fun s => decide (.closed 5 (some 0) ∈ s.trace ∧ s.useCount 0 = 1 ∧
      (s.publish sampleJson 1 (bytes "a") (bytes "x")).1.broker.subscribers (bytes "a") = [0] ∧
      (s.publish sampleJson 1 (bytes "a") (bytes "x")).1.connected 0 = false)) = some true by rfl)
  obtain ⟨hclosed, huse, hsubs, hconn⟩ := of_decide_eq_true hfacts
  refine ⟨s, hs, hclosed, huse, hsubs, hconn, fun hf => ?_⟩
  have hzero := hf.unowned 5 0 hclosed
  omega

end Server

end EllohimMQ
