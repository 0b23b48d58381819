import EllohimMQ.Lib.Trace
import EllohimMQ.Proof.Wired

/-!
# Topic isolation across connection lifetimes

`dispatch` means to drop the subscribers that have disconnected, but in the wired server none is
ever dropped: their entries stay, with the descriptor number they had.  When the operating system
gives that number to a new client, the frames of the old client's topics are written to the new one.

`isolation_iff` says exactly when that happens, in terms of what clients and the operating system
do: at a publish, a session that subscribed to the topic has been closed and its descriptor number
now belongs to a session that has not subscribed.
-/

namespace EllohimMQ

open Transition Trace

namespace Server

/-- A frame that `dispatch` writes to an open descriptor is written to a session that has itself
subscribed to the topic of the frame. -/
def WrittenToSubscriber (pre : List Event) : Event → Prop
  | .frame _ (some session) message _ => .subscribe session message.topic ∈ pre
  | _ => True

/-- At a publish, no descriptor number of a closed subscriber of the topic is in use by a session
that has not subscribed to the topic. -/
def NoInheritedFd (pre : List Event) : Event → Prop
  | .publish _ topic _ => ∀ old session fd, .subscribe old topic ∈ pre → .accepted old fd ∈ pre →
      .closed fd (some old) ∈ pre → .accepted session fd ∈ pre →
      .closed fd (some session) ∉ pre → .subscribe session topic ∈ pre
  | _ => True

instance (pre : List Event) (e : Event) : Decidable (WrittenToSubscriber pre e) := by
  cases e <;> unfold WrittenToSubscriber <;> try infer_instance
  case frame session _ _ => cases session <;> infer_instance

theorem writtenToSubscriber_append_quiet {tr pre : List Event} (hq : ∀ e ∈ pre, Quiet e) (e : Event) :
    WrittenToSubscriber (tr ++ pre) e ↔ WrittenToSubscriber tr e := by
  have hsub : ∀ c t, .subscribe c t ∉ pre := fun c t hm => hq _ hm
  rcases e with _ | _ | _ | _ | ⟨fd, _ | session, message, data⟩ | _ | _ | _ <;>
    simp [WrittenToSubscriber, hsub]

theorem noInheritedFd_append_quiet {tr pre : List Event} (hq : ∀ e ∈ pre, Quiet e) (e : Event) :
    NoInheritedFd (tr ++ pre) e ↔ NoInheritedFd tr e := by
  have hsub : ∀ c t, .subscribe c t ∉ pre := fun c t hm => hq _ hm
  have hacc : ∀ c fd, .accepted c fd ∉ pre := fun c fd hm => hq _ hm
  have hclosed : ∀ fd c, .closed fd c ∉ pre := fun fd c hm => hq _ hm
  cases e <;> simp [NoInheritedFd, hsub, hacc, hclosed]

variable {J : Nlohmann}

/-- The frames of a publish all go to subscribers exactly when no descriptor is inherited. -/
theorem Wired.frames_iff {s : Server} (h : s.Wired) (conn : ConnId) (topic payload text : Str) :
    (∀ e ∈ s.frameEvents ⟨topic, payload⟩ text, WrittenToSubscriber s.trace e) ↔
      NoInheritedFd s.trace (.publish conn topic payload) := by
  constructor
  · intro hw old session fd hsub hacc _ hacc' hopen
    have ho : s.owner fd = some session := (h.owner fd session).2 ⟨hacc', hopen⟩
    have := hw _ (h.mem_frameEvents.2 ⟨old, fd, hsub, hacc, rfl⟩)
    rwa [ho] at this
  · intro hn e he
    obtain ⟨c, fd, hsub, hacc, rfl⟩ := h.mem_frameEvents.1 he
    rcases ho : s.owner fd with _ | session
    · trivial
    · obtain ⟨hacc', hopen⟩ := (h.owner fd session).1 ho
      by_cases hc : c = session
      · exact hc ▸ hsub
      · have hclosed : .closed fd (some c) ∈ s.trace := by
          by_contra hcl
          have := (h.owner fd c).2 ⟨hacc, hcl⟩
          exact hc (Option.some.inj (this.symm.trans ho))
        exact hn c session fd hsub hacc hclosed hacc' hopen

/-- For a segment of quiet events both properties can be checked against the history before it. -/
theorem each_iff_of_quiet {tr seg : List Event} (hq : ∀ e ∈ seg, Quiet e)
    (h : (∀ e ∈ seg, WrittenToSubscriber tr e) ↔ ∀ e ∈ seg, NoInheritedFd tr e) :
    Each (fun pre e => WrittenToSubscriber (tr ++ pre) e) seg ↔
      Each (fun pre e => NoInheritedFd (tr ++ pre) e) seg := by
  rw [each_iff_forall_mem fun pre hpre e _ =>
      writtenToSubscriber_append_quiet (fun e he => hq e (hpre he)) e,
    each_iff_forall_mem fun pre hpre e _ =>
      noInheritedFd_append_quiet (fun e he => hq e (hpre he)) e]
  exact h

section

variable {s : Server} {conn : ConnId} {topic payload : Str} {called frames replies : List Event}

theorem forall_writtenToSubscriber (hcalled : ∀ e ∈ called, ∃ c, e = .called c payload)
    (hreplies : ∀ e ∈ replies, ∃ fd what, e = .reply fd (s.owner fd) (parseFailedReply what)) :
    (∀ e ∈ Event.publish conn topic payload :: (called ++ frames ++ replies),
      WrittenToSubscriber s.trace e) ↔ ∀ e ∈ frames, WrittenToSubscriber s.trace e := by
  simp only [List.mem_cons, List.mem_append]
  constructor
  · exact fun h e he => h e (.inr (.inl (.inr he)))
  · rintro h e (rfl | (he | he) | he)
    · trivial
    · obtain ⟨c, rfl⟩ := hcalled e he
      trivial
    · exact h e he
    · obtain ⟨fd, what, rfl⟩ := hreplies e he
      trivial

theorem forall_noInheritedFd (hcalled : ∀ e ∈ called, ∃ c, e = .called c payload)
    (hreplies : ∀ e ∈ replies, ∃ fd what, e = .reply fd (s.owner fd) (parseFailedReply what))
    {message : BrokerMessage} {text : Str} (hframes : ∀ e ∈ frames, ∃ c fd,
      .subscribe c message.topic ∈ s.trace ∧ .accepted c fd ∈ s.trace ∧
        e = .frame fd (s.owner fd) message text) :
    (∀ e ∈ Event.publish conn topic payload :: (called ++ frames ++ replies),
      NoInheritedFd s.trace e) ↔ NoInheritedFd s.trace (.publish conn topic payload) := by
  simp only [List.mem_cons, List.mem_append]
  constructor
  · exact fun h => h _ (.inl rfl)
  · rintro h e (rfl | (he | he) | he)
    · exact h
    · obtain ⟨c, rfl⟩ := hcalled e he
      trivial
    · obtain ⟨c, fd, -, -, rfl⟩ := hframes e he
      trivial
    · obtain ⟨fd, what, rfl⟩ := hreplies e he
      trivial

end

/-- One step adds events that keep both properties or break both. -/
theorem Wired.isolation_step (hJ : J.Utf8Safe) {s s' : Server} (h : s.Wired) {i : Input}
    (hi : s.input J i = some s') :
    ∃ seg, s'.trace = s.trace ++ seg ∧
      (Each (fun pre e => WrittenToSubscriber (s.trace ++ pre) e) seg ↔
        Each (fun pre e => NoInheritedFd (s.trace ++ pre) e) seg) := by
  rcases h.input_cases hi with ⟨fd, -, -, rfl⟩ | ⟨fd, c, data, -, -, ho, rfl⟩ | ⟨fd, c, -, ho, rfl⟩
  · exact ⟨_, rfl, iff_of_true (each_of_forall_mem (by simp [WrittenToSubscriber]))
      (each_of_forall_mem (by simp [NoInheritedFd]))⟩
  · rcases h.handleMessage_cases (h.owner_lt ho) data with ⟨topic, -, e⟩ |
      ⟨topic, payload, called, frames, replies, hr, e, hcalled, hreplies, hframes⟩ |
      ⟨fd, text, e, -⟩ <;> rw [e]
    · exact ⟨_, rfl, iff_of_true (each_of_forall_mem (by simp [WrittenToSubscriber]))
        (each_of_forall_mem (by simp [NoInheritedFd]))⟩
    · obtain ⟨ht, hp⟩ := valid_of_request hJ hr
      obtain ⟨text, hd⟩ := hJ.dump_valid (publishJson_valid ⟨topic, payload⟩ ht hp)
      rcases hframes with ⟨-, what, hd'⟩ | ⟨text', -, -, rfl⟩
      · rw [hd] at hd'
        cases hd'
      · refine ⟨_, rfl, each_iff_of_quiet (h.quiet_publish hcalled hreplies (.inr ⟨_, rfl⟩)) ?_⟩
        rw [forall_writtenToSubscriber hcalled hreplies, forall_noInheritedFd hcalled hreplies
          fun e he => h.mem_frameEvents.1 he]
        exact h.frames_iff c topic payload text'
    · refine ⟨[.reply fd (s.owner fd) text], rfl, each_iff_of_quiet ?_ (iff_of_true ?_ ?_)⟩ <;>
        rintro e he <;> rw [List.mem_singleton.1 he] <;> trivial
  · refine ⟨[.closeHandler c, .closed fd (s.owner fd)], ?_, ?_⟩
    · simp [Server.closeConnection]
    · exact iff_of_true (each_of_forall_mem (by simp [WrittenToSubscriber]))
        (each_of_forall_mem (by simp [NoInheritedFd]))

/-- In every run of the wired server, every frame that `dispatch` writes to an open descriptor goes
to a session that subscribed to its topic, if and only if no publish finds the descriptor number of
a closed subscriber of its topic in use by a session that has not subscribed. -/
theorem isolation_iff (hJ : J.Utf8Safe) {registry : Consumers} {serverFd : Fd} {inputs : List Input}
    {s : Server} (h : run (Server.input J) (main registry serverFd) inputs = some s) :
    Each WrittenToSubscriber s.trace ↔ Each NoInheritedFd s.trace := by
  have key : s.Wired ∧ (Each WrittenToSubscriber s.trace ↔ Each NoInheritedFd s.trace) := by
    refine run_induction (P := fun _ s => s.Wired ∧
      (Each WrittenToSubscriber s.trace ↔ Each NoInheritedFd s.trace)) ?_ ?_ h
    · exact ⟨wired_main registry serverFd, iff_of_true each_nil each_nil⟩
    · rintro - s i s' ⟨hw, hiff⟩ hi
      obtain ⟨seg, htrace, hseg⟩ := hw.isolation_step hJ hi
      refine ⟨hw.input hi, ?_⟩
      rw [htrace, each_append, each_append, hiff, hseg]
  exact key.2

/-- A run in which the subscriber is still connected at the publish. -/
theorem isolation_iff_connected :
    ∃ s, run (Server.input sampleJson) (main .empty 3)
        [.accept 5, .read 5 (.ok subscribeText), .accept 6, .read 6 (.ok publishText)] = some s ∧
      s.trace = [.accepted 0 5, .subscribe 0 (bytes "a"), .accepted 1 6,
        .publish 1 (bytes "a") (bytes "x"),
        .frame 5 (some 0) ⟨bytes "a", bytes "x"⟩ publishFrame] ∧
      Each NoInheritedFd s.trace := by
  obtain ⟨s, hs, htrace⟩ := Option.map_eq_some_iff.1 (show (run (Server.input sampleJson)
    (main .empty 3) [.accept 5, .read 5 (.ok subscribeText), .accept 6,
      .read 6 (.ok publishText)]).map trace = some _ by rfl)
  refine ⟨s, hs, htrace.trans (by decide), (isolation_iff sampleJson_utf8Safe hs).1 ?_⟩
  rw [htrace]
  decide

/-- Descriptor 5 belongs to a subscriber of `a`, is closed, and is given to a client that subscribes
to nothing: the frame published on `a` is written to that client. -/
theorem isolation_broken :
    ∃ s, run (Server.input sampleJson) (main .empty 3)
        [.accept 5, .read 5 (.ok subscribeText), .read 5 (.ok []), .accept 5, .accept 6,
          .read 6 (.ok publishText)] = some s ∧
      s.trace = [.accepted 0 5, .subscribe 0 (bytes "a"), .closeHandler 0, .closed 5 (some 0),
        .accepted 1 5, .accepted 2 6, .publish 2 (bytes "a") (bytes "x"),
        .frame 5 (some 1) ⟨bytes "a", bytes "x"⟩ publishFrame] ∧
      ¬ Each WrittenToSubscriber s.trace := by
  obtain ⟨s, hs, htrace⟩ := Option.map_eq_some_iff.1 (show (run (Server.input sampleJson)
    (main .empty 3) [.accept 5, .read 5 (.ok subscribeText), .read 5 (.ok []), .accept 5,
      .accept 6, .read 6 (.ok publishText)]).map trace = some _ by rfl)
  refine ⟨s, hs, htrace.trans (by decide), ?_⟩
  rw [htrace]
  decide

end Server

end EllohimMQ
