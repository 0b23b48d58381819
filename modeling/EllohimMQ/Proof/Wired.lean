import EllohimMQ.Lib.Transition
import EllohimMQ.Model.TcpServer

/-!
# What holds in every run of the wired server

The wiring of `main` stores in each connection a closure that owns that connection, so no
connection object is ever destroyed and `weak_ptr::lock` succeeds for every object that was ever
made (`Wired.lock_eq_true`).  Hence a publish never removes a subscriber, and the subscribers of a
topic are exactly the connections that subscribed to it, open or not (`Wired.subscribers`).

`input_cases` says once what a step can do; `wired_input` derives the invariant from it.
-/

namespace EllohimMQ

open Transition

namespace MessageBroker

variable {C : Type} {lock : C → Bool}

/-- When every subscriber can be locked, a publish on a topic with an empty queue leaves the broker
as it was, and sends each subscriber one frame, or nobody any when the message cannot be
serialised. -/
theorem publish_of_lock (J : Nlohmann) (registry : Consumers) {b : MessageBroker C} {topic : Str}
    (payload : Str) (hq : b.topicQueues topic = []) (hl : ∀ c ∈ b.subscribers topic, lock c = true) :
    ∃ frames thrown, publish J lock registry b topic payload =
        ⟨registry.getConsumerImpl (joaat topic), b, frames, thrown⟩ ∧
      ((∃ what, frames = [] ∧ J.dump (publishJson ⟨topic, payload⟩) = .error what) ∨
        ∃ data, J.dump (publishJson ⟨topic, payload⟩) = .ok data ∧ thrown = none ∧
          frames = (b.subscribers topic).map (⟨·, ⟨topic, payload⟩, data⟩)) := by
  have hsame : ({ b with
      subscribers := Function.update b.subscribers topic (b.subscribers topic) } :
      MessageBroker C) = b := by
    rw [Function.update_eq_self]
  rw [publish_eq hq]
  cases hd : J.dump (publishJson ⟨topic, payload⟩) with
  | ok data =>
    rw [sendToSubscribers_of_ok hd, List.filter_eq_self.2 hl]
    exact ⟨_, _, by simp only [hsame], .inr ⟨data, rfl, rfl, rfl⟩⟩
  | error what =>
    have hdrop : (b.subscribers topic).dropWhile (!lock ·) = b.subscribers topic := by
      rcases hs : b.subscribers topic with _ | ⟨c, cs⟩
      · rfl
      · simp [hl c (by simp [hs])]
    rw [sendToSubscribers_of_error hd, hdrop]
    exact ⟨[], _, by simp only [hsame]; rfl, .inl ⟨what, rfl, rfl⟩⟩

end MessageBroker

namespace Server

/-! ## Sending -/

/-- The event of one `conn->send` in `dispatch`. -/
def frameEvent (s : Server) (f : Frame ConnId) : Option Event :=
  (s.objects.lookup f.conn).map fun o => .frame o.sockFd (s.owner o.sockFd) f.message f.data

theorem foldl_sendFrame (frames : List (Frame ConnId)) (s : Server) :
    frames.foldl sendFrame s = { s with trace := s.trace ++ frames.filterMap s.frameEvent } := by
  induction frames generalizing s with
  | nil => simp
  | cons f frames ih =>
    rw [List.foldl_cons, ih]
    rcases ho : s.objects.lookup f.conn with _ | o
    · simp [sendFrame, frameEvent, ho]
    · have he : (s.sendFrame f).frameEvent = s.frameEvent := by
        funext f'
        simp [sendFrame, frameEvent, ho]
      rw [he]
      simp [sendFrame, frameEvent, ho]

/-! ## The invariant -/

/-- The connection that `main`'s handler makes of a fresh one. -/
def wiredConnection (c : ConnId) (fd : Fd) : TcpConnection := ⟨fd, some ⟨c⟩, true⟩

/-- The state of a server wired as in `main`, between two inputs. -/
structure Wired (s : Server) : Prop where
  handler : s.connectionHandler = some mainConnectionHandler
  /-- Every connection object ever made still exists, with a handler that owns it. -/
  objects : ∀ c < s.nextConn, ∃ fd, s.objects.lookup c = some (wiredConnection c fd) ∧
    .accepted c fd ∈ s.trace
  fresh : ∀ c fd, .accepted c fd ∈ s.trace → c < s.nextConn
  accepted_inj : ∀ c fd fd', .accepted c fd ∈ s.trace → .accepted c fd' ∈ s.trace → fd = fd'
  connections : ∀ fd, s.connections.lookup fd = s.owner fd
  owner : ∀ fd c, s.owner fd = some c ↔
    .accepted c fd ∈ s.trace ∧ .closed fd (some c) ∉ s.trace
  closed : ∀ fd c, .closed fd (some c) ∈ s.trace → c < s.nextConn
  queues : ∀ topic, s.broker.topicQueues topic = []
  subscribers : ∀ c topic, c ∈ s.broker.subscribers topic ↔ .subscribe c topic ∈ s.trace
  subscribed : ∀ c topic, .subscribe c topic ∈ s.trace → c < s.nextConn

theorem lookup_mem {α β : Type*} [BEq α] [LawfulBEq α] {l : List (α × β)} {a : α} {b : β}
    (h : l.lookup a = some b) : (a, b) ∈ l := by
  obtain ⟨l₁, l₂, rfl, -⟩ := List.lookup_eq_some_iff.1 h
  simp

theorem lookup_filter_ne {α β : Type*} [DecidableEq α] (l : List (α × β)) (a b : α) :
    (l.filter (·.1 ≠ a)).lookup b = if b = a then none else l.lookup b := by
  induction l with
  | nil => simp
  | cons e l ih =>
    by_cases he : e.1 = a
    · rw [List.filter_cons_of_neg (by simpa using he), ih, List.lookup_cons]
      split_ifs with hb
      · rfl
      · rw [beq_false_of_ne (by rw [he]; exact hb)]
    · rw [List.filter_cons_of_pos (by simpa using he), List.lookup_cons, List.lookup_cons, ih]
      by_cases hb : b = e.1
      · simp [hb, he]
      · simp [beq_false_of_ne hb]

/-- The closure stored in a connection object owns the object. -/
theorem useCount_pos_of_lookup {s : Server} {c : ConnId} {fd : Fd}
    (ho : s.objects.lookup c = some (wiredConnection c fd)) : 0 < s.useCount c := by
  have hpos : 0 < s.objects.countP fun o => o.2.readHandler = some ⟨c⟩ :=
    List.countP_pos_iff.2 ⟨_, lookup_mem ho, by simp [wiredConnection]⟩
  unfold useCount
  omega

theorem release_of_lookup {s : Server} {c : ConnId} {fd : Fd}
    (ho : s.objects.lookup c = some (wiredConnection c fd)) : s.release c = s := by
  have := useCount_pos_of_lookup ho
  rw [release, if_neg (by omega)]

theorem Wired.lock_eq_true {s : Server} (h : s.Wired) {c : ConnId} (hc : c < s.nextConn) :
    s.lock c = true := by
  obtain ⟨fd, ho, -⟩ := h.objects c hc
  exact decide_eq_true (useCount_pos_of_lookup ho)

theorem Wired.owner_lt {s : Server} (h : s.Wired) {fd : Fd} {c : ConnId} (ho : s.owner fd = some c) :
    c < s.nextConn := h.fresh c fd ((h.owner fd c).1 ho).1

theorem wired_main (registry : Consumers) (serverFd : Fd) : (main registry serverFd).Wired where
  handler := rfl
  objects c hc := absurd hc (Nat.not_lt_zero c)
  fresh _ _ h := by cases h
  accepted_inj _ _ _ h := by cases h
  connections _ := rfl
  owner _ _ := by simp [main]
  closed _ _ h := by cases h
  queues _ := rfl
  subscribers _ _ := by simp [main, MessageBroker.empty]
  subscribed _ _ h := by cases h

/-! ## What a step can do -/

variable {J : Nlohmann}

/-- The frame events of a publish: one for each subscriber of the topic. -/
def frameEvents (s : Server) (message : BrokerMessage) (data : Str) : List Event :=
  (s.broker.subscribers message.topic).filterMap fun c => s.frameEvent ⟨c, message, data⟩

/-- A publish changes the trace only. -/
theorem Wired.publish_eq {s : Server} (h : s.Wired) (J : Nlohmann) (conn : ConnId) (topic payload : Str) :
    ∃ called frames thrown, s.publish J conn topic payload =
        ({ s with trace := s.trace ++ .publish conn topic payload :: (called ++ frames) }, thrown) ∧
      (∀ e ∈ called, ∃ c, e = .called c payload) ∧
      ((frames = [] ∧ ∃ what, J.dump (publishJson ⟨topic, payload⟩) = .error what) ∨
        ∃ data, J.dump (publishJson ⟨topic, payload⟩) = .ok data ∧ thrown = none ∧
          frames = s.frameEvents ⟨topic, payload⟩ data) := by
  have hl : ∀ c ∈ s.broker.subscribers topic, s.lock c = true := fun c hc =>
    h.lock_eq_true (h.subscribed c topic ((h.subscribers c topic).1 hc))
  obtain ⟨frames, thrown, hp, hcase⟩ := MessageBroker.publish_of_lock
    J s.registry payload (h.queues topic) hl
  let called := (s.registry.getConsumerImpl (joaat topic)).toList.map (Event.called · payload)
  have hframe : ∀ tr, ({ s with trace := tr } : Server).frameEvent = s.frameEvent := fun _ => rfl
  refine ⟨called, frames.filterMap s.frameEvent, thrown, ?_, ?_, ?_⟩
  · simp [publish, hp, foldl_sendFrame, hframe, called]
  · intro e he
    obtain ⟨c, -, rfl⟩ := List.mem_map.1 he
    exact ⟨c, rfl⟩
  · rcases hcase with ⟨what, rfl, hd⟩ | ⟨data, hd, ht, rfl⟩
    · exact .inl ⟨rfl, what, hd⟩
    · exact .inr ⟨data, hd, ht, by rw [List.filterMap_map]; rfl⟩

theorem Wired.reply_eq {s : Server} (h : s.Wired) {conn : ConnId} (hc : conn < s.nextConn)
    (data : Str) :
    ∃ fd, s.reply conn data = { s with trace := s.trace ++ [.reply fd (s.owner fd) data] } ∧
      .accepted conn fd ∈ s.trace := by
  obtain ⟨fd, ho, hacc⟩ := h.objects conn hc
  exact ⟨fd, by simp [reply, ho, wiredConnection], hacc⟩

/-- Events that neither open nor close a session nor subscribe. -/
def Quiet : Event → Prop
  | .accepted _ _ | .subscribe _ _ | .closed _ _ => False
  | _ => True

/-- What `handle_message` does in a wired server: it subscribes, or it only adds quiet events. -/
theorem Wired.handleMessage_cases {s : Server} (h : s.Wired) {conn : ConnId}
    (hc : conn < s.nextConn) (data : Str) :
    (∃ topic, request J data = .subscribe topic ∧
      s.handleMessage J conn data = s.subscribe conn topic) ∨
    (∃ topic payload called frames replies, request J data = .publish topic payload ∧
      s.handleMessage J conn data = { s with
        trace := s.trace ++ .publish conn topic payload :: (called ++ frames ++ replies) } ∧
      (∀ e ∈ called, ∃ c, e = .called c payload) ∧
      (∀ e ∈ replies, ∃ fd what, e = .reply fd (s.owner fd) (parseFailedReply what)) ∧
      ((frames = [] ∧ ∃ what, J.dump (publishJson ⟨topic, payload⟩) = .error what) ∨
        ∃ text, J.dump (publishJson ⟨topic, payload⟩) = .ok text ∧ replies = [] ∧
          frames = s.frameEvents ⟨topic, payload⟩ text)) ∨
    (∃ fd text, s.handleMessage J conn data =
        { s with trace := s.trace ++ [.reply fd (s.owner fd) text] } ∧
      ((request J data = .unknown ∧ text = unknownTypeReply) ∨
        ∃ what, request J data = .failed what ∧ text = parseFailedReply what) ∧
      .accepted conn fd ∈ s.trace) := by
  cases hr : request J data with
  | subscribe topic => exact .inl ⟨topic, rfl, by simp [handleMessage, hr]⟩
  | publish topic payload =>
    obtain ⟨called, frames, thrown, hp, hcalled, hframes⟩ :=
      h.publish_eq J conn topic payload
    refine .inr (.inl ⟨topic, payload, called, frames, ?_⟩)
    rcases thrown with _ | what
    · refine ⟨[], rfl, by simp [handleMessage, hr, hp], hcalled, by simp, ?_⟩
      exact hframes.imp id fun ⟨text, hd, _, hf⟩ => ⟨text, hd, rfl, hf⟩
    · obtain ⟨fd, ho, -⟩ := h.objects conn hc
      refine ⟨[.reply fd (s.owner fd) (parseFailedReply what)], rfl, ?_, hcalled, by simp, ?_⟩
      · simp [handleMessage, hr, hp, reply, ho, wiredConnection]
      · exact hframes.imp id fun ⟨_, _, hnone, _⟩ => by cases hnone
  | unknown =>
    obtain ⟨fd, hreply, hacc⟩ := h.reply_eq hc unknownTypeReply
    exact .inr (.inr ⟨fd, _, by simp [handleMessage, hr, hreply], .inl ⟨rfl, rfl⟩, hacc⟩)
  | failed what =>
    obtain ⟨fd, hreply, hacc⟩ := h.reply_eq hc (parseFailedReply what)
    exact .inr (.inr ⟨fd, _, by simp [handleMessage, hr, hreply], .inr ⟨what, rfl, rfl⟩, hacc⟩)

/-- The strings that a request carries are valid UTF-8. -/
theorem valid_of_request (hJ : J.Utf8Safe) {data topic payload : Str}
    (h : request J data = .publish topic payload) : ValidUtf8 topic ∧ ValidUtf8 payload := by
  have hempty : ValidUtf8 [] := ⟨[], rfl⟩
  unfold request readRequest at h
  rcases hj : J.parse data with _ | j
  · simp [hj, bind, Except.bind] at h
  have hvalid := hJ.parse_valid hj
  rcases htype : J.value j (bytes "type") [] with _ | type
  · simp [hj, htype, bind, Except.bind] at h
  rcases htopic : J.value j (bytes "topic") [] with _ | topic'
  · simp [hj, htype, htopic, bind, Except.bind] at h
  simp only [hj, htype, htopic, bind, Except.bind] at h
  split_ifs at h with hp hs
  · rcases hpay : J.value j (bytes "payload") [] with _ | payload'
    · simp [hpay] at h
    · simp only [hpay, pure, Except.pure, Request.publish.injEq] at h
      obtain ⟨rfl, rfl⟩ := h
      exact ⟨hJ.value_valid hvalid hempty htopic, hJ.value_valid hvalid hempty hpay⟩
  · simp [pure, Except.pure] at h
  · simp [pure, Except.pure] at h

/-- What `handle_read` does in a wired server for an open descriptor: bytes go to `handle_message`,
the end of the stream closes the descriptor, and -1 makes an exception leave the function. -/
theorem Wired.handleRead_cases {s : Server} (h : s.Wired) {fd : Fd} {c : ConnId}
    (ho : s.owner fd = some c) {r : RecvResult} (hlen : r.buffer.length ≤ 1024) :
    (∃ data, r = .ok data ∧ data ≠ [] ∧ s.handleRead J fd r = (s.handleMessage J c data, none)) ∨
    (r = .ok [] ∧ s.handleRead J fd r =
      (({ s with trace := s.trace ++ [.closeHandler c] } : Server).closeConnection fd, none)) ∨
    (∃ errno what, r = .fail errno ∧ s.handleRead J fd r = (s, some what)) := by
  have hc := h.owner_lt ho
  obtain ⟨fd', hobj, -⟩ := h.objects c hc
  have hlookup : s.connections.lookup fd = some c := (h.connections fd).trans ho
  rcases r with data | errno
  · have hlen' : data.length ≤ 1024 := hlen
    have hbytes : (RecvResult.ok data).bytesRead.toNat = data.length := by
      rw [RecvResult.bytesRead, BitVec.toNat_ofNat, Nat.mod_eq_of_lt (by omega)]
    rcases data with _ | ⟨b, bs⟩
    · refine .inr (.inl ⟨rfl, ?_⟩)
      have hrel : (({ s with trace := s.trace ++ [.closeHandler c] } : Server).closeConnection
          fd).release c = ({ s with trace := s.trace ++ [.closeHandler c] } :
            Server).closeConnection fd := release_of_lookup hobj
      simp [handleRead, hlookup, hbytes, hobj, wiredConnection, RecvResult.wouldBlock, hrel]
    · refine .inl ⟨b :: bs, rfl, by simp, ?_⟩
      have hmax : ¬ maxSize < (b :: bs).length := by
        unfold maxSize
        omega
      simp [handleRead, hlookup, hbytes, hobj, wiredConnection, stringOfBuffer,
        RecvResult.buffer, -List.length_cons, hmax]
  · refine .inr (.inr ⟨errno, bytes "basic_string::_M_create", rfl, ?_⟩)
    have hbytes : (RecvResult.fail errno).bytesRead.toNat = 18446744073709551615 := rfl
    have hmax : maxSize < 18446744073709551615 := by decide
    simp [handleRead, hlookup, hbytes, hobj, wiredConnection, stringOfBuffer, hmax]

/-! ## Every step keeps the invariant -/

/-- Quiet events change nothing that the invariant speaks of. -/
theorem Wired.append_quiet {s : Server} (h : s.Wired) {seg : List Event}
    (hq : ∀ e ∈ seg, Quiet e) : ({ s with trace := s.trace ++ seg } : Server).Wired := by
  have hacc : ∀ c fd, .accepted c fd ∈ s.trace ++ seg ↔ .accepted c fd ∈ s.trace := fun c fd =>
    ⟨fun hm => (List.mem_append.1 hm).resolve_right fun he => hq _ he, List.mem_append_left _⟩
  have hclosed : ∀ fd c, .closed fd c ∈ s.trace ++ seg ↔ .closed fd c ∈ s.trace := fun fd c =>
    ⟨fun hm => (List.mem_append.1 hm).resolve_right fun he => hq _ he, List.mem_append_left _⟩
  have hsub : ∀ c t, .subscribe c t ∈ s.trace ++ seg ↔ .subscribe c t ∈ s.trace := fun c t =>
    ⟨fun hm => (List.mem_append.1 hm).resolve_right fun he => hq _ he, List.mem_append_left _⟩
  constructor
  · exact h.handler
  · simpa only [hacc] using h.objects
  · simpa only [hacc] using h.fresh
  · simpa only [hacc] using h.accepted_inj
  · exact h.connections
  · simpa only [hacc, hclosed] using h.owner
  · simpa only [hclosed] using h.closed
  · exact h.queues
  · simpa only [hsub] using h.subscribers
  · simpa only [hsub] using h.subscribed

theorem Wired.subscribe {s : Server} (h : s.Wired) {conn : ConnId} (hc : conn < s.nextConn)
    (topic : Str) : (s.subscribe conn topic).Wired := by
  have hsub : ∀ c t, .subscribe c t ∈ (s.subscribe conn topic).trace ↔
      .subscribe c t ∈ s.trace ∨ (c = conn ∧ t = topic) := fun c t => by
    simp [Server.subscribe]
  constructor
  · exact h.handler
  · simpa [Server.subscribe] using h.objects
  · simpa [Server.subscribe] using h.fresh
  · simpa [Server.subscribe] using h.accepted_inj
  · exact h.connections
  · simpa [Server.subscribe] using h.owner
  · simpa [Server.subscribe] using h.closed
  · exact h.queues
  · intro c t
    rw [hsub, ← h.subscribers]
    by_cases ht : t = topic
    · subst ht
      simp [Server.subscribe, MessageBroker.subscribe]
    · simp [Server.subscribe, MessageBroker.subscribe, ht]
  · intro c t hm
    rcases (hsub c t).1 hm with hm | ⟨rfl, -⟩
    · exact h.subscribed c t hm
    · exact hc

theorem Wired.acceptOne {s : Server} (h : s.Wired) (fd : Fd) (hfd : s.owner fd = none) :
    (s.acceptOne fd).Wired := by
  have hacc : ∀ c fd', .accepted c fd' ∈ (s.acceptOne fd).trace ↔
      .accepted c fd' ∈ s.trace ∨ (c = s.nextConn ∧ fd' = fd) := fun c fd' => by
    simp [Server.acceptOne]
  have hclosed : ∀ fd' c, .closed fd' c ∈ (s.acceptOne fd).trace ↔ .closed fd' c ∈ s.trace :=
    fun fd' c => by simp [Server.acceptOne]
  have hfresh : ∀ fd', .accepted s.nextConn fd' ∉ s.trace := fun fd' hm =>
    absurd (h.fresh _ _ hm) (Nat.lt_irrefl _)
  have hnotclosed : ∀ fd', .closed fd' (some s.nextConn) ∉ s.trace := fun fd' hm =>
    absurd (h.closed _ _ hm) (Nat.lt_irrefl _)
  constructor
  · exact h.handler
  · intro c hc
    have hobj : (s.acceptOne fd).objects =
        (s.nextConn, wiredConnection s.nextConn fd) :: s.objects := by
      simp [Server.acceptOne, h.handler, mainConnectionHandler, wiredConnection]
    rw [hobj]
    by_cases hcn : c = s.nextConn
    · subst hcn
      exact ⟨fd, by simp, (hacc _ _).2 (.inr ⟨rfl, rfl⟩)⟩
    · have hlt : c < s.nextConn := Nat.lt_of_le_of_ne (Nat.lt_succ_iff.1 hc) hcn
      obtain ⟨fd', ho, hm⟩ := h.objects c hlt
      refine ⟨fd', ?_, (hacc _ _).2 (.inl hm)⟩
      rw [List.lookup_cons, beq_false_of_ne hcn]
      exact ho
  · intro c fd' hm
    show c < s.nextConn + 1
    rcases (hacc c fd').1 hm with hm | ⟨rfl, -⟩
    · exact Nat.lt_succ_of_lt (h.fresh c fd' hm)
    · exact Nat.lt_succ_self _
  · intro c fd₁ fd₂ h₁ h₂
    rcases (hacc _ _).1 h₁ with old₁ | ⟨hc₁, rfl⟩ <;> rcases (hacc _ _).1 h₂ with old₂ | ⟨hc₂, rfl⟩
    · exact h.accepted_inj c fd₁ fd₂ old₁ old₂
    · exact absurd (hc₂ ▸ old₁) (hfresh _)
    · exact absurd (hc₁ ▸ old₂) (hfresh _)
    · rfl
  · intro fd'
    show List.lookup fd' ((fd, s.nextConn) :: s.connections.filter (·.1 ≠ fd)) =
      Function.update s.owner fd (some s.nextConn) fd'
    by_cases hf : fd' = fd
    · subst hf
      simp
    · rw [List.lookup_cons, beq_false_of_ne hf, Function.update_of_ne hf]
      exact (lookup_filter_ne _ _ _).trans (by rw [if_neg hf, h.connections])
  · intro fd' c
    rw [hacc, hclosed]
    by_cases hf : fd' = fd
    · subst hf
      simp only [Server.acceptOne, Function.update_self, Option.some.injEq, and_true]
      constructor
      · rintro rfl
        exact ⟨.inr rfl, hnotclosed fd'⟩
      · rintro ⟨hm | rfl, hn⟩
        · exact absurd ((h.owner fd' c).2 ⟨hm, hn⟩) (by simp [hfd])
        · rfl
    · simp only [Server.acceptOne, Function.update_of_ne hf, hf, and_false, or_false]
      exact h.owner fd' c
  · intro fd' c hm
    exact Nat.lt_succ_of_lt (h.closed fd' c ((hclosed _ _).1 hm))
  · exact h.queues
  · simpa [Server.acceptOne] using h.subscribers
  · intro c t hm
    have hm' : .subscribe c t ∈ s.trace := by simpa [Server.acceptOne] using hm
    exact Nat.lt_succ_of_lt (h.subscribed c t hm')

theorem Wired.closeConnection {s : Server} (h : s.Wired) {fd : Fd} {c : ConnId}
    (ho : s.owner fd = some c) : (s.closeConnection fd).Wired := by
  have hacc : ∀ c fd', .accepted c fd' ∈ (s.closeConnection fd).trace ↔
      .accepted c fd' ∈ s.trace := fun c fd' => by simp [Server.closeConnection]
  have hclosed : ∀ fd' c', .closed fd' (some c') ∈ (s.closeConnection fd).trace ↔
      .closed fd' (some c') ∈ s.trace ∨ (fd' = fd ∧ c' = c) := fun fd' c' => by
    simp [Server.closeConnection, ho]
  constructor
  · exact h.handler
  · simpa [Server.closeConnection] using h.objects
  · simpa [Server.closeConnection] using h.fresh
  · simpa [Server.closeConnection] using h.accepted_inj
  · intro fd'
    refine (lookup_filter_ne _ _ _).trans ?_
    by_cases hf : fd' = fd <;> simp [Server.closeConnection, hf, h.connections]
  · intro fd' c'
    rw [hacc, hclosed]
    by_cases hf : fd' = fd
    · subst hf
      simp only [Server.closeConnection, Function.update_self, reduceCtorEq, true_and, false_iff,
        not_and, not_not]
      intro hm
      by_cases hcl : .closed fd' (some c') ∈ s.trace
      · exact .inl hcl
      · have := (h.owner fd' c').2 ⟨hm, hcl⟩
        exact .inr (Option.some.inj (this.symm.trans ho))
    · simp only [Server.closeConnection, Function.update_of_ne hf, hf, false_and, or_false]
      exact h.owner fd' c'
  · intro fd' c' hm
    rcases (hclosed fd' c').1 hm with hm | ⟨rfl, rfl⟩
    · exact h.closed fd' c' hm
    · exact h.owner_lt ho
  · exact h.queues
  · simpa [Server.closeConnection] using h.subscribers
  · simpa [Server.closeConnection] using h.subscribed

/-- The frames of a publish, read off the history: one for each connection that ever subscribed to
the topic, to whoever holds its descriptor now. -/
theorem Wired.mem_frameEvents {s : Server} (h : s.Wired) {message : BrokerMessage} {text : Str}
    {e : Event} : e ∈ s.frameEvents message text ↔
      ∃ c fd, .subscribe c message.topic ∈ s.trace ∧ .accepted c fd ∈ s.trace ∧
        e = .frame fd (s.owner fd) message text := by
  simp only [frameEvents, frameEvent, List.mem_filterMap, Option.map_eq_some_iff]
  constructor
  · rintro ⟨c, hc, o, ho, rfl⟩
    have hsub := (h.subscribers c _).1 hc
    obtain ⟨fd, ho', hacc⟩ := h.objects c (h.subscribed c _ hsub)
    obtain rfl := Option.some.inj (ho.symm.trans ho')
    exact ⟨c, fd, hsub, hacc, rfl⟩
  · rintro ⟨c, fd, hsub, hacc, rfl⟩
    obtain ⟨fd', ho, hacc'⟩ := h.objects c (h.subscribed c _ hsub)
    obtain rfl := h.accepted_inj c fd fd' hacc hacc'
    exact ⟨c, (h.subscribers c _).2 hsub, _, ho, rfl⟩

/-- The events of a publish are quiet. -/
theorem Wired.quiet_publish {s : Server} (h : s.Wired) {conn : ConnId} {topic payload : Str}
    {called frames replies : List Event} (hcalled : ∀ e ∈ called, ∃ c, e = .called c payload)
    (hreplies : ∀ e ∈ replies, ∃ fd what, e = .reply fd (s.owner fd) (parseFailedReply what))
    (hframes : frames = [] ∨ ∃ text, frames = s.frameEvents ⟨topic, payload⟩ text) :
    ∀ e ∈ Event.publish conn topic payload :: (called ++ frames ++ replies), Quiet e := by
  intro e he
  simp only [List.mem_cons, List.mem_append] at he
  rcases he with rfl | (he | he) | he
  · trivial
  · obtain ⟨c, rfl⟩ := hcalled e he
    trivial
  · rcases hframes with rfl | ⟨text, rfl⟩
    · simp at he
    · obtain ⟨c, fd, -, -, rfl⟩ := h.mem_frameEvents.1 he
      trivial
  · obtain ⟨fd, what, rfl⟩ := hreplies e he
    trivial

/-- Handling a message subscribes the connection, or adds quiet events only. -/
theorem Wired.handleMessage_quiet {s : Server} (h : s.Wired) {conn : ConnId}
    (hc : conn < s.nextConn) (data : Str) :
    (∃ topic, s.handleMessage J conn data = s.subscribe conn topic) ∨
      ∃ seg : List Event, (∀ e ∈ seg, Quiet e) ∧
        s.handleMessage J conn data = { s with trace := s.trace ++ seg } := by
  rcases h.handleMessage_cases hc data with ⟨topic, -, e⟩ |
    ⟨topic, payload, called, frames, replies, -, e, hcalled, hreplies, hframes⟩ | ⟨fd, text, e, -⟩
  · exact .inl ⟨topic, e⟩
  · refine .inr ⟨_, h.quiet_publish hcalled hreplies ?_, e⟩
    exact hframes.imp And.left fun ⟨text, _, _, hf⟩ => ⟨text, hf⟩
  · exact .inr ⟨_, by simp [Quiet], e⟩

theorem Wired.handleMessage {s : Server} (h : s.Wired) {conn : ConnId} (hc : conn < s.nextConn)
    (data : Str) : (s.handleMessage J conn data).Wired := by
  rcases h.handleMessage_quiet hc data with ⟨topic, e⟩ | ⟨seg, hseg, e⟩
  · exact e ▸ h.subscribe hc topic
  · exact e ▸ h.append_quiet hseg

/-- What a step of a run can do: accept, hand the bytes of a session to `handle_message`, or close
the descriptor of a session. -/
theorem Wired.input_cases {s s' : Server} (h : s.Wired) {i : Input} (hi : s.input J i = some s') :
    (∃ fd, i = .accept fd ∧ s.owner fd = none ∧ s' = s.acceptOne fd) ∨
    (∃ fd c data, i = .read fd (.ok data) ∧ data ≠ [] ∧ s.owner fd = some c ∧
      s' = s.handleMessage J c data) ∨
    (∃ fd c, i = .read fd (.ok []) ∧ s.owner fd = some c ∧
      s' = ({ s with trace := s.trace ++ [.closeHandler c] } : Server).closeConnection fd) := by
  cases i with
  | accept fd =>
    simp only [input] at hi
    split_ifs at hi with hfd
    exact .inl ⟨fd, rfl, hfd.1, (Option.some.inj hi).symm⟩
  | read fd r =>
    simp only [input] at hi
    split_ifs at hi with hfd
    obtain ⟨ho, hlen⟩ := hfd
    obtain ⟨c, ho⟩ := Option.isSome_iff_exists.1 ho
    rcases h.handleRead_cases ho hlen with ⟨data, rfl, hne, e⟩ | ⟨rfl, e⟩ |
      ⟨errno, what, rfl, e⟩ <;> rw [e] at hi
    · exact .inr (.inl ⟨fd, c, data, rfl, hne, ho, (Option.some.inj hi).symm⟩)
    · exact .inr (.inr ⟨fd, c, rfl, ho, (Option.some.inj hi).symm⟩)
    · cases hi

/-- Bytes received on an open descriptor are handed over, whatever they are. -/
theorem Wired.input_read_ok {s : Server} (h : s.Wired) {fd : Fd} {c : ConnId}
    (ho : s.owner fd = some c) {data : Str} (hne : data ≠ []) (hlen : data.length ≤ 1024) :
    s.input J (.read fd (.ok data)) = some (s.handleMessage J c data) := by
  have hread : s.handleRead J fd (.ok data) = (s.handleMessage J c data, none) := by
    rcases h.handleRead_cases ho (J := J) (r := .ok data) hlen with ⟨_, ⟨⟩, -, e⟩ | ⟨⟨⟩, -⟩ |
      ⟨_, _, ⟨⟩, -⟩
    · exact e
    · exact absurd rfl hne
  have hguard : (s.owner fd).isSome ∧ (RecvResult.ok data).buffer.length ≤ 1024 :=
    ⟨by simp [ho], hlen⟩
  rw [Server.input, if_pos hguard, hread]

theorem Wired.input {s s' : Server} (h : s.Wired) {i : Input} (hi : s.input J i = some s') :
    s'.Wired := by
  rcases h.input_cases hi with ⟨fd, -, ho, rfl⟩ | ⟨fd, c, data, -, -, ho, rfl⟩ | ⟨fd, c, -, ho, rfl⟩
  · exact h.acceptOne fd ho
  · exact h.handleMessage (h.owner_lt ho) data
  · exact (h.append_quiet (by simp [Quiet])).closeConnection ho

/-- Handling a message opens and closes no descriptor. -/
theorem Wired.handleMessage_owner {s : Server} (h : s.Wired) {conn : ConnId}
    (hc : conn < s.nextConn) (data : Str) :
    (s.handleMessage J conn data).owner = s.owner ∧
      (s.handleMessage J conn data).serverFd = s.serverFd := by
  rcases h.handleMessage_quiet hc data with ⟨topic, e⟩ | ⟨seg, -, e⟩ <;> rw [e]
  · exact ⟨rfl, rfl⟩
  · exact ⟨rfl, rfl⟩

/-- What an accept does to the descriptors. -/
theorem input_accept {s s' : Server} {fd : Fd} (hi : s.input J (.accept fd) = some s') :
    s'.serverFd = s.serverFd ∧ fd ≠ s.serverFd ∧
      s'.owner = Function.update s.owner fd (some s.nextConn) := by
  simp only [input] at hi
  split_ifs at hi with hfd
  exact Option.some.inj hi ▸ ⟨rfl, hfd.2, rfl⟩

/-- What the result of a `recv` does to the descriptors. -/
theorem Wired.input_read {s s' : Server} (h : s.Wired) {fd : Fd} {r : RecvResult}
    (hi : s.input J (.read fd r) = some s') :
    s'.serverFd = s.serverFd ∧
      ((∃ data, r = .ok data ∧ data ≠ [] ∧ s'.owner = s.owner) ∨
        r = .ok [] ∧ s'.owner = Function.update s.owner fd none) := by
  rcases h.input_cases hi with ⟨_, ⟨⟩, -⟩ | ⟨_, c, data, ⟨⟩, hne, ho, rfl⟩ | ⟨_, c, ⟨⟩, -, rfl⟩
  · obtain ⟨howner, hfd⟩ := h.handleMessage_owner (J := J) (h.owner_lt ho) data
    exact ⟨hfd, .inl ⟨data, rfl, hne, howner⟩⟩
  · exact ⟨rfl, .inr ⟨rfl, rfl⟩⟩

/-- The invariant holds in every state that the server of `main` reaches. -/
theorem wired_of_reachable {registry : Consumers} {serverFd : Fd} {s : Server}
    (h : Reachable (Server.input J) (main registry serverFd) s) : s.Wired :=
  h.invariant (fun _ _ _ hw hi => hw.input hi) (wired_main registry serverFd)

end Server

end EllohimMQ
