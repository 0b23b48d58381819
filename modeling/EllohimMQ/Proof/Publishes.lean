import EllohimMQ.Model.Broker
import EllohimMQ.Proof.Containment
import EllohimMQ.Proof.ServiceRest
import EllohimMQ.Proof.Wired

/-!
# From a text that is received to a handler that has returned

Every text that the server reads and that is a publish request on a topic whose hash is registered
makes one handler, whatever the workers and the timer thread do meanwhile, and no other text makes one.
The threads carry all the handlers to their ends, and do not keep the server from its next input.
Only the server's own thread can end the process before (`ServerEnded`).
-/

namespace EllohimMQ

open Calls Transition

variable {σ Fx V E : Type} {J : Nlohmann} {P : Program σ Fx V E} {onCall : Consumer → Str → σ}
  {registry : Consumers} {serverFd : Fd} {n nextQueue : BitVec 64} {clock : TimePoint}

/-! ## The calls of the server -/

/-- The consumer that an input is for, and the payload. -/
def Input.call? (J : Nlohmann) (registry : Consumers) : Input → Option (Consumer × Str)
  | .read _ (.ok (b :: data)) =>
    match request J (b :: data) with
    | .publish topic payload => (registry.getConsumerImpl (joaat topic)).map (·, payload)
    | _ => none
  | _ => none

namespace Server

variable {s s' : Server} {conn : ConnId} {data : Str}

@[simp] theorem calls_reply (text : Str) : (s.reply conn text).calls = s.calls := by
  unfold reply
  split
  · rfl
  · simp [calls, Event.call?]

@[simp] theorem registry_reply (text : Str) : (s.reply conn text).registry = s.registry := by
  unfold reply
  split <;> rfl

theorem calls_publish (J : Nlohmann) (s : Server) (conn : ConnId) (topic payload : Str) :
    (s.publish J conn topic payload).1.calls =
      s.calls ++ ((s.registry.getConsumerImpl (joaat topic)).map (·, payload)).toList := by
  have hframes : ∀ (t : Server) (frames : List (Frame ConnId)),
      (frames.filterMap t.frameEvent).filterMap Event.call? = [] := fun t frames => by
    refine List.filterMap_eq_nil_iff.2 fun e he => ?_
    obtain ⟨f, -, hf⟩ := List.mem_filterMap.1 he
    obtain ⟨o, -, rfl⟩ := Option.map_eq_some_iff.1 hf
    rfl
  simp only [calls, publish, foldl_sendFrame, MessageBroker.publish, List.filterMap_append, hframes,
    List.append_nil]
  cases s.registry.getConsumerImpl (joaat topic) <;> rfl

theorem registry_publish (J : Nlohmann) (s : Server) (conn : ConnId) (topic payload : Str) :
    (s.publish J conn topic payload).1.registry = s.registry := by
  simp only [publish, foldl_sendFrame]

/-- One text makes at most one call. -/
theorem calls_handleMessage (hne : data ≠ []) (fd : Fd) :
    (s.handleMessage J conn data).calls =
        s.calls ++ (Input.call? J s.registry (.read fd (.ok data))).toList ∧
      (s.handleMessage J conn data).registry = s.registry := by
  obtain ⟨b, bs, rfl⟩ := List.exists_cons_of_ne_nil hne
  cases hr : request J (b :: bs) with
  | publish topic payload =>
    have hcalls := calls_publish J s conn topic payload
    have hregistry := registry_publish J s conn topic payload
    simp only [handleMessage, Input.call?, hr]
    rcases hp : s.publish J conn topic payload with ⟨t, _ | what⟩ <;> rw [hp] at hcalls hregistry
    · exact ⟨hcalls, hregistry⟩
    · exact ⟨(calls_reply _).trans hcalls, (registry_reply _).trans hregistry⟩
  | subscribe topic => simp [handleMessage, Input.call?, hr, subscribe, calls, Event.call?]
  | unknown | failed => simp [handleMessage, Input.call?, hr]

/-- An input makes the call that it is for. -/
theorem Wired.calls_input (h : s.Wired) {i : Input} (hi : s.input J i = some s') :
    s'.calls = s.calls ++ (i.call? J s.registry).toList ∧ s'.registry = s.registry := by
  rcases h.input_cases hi with ⟨fd, rfl, -, rfl⟩ | ⟨fd, c, data, rfl, hne, -, rfl⟩ |
    ⟨fd, c, rfl, -, rfl⟩
  · simp [Server.acceptOne, calls, Event.call?, Input.call?]
  · exact calls_handleMessage hne fd
  · simp [Server.closeConnection, calls, Event.call?, Input.call?]

/-- An input that the server takes lets no exception leave `handle_read`. -/
theorem escapes_eq_none {i : Input} (hi : s.input J i = some s') : s.escapes J i = none := by
  cases i with
  | accept => rfl
  | read fd r =>
    rw [Server.input] at hi
    rw [escapes]
    split_ifs at hi ⊢ with hread
    rcases hr : s.handleRead J fd r with ⟨t, _ | what⟩
    · rfl
    · rw [hr] at hi
      cases hi

/-- An exception leaves `handle_read` for a `recv` of -1, and only then. -/
theorem Wired.escapes_isSome_iff (h : s.Wired) {i : Input} : (s.escapes J i).isSome ↔
    ∃ fd errno, i = .read fd (.fail errno) ∧ (s.owner fd).isSome := by
  cases i with
  | accept => simp [escapes]
  | read fd r =>
    rw [escapes]
    split_ifs with hread
    · obtain ⟨c, hc⟩ := Option.isSome_iff_exists.1 hread.1
      rcases h.handleRead_cases (J := J) hc hread.2 with ⟨data, rfl, -, e⟩ | ⟨rfl, e⟩ |
        ⟨errno, what, rfl, e⟩
      · simp [e]
      · simp [e]
      · simp [e, hc]
    · refine iff_of_false (by simp) ?_
      rintro ⟨fd', errno, ⟨⟩, hc⟩
      exact hread ⟨hc, Nat.zero_le _⟩

end Server

/-! ## The server and the threads -/

namespace Broker

variable {s s' : Broker σ Fx V E} {l : BrokerStep σ} {ls : List (BrokerStep σ)}

/-- The coroutine that a call gives to `async_run`. -/
def root (onCall : Consumer → Str → σ) (call : Consumer × Str) : σ := onCall call.1 call.2

theorem callEach_eq_run (service : Service σ Fx V E) (calls : List (Consumer × Str)) :
    callEach P onCall service calls =
      run (Service.step P) service (calls.map fun call => .call (root onCall call)) := by
  induction calls generalizing service with
  | nil => rfl
  | cons call calls ih =>
    rw [callEach, List.map_cons, run_cons]
    exact congrArg _ (funext ih)

/-- What a step of a process can do that has not ended. -/
inductive Moves (J : Nlohmann) (P : Program σ Fx V E) (onCall : Consumer → Str → σ)
    (s : Broker σ Fx V E) : BrokerStep σ → Broker σ Fx V E → Prop where
  | input {i : Input} {server : Server} {service : Service σ Fx V E}
    (hi : s.server.input J i = some server)
    (hcalls : callEach P onCall s.service (server.calls.drop s.server.calls.length) = some service) :
    Moves J P onCall s (.input i) ⟨server, service, s.server.trace.length, none⟩
  | lengthError {i : Input} (hi : (s.server.escapes J i).isSome) :
    Moves J P onCall s (.input i) { s with serverEnd := some .lengthError }
  | sigpipe {event : ℕ} {e : Event} (hbefore : s.before ≤ event)
    (he : s.server.trace[event]? = some e) (hsend : e.isSend) :
    Moves J P onCall s (.sigpipe event)
      { s with
        server := { s.server with trace := s.server.trace.take event }
        serverEnd := some .sigpipe }
  | thread {l : ServiceStep σ} {service : Service σ Fx V E} (hl : l.called = none)
    (hs : s.service.step P l = some service) :
    Moves J P onCall s (.thread l) { s with service }

theorem step_thread (hend : s.serverEnd = none) {l : ServiceStep σ} (hl : l.called = none) :
    s.step J P onCall (.thread l) =
      (s.service.step P l).map fun service => { s with service } := by
  unfold Broker.step
  split_ifs with hdead
  · have : s.service.terminated ∨ s.service.faulted := by simpa [hend] using hdead
    simp [Service.step, this]
  · cases l with
    | call => cases hl
    | pool | timers | pass | invoke | execute | finish => rfl

/-- A process that its server's thread has ended takes no step. -/
theorem serverEnd_of_step (h : s.step J P onCall l = some s') : s.serverEnd = none := by
  unfold Broker.step at h
  split_ifs at h with hdead
  simp only [not_or, Bool.not_eq_true, Option.isSome_eq_false_iff, Option.isNone_iff_eq_none] at hdead
  exact hdead.2.2

theorem step_cases (h : s.step J P onCall l = some s') : s.Moves J P onCall l s' := by
  have hend := serverEnd_of_step h
  cases l with
  | input i =>
    rw [Broker.step] at h
    split_ifs at h
    split at h
    · rw [takeInput] at h
      split at h
      · next what hwhat =>
        exact Option.some.inj h ▸ .lengthError (Option.isSome_iff_exists.2 ⟨what, hwhat⟩)
      · obtain ⟨server, hi, hmap⟩ := Option.bind_eq_some_iff.1 h
        obtain ⟨service, hcalls, rfl⟩ := Option.map_eq_some_iff.1 hmap
        exact .input hi hcalls
    · cases h
  | sigpipe event =>
    rw [Broker.step] at h
    split_ifs at h
    split at h
    · rw [raiseSigpipe] at h
      split_ifs at h with hsend
      obtain ⟨hbefore, hany⟩ := hsend
      cases he : s.server.trace[event]? with
      | none =>
        rw [he] at hany
        cases hany
      | some e => exact Option.some.inj h ▸ .sigpipe hbefore he (by simpa [he] using hany)
    · cases h
  | thread l =>
    cases hl : l.called with
    | none =>
      rw [step_thread hend hl] at h
      obtain ⟨service, hs, rfl⟩ := Option.map_eq_some_iff.1 h
      exact .thread hl hs
    | some root =>
      cases l with
      | call => simp [Broker.step] at h
      | pool | timers | pass | invoke | execute | finish => cases hl

/-- The calls that the inputs of a run are for. -/
def wanted (J : Nlohmann) (registry : Consumers) (ls : List (BrokerStep σ)) :
    List (Consumer × Str) :=
  (ls.filterMap BrokerStep.input?).filterMap (Input.call? J registry)

/-- The last step adds the call that its input is for. -/
theorem wanted_concat (J : Nlohmann) (registry : Consumers) (ls : List (BrokerStep σ))
    (l : BrokerStep σ) :
    wanted J registry (ls ++ [l]) =
      wanted J registry ls ++ (l.input?.bind (Input.call? J registry)).toList := by
  rw [wanted, List.filterMap_append, List.filterMap_append, wanted]
  cases hi : l.input? with
  | none => simp [hi]
  | some i => cases hc : i.call? J registry <;> simp [hi, hc]

/-- The server's own thread has ended the process, in the last step of the run: with the exception of
a `recv` of -1, or in a call of `::send` on an open descriptor, made for the last input. -/
inductive ServerEnded (J : Nlohmann) (registry : Consumers) (serverFd : Fd) :
    List (BrokerStep σ) → Broker σ Fx V E → Prop where
  | lengthError {ls : List (BrokerStep σ)} {s : Broker σ Fx V E} (fd : Fd) (errno : Errno)
    (hend : s.serverEnd = some .lengthError) (hopen : (s.server.owner fd).isSome)
    (hserver : run (Server.input J) (.main registry serverFd) (ls.filterMap BrokerStep.input?) =
      some s.server) :
    ServerEnded J registry serverFd (ls ++ [.input (.read fd (.fail errno))]) s
  | sigpipe {ls : List (BrokerStep σ)} {s : Broker σ Fx V E} {is : List Input} {i : Input}
    {before after : Server} {event : ℕ} {e : Event} (hend : s.serverEnd = some .sigpipe)
    (hinputs : ls.filterMap BrokerStep.input? = is ++ [i])
    (hbefore : run (Server.input J) (.main registry serverFd) is = some before)
    (hafter : before.input J i = some after) (hle : before.trace.length ≤ event)
    (he : after.trace[event]? = some e) (hsend : e.isSend)
    (hserver : s.server = { after with trace := after.trace.take event }) :
    ServerEnded J registry serverFd (ls ++ [.sigpipe event]) s

/-- A run of the process to the server, as long as its thread has not ended the process. -/
structure Serving (J : Nlohmann) (registry : Consumers) (serverFd : Fd)
    (ls : List (BrokerStep σ)) (s : Broker σ Fx V E) : Prop where
  server : run (Server.input J) (.main registry serverFd) (ls.filterMap BrokerStep.input?) =
    some s.server
  wired : s.server.Wired
  registered : s.server.registry = registry
  calls : s.server.calls = wanted J registry ls
  /-- The events behind `before` are those of the last input. -/
  before : s.server.trace.length ≤ s.before ∨ ∃ is i server,
    ls.filterMap BrokerStep.input? = is ++ [i] ∧
      run (Server.input J) (.main registry serverFd) is = some server ∧
      server.input J i = some s.server ∧ s.before = server.trace.length

/-- What a run of the process is to the server, and to the threads. -/
structure Splits (J : Nlohmann) (P : Program σ Fx V E) (onCall : Consumer → Str → σ)
    (registry : Consumers) (serverFd : Fd) (n nextQueue : BitVec 64) (clock : TimePoint)
    (ls : List (BrokerStep σ)) (s : Broker σ Fx V E) : Prop where
  serving : s.serverEnd = none → Serving J registry serverFd ls s
  ended : s.serverEnd = none ∨ ServerEnded J registry serverFd ls s
  service : ∃ ls', run (Service.step P) (.new n nextQueue clock) ls' = some s.service ∧
    ls'.filterMap ServiceStep.called = (wanted J registry ls).map (root onCall)

theorem splits_main : Splits J P onCall registry serverFd n nextQueue clock []
    (.main registry serverFd n nextQueue clock) where
  serving _ :=
    { server := rfl
      wired := Server.wired_main registry serverFd
      registered := rfl
      calls := rfl
      before := .inl (Nat.zero_le _) }
  ended := .inl rfl
  service := ⟨[], rfl, rfl⟩

/-- A step that takes no input leaves the server what it is to the run. -/
theorem Serving.frame (h : Serving J registry serverFd ls s) (hl : l.input? = none)
    (hserver : s'.server = s.server) (hbefore : s'.before = s.before) :
    Serving J registry serverFd (ls ++ [l]) s' := by
  have hinputs : (ls ++ [l]).filterMap BrokerStep.input? = ls.filterMap BrokerStep.input? := by
    simp [hl]
  have hwanted : wanted J registry (ls ++ [l]) = wanted J registry ls := by
    rw [wanted_concat, hl]
    exact List.append_nil _
  refine ⟨?_, hserver ▸ h.wired, hserver ▸ h.registered, ?_, ?_⟩
  · rw [hinputs, hserver]
    exact h.server
  · rw [hwanted, hserver]
    exact h.calls
  · rw [hinputs, hserver, hbefore]
    exact h.before

theorem Splits.step (h : Splits J P onCall registry serverFd n nextQueue clock ls s)
    (hs : s.step J P onCall l = some s') :
    Splits J P onCall registry serverFd n nextQueue clock (ls ++ [l]) s' := by
  obtain ⟨ls', hrun, hcalled⟩ := h.service
  have hend := serverEnd_of_step hs
  have hserving := h.serving hend
  have hwanted := wanted_concat J registry ls l
  cases step_cases hs with
  | @input i server service hi hcalls =>
    obtain ⟨hnew, hregistry⟩ := hserving.wired.calls_input hi
    rw [hserving.registered] at hnew
    have hinputs : (ls ++ [BrokerStep.input i]).filterMap BrokerStep.input? =
        ls.filterMap BrokerStep.input? ++ [i] := by
      rw [List.filterMap_append]
      rfl
    refine ⟨fun _ => ⟨?_, hserving.wired.input hi, hregistry.trans hserving.registered, ?_,
      .inr ⟨_, i, s.server, hinputs, hserving.server, hi, rfl⟩⟩, .inl rfl, ?_⟩
    · rw [hinputs, run_append, hserving.server]
      simp [hi]
    · rw [hwanted, hnew, hserving.calls]
      rfl
    · rw [callEach_eq_run, hnew, List.drop_left] at hcalls
      refine ⟨_, run_append_eq_some_iff.2 ⟨_, hrun, hcalls⟩, ?_⟩
      rw [List.filterMap_append, hcalled, hwanted, List.map_append, List.filterMap_map]
      exact congrArg _ (congrFun List.filterMap_eq_map _)
  | lengthError hi =>
    obtain ⟨fd, errno, rfl, hopen⟩ := hserving.wired.escapes_isSome_iff.1 hi
    refine ⟨(fun hnone => by cases hnone), .inr (.lengthError fd errno rfl hopen hserving.server),
      ls', hrun, ?_⟩
    rw [hcalled, hwanted]
    exact congrArg _ (List.append_nil _).symm
  | @sigpipe event e hbefore he hsend =>
    refine ⟨(fun hnone => by cases hnone), .inr ?_, ls', hrun, ?_⟩
    · rcases hserving.before with hle | ⟨is, i, server, hinputs, hrun', hi, hlen⟩
      · have hlt := (List.getElem?_eq_some_iff.1 he).1
        omega
      · exact .sigpipe rfl hinputs hrun' hi (hlen ▸ hbefore) he hsend rfl
    · rw [hcalled, hwanted]
      exact congrArg _ (List.append_nil _).symm
  | @thread l service hl hs' =>
    refine ⟨fun _ => hserving.frame rfl rfl rfl, .inl hend,
      _, run_concat_eq_some_iff.2 ⟨_, hrun, hs'⟩, ?_⟩
    rw [List.filterMap_append, hcalled, hwanted]
    simp [hl, BrokerStep.input?]

theorem splits_of_run
    (hrun : run (Broker.step J P onCall) (.main registry serverFd n nextQueue clock) ls = some s) :
    Splits J P onCall registry serverFd n nextQueue clock ls s :=
  run_induction (P := Splits J P onCall registry serverFd n nextQueue clock) splits_main
    (fun _ _ _ _ h hs => h.step hs) hrun

/-! ## The threads of the process -/

/-- A step of the threads' own, or the clock reaches the time of a job. -/
def GoesOn (s : Broker σ Fx V E) : BrokerStep σ → Prop
  | .input _ | .sigpipe _ => False
  | .thread l => s.service.GoesOn l

/-- A step of the threads' own. -/
def Proceeds (s : Broker σ Fx V E) : BrokerStep σ → Prop
  | .input _ | .sigpipe _ => False
  | .thread l => s.service.Proceeds l

theorem resting_service (hend : s.serverEnd = none)
    {own : Service σ Fx V E → ServiceStep σ → Prop}
    (hcall : ∀ l, own s.service l → l.called = none)
    (hrest : ∀ l, own s.service l → s.step J P onCall (.thread l) = none) :
    Resting (Service.step P) own s.service := fun l hl => by
  have hnone := hrest l hl
  rw [step_thread hend (hcall l hl)] at hnone
  exact Option.map_eq_none_iff.1 hnone

/-- The threads rest when those of the service do. -/
theorem resting_of_service (hend : s.serverEnd = none)
    (h : Resting (Service.step P) Service.GoesOn s.service) :
    Resting (Broker.step J P onCall) GoesOn s := by
  intro l hl
  cases l with
  | input | sigpipe => exact hl.elim
  | thread l => rw [step_thread hend (Service.GoesOn.called hl), h l hl, Option.map_none]

/-- Outside `queue_job` the server's own thread takes its next input. -/
theorem step_input {standings : List (Standing σ)} (hs : Serves P s.service standings)
    (hend : s.serverEnd = none) (hidle : s.service.pool.producers[(1 : ℕ)]? = some .idle)
    (i : Input) : s.step J P onCall (.input i) = s.takeInput J P onCall i := by
  have hlive : ¬ (s.service.terminated ∨ s.service.faulted ∨ s.serverEnd.isSome) := by
    simp [hs.faulted, hs.terminated, hend]
  simp [Broker.step, if_neg hlive, hidle]

/-- An input makes at most one call. -/
theorem exists_takeInput {standings : List (Standing σ)} (hs : Serves P s.service standings)
    (hw : s.server.Wired) (hidle : s.service.pool.producers[(1 : ℕ)]? = some .idle) {i : Input}
    {server : Server} (hi : s.server.input J i = some server) :
    ∃ service, s.takeInput J P onCall i =
      some ⟨server, service, s.server.trace.length, none⟩ := by
  obtain ⟨hnew, -⟩ := hw.calls_input hi
  obtain ⟨service, hservice⟩ : ∃ service, callEach P onCall s.service
      (server.calls.drop s.server.calls.length) = some service := by
    rw [hnew, List.drop_left]
    rcases i.call? J s.server.registry with _ | ⟨consumer, payload⟩
    · exact ⟨_, rfl⟩
    · simp [callEach, hs.step_live, Service.stepLive, ThreadPool.step, hidle]
  exact ⟨service, by simp [takeInput, Server.escapes_eq_none hi, hi, hservice]⟩

/-- An input that the server can take is taken, and a `recv` of -1 ends the process. -/
structure TakesInputs (J : Nlohmann) (P : Program σ Fx V E) (onCall : Consumer → Str → σ)
    (s : Broker σ Fx V E) : Prop where
  input : ∀ i server, s.server.input J i = some server → ∃ service,
    s.step J P onCall (.input i) = some ⟨server, service, s.server.trace.length, none⟩
  fail : ∀ fd errno, (s.server.owner fd).isSome →
    s.step J P onCall (.input (.read fd (.fail errno))) =
      some { s with serverEnd := some .lengthError }

/-- When the threads rest, the server's thread is not in `queue_job`. -/
theorem takesInputs_of_resting {standings : List (Standing σ)}
    (hs : Serves P s.service standings) (hm : s.service.Manned n nextQueue clock)
    (hend : s.serverEnd = none) (hw : s.server.Wired)
    (hrest : Resting (Broker.step J P onCall) Proceeds s) : s.TakesInputs J P onCall := by
  have hrest' : Resting (Service.step P) Service.Proceeds s.service :=
    resting_service hend (fun l hl => Service.GoesOn.called (.inl hl))
      fun l hl => hrest (.thread l) hl
  have hlt : 1 < s.service.pool.producers.length := by
    rw [hm.producers_length]
    exact Nat.one_lt_two
  have hidle : s.service.pool.producers[(1 : ℕ)]? = some .idle := by
    rw [List.getElem?_eq_getElem hlt, hs.producer_idle hm hrest' (List.getElem_mem hlt)]
  refine ⟨fun i server hi => ?_, fun fd errno hopen => ?_⟩
  · rw [step_input hs hend hidle]
    exact exists_takeInput hs hw hidle hi
  · obtain ⟨what, hwhat⟩ := Option.isSome_iff_exists.1
      ((hw.escapes_isSome_iff (J := J)).2 ⟨fd, errno, rfl, hopen⟩)
    rw [step_input hs hend hidle, takeInput, hwhat]

/-- The handlers complete when the threads rest and the clock has nothing to wait for. -/
theorem completed_of_resting {standings : List (Standing σ)} (hs : Serves P s.service standings)
    (hm : s.service.Manned n nextQueue clock) (hend : s.serverEnd = none)
    (hrest : Resting (Broker.step J P onCall) GoesOn s) :
    ∀ h ∈ s.service.handlers, h.asyncTask = .destroyed ∧
      ∃ j v m, plainRun P h.root j = .done (.value v) m ∧ h.trace = m.trace :=
  hs.completed_of_resting hm
    (resting_service hend (fun _ hl => hl.called) fun l hl => hrest (.thread l) hl)

/-- A process whose handlers end: those of the service, one for each call. -/
structure Threads (J : Nlohmann) (P : Program σ Fx V E) (onCall : Consumer → Str → σ)
    (registry : Consumers) (n nextQueue : BitVec 64) (clock : TimePoint)
    (ls : List (BrokerStep σ)) (s : Broker σ Fx V E) : Prop where
  manned : s.service.Manned n nextQueue clock
  serves : (∃ standings, Serves P s.service standings) ∨ Ended P s.service
  roots : s.service.handlers.map Handler.root = (wanted J registry ls).map (root onCall)
  bounded : ∃ left, Bounded P left s.service

theorem threads_of_run (hn : 0 < n.toNat)
    (hends : ∀ call ∈ wanted J registry ls, P.Ends (root onCall call))
    (hrun : run (Broker.step J P onCall) (.main registry serverFd n nextQueue clock) ls = some s) :
    Threads J P onCall registry n nextQueue clock ls s := by
  obtain ⟨ls', hrun', hcalled⟩ := (splits_of_run hrun).service
  have hroots : ∀ root, .call root ∈ ls' → P.Ends root := fun root' hmem => by
    have hmem' := ServiceStep.mem_called.2 hmem
    rw [hcalled] at hmem'
    obtain ⟨call, hcall, rfl⟩ := List.mem_map.1 hmem'
    exact hends call hcall
  obtain ⟨hserves, hmap⟩ :=
    serves_or_ended hn (fun root hmem => (hroots root hmem).wellUsed) hrun'
  exact ⟨Service.manned_of_run hrun', hserves, hmap.trans hcalled, exists_bounded hroots hmap⟩

namespace Threads

variable (h : Threads J P onCall registry n nextQueue clock ls s)

include h

theorem mem_root {call : Consumer × Str} (hcall : call ∈ wanted J registry ls) :
    ∃ h ∈ s.service.handlers, h.root = root onCall call :=
  List.mem_map.1 (h.roots ▸ List.mem_map_of_mem hcall)

theorem exists_wanted {g : Handler σ Fx V E} (hg : g ∈ s.service.handlers) :
    ∃ call ∈ wanted J registry ls, root onCall call = g.root :=
  List.mem_map.1 (h.roots ▸ List.mem_map_of_mem hg)

/-- The threads take so many steps, and no more, before the next input. -/
theorem exists_length_le : ∃ m, ∀ ls' s', Admissible (Broker.step J P onCall) GoesOn s ls' →
    run (Broker.step J P onCall) s ls' = some s' → ls'.length ≤ m := by
  obtain ⟨left, hleft⟩ := h.bounded
  obtain ⟨m, hm⟩ : ∃ m, Potential P n nextQueue clock left m s.service := by
    rcases h.serves with ⟨standings, hs⟩ | hend
    · exact ⟨_, .intro hs h.manned hleft⟩
    · exact ⟨_, .ended hend⟩
  refine ⟨m, fun ls' s' hown hrun => length_le_of_potential
    (J := fun m s => Potential P n nextQueue clock left m s.service) ?_ hm hown hrun⟩
  intro m s l s' hp hl hstep
  cases step_cases hstep with
  | input | lengthError | sigpipe => exact hl.elim
  | thread _ hs' => exact hp.goesOn hl hs'

end Threads

end Broker

/-! ## Every run -/

open Broker

section

variable {s : Broker σ Fx V E} {ls : List (BrokerStep σ)}

/-- Let every handler that a publish is to call be one that, read as plain calls, returns.  In every
state that the process of `main` reaches with at least one worker, in whatever order the inputs, the
workers and the timer thread take their turns:

* no handler has ended the process;
* the server is where the inputs alone bring it, unless its own thread has ended the process;
* there is one handler for each text read that is a publish request on a topic whose hash is
  registered, in the order of the texts, and there is no other;
* what a handler has shown is the beginning of what its plain function shows;
* the threads take no more than a certain number of steps before the next input;
* when no thread can go on, and the server's has not ended the process, the server takes every input
  that it would take alone;
* when the clock has nothing to wait for either, every handler has completed, and has shown what its
  plain function shows. -/
theorem publishes_handled (hn : 0 < n.toNat)
    (hreturns : ∀ call ∈ wanted J registry ls, P.Returns (root onCall call))
    (hrun : run (Broker.step J P onCall) (.main registry serverFd n nextQueue clock) ls = some s) :
    (s.service.faulted = false ∧ s.service.terminated = false) ∧
    (s.serverEnd = none ∧ run (Server.input J) (.main registry serverFd)
        (ls.filterMap BrokerStep.input?) = some s.server ∨ ServerEnded J registry serverFd ls s) ∧
    s.service.handlers.map Handler.root = (wanted J registry ls).map (root onCall) ∧
    (∀ h ∈ s.service.handlers, ∃ j, h.trace <+: (plainRun P h.root j).trace) ∧
    (∃ m, ∀ ls' s', Admissible (Broker.step J P onCall) GoesOn s ls' →
      run (Broker.step J P onCall) s ls' = some s' → ls'.length ≤ m) ∧
    (s.serverEnd = none → Resting (Broker.step J P onCall) Proceeds s → s.TakesInputs J P onCall) ∧
    (s.serverEnd = none → Resting (Broker.step J P onCall) GoesOn s → ∀ h ∈ s.service.handlers,
      h.asyncTask = .destroyed ∧
        ∃ j v m, plainRun P h.root j = .done (.value v) m ∧ h.trace = m.trace) := by
  have hthreads := threads_of_run hn (fun call hcall => (hreturns call hcall).ends) hrun
  have hsplit := splits_of_run hrun
  obtain ⟨standings, hs⟩ := hthreads.serves.resolve_right fun hend => by
    obtain ⟨h, hh, hesc⟩ := hend.escapes
    obtain ⟨call, hcall, hroot⟩ := hthreads.exists_wanted hh
    exact (hreturns call hcall).not_escapes (hroot ▸ hesc)
  refine ⟨⟨hs.faulted, hs.terminated⟩, hsplit.ended.imp_left fun hend =>
      ⟨hend, (hsplit.serving hend).server⟩, hthreads.roots, fun h hh => ?_,
    hthreads.exists_length_le, fun hend hrest =>
      takesInputs_of_resting hs hthreads.manned hend (hsplit.serving hend).wired hrest,
    fun hend hrest => completed_of_resting hs hthreads.manned hend hrest⟩
  obtain ⟨k, hk⟩ := List.getElem?_of_mem hh
  exact hs.trace_prefix hk

end

/-- The peer is gone when the server replies to its text, or `recv` returns -1. -/
example :
    (run (Broker.step Server.sampleJson topicProgram topicOnCall)
        (.main (.registered [mathConsumer, helloConsumer]) 3 1 0 0)
        [.input (.accept 5), .input (.read 5 (.ok (bytes "x"))), .sigpipe 1]).map
      (fun s => (s.serverEnd, s.server.trace)) = some (some .sigpipe, [.accepted 0 5]) ∧
    (run (Broker.step Server.sampleJson topicProgram topicOnCall)
        (.main (.registered [mathConsumer, helloConsumer]) 3 1 0 0)
        [.input (.accept 5), .input (.read 5 (.fail (.other 104)))]).map
      (fun s => (s.serverEnd, s.server.trace)) = some (some .lengthError, [.accepted 0 5]) :=
  ⟨by rfl, by rfl⟩

/-- A client's text: `publish` on `math.add`. -/
def addText : Str :=
  bytes "\x7b\"type\":\"publish\",\"topic\":\"math.add\",\"payload\":\"1,2\"\x7d"

/-- The library on this text. -/
def addJson : Nlohmann := tableJson [(addText, publishJson ⟨bytes "math.add", bytes "1,2"⟩)]

/-- A client publishes, and a second one connects while the worker is in the handler. -/
def addRun : List (BrokerStep TopicBody) :=
  [.thread (.pool (.lock 0)), .thread (.timers .test), .thread (.timers (.lock 0)),
    .input (.accept 5), .input (.read 5 (.ok addText)), .thread (.pool (.push 1)),
    .thread (.pool (.notify 1)), .thread (.pool (.lock 0)), .thread (.pool (.enter 0)),
    .thread (.invoke 0), .thread (.execute 0), .input (.accept 6)] ++
  List.replicate 16 (.thread (.execute 0)) ++
  [.thread (.finish 0), .thread (.pool (.leave 0)), .thread (.pool (.lock 0))]

/-- The handler has added the numbers to the result of its `test()`. -/
theorem publishes_handled_add :
    ∃ s, run (Broker.step addJson topicProgram topicOnCall)
        (.main (.registered [mathConsumer, helloConsumer]) 3 1 0 0) addRun = some s ∧
      ∃ h, s.service.handlers = [h] ∧ h.root = Math.onCall (bytes "1,2") ∧
        h.asyncTask = .destroyed ∧
        .effect (.log [.str (bytes "[Task] math.add result: "), .int 14]) .void ∈ h.trace := by
  obtain ⟨s, hs, hview⟩ := Option.map_eq_some_iff.1
    (show (run (Broker.step addJson topicProgram topicOnCall)
        (.main (.registered [mathConsumer, helloConsumer]) 3 1 0 0) addRun).map
        (fun s => (s.service.pool.workers, s.service.pool.producers, s.service.timers.submitters,
          s.service.timers.thread, s.service.timers.jobs.length, s.service.activities, s.serverEnd,
          s.service.handlers.map fun h => h.trace.contains
            (.effect (.log [.str (bytes "[Task] math.add result: "), .int 14]) .void))) =
      some ([.asleep], [.idle, .idle], [.idle], .waiting, 0, [(0, .idle)], none, [true]) by rfl)
  simp only [Prod.mk.injEq] at hview
  obtain ⟨hworkers, hproducers, hsubmitters, hthread, hjobs, hactivities, hend, hlogged⟩ := hview
  have hwanted : wanted addJson (.registered [mathConsumer, helloConsumer]) addRun =
      [(mathConsumer, bytes "1,2")] := by decide
  have hrest := Service.resting_of_idle (P := topicProgram) (s := s.service) (by simp [hworkers])
    (by simp [hproducers]) (by simp [hsubmitters]) hthread (List.eq_nil_of_length_eq_zero hjobs)
    (by simp [hactivities])
  obtain ⟨-, -, hroots, -, -, -, hdone⟩ := publishes_handled (by decide) (fun call hcall => by
    rw [hwanted, List.mem_singleton] at hcall
    exact hcall ▸ Math.returns_onCall (by decide)) hs
  rw [hwanted] at hroots
  obtain ⟨h, hh, hroot⟩ := List.map_eq_singleton_iff.1 hroots
  refine ⟨s, hs, h, hh, hroot, (hdone hend (resting_of_service hend hrest) h (by simp [hh])).1, ?_⟩
  simpa [hh] using hlogged

end EllohimMQ
