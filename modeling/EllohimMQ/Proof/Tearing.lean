import EllohimMQ.Lib.Transition
import EllohimMQ.Model.Wire

/-!
# Torn messages

The rest of a message that the kernel took only in part is never sent, and nothing stops the next
call of `send`.  So the bytes of a connection stay a beginning of the messages sent to it exactly as
long as the kernel, once it has taken less than a whole message, takes nothing more.

Every byte is told apart by its position in the concatenation of the messages; a later message that
happens to begin like the lost rest does not stand in for it.
-/

namespace EllohimMQ

/-- Each message with the number of bytes that were taken of it. -/
def pieces (calls : List (Str × SendResult)) : List (Str × ℕ) :=
  calls.map fun call => (call.1, call.2.taken)

/-- The messages in call order, as one byte string. -/
def messageBytes (calls : List (Str × SendResult)) : Str := (calls.map Prod.fst).flatten

/-- The bytes on the wire, each with its position in the concatenation of the messages. -/
def placedWire (calls : List (Str × SendResult)) : List (UInt8 × ℕ) :=
  Pieces.cut (Pieces.located 0 (pieces calls))

theorem wireAfter_eq_cut (calls : List (Str × SendResult)) :
    wireAfter calls = Pieces.cut (pieces calls) := by
  have key : ∀ wire : Str, calls.foldl (fun wire call => TcpConnection.send wire call.1 call.2) wire =
      wire ++ Pieces.cut (pieces calls) := by
    induction calls with
    | nil => simp [pieces]
    | cons call calls ih =>
      intro wire
      rw [List.foldl_cons, ih, TcpConnection.send, List.append_assoc]
      rfl
  exact key []

theorem whole_pieces (calls : List (Str × SendResult)) :
    Pieces.whole (pieces calls) = messageBytes calls := by
  simp [Pieces.whole, pieces, messageBytes, Function.comp_def]

/-- The placed bytes are the bytes on the wire. -/
theorem placedWire_map_fst (calls : List (Str × SendResult)) :
    (placedWire calls).map Prod.fst = wireAfter calls := by
  rw [placedWire, Pieces.cut_located, wireAfter_eq_cut]

/-- After every call, what is on the wire is a beginning of the messages. -/
def Untorn (calls : List (Str × SendResult)) : Prop :=
  ∀ k, placedWire (calls.take k) <+: (messageBytes calls).zipIdx

/-- The last moment decides, because bytes are only added. -/
theorem untorn_iff_last (calls : List (Str × SendResult)) :
    Untorn calls ↔ placedWire calls <+: (messageBytes calls).zipIdx := by
  constructor
  · intro h
    have := h calls.length
    rwa [List.take_length] at this
  · intro h k
    have htake : placedWire (calls.take k) <+: placedWire calls := by
      rw [placedWire, pieces, List.map_take, Pieces.located_take]
      exact Pieces.cut_take_prefix _ _
    exact htake.trans h

/-- Without the positions: the bytes on the wire are a prefix of the messages. -/
theorem Untorn.wire_prefix {calls : List (Str × SendResult)} (h : Untorn calls) (k : ℕ) :
    wireAfter (calls.take k) <+: messageBytes calls := by
  have := (h k).map Prod.fst
  rwa [placedWire_map_fst, List.zipIdx_map_fst] at this

/-- The byte stream of a connection is untorn if and only if, once the kernel has taken less than a
whole message, it takes nothing of any later one; then the bytes on the wire are after every call a
prefix of the messages in call order. -/
theorem untorn_iff {calls : List (Str × SendResult)}
    (hpossible : ∀ call ∈ calls, call.2.Possible call.1) :
    (Untorn calls ↔
      calls.Pairwise fun call later => call.2.taken < call.1.length → later.2.taken = 0) ∧
    (Untorn calls → ∀ k, wireAfter (calls.take k) <+: messageBytes calls) := by
  refine ⟨?_, Untorn.wire_prefix⟩
  have hle : ∀ p ∈ Pieces.located 0 (pieces calls), p.2 ≤ p.1.length := by
    refine Pieces.forall_mem_located (r := fun a => a.2 ≤ a.1) 0 fun p hp => ?_
    obtain ⟨call, hcall, rfl⟩ := List.mem_map.1 hp
    exact (hpossible call hcall).2
  rw [untorn_iff_last, placedWire, ← whole_pieces, ← Pieces.whole_located,
    Pieces.cut_prefix_iff (Pieces.nodup_whole_located 0 _) hle,
    Pieces.pairwise_located (r := fun a b => a.2 < a.1 → b.2 = 0), pieces, List.pairwise_map]

/-- The kernel takes the first message, a part of the second and nothing of the third. -/
theorem untorn_iff_full :
    Untorn [(bytes "ab", .ok 2), (bytes "cd", .ok 1), (bytes "ef", .fail)] :=
  (untorn_iff (by decide)).1.2 (by decide)

open Transition Server in
/-- A subscriber with little room left: of the first frame the kernel takes three bytes, and the
second one goes out whole behind them. -/
theorem torn_frames :
    ∃ s, run (Server.input sampleJson) (main .empty 3)
        [.accept 5, .read 5 (.ok subscribeText), .accept 6, .read 6 (.ok publishText),
          .read 6 (.ok publishText)] = some s ∧
      ∃ calls : List (Str × SendResult), calls.map Prod.fst = s.sent 0 ∧
        (∀ call ∈ calls, call.2.Possible call.1) ∧ ¬ Untorn calls ∧
        ¬ wireAfter calls <+: messageBytes calls := by
  obtain ⟨s, hs, hsent⟩ := Option.map_eq_some_iff.1 (show (run (Server.input sampleJson)
    (main .empty 3) [.accept 5, .read 5 (.ok subscribeText), .accept 6, .read 6 (.ok publishText),
      .read 6 (.ok publishText)]).map (fun s => s.sent 0) = some _ by rfl)
  have hframes : s.sent 0 = [publishFrame, publishFrame] := hsent.trans (by decide)
  have htorn : ¬ wireAfter [(publishFrame, .ok 3), (publishFrame, .ok publishFrame.length)] <+:
      messageBytes [(publishFrame, .ok 3), (publishFrame, .ok publishFrame.length)] := by decide
  refine ⟨s, hs, [(publishFrame, .ok 3), (publishFrame, .ok publishFrame.length)], hframes.symm,
    by decide, fun h => htorn ?_, htorn⟩
  exact h.wire_prefix 2

end EllohimMQ
