import EllohimMQ.Lib.Pieces
import EllohimMQ.Model.TcpServer

/-!
# Bytes on the wire

`TcpConnection::send` makes one call of `::send` and drops its result.  What the call did is up to
the kernel: on a non-blocking socket it takes as many bytes from the front of the message as there
is room for, or none.
-/

namespace EllohimMQ

/-- The result of `::send`: -1, or the number of bytes taken. -/
inductive SendResult where
  | fail
  | ok (n : ℕ)
  deriving DecidableEq

/-- How many bytes the kernel has taken. -/
def SendResult.taken : SendResult → ℕ
  | .fail => 0
  | .ok n => n

/-- The length that `::send` is given: `(int)message.size()`, converted to `size_t`. -/
def sendLength (message : Str) : ℕ := ((BitVec.ofNat 32 message.length).signExtend 64).toNat

/-- The kernel takes no more than it was asked to take, and no more than there is. -/
def SendResult.Possible (message : Str) (result : SendResult) : Prop :=
  result.taken ≤ sendLength message ∧ result.taken ≤ message.length

instance (message : Str) (result : SendResult) : Decidable (result.Possible message) :=
  inferInstanceAs (Decidable (_ ∧ _))

/-- `TcpConnection::send`, when its `::send` returns `result`: the bytes on the wire afterwards. -/
def TcpConnection.send (wire message : Str) (result : SendResult) : Str :=
  wire ++ message.take result.taken

/-- The bytes on the wire after calls of `send`, each with the result of its `::send`. -/
def wireAfter (calls : List (Str × SendResult)) : Str :=
  calls.foldl (fun wire call => TcpConnection.send wire call.1 call.2) []

/-- The message of a call of `send` on the socket of a session. -/
def Event.sentTo (session : ConnId) : Event → Option Str
  | .frame _ (some session') _ data => if session' = session then some data else none
  | .reply _ (some session') data => if session' = session then some data else none
  | _ => none

/-- The messages that `dispatch` and `handle_message` have sent to a session, in call order. -/
def Server.sent (s : Server) (session : ConnId) : List Str := s.trace.filterMap (Event.sentTo session)

end EllohimMQ
