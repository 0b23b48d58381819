import EllohimMQ.Lib.Calls
import EllohimMQ.Model.Json
import Mathlib.Algebra.Group.Nat.Defs
import Mathlib.Data.List.Defs

/-!
# The topics

`topics/math.cpp` and `topics/hello.cpp`, as bodies.  Their effects are the lines that they log; a line
is the sequence of what was written to it with `<<`.  A Task that is a temporary is destroyed where
the full expression ends, also when the expression throws.
-/

namespace EllohimMQ

open Calls

/-- The exceptions of `std::stoi`, both derived from `std::exception`. -/
inductive StdException where
  | invalidArgument
  | outOfRange
  deriving DecidableEq

/-- What is written to a line. -/
inductive LogItem where
  | str (s : Str)
  | int (n : ℤ)
  deriving DecidableEq

/-- What a topic does besides its `co_await`s. -/
inductive TopicEffect where
  | log (items : List LogItem)
  /-- a signed addition has left the range of `int`: undefined behaviour, and the sum wraps round -/
  | overflow
  deriving DecidableEq

/-- The values of `Task<>` and of `Task<int>`. -/
inductive TopicValue where
  | void
  | int (n : ℤ)
  deriving DecidableEq

/-- The value as a `Task<int>` yields it. -/
def TopicValue.toInt : TopicValue → ℤ
  | .int n => n
  | .void => 0

/-- The body of a coroutine of `topics/`. -/
abbrev TopicBody := Body TopicEffect TopicValue StdException

/-- Logging answers nothing, and an `int` that was moved from keeps its value. -/
def topicProgram : Program TopicBody TopicEffect TopicValue StdException where
  next := Body.next
  answer _ _ := .void
  moved := id

/-! ## `std::stoi` -/

/-- `std::isspace` in the C locale -/
def isSpace (c : UInt8) : Bool := c = 32 ∨ (9 ≤ c ∧ c ≤ 13)

/-- The decimal digits. -/
def isDigit (c : UInt8) : Bool := 48 ≤ c ∧ c ≤ 57

/-- The value of a string of decimal digits. -/
def decimal (digits : Str) : ℕ := digits.foldl (fun n c => 10 * n + (c.toNat - 48)) 0

/-- The optional sign, and what is left. -/
def splitSign : Str → Bool × Str
  | c :: s => if c = 45 then (true, s) else if c = 43 then (false, s) else (false, c :: s)
  | [] => (false, [])

/-- The range of `int`. -/
def inIntRange (n : ℤ) : Bool := -2147483648 ≤ n ∧ n ≤ 2147483647

/-- `std::stoi` in base ten: leading whitespace is skipped, the longest integer is converted, and what
follows it is ignored. -/
def stoi (s : Str) : Except StdException ℤ :=
  let (negative, s) := splitSign (s.dropWhile isSpace)
  let digits := s.takeWhile isDigit
  if digits.isEmpty then .error .invalidArgument
  else
    let n : ℤ := decimal digits
    let n := if negative then -n else n
    if inIntRange n then .ok n else .error .outOfRange

/-! ## `math.add` -/

/-- `LOG(INFO) << ..` -/
def log (items : List LogItem) (rest : TopicBody) : TopicBody := .effect (.log items) fun _ => rest

/-- An addition of two `int`s. -/
def addInt (a b : ℤ) (rest : ℤ → TopicBody) : TopicBody :=
  if inIntRange (a + b) then rest (a + b)
  else .effect .overflow fun _ => rest ((a + b).bmod (2 ^ 32))

namespace Math

/-- `Math::test` -/
def test : TopicBody :=
  log [.str (bytes "exec test function")] <|
  log [.str (bytes "test function completed")] <|
  .ret (.int 11)

/-- The end of `Math::on_call`. -/
def last : TopicBody :=
  log [.str (bytes "[Handler] test() called, waiting for completion")] <|
  .ret .void

/-- `Math::on_call` after `test()` has returned `v`. -/
def add (payload : Str) (v : ℤ) : TopicBody :=
  log [.str (bytes "[Handler] test() completed value "), .int v] <|
  match payload.idxOf? 44 with
  | none => last
  | some pos =>
    match stoi (payload.take pos) with
    | .error e => .throw e
    | .ok a =>
      match stoi (payload.drop (pos + 1)) with
      | .error e => .throw e
      | .ok b =>
        addInt a b fun ab =>
        addInt ab v fun sum =>
        log [.str (bytes "[Task] math.add result: "), .int sum] last

/-- `Math::on_call` -/
def onCall (payload : Str) : TopicBody :=
  log [.str (bytes "[Task] Starting math.add with payload: "), .str payload] <|
  log [.str (bytes "[Handler] About to call test()")] <|
  .task test fun t =>
  .await t fun
    | .exception e => .drop t (.throw e)
    | .value v => .drop t (add payload v.toInt)

end Math

/-! ## `task.hello` -/

namespace Hello

/-- The loop from the iteration `i` on, with `n` iterations to go. -/
def loop (rest : TopicBody) : ℕ → ℕ → TopicBody
  | 0, _ => rest
  | n + 1, i =>
    log [.str (bytes "[Handler] Sleeping for 1 second, iteration "), .int (i + 1)] <|
    .sleep 1000 (loop rest n (i + 1))

/-- `Hello::on_call`.  Nothing in its `try` block throws, so its handlers do not run. -/
def onCall (name payload : Str) : TopicBody :=
  log [.str (bytes "Execute topic "), .str name] <|
  log [.str (bytes "[Handler] Task started with payload: "), .str payload] <|
  log [.str (bytes "[Handler] About to sleep")] <|
  loop
    (log [.str (bytes "[Handler] Sleep completed")] <|
      log [.str (bytes "[Handler] Task completed successfully")] <|
      .ret .void)
    10 0

end Hello

end EllohimMQ
