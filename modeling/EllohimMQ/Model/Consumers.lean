import EllohimMQ.Model.Json
import Mathlib.Logic.Function.Basic

/-!
# Consumers and their registry

`util/joaat.hpp` and `consumers/`: a consumer is registered under the 32-bit `joaat` hash of its
name, and the registry is asked for a consumer by hash alone.
-/

namespace EllohimMQ

/-- `std::uint32_t`; the additions and shifts of `joaat` are those of 32-bit words. -/
abbrev Joaat := BitVec 32

/-- `c >= 'A' && c <= 'Z' ? c | 1 << 5 : c` -/
def toLower (c : UInt8) : UInt8 := if 65 ≤ c ∧ c ≤ 90 then c ||| ((1 : UInt8) <<< 5) else c

/-- The loop body of `joaat`.  A `char` is signed, so it is sign-extended when it is added. -/
def joaatStep (hash : Joaat) (c : UInt8) : Joaat :=
  let hash := hash + (toLower c).toBitVec.signExtend 32
  let hash := hash + (hash <<< 10)
  hash ^^^ (hash >>> 6)

/-- What `joaat` does after its loop. -/
def joaatFinal (hash : Joaat) : Joaat :=
  let hash := hash + (hash <<< 3)
  let hash := hash ^^^ (hash >>> 11)
  hash + (hash <<< 15)

/-- `joaat` -/
def joaat (str : Str) : Joaat := joaatFinal (str.foldl joaatStep 0)

/-- A `consumer` object.  Its only constructor sets the hash to `joaat(name)`. -/
structure Consumer where
  name : Str
  label : Str
  description : Str
  numArgs : Int
  hash : Joaat
  hash_eq : hash = joaat name
  deriving DecidableEq

/-- The constructor, without the registration that it ends with. -/
def Consumer.new (name label description : Str) (numArgs : Int) : Consumer :=
  { name, label, description, numArgs, hash := joaat name, hash_eq := rfl }

/-- The registry: `m_consumers`, a map from hashes to consumers. -/
structure Consumers where
  consumers : Joaat → Option Consumer

namespace Consumers

/-- The empty registry. -/
def empty : Consumers := ⟨fun _ => none⟩

/-- `m_consumers.insert({hash, consumer})`: an entry that is already there stays. -/
def addConsumerImpl (r : Consumers) (consumer : Consumer) : Consumers :=
  match r.consumers consumer.hash with
  | some _ => r
  | none => ⟨Function.update r.consumers consumer.hash (some consumer)⟩

/-- `m_consumers.find(hash)` -/
def getConsumerImpl (r : Consumers) (hash : Joaat) : Option Consumer := r.consumers hash

/-- The registry after the constructors have run in the given order. -/
def registered (cs : List Consumer) : Consumers := cs.foldl addConsumerImpl empty

end Consumers

/-- `static Math _Math{ "math.add", "Math Add", "Math Add" };` -/
def mathConsumer : Consumer := .new (bytes "math.add") (bytes "Math Add") (bytes "Math Add") 0

/-- `static Hello _Hello{ "task.hello", "Hello", "Hello" };` -/
def helloConsumer : Consumer := .new (bytes "task.hello") (bytes "Hello") (bytes "Hello") 0

end EllohimMQ
