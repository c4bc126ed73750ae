/-
# Store.Message -- messages, the table of message objects, and what can be raised

The program passes message objects by reference: a partition log holds the
caller's object, and `append` writes into it.  A message is therefore a record
in a table indexed by `MessageRef`, and a log is a list of references.

Clock readings (`time.time()`) are rationals, passed to the operation that
reads the clock.  Exceptions are values: `ValueError` lists the errors the
program raises itself with the data they print, `Raised` adds the built-in ones.
-/
import BrokerLite.Theory.Dict
import Mathlib.Algebra.Order.Ring.Rat

namespace BrokerLite

open Theory

set_option autoImplicit false

/-- A reading of the clock, in seconds. -/
abbrev Timestamp := ℚ

abbrev MessageRef := ℕ

/-! ## What can be raised -/

inductive ValueError where
  | partitionFull (topic : String) (partitionId maxSize : ℤ)
  | noSuchPartition (partitionId topic : String) (partitions : ℕ)
  | messageTooLarge (size : ℕ) (maxMessageBytes : ℤ) (topic : String)
  | topicExists (name : String)
  | maximumTopics (maxTopics : ℤ)
  | queueFull (name : String) (maxSize : ℤ)
  | priorityQueueFull (name : String) (maxSize : ℤ)
  | frameTooShort (length : ℕ)
  | notAnApiKey (value : ℕ)
  | unknownTypeTag (tag : ℕ)
  | filteredByMiddleware
  | queueExists (name : String)
  | maximumQueues (maxQueues : ℤ)
  | noSuchQueue (name : String)
  | notAnErrorCode (value : String)
  deriving DecidableEq

/-- The text of the error; `repr` is the language's `repr` of a string. -/
def ValueError.text (repr : String → String) : ValueError → String
  | .partitionFull topic partitionId maxSize =>
      s!"Partition {topic}-{partitionId} is full (max_size={maxSize})"
  | .noSuchPartition partitionId topic partitions =>
      let last : ℤ := partitions - 1
      s!"Partition {partitionId} does not exist in topic {repr topic} (0..{last})"
  | .messageTooLarge size maxMessageBytes topic =>
      s!"Message size {size} exceeds max {maxMessageBytes} bytes for topic {repr topic}"
  | .topicExists name => s!"Topic {repr name} already exists"
  | .maximumTopics maxTopics => s!"Maximum topics ({maxTopics}) reached"
  | .queueFull name maxSize => s!"Queue {repr name} is full (max_size={maxSize})"
  | .priorityQueueFull name maxSize => s!"PriorityQueue {repr name} is full (max_size={maxSize})"
  | .frameTooShort length => s!"Frame too short: {length} bytes (need 12)"
  | .notAnApiKey value => s!"{value} is not a valid ApiKey"
  | .unknownTypeTag tag => s!"Unknown type tag: {tag}"
  | .filteredByMiddleware => "Message was filtered by middleware"
  | .queueExists name => s!"Queue {repr name} already exists"
  | .maximumQueues maxQueues => s!"Maximum queues ({maxQueues}) reached"
  | .noSuchQueue name => s!"Queue {repr name} does not exist"
  | .notAnErrorCode value => s!"{value} is not a valid ErrorCode"

inductive Raised where
  | valueError (error : ValueError)
  | indexError
  | zeroDivisionError
  | structError
  | connectionError (text : String)
  | typeError (text : String)
  | attributeError (text : String)
  | overflowError
  | unicodeDecodeError
  | unicodeEncodeError
  | jsonDecodeError
  | recursionError
  deriving DecidableEq

/-- `ValueError` and the built-in classes derived from it. -/
def Raised.isValueError : Raised → Bool
  | .valueError _ | .unicodeDecodeError | .unicodeEncodeError | .jsonDecodeError => true
  | _ => false

/-- Nothing but a `ValueError` is raised. -/
def OnlyValueErrors {α : Type} (outcome : Except Raised α) : Prop :=
  ∀ raised, outcome = .error raised → raised.isValueError = true

/-! ## The bytes of strings -/

/-- `s.encode("utf-8")`. -/
def utf8 (s : String) : List UInt8 := s.toUTF8.data.toList

/-- `bytes.decode("utf-8")`. -/
def decodeUtf8 (bytes : List UInt8) : Except Raised String :=
  match String.fromUTF8? ⟨bytes.toArray⟩ with
  | some s => .ok s
  | none => .error .unicodeDecodeError

theorem decodeUtf8_utf8 (s : String) : decodeUtf8 (utf8 s) = .ok s := by
  have valid : s.toByteArray.IsValidUTF8 := s.isValidUTF8
  simp [decodeUtf8, utf8, String.fromUTF8?, String.fromUTF8, valid]

/-- `str.encode("utf-8")`, which a string with a lone surrogate does not have, and the
number that is read off the MD5 digest of bytes.  A `String` stands for a string of
the language; which of them have no encoding is for `encode` to say. -/
structure Encoding where
  encode : String → Option (List UInt8)
  md5 : List UInt8 → ℕ

namespace Encoding

def length (enc : Encoding) (s : String) : Option ℕ := (enc.encode s).map List.length

/-- The number of the digest of a string's bytes. -/
def digest (enc : Encoding) (s : String) : Option ℕ := (enc.encode s).map enc.md5

/-- Every string has the digest that `hash` gives it. -/
def total (hash : String → ℕ) : Encoding where
  encode s := some (utf8 s)
  md5 bytes :=
    match decodeUtf8 bytes with
    | .ok s => hash s
    | .error _ => 0

@[simp] theorem digest_total (hash : String → ℕ) (s : String) : (total hash).digest s = some (hash s) := by
  simp [digest, total, decodeUtf8_utf8]

end Encoding

/-! ## Messages -/

structure Message where
  topic : String
  value : List UInt8
  key : Option String := none
  id : String
  headers : Dict String String := .empty
  timestamp : Timestamp := 0
  brokerTimestamp : Timestamp := 0
  partition : ℤ := -1
  offset : ℤ := -1
  ttl : ℤ := 0
  priority : ℤ := 0
  producerId : String := ""
  sequenceNumber : ℤ := -1
  deriving DecidableEq

namespace Message

/-- Approximate size of the message in bytes: payload, key, id, topic, headers.  There
is none when a string has no encoding. -/
def sizeBytes (enc : Encoding) (m : Message) : Option ℕ := do
  let size := m.value.length
  let size ← match m.key with
    | none => some size
    | some key => if key = "" then some size else (enc.length key).map (size + ·)
  let size := size + (← enc.length m.id)
  let size := size + (← enc.length m.topic)
  m.headers.entries.foldlM (fun size e => do
    return size + ((← enc.length e.1) + (← enc.length e.2))) size

end Message

/-- The message objects of the program, by reference. -/
abbrev MessageTable := MessageRef → Message

/-! ## `x or y` -/

/-- The value of `given or default` for an optional number: a missing value and
zero are both falsy. -/
def orDefault {α : Type} [Zero α] [DecidableEq α] (given : Option α) (default : α) : α :=
  match given with
  | none => default
  | some x => if x = 0 then default else x

end BrokerLite
