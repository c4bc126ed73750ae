/-
# Server.Request -- what a handler reads from a payload

A payload is any JSON value.  The handlers call `data.get` on it and hand what
they find to the broker without a look at its type.  `requestOf` is the reading
part of every handler.  It raises where the program does: on a payload that is no
object, on a `value` that is no string or has no encoding, on a name that cannot be a
dict key.
Where the broker would keep a value of another type than the program declares for
it, what leaves the handler is `untyped`: the model does not follow the program.
-/
import BrokerLite.Codec.BinarySerializer
import BrokerLite.Wire.Client

namespace BrokerLite

open Theory

set_option autoImplicit false

/-- What leaves a handler instead of a response. -/
inductive Escape where
  | raised (raised : Raised)
  | untyped (field : String)
  deriving DecidableEq

inductive ServerRequest where
  /-- Without the name that the handler asks for. -/
  | missing (text : String)
  | produce (topic : String) (value : List UInt8) (key : Option String) (headers : Dict String String)
  | fetch (topic partition offset maxMessages : Value)
  | metadata
  | createTopics (name : String) (partitions : Value)
  | deleteTopics (name : Value)
  | listGroups
  | joinGroup (groupId topic : String) (consumerId : Option String)
  | leaveGroup (groupId : Value)
  | offsetCommit
  | offsetFetch
  | heartbeat
  | createQueue (name : String) (maxSize : Value) (priority : Bool)
  | enqueue (queue : Value) (value : List UInt8) (key priority : Value)
  | dequeue (queue : Value)
  | ack (queue messageId : Value)
  | metrics
  /-- No handler has the key. -/
  | unknown (apiKey : ApiKey)

/-- The integer a value is; a boolean is one. -/
def Value.integer : Value → Option ℤ
  | .int i => some i
  | .bool b => some (if b then 1 else 0)
  | _ => Option.none

/-- A key is a string or nothing. -/
def Value.isKey : Value → Bool
  | .none | .str _ => true
  | _ => false

/-- The string, if it is one. -/
def Value.text : Value → Option String
  | .str s => some s
  | _ => Option.none

theorem Value.text_of_not_str {value : Value} (other : ∀ s, value ≠ .str s) : value.text = Option.none := by
  cases value with
  | str s => exact absurd rfl (other s)
  | _ => rfl

namespace Payload

/-- `data.get(key, default)`. -/
def get (payload : Value) (key : String) (default : Value) : Except Escape Value :=
  (payload.getOr key default).mapError .raised

/-- A string that the broker keeps. -/
def str (field : String) : Value → Except Escape String
  | .str s => .ok s
  | _ => .error (.untyped field)

def optionalStr (field : String) (value : Value) : Except Escape (Option String) :=
  if value.isKey then .ok value.text else .error (.untyped field)

/-- `MessageHeaders(headers)`, for strings under strings. -/
def headers : Value → Except Escape (Dict String String)
  | .dict entries => entries.foldlM (fun headers e => match e with
      | (.str name, .str value) => .ok (headers.set name value)
      | _ => .error (.untyped "headers")) .empty
  | _ => .error (.untyped "headers")

/-- `value.encode("utf-8")`, which only a string has. -/
def encoded (encode : String → Option (List UInt8)) : Value → Except Escape (List UInt8)
  | .str s => (encode s).elim (.error (.raised .unicodeEncodeError)) .ok
  | value => .error (.raised (.attributeError s!"'{value.typeName}' object has no attribute 'encode'"))

/-- A name that a dict is asked for. -/
def name (value : Value) : Except Escape Value :=
  if value.hashable then .ok value
  else .error (.raised (.typeError s!"unhashable type: '{value.typeName}'"))

end Payload

open Payload in
def requestOf (encode : String → Option (List UInt8)) (payload : Value) : ApiKey → Except Escape ServerRequest
  | .produce => do
      let topic ← get payload "topic" (.str "")
      if topic.isTrue then
        let value ← encoded encode (← get payload "value" (.str ""))
        let key ← optionalStr "key" (← get payload "key" .none)
        let headers ← headers (← get payload "headers" (.dict []))
        let topic ← str "topic" topic
        .ok (.produce topic value key headers)
      else .ok (.missing "Missing topic")
  | .fetch => do
      let topic ← name (← get payload "topic" (.str ""))
      let partition ← get payload "partition" (.int 0)
      let offset ← get payload "offset" (.int 0)
      let maxMessages ← get payload "max_messages" (.int 100)
      .ok (.fetch topic partition offset maxMessages)
  | .metadata => .ok .metadata
  | .createTopics => do
      let topic ← get payload "name" (.str "")
      let partitions ← get payload "partitions" (.int 4)
      if topic.isTrue then
        let topic ← str "name" (← name topic)
        .ok (.createTopics topic partitions)
      else .ok (.missing "Missing topic name")
  | .deleteTopics => do
      let topic ← name (← get payload "name" (.str ""))
      .ok (.deleteTopics topic)
  | .listGroups => .ok .listGroups
  | .joinGroup => do
      let groupId ← str "group_id" (← get payload "group_id" (.str ""))
      let topic ← str "topic" (← get payload "topic" (.str ""))
      let consumerId ← get payload "consumer_id" .none
      let consumerId ← if consumerId.isTrue then optionalStr "consumer_id" consumerId else .ok none
      .ok (.joinGroup groupId topic consumerId)
  | .leaveGroup => do
      let groupId ← name (← get payload "group_id" (.str ""))
      .ok (.leaveGroup groupId)
  | .offsetCommit => .ok .offsetCommit
  | .offsetFetch => .ok .offsetFetch
  | .heartbeat => .ok .heartbeat
  | .createQueue => do
      let queue ← str "name" (← name (← get payload "name" (.str "")))
      let maxSize ← get payload "max_size" (.int 0)
      let priority ← get payload "priority" (.bool false)
      .ok (.createQueue queue maxSize priority.isTrue)
  | .enqueue => do
      let queue ← get payload "queue" (.str "")
      let value ← encoded encode (← get payload "value" (.str ""))
      let queue ← name queue
      let key ← get payload "key" .none
      let priority ← get payload "priority" (.int 0)
      .ok (.enqueue queue value key priority)
  | .dequeue => do
      let queue ← name (← get payload "queue" (.str ""))
      .ok (.dequeue queue)
  | .ack => do
      let queue ← name (← get payload "queue" (.str ""))
      let messageId ← get payload "message_id" (.str "")
      .ok (.ack queue messageId)
  | .metrics => .ok .metrics
  | key => .ok (.unknown key)

end BrokerLite
