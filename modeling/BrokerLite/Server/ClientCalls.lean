/-
# Server.ClientCalls -- the request methods of the client, and what the server reads

A `Call` is a request method of `BrokerClient` with its arguments, which have the
types that the client declares.  `payload` is the dict the method sends,
`returned` what it makes of the data of the response.

The server's handlers read a payload without knowing who wrote it; on the dict of
a call they read the arguments of the call (`requestOf_payload`).
-/
import BrokerLite.Codec.MessageCodec
import BrokerLite.Produce.Producer
import BrokerLite.Server.Session

namespace BrokerLite

open Theory

set_option autoImplicit false

namespace BrokerClient

inductive Call where
  | createTopic (name : String) (partitions : ℤ)
  | deleteTopic (name : String)
  | listTopics
  | produce (topic : String) (value : BytesOrStr) (key : Option String)
      (headers : Option (Dict String String))
  | fetch (topic : String) (partition offset maxMessages : ℤ)
  | joinGroup (groupId topic : String) (consumerId : Option String)
  | leaveGroup (groupId : String)
  | commitOffsets
  | fetchOffsets
  | createQueue (name : String) (maxSize : ℤ) (priority : Bool)
  | enqueue (queue : String) (value : BytesOrStr) (key : Option String) (priority : ℤ)
  | dequeue (queue : String)
  | ack (queue messageId : String)
  | heartbeat
  | metrics
  | listGroups

/-- The text that `produce` and `enqueue` send for a value. -/
def sentText : BytesOrStr → String
  | .bytes value => decodeReplace value
  | .text value => value

/-- A string or `None`. -/
def optional (s : Option String) : Value := s.elim .none .str

def headersDict (headers : Dict String String) : Value :=
  .dict (headers.entries.map fun e => (.str e.1, .str e.2))

namespace Call

def apiKey : Call → ApiKey
  | .createTopic .. => .createTopics
  | .deleteTopic _ => .deleteTopics
  | .listTopics => .metadata
  | .produce .. => .produce
  | .fetch .. => .fetch
  | .joinGroup .. => .joinGroup
  | .leaveGroup _ => .leaveGroup
  | .commitOffsets => .offsetCommit
  | .fetchOffsets => .offsetFetch
  | .createQueue .. => .createQueue
  | .enqueue .. => .enqueue
  | .dequeue _ => .dequeue
  | .ack .. => .ack
  | .heartbeat => .heartbeat
  | .metrics => .metrics
  | .listGroups => .listGroups

def payload : Call → List (Value × Value)
  | .createTopic name partitions =>
      [(.str "name", .str name), (.str "partitions", .int partitions)]
  | .deleteTopic name => [(.str "name", .str name)]
  | .produce topic value key headers =>
      [(.str "topic", .str topic), (.str "value", .str (sentText value)), (.str "key", optional key),
        (.str "headers", headersDict (headers.getD .empty))]
  | .fetch topic partition offset maxMessages =>
      [(.str "topic", .str topic), (.str "partition", .int partition), (.str "offset", .int offset),
        (.str "max_messages", .int maxMessages)]
  | .joinGroup groupId topic consumerId =>
      [(.str "group_id", .str groupId), (.str "topic", .str topic),
        (.str "consumer_id", optional consumerId)]
  | .leaveGroup groupId => [(.str "group_id", .str groupId)]
  | .createQueue name maxSize priority =>
      [(.str "name", .str name), (.str "max_size", .int maxSize), (.str "priority", .bool priority)]
  | .enqueue queue value key priority =>
      [(.str "queue", .str queue), (.str "value", .str (sentText value)), (.str "key", optional key),
        (.str "priority", .int priority)]
  | .dequeue queue => [(.str "queue", .str queue)]
  | .ack queue messageId => [(.str "queue", .str queue), (.str "message_id", .str messageId)]
  | .listTopics | .commitOffsets | .fetchOffsets | .heartbeat | .metrics | .listGroups => []

/-- What the method returns for the data of a response without an error. -/
def returned (call : Call) (data : Value) : Except Raised Value :=
  match call with
  | .fetch .. => data.getOr "messages" (.list [])
  | .dequeue _ => data.getOr "message" .none
  | .listGroups => data.getOr "groups" (.list [])
  | _ => .ok data

/-- The request that the arguments stand for. -/
def request : Call → ServerRequest
  | .createTopic name partitions =>
      if name = "" then .missing "Missing topic name" else .createTopics name (.int partitions)
  | .deleteTopic name => .deleteTopics (.str name)
  | .listTopics => .metadata
  | .produce topic value key headers =>
      if topic = "" then .missing "Missing topic"
      else .produce topic (utf8 (sentText value)) key (headers.getD .empty)
  | .fetch topic partition offset maxMessages =>
      .fetch (.str topic) (.int partition) (.int offset) (.int maxMessages)
  | .joinGroup groupId topic consumerId =>
      .joinGroup groupId topic (if consumerId = some "" then none else consumerId)
  | .leaveGroup groupId => .leaveGroup (.str groupId)
  | .commitOffsets => .offsetCommit
  | .fetchOffsets => .offsetFetch
  | .createQueue name maxSize priority => .createQueue name (.int maxSize) priority
  | .enqueue queue value key priority =>
      .enqueue (.str queue) (utf8 (sentText value)) (optional key) (.int priority)
  | .dequeue queue => .dequeue (.str queue)
  | .ack queue messageId => .ack (.str queue) (.str messageId)
  | .heartbeat => .heartbeat
  | .metrics => .metrics
  | .listGroups => .listGroups

/-- The text that the server encodes, if there is one. -/
def valueText : Call → Option String
  | .produce _ value _ _ | .enqueue _ value _ _ => some (sentText value)
  | _ => none

/-- The text has its UTF-8 encoding. -/
def Encodable (encode : String → Option (List UInt8)) (call : Call) : Prop :=
  ∀ text ∈ call.valueText, encode text = some (utf8 text)

end Call

/-! ## What the server reads -/

@[simp] theorem isTrue_str (s : String) : (Value.str s).isTrue = decide (s ≠ "") := rfl

/-- The headers are read back in their order. -/
theorem headers_headersDict (headers : Dict String String) :
    Payload.headers (headersDict headers) = .ok headers := by
  have read : Payload.headers (headersDict headers) = headers.entries.foldlM
      (fun (d : Dict String String) e => (pure (d.set e.1 e.2) : Except Escape (Dict String String)))
      .empty := List.foldlM_map ..
  have rebuilt : headers.entries.foldl (fun d e => d.set e.1 e.2) .empty = headers := by
    apply Dict.ext
    rw [Dict.entries_foldl_set Prod.fst Prod.snd headers.nodup (by simp)]
    simp
  rw [read, List.foldlM_pure, rebuilt]
  rfl

theorem optionalStr_optional (field : String) (s : Option String) :
    Payload.optionalStr field (optional s) = .ok s := by
  cases s <;> rfl

/-- `data.get` on a dict whose keys are strings. -/
theorem get_dict (entries : List (Value × Value)) (key : String) (default : Value) :
    Payload.get (.dict entries) key default =
      .ok ((Value.getItem entries (.str key)).getD default) := rfl

/-- **The server reads the arguments of the call**, and needs none of the defaults of
its handlers. -/
theorem requestOf_payload {encode : String → Option (List UInt8)} {call : Call}
    (encodable : call.Encodable encode) :
    requestOf encode (.dict call.payload) call.apiKey = .ok call.request := by
  cases call with
  | createTopic name partitions =>
      by_cases empty : name = ""
      · subst empty
        rfl
      · simp [Call.payload, Call.apiKey, Call.request, requestOf, get_dict, Value.getItem, Value.sameKey,
          empty, Payload.name, Payload.str, Value.hashable, bind, Except.bind]
  | produce topic value key headers =>
      by_cases empty : topic = ""
      · subst empty
        rfl
      · simp [Call.payload, Call.apiKey, Call.request, requestOf, get_dict, Value.getItem, Value.sameKey,
          empty, Payload.encoded, encodable _ rfl, Payload.str, optionalStr_optional, headers_headersDict,
          bind, Except.bind]
  | joinGroup groupId topic consumerId =>
      cases consumerId with
      | none => rfl
      | some id =>
          by_cases empty : id = ""
          · subst empty
            rfl
          · simp [Call.payload, Call.apiKey, Call.request, requestOf, get_dict, Value.getItem,
              Value.sameKey, empty, optional, Payload.str, Payload.optionalStr, Value.isKey, Value.text,
              bind, Except.bind]
  | enqueue queue value key priority =>
      simp [Call.payload, Call.apiKey, Call.request, requestOf, get_dict, Value.getItem, Value.sameKey,
        Payload.encoded, encodable _ rfl, Payload.name, Value.hashable, bind, Except.bind]
  | _ => rfl

end BrokerClient

end BrokerLite
