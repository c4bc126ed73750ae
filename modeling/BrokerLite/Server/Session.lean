/-
# Server.Session -- the handlers of one connection

A `Session` is what the handler of a connection works on: the broker and its
middlewares, the connection's consumer, and the responses that were sent.  A
handler returns the responses it asks for, in order, and what leaves it besides
a `ValueError`, if anything does.  `dispatch` decodes a frame's payload, calls the
handler of its key and sends.

What each request finds is in its `Circumstances`: the clock, the references and
ids of the objects it makes, and what other connections did to the broker since
the request before it.
-/
import BrokerLite.Broker.Middleware
import BrokerLite.Server.QueueHandlers
import BrokerLite.Server.Fetch
import BrokerLite.Server.Request
import BrokerLite.Server.Snapshot

namespace BrokerLite

open Theory

set_option autoImplicit false

/-- The `data` of a response. -/
inductive Answer where
  | error (text : String)
  | produced (metadata : RecordMetadata)
  | messages (messages : List Message)
  /-- Every topic with the numbers of its partitions and messages, and the queues. -/
  | metadata (topics : List (String × ℕ × ℕ)) (queues : List String)
  | topicCreated (name : String)
  | topicDeleted (name : Value) (deleted : Bool)
  | groups (ids : List String)
  | joined (groupId consumerId : String) (assignedPartitions : List String)
  | left
  | offsets (offsets : Dict String ℤ)
  | alive
  | queueCreated (name : String)
  | queue (answer : QueueAnswer)
  | snapshot (snapshot : BrokerSnapshot)

/-- What `_send_response` is given besides the frame. -/
abbrev Reply := ErrorCode × Answer

structure Circumstances where
  now : Timestamp
  /-- The clock reading of a dequeue's requeue step. -/
  requeueAt : Timestamp
  message : MessageRef
  messageId : String
  consumer : ConsumerRef
  consumerUuid : String
  others : Broker × Queues → Broker × Queues := id

/-- What is around the handlers: the language's own functions, the pipeline, and
what the requests find. -/
structure Server (σ : Type) where
  /-- `json.loads` of the text with these bytes. -/
  loads : List UInt8 → Except Raised Value
  /-- The bytes of a response's JSON text. -/
  dumps : ErrorCode → Answer → List UInt8
  repr : Value → String
  /-- `str(e)` of an error that the program does not make itself. -/
  describe : Raised → String
  encoding : Encoding
  pipeline : List (Process σ)
  circumstances : ℕ → Circumstances

structure Session (σ : Type) where
  broker : Broker
  queues : Queues
  middleware : σ
  consumer : Option ConsumerRef := none
  sent : List Frame := []
  served : ℕ := 0

/-- What came of a request: the responses asked for, and what left the handler. -/
structure Handled (σ : Type) where
  session : Session σ
  replies : List Reply := []
  escaped : Option Escape := none

namespace Session

section Handlers

variable {σ : Type} (server : Server σ) (at_ : Circumstances) (s : Session σ)

def sendResponse (errorCode : ErrorCode) (data : Answer) : Handled σ :=
  { session := s, replies := [(errorCode, data)] }

def sendError (errorCode : ErrorCode) (message : String) : Handled σ :=
  s.sendResponse errorCode (.error message)

def escape (raised : Raised) : Handled σ := { session := s, escaped := some (.raised raised) }

def untyped (field : String) : Handled σ := { session := s, escaped := some (.untyped field) }

/-- The `except ValueError` of a handler. -/
def caught (errorCode : ErrorCode) (raised : Raised) : Handled σ :=
  match raised with
  | .valueError e => s.sendError errorCode (e.text fun text => server.repr (.str text))
  | raised =>
      if raised.isValueError then s.sendError errorCode (server.describe raised) else s.escape raised

/-- The broker with the message object that `PRODUCE` makes. -/
def withProduced (topic : String) (value : List UInt8) (key : Option String)
    (headers : Dict String String) : Broker :=
  let msg : Message := { topic, value, key, headers, id := at_.messageId, timestamp := at_.now }
  s.broker.withMessages (Function.update s.broker.messages at_.message msg)

def handleProduce (topic : String) (value : List UInt8) (key : Option String)
    (headers : Dict String String) : Handled σ :=
  match (s.withProduced at_ topic value key headers).publishThrough server.encoding at_.now server.pipeline
      s.middleware at_.message with
  | (.ok metadata, middleware, broker) =>
      { s with broker, middleware }.sendResponse .none (.produced metadata)
  | (.error raised, middleware, broker) => { s with broker, middleware }.caught server .unknownTopic raised

/-- `dict.get(key)` of a dict whose keys are strings. -/
def lookup {α : Type} (d : Dict String α) : Value → Option α
  | .str name => d.get? name
  | _ => none

def handleFetch (topicName partitionId offset maxMessages : Value) : Handled σ :=
  match lookup s.broker.topics topicName with
  | none => s.sendError .unknownTopic s!"Topic {server.repr topicName} not found"
  | some topic =>
      match topic.fetch server.repr s.broker.toStore partitionId offset maxMessages with
      | .ok messages => s.sendResponse .none (.messages (messages.map s.broker.messages))
      | .error raised => s.caught server .unknownPartition raised

def handleMetadata : Handled σ :=
  let topicInfo := s.broker.topics.entries.map fun e =>
    (e.1, e.2.partitions.length, e.2.totalMessages s.broker.toStore)
  s.sendResponse .none (.metadata topicInfo s.queues.listQueues)

/-- Before the topic is registered its partitions are made for a `range`, which
only an integer has. -/
def handleCreateTopics (name : String) (partitions : Value) : Handled σ :=
  match s.broker.createTopic name (some { numPartitions := partitions.integer.getD 0 }) with
  | (.error raised, broker) => { s with broker }.caught server .topicAlreadyExists raised
  | (.ok _, broker) =>
      if partitions.integer.isSome then { s with broker }.sendResponse .none (.topicCreated name)
      else s.escape
        (.typeError s!"'{partitions.typeName}' object cannot be interpreted as an integer")

def handleDeleteTopics (name : Value) : Handled σ :=
  match name with
  | .str topic =>
      let done := s.broker.deleteTopic topic
      { s with broker := done.2 }.sendResponse .none (.topicDeleted name done.1)
  | _ => s.sendResponse .none (.topicDeleted name false)

def handleListGroups : Handled σ := s.sendResponse .none (.groups s.broker.consumerGroups.keys)

/-- `consumer_id or str(uuid.uuid4())[:12]`. -/
def newConsumer (consumerId : Option String) : Consumer where
  consumerId := match consumerId with
    | some id => if id = "" then at_.consumerUuid else id
    | none => at_.consumerUuid
  lastPoll := at_.now
  lastCommit := at_.now

def handleJoinGroup (groupId topic : String) (consumerId : Option String) : Handled σ :=
  let c := at_.consumer
  let b := s.broker.withObjects (s.broker.modifyConsumer c fun _ => newConsumer at_ consumerId)
  match b.subscribe groupId topic c with
  | (.ok _, broker) =>
      let assigned := (broker.consumers c).assignedPartitions.map fun p => (broker.partitions p).label
      { s with broker, consumer := some c }.sendResponse .none
        (.joined groupId (broker.idOf c) assigned)
  | (.error raised, broker) => { s with broker }.caught server .groupNotFound raised

def handleLeaveGroup (groupId : Value) : Handled σ :=
  match lookup s.broker.consumerGroups groupId, s.consumer with
  | some G, some c =>
      { s with broker := (s.broker.leave G (s.broker.idOf c)).2, consumer := none }.sendResponse
        .none .left
  | _, _ => s.sendResponse .none .left

def handleOffsetCommit : Handled σ :=
  match s.consumer with
  | some c =>
      let committed := ((s.broker.consumers c).commit at_.now s.broker.toStore).1
      let broker := s.broker.withObjects (s.broker.toObjects.commit c at_.now)
      { s with broker }.sendResponse .none (.offsets committed.labelled)
  | none => s.sendError .groupNotFound "Not in a group"

def handleOffsetFetch : Handled σ :=
  match s.consumer with
  | some c =>
      let consumer := s.broker.consumers c
      let offsets := consumer.assignedPartitions.foldl (fun (offsets : Dict String ℤ) p =>
        let partition := s.broker.partitions p
        offsets.set partition.label (consumer.position partition.key)) .empty
      s.sendResponse .none (.offsets offsets)
  | none => s.sendError .groupNotFound "Not in a group"

def handleHeartbeat : Handled σ := s.sendResponse .none .alive

def handleCreateQueue (name : String) (maxSize : Value) (priority : Bool) : Handled σ :=
  match s.queues.createQueue name (maxSize.integer.getD 0) 30 priority with
  | (.error raised, queues) => { s with queues }.caught server .invalidRequest raised
  | (.ok _, queues) =>
      if maxSize.integer.isSome then { s with queues }.sendResponse .none (.queueCreated name)
      else s.untyped "max_size"

/-- The response of a queue's handler. -/
def sendQueueReply (done : QueueReply × Queues) : Handled σ :=
  { s with queues := done.2 }.sendResponse done.1.1 (.queue done.1.2)

/-- A message that is refused is not kept, whatever its fields are. -/
def handleEnqueue (queueName : Value) (value : List UInt8) (key priority : Value) : Handled σ :=
  match queueName with
  | .str queue =>
      match QueueHandlers.handleEnqueue (fun text => server.repr (.str text)) at_.now s.queues
          { queue, value, key := key.text, priority := priority.integer.getD 0 } at_.message
          at_.messageId with
      | (.ok (errorCode, answer), queues) =>
          if errorCode = .none ∧ ¬ (key.isKey ∧ priority.integer.isSome) then
            s.untyped "key, priority"
          else s.sendQueueReply ((errorCode, answer), queues)
      | (.error raised, queues) => { s with queues }.escape raised
  | _ => s.sendError .queueNotFound s!"Queue {server.repr queueName} does not exist"

def handleDequeue (queueName : Value) : Handled σ :=
  match queueName with
  | .str queue => s.sendQueueReply
      (QueueHandlers.handleDequeue (fun text => server.repr (.str text)) at_.requeueAt at_.now s.queues queue)
  | _ => s.sendError .queueNotFound s!"Queue {server.repr queueName} not found"

def handleAck (queueName messageId : Value) : Handled σ :=
  match queueName with
  | .str queue =>
      match messageId with
      | .str id => s.sendQueueReply (QueueHandlers.handleAck s.queues queue id)
      | id =>
          if (s.queues.getQueue queue).any PointToPointQueue.isTrue then
            if id.hashable then s.sendResponse .none (.queue (.acknowledged false))
            else s.escape (.typeError s!"unhashable type: '{id.typeName}'")
          else s.sendError .queueNotFound "Queue not found"
  | _ => s.sendError .queueNotFound "Queue not found"

def handleMetrics : Handled σ :=
  match s.broker.snapshot server.encoding s.queues with
  | some snapshot => s.sendResponse .none (.snapshot snapshot)
  | none => s.escape .unicodeEncodeError

/-- The handler of the request. -/
def handle : ServerRequest → Handled σ
  | .missing text => s.sendError .invalidRequest text
  | .produce topic value key headers => s.handleProduce server at_ topic value key headers
  | .fetch topic partition offset maxMessages => s.handleFetch server topic partition offset maxMessages
  | .metadata => s.handleMetadata
  | .createTopics name partitions => s.handleCreateTopics server name partitions
  | .deleteTopics name => s.handleDeleteTopics name
  | .listGroups => s.handleListGroups
  | .joinGroup groupId topic consumerId => s.handleJoinGroup server at_ groupId topic consumerId
  | .leaveGroup groupId => s.handleLeaveGroup groupId
  | .offsetCommit => s.handleOffsetCommit at_
  | .offsetFetch => s.handleOffsetFetch
  | .heartbeat => s.handleHeartbeat
  | .createQueue name maxSize priority => s.handleCreateQueue server name maxSize priority
  | .enqueue queue value key priority => s.handleEnqueue server at_ queue value key priority
  | .dequeue queue => s.handleDequeue server at_ queue
  | .ack queue messageId => s.handleAck queue messageId
  | .metrics => s.handleMetrics server
  | .unknown apiKey => s.sendError .invalidRequest s!"Unknown API key: {apiKey.value}"

end Handlers

section Dispatch

variable {σ : Type} (server : Server σ)

/-- The session when a request's handler begins. -/
def meet (at_ : Circumstances) (s : Session σ) : Session σ :=
  let others := at_.others (s.broker, s.queues)
  { s with broker := others.1, queues := others.2, served := s.served + 1 }

/-- `_dispatch`, up to the sending. -/
def respond (at_ : Circumstances) (s : Session σ) (frame : Frame) : Handled σ :=
  match if frame.payload = [] then .ok (.dict []) else server.loads frame.payload with
  | .error raised =>
      if raised = .jsonDecodeError ∨ raised = .unicodeDecodeError then
        s.sendError .invalidRequest "Invalid payload"
      else s.escape raised
  | .ok payload =>
      match requestOf server.encoding.encode payload frame.apiKey with
      | .error escaped => { session := s, escaped := some escaped }
      | .ok request => s.handle server at_ request

/-- `Response.to_frame`. -/
def responseFrame (requestFrame : Frame) (reply : Reply) : Frame where
  apiKey := requestFrame.apiKey
  apiVersion := 1
  correlationId := requestFrame.correlationId
  payload := server.dumps reply.1 reply.2

/-- The calls of `_send_response`, on a socket that accepts writes. -/
def send (requestFrame : Frame) : List Reply → Session σ → Session σ × Option Escape
  | [], s => (s, none)
  | reply :: rest, s =>
      let response := responseFrame server requestFrame reply
      match response.toBytes with
      | .error raised => (s, some (.raised raised))
      | .ok _ => send requestFrame rest { s with sent := s.sent ++ [response] }

def dispatch (s : Session σ) (frame : Frame) : Session σ × Option Escape :=
  let at_ := server.circumstances s.served
  let done := respond server at_ (s.meet at_) frame
  match send server frame done.replies done.session with
  | (s, some escaped) => (s, some escaped)
  | (s, none) => (s, done.escaped)

end Dispatch

end Session

end BrokerLite
