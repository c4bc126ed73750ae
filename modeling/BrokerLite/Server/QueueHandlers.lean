/-
# Server.QueueHandlers -- queue requests over the wire

The handlers of `ENQUEUE`, `DEQUEUE` and `ACK`, for payloads of the types the
client sends.  `DEQUEUE` and `ACK` ask whether the broker has the queue by the
truth value of the queue object, and a queue has a length: the answer depends on
how many messages are ready.

`run_agrees_iff` compares each handler with the queue's own operation, over runs of
requests.
-/
import BrokerLite.Theory.Run
import BrokerLite.Broker.Queues
import BrokerLite.Wire.Protocol

namespace BrokerLite

open Theory

set_option autoImplicit false

/-- The data of a response to a queue request. -/
inductive QueueAnswer where
  | error (text : String)
  | enqueued
  | message (m : Option Message)
  | acknowledged (acked : Bool)
  deriving DecidableEq

/-- What `_send_response` is given besides the frame. -/
abbrev QueueReply := ErrorCode × QueueAnswer

/-- `bool(queue)`: an object with a length is true when it is not empty. -/
def PointToPointQueue.isTrue (q : PointToPointQueue) : Bool := 0 < q.depth

namespace QueueHandlers

variable (repr : String → String)

/-- The fields of an `ENQUEUE` payload. -/
structure EnqueueRequest where
  queue : String := ""
  value : List UInt8 := []
  key : Option String := none
  priority : ℤ := 0

/-- `m` is the reference of the new message object, `id` its new id.  Only a
`ValueError` is answered. -/
def handleEnqueue (now : Timestamp) (b : Queues) (data : EnqueueRequest) (m : MessageRef) (id : String) :
    Except Raised QueueReply × Queues :=
  let msg : Message :=
    { topic := data.queue, value := data.value, key := data.key, priority := data.priority, id,
      timestamp := now }
  let b := { b with messages := Function.update b.messages m msg }
  match b.enqueue now data.queue m with
  | (.ok (), b) => (.ok (.none, .enqueued), b)
  | (.error (.valueError e), b) => (.ok (.queueNotFound, .error (e.text repr)), b)
  | (.error raised, b) => (.error raised, b)

def handleDequeue (requeueAt now : Timestamp) (b : Queues) (queueName : String) : QueueReply × Queues :=
  match b.getQueue queueName with
  | none => ((.queueNotFound, .error s!"Queue {repr queueName} not found"), b)
  | some q =>
      if !q.isTrue then ((.queueNotFound, .error s!"Queue {repr queueName} not found"), b)
      else
        let done := q.dequeue b.messages requeueAt now none
        ((.none, .message (done.1.map b.messages)), b.setQueue queueName done.2)

def handleAck (b : Queues) (queueName messageId : String) : QueueReply × Queues :=
  match b.getQueue queueName with
  | none => ((.queueNotFound, .error "Queue not found"), b)
  | some q =>
      if q.isTrue then
        let done := q.acknowledge messageId
        ((.none, .acknowledged done.1), b.setQueue queueName done.2)
      else ((.queueNotFound, .error "Queue not found"), b)

/-! ## The queue's own operations -/

variable (b : Queues) (queueName : String)

/-- `DEQUEUE` answers `QUEUE_NOT_FOUND` when there is no such queue, and otherwise
does what the queue's `dequeue` does and answers with its result. -/
def DequeueAgrees (requeueAt now : Timestamp) : Prop :=
  match b.getQueue queueName with
  | none => (handleDequeue repr requeueAt now b queueName).1.1 = .queueNotFound ∧
      (handleDequeue repr requeueAt now b queueName).2 = b
  | some q => handleDequeue repr requeueAt now b queueName =
      let done := q.dequeue b.messages requeueAt now none
      ((.none, .message (done.1.map b.messages)), b.setQueue queueName done.2)

def AckAgrees (messageId : String) : Prop :=
  match b.getQueue queueName with
  | none => (handleAck b queueName messageId).1.1 = .queueNotFound ∧
      (handleAck b queueName messageId).2 = b
  | some q => handleAck b queueName messageId =
      let done := q.acknowledge messageId
      ((.none, .acknowledged done.1), b.setQueue queueName done.2)

/-- `ENQUEUE` answers `QUEUE_NOT_FOUND` only when there is no such queue. -/
def EnqueueAgrees (now : Timestamp) (data : EnqueueRequest) (m : MessageRef) (id : String) : Prop :=
  ∀ answer, (handleEnqueue repr now b data m id).1 = .ok (.queueNotFound, answer) →
    b.getQueue data.queue = none

variable {repr b queueName}

theorem isTrue_iff {q : PointToPointQueue} : q.isTrue = true ↔ q.ready ≠ [] := by
  rw [PointToPointQueue.isTrue, decide_eq_true_eq, q.depth_eq_length_ready, List.length_pos_iff]

theorem dequeueAgrees_iff {requeueAt now : Timestamp} :
    DequeueAgrees repr b queueName requeueAt now ↔ ∀ q ∈ b.getQueue queueName, q.ready ≠ [] := by
  unfold DequeueAgrees handleDequeue
  cases found : b.getQueue queueName with
  | none => simp
  | some q =>
      by_cases ready : q.isTrue = true
      · simp [ready, ← isTrue_iff]
      · simp [ready, ← isTrue_iff]

theorem ackAgrees_iff {messageId : String} :
    AckAgrees b queueName messageId ↔ ∀ q ∈ b.getQueue queueName, q.ready ≠ [] := by
  unfold AckAgrees handleAck
  cases found : b.getQueue queueName with
  | none => simp
  | some q =>
      by_cases ready : q.isTrue = true
      · simp [ready, ← isTrue_iff]
      · simp [ready, ← isTrue_iff]

/-- `ENQUEUE` is refused with `QUEUE_NOT_FOUND`, or the message is in the queue. -/
theorem handleEnqueue_cases (repr : String → String) (now : Timestamp) (b : Queues)
    (data : EnqueueRequest) (m : MessageRef) (id : String) :
    ((∀ q ∈ b.getQueue data.queue, q.isFull = true) ∧ ∃ text after,
      handleEnqueue repr now b data m id = (.ok (.queueNotFound, .error text), after)) ∨
    (∃ q ∈ b.getQueue data.queue, q.isFull = false) ∧ ∃ after,
      handleEnqueue repr now b data m id = (.ok (.none, .enqueued), after) := by
  unfold handleEnqueue
  dsimp only
  generalize Function.update b.messages m _ = messages
  cases found : b.getQueue data.queue with
  | none =>
      have same : Queues.getQueue { b with messages } data.queue = none := found
      left
      simp [Queues.enqueue, same]
  | some q =>
      have same : Queues.getQueue { b with messages } data.queue = some q := found
      cases full : q.isFull with
      | true =>
          obtain ⟨error, refused⟩ := q.enqueue_of_full messages now m full
          left
          simp [Queues.enqueue, same, refused, full]
      | false =>
          obtain ⟨done, entered⟩ := q.enqueue_of_room messages now m full
          right
          simp [Queues.enqueue, same, entered, full]

theorem enqueueAgrees_iff {now : Timestamp} {data : EnqueueRequest} {m : MessageRef} {id : String} :
    EnqueueAgrees repr b now data m id ↔ ∀ q ∈ b.getQueue data.queue, q.isFull = false := by
  unfold EnqueueAgrees
  rcases handleEnqueue_cases repr now b data m id with
    ⟨full, text, after, refused⟩ | ⟨⟨q, found, room⟩, after, entered⟩
  · rw [refused]
    cases found : b.getQueue data.queue with
    | none => simp
    | some q =>
        have full : q.isFull = true := full q found
        simp [full]
  · rw [entered]
    have found : b.getQueue data.queue = some q := found
    simp [found, room]

/-! ## Runs of requests -/

/-- A request on the broker's queues, with the clock and the object that a new
message gets; `between` is whatever else happens to them in the meantime. -/
inductive QueueRequest where
  | createQueue (name : String) (maxSize : ℤ) (priority : Bool)
  | enqueue (now : Timestamp) (data : EnqueueRequest) (m : MessageRef) (id : String)
  | dequeue (requeueAt now : Timestamp) (queueName : String)
  | ack (queueName messageId : String)
  | between (change : Queues → Queues)

/-- The handler of the request. -/
def serve (repr : String → String) (b : Queues) : QueueRequest → Queues
  | .createQueue name maxSize priority => (b.createQueue name maxSize 30 priority).2
  | .enqueue now data m id => (handleEnqueue repr now b data m id).2
  | .dequeue requeueAt now queueName => (handleDequeue repr requeueAt now b queueName).2
  | .ack queueName messageId => (handleAck b queueName messageId).2
  | .between change => change b

/-- The request is answered as the queue answers it. -/
def Agrees (repr : String → String) (b : Queues) : QueueRequest → Prop
  | .enqueue now data m id => EnqueueAgrees repr b now data m id
  | .dequeue requeueAt now queueName => DequeueAgrees repr b queueName requeueAt now
  | .ack queueName messageId => AckAgrees b queueName messageId
  | .createQueue _ _ _ | .between _ => True

/-- No queue has that name, or it has a message ready (`DEQUEUE` and `ACK`), or it
has room (`ENQUEUE`). -/
def Found (b : Queues) : QueueRequest → Prop
  | .enqueue _ data _ _ => ∀ q ∈ b.getQueue data.queue, q.isFull = false
  | .dequeue _ _ queueName | .ack queueName _ => ∀ q ∈ b.getQueue queueName, q.ready ≠ []
  | .createQueue _ _ _ | .between _ => True

theorem agrees_iff {request : QueueRequest} : Agrees repr b request ↔ Found b request := by
  cases request with
  | enqueue now data m id => exact enqueueAgrees_iff
  | dequeue requeueAt now queueName => exact dequeueAgrees_iff
  | ack queueName messageId => exact ackAgrees_iff
  | createQueue name maxSize priority => exact Iff.rfl
  | between change => exact Iff.rfl

/-- **When queue requests agree with the queue.**  A run of requests is answered as
the queues answer it exactly when every request of it finds its queue. -/
theorem run_agrees_iff (repr : String → String) (b : Queues) (requests : List QueueRequest) :
    Guarded (serve repr) (Agrees repr) b requests ↔ Guarded (serve repr) Found b requests :=
  guarded_congr (fun _ _ => agrees_iff) b requests

/-! ## A queue whose only message is in flight -/

/-- Message 0 is enqueued over the wire and dequeued over the wire. -/
def inFlightQueues : Queues :=
  run (serve id) { messages := fun _ => { topic := "", value := [], id := "" } }
    [.createQueue "q" 1 false, .enqueue 0 { queue := "q" } 0 "m", .dequeue 0 0 "q"]

/-- `ACK` does not find the queue, and the message stays in flight; `DEQUEUE` does
not find it after the timeout either, and the message is not put back; and with a
second message ready, `ENQUEUE` does not find it because it is full. -/
theorem inFlight_requests_disagree :
    (handleAck inFlightQueues "q" "m").1 = (.queueNotFound, .error "Queue not found") ∧
      (inFlightQueues.getQueue "q").map (fun q => (q.acknowledge "m").1) = some true ∧
      ¬ Agrees id inFlightQueues (.ack "q" "m") ∧ ¬ Agrees id inFlightQueues (.dequeue 100 100 "q") ∧
      ¬ Agrees id (serve id inFlightQueues (.enqueue 0 { queue := "q" } 1 "n"))
        (.enqueue 0 { queue := "q" } 2 "o") := by
  refine ⟨by decide +kernel, by decide +kernel, fun agrees => ?_, fun agrees => ?_, fun agrees => ?_⟩
  · exact agrees_iff.mp agrees _ rfl (by decide +kernel)
  · exact agrees_iff.mp agrees _ rfl (by decide +kernel)
  · exact absurd (agrees_iff.mp agrees _ rfl) (by decide +kernel)

end QueueHandlers

end BrokerLite
