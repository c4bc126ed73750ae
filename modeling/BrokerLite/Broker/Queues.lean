/-
# Broker.Queues -- the broker's point-to-point queues

The broker keeps its two kinds of queue in two dictionaries; `create_queue` sees
to it that no name is in both.  A queue is an object that callers hold, so an
operation on it is seen under its name: `setQueue` writes it back.
-/
import BrokerLite.Queue.PointToPoint

namespace BrokerLite

open Theory

set_option autoImplicit false

structure Queues where
  maxQueues : ℤ := 0
  queues : Dict String MessageQueue := .empty
  priorityQueues : Dict String PriorityQueue := .empty
  messages : MessageTable
  totalMessagesIn : ℕ := 0

namespace Queues

def createQueue (b : Queues) (name : String) (maxSize : ℤ) (visibilityTimeout : Timestamp)
    (priority : Bool) : Except Raised PointToPointQueue × Queues :=
  if b.queues.contains name ∨ b.priorityQueues.contains name then
    (.error (.valueError (.queueExists name)), b)
  else if 0 < b.maxQueues ∧ b.maxQueues ≤ b.queues.length + b.priorityQueues.length then
    (.error (.valueError (.maximumQueues b.maxQueues)), b)
  else if priority then
    let q : PriorityQueue := { name, maxSize, visibilityTimeout }
    (.ok (.priority q), { b with priorityQueues := b.priorityQueues.set name q })
  else
    let q : MessageQueue := { name, maxSize, visibilityTimeout }
    (.ok (.fifo q), { b with queues := b.queues.set name q })

def deleteQueue (b : Queues) (name : String) : Bool × Queues :=
  if b.queues.contains name then (true, { b with queues := b.queues.erase name })
  else if b.priorityQueues.contains name then
    (true, { b with priorityQueues := b.priorityQueues.erase name })
  else (false, b)

def getQueue (b : Queues) (name : String) : Option PointToPointQueue :=
  match b.queues.get? name with
  | some q => some (.fifo q)
  | none => (b.priorityQueues.get? name).map .priority

def listQueues (b : Queues) : List String := b.queues.keys ++ b.priorityQueues.keys

/-- The queue object of that name has changed. -/
def setQueue (b : Queues) (name : String) : PointToPointQueue → Queues
  | .fifo q => { b with queues := b.queues.set name q }
  | .priority q => { b with priorityQueues := b.priorityQueues.set name q }

def enqueue (now : Timestamp) (b : Queues) (name : String) (m : MessageRef) : Except Raised Unit × Queues :=
  match b.getQueue name with
  | none => (.error (.valueError (.noSuchQueue name)), b)
  | some q =>
      match q.enqueue b.messages now m with
      | .error raised => (.error raised, b)
      | .ok (messages, q) =>
          (.ok (), { b.setQueue name q with messages, totalMessagesIn := b.totalMessagesIn + 1 })

end Queues

namespace PointToPointQueue

/-- `len(queue)`: the messages that are ready. -/
def depth : PointToPointQueue → ℕ
  | .fifo q => q.depth
  | .priority q => q.depth

def maxSize : PointToPointQueue → ℤ
  | .fifo q => q.maxSize
  | .priority q => q.maxSize

def isFull (q : PointToPointQueue) : Bool := 0 < q.maxSize ∧ q.maxSize ≤ q.depth

theorem depth_eq_length_ready (q : PointToPointQueue) : q.depth = q.ready.length := by
  cases q with
  | fifo q => rfl
  | priority q => exact (List.length_map _).symm

section Enqueue

variable (messages : MessageTable) (now : Timestamp) {q : PointToPointQueue} (m : MessageRef)

/-- A full queue refuses a message, and only a full one. -/
theorem enqueue_of_full (full : q.isFull = true) :
    ∃ error, q.enqueue messages now m = .error (.valueError error) := by
  cases q with
  | fifo q =>
      have full : 0 < q.maxSize ∧ q.maxSize ≤ q.queue.length := of_decide_eq_true full
      exact ⟨_, by rw [enqueue, MessageQueue.enqueue, if_pos full]; rfl⟩
  | priority q =>
      have full : 0 < q.maxSize ∧ q.maxSize ≤ q.heap.length := of_decide_eq_true full
      exact ⟨_, by rw [enqueue, PriorityQueue.enqueue, if_pos full]; rfl⟩

theorem enqueue_of_room (room : q.isFull = false) :
    ∃ done, q.enqueue messages now m = .ok done := by
  cases q with
  | fifo q =>
      have room : ¬ (0 < q.maxSize ∧ q.maxSize ≤ q.queue.length) := of_decide_eq_false room
      exact ⟨_, by rw [enqueue, MessageQueue.enqueue, if_neg room]; rfl⟩
  | priority q =>
      have room : ¬ (0 < q.maxSize ∧ q.maxSize ≤ q.heap.length) := of_decide_eq_false room
      exact ⟨_, by rw [enqueue, PriorityQueue.enqueue, if_neg room]; rfl⟩

end Enqueue

end PointToPointQueue

end BrokerLite
