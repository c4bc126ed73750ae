/-
# Queue.PointToPoint -- either queue, and what its operations do to what it holds

A point-to-point queue of the broker is a `MessageQueue` or a `PriorityQueue`,
and callers use the methods that both have.  `purge` is a method of
`MessageQueue` only.

The `_spec` lemmas state for either queue what an operation answers and which
operation of `Visibility` it is; nothing below them looks at the two classes.
-/
import BrokerLite.Queue.PriorityQueue

namespace BrokerLite

open Theory

set_option autoImplicit false

inductive PointToPointQueue where
  | fifo (q : MessageQueue)
  | priority (q : PriorityQueue)

namespace PointToPointQueue

variable (messages : MessageTable)

/-- The messages available for consumption. -/
def ready : PointToPointQueue → List MessageRef
  | .fifo q => q.queue
  | .priority q => q.heap.entries.map HeapEntry.message

def inFlight : PointToPointQueue → Dict String (MessageRef × Timestamp)
  | .fifo q => q.inFlight
  | .priority q => q.inFlight

def visibilityTimeout : PointToPointQueue → Timestamp
  | .fifo q => q.visibilityTimeout
  | .priority q => q.visibilityTimeout

def totalEnqueued : PointToPointQueue → ℕ
  | .fifo q => q.totalEnqueued
  | .priority q => q.totalEnqueued

/-- `total_acked`, which a priority queue does not count. -/
def totalAcked : PointToPointQueue → Option ℕ
  | .fifo q => some q.totalAcked
  | .priority _ => none

def enqueue (now : Timestamp) : PointToPointQueue → MessageRef →
    Except Raised (MessageTable × PointToPointQueue)
  | .fifo q, m => (q.enqueue messages now m).map (Prod.map id fifo)
  | .priority q, m => (q.enqueue messages now m).map (Prod.map id priority)

def pop (now : Timestamp) : PointToPointQueue → Option Timestamp →
    Option MessageRef × PointToPointQueue
  | .fifo q, timeout => (q.pop messages now timeout).map id fifo
  | .priority q, timeout => (q.pop messages now timeout).map id priority

def acknowledge : PointToPointQueue → String → Bool × PointToPointQueue
  | .fifo q, messageId => (q.acknowledge messageId).map id fifo
  | .priority q, messageId => (q.acknowledge messageId).map id priority

def nack : PointToPointQueue → String → Bool × PointToPointQueue
  | .fifo q, messageId => (q.nack messageId).map id fifo
  | .priority q, messageId => (q.nack messages messageId).map id priority

def requeueTimedOut (now : Timestamp) : PointToPointQueue → ℕ × PointToPointQueue
  | .fifo q => (q.requeueTimedOut now).map id fifo
  | .priority q => (q.requeueTimedOut messages now).map id priority

def dequeue (requeueAt now : Timestamp) : PointToPointQueue → Option Timestamp →
    Option MessageRef × PointToPointQueue
  | .fifo q, timeout => (q.dequeue messages requeueAt now timeout).map id fifo
  | .priority q, timeout => (q.dequeue messages requeueAt now timeout).map id priority

/-- `purge`, if the queue has it. -/
def purge : PointToPointQueue → Option (ℕ × PointToPointQueue)
  | .fifo q => some (q.purge.map id fifo)
  | .priority _ => none

/-- The queue without its order. -/
def view (q : PointToPointQueue) : Visibility MessageRef String Timestamp := ⟨↑q.ready, q.inFlight⟩

/-- The two counters. -/
def counts (q : PointToPointQueue) : ℕ × Option ℕ := (q.totalEnqueued, q.totalAcked)

variable {messages} {q : PointToPointQueue}

theorem enqueue_spec {now : Timestamp} {m : MessageRef} {messages' : MessageTable}
    {q' : PointToPointQueue} (done : q.enqueue messages now m = .ok (messages', q')) :
    messages' = messages.stamped now m ∧ q'.view = q.view.enter m ∧
      q'.counts = (q.totalEnqueued + 1, q.totalAcked) := by
  cases q with
  | fifo q =>
      cases entered : q.enqueue messages now m with
      | error raised => simp [enqueue, entered, Except.map] at done
      | ok result =>
          obtain ⟨table, view, enqueued, acked⟩ := MessageQueue.enqueue_spec entered
          simp only [enqueue, entered, Except.map, Prod.map, id_eq, Except.ok.injEq,
            Prod.mk.injEq] at done
          obtain ⟨rfl, rfl⟩ := done
          exact ⟨table, view, by simp [counts, totalEnqueued, totalAcked, enqueued, acked]⟩
  | priority q =>
      cases entered : q.enqueue messages now m with
      | error raised => simp [enqueue, entered, Except.map] at done
      | ok result =>
          obtain ⟨table, view, enqueued⟩ := PriorityQueue.enqueue_spec entered
          simp only [enqueue, entered, Except.map, Prod.map, id_eq, Except.ok.injEq,
            Prod.mk.injEq] at done
          obtain ⟨rfl, rfl⟩ := done
          exact ⟨table, view, by simp [counts, totalEnqueued, totalAcked, enqueued]⟩

theorem pop_spec (messages : MessageTable) (now : Timestamp) (q : PointToPointQueue)
    (timeout : Option Timestamp) :
    (q.pop messages now timeout = (none, q) ∧ q.ready = []) ∨
    ∃ m, (q.pop messages now timeout).1 = some m ∧ m ∈ q.ready ∧
      (q.pop messages now timeout).2.view =
        q.view.deliver (fun m => (messages m).id) m (now + orDefault timeout q.visibilityTimeout) ∧
      (q.pop messages now timeout).2.counts = q.counts := by
  cases q with
  | fifo q =>
      rcases MessageQueue.pop_spec messages now q timeout with
        ⟨popped, empty⟩ | ⟨m, popped, ready, view, enqueued, acked⟩
      · exact .inl ⟨by simp [pop, popped], Multiset.coe_eq_zero _ |>.mp empty⟩
      · refine .inr ⟨m, by simp [pop, popped], ready, view, ?_⟩
        simp [counts, pop, totalEnqueued, totalAcked, enqueued, acked]
  | priority q =>
      rcases PriorityQueue.pop_spec messages now q timeout with
        ⟨popped, empty⟩ | ⟨m, popped, ready, view, enqueued⟩
      · exact .inl ⟨by simp [pop, popped], Multiset.coe_eq_zero _ |>.mp empty⟩
      · refine .inr ⟨m, by simp [pop, popped], ready, view, ?_⟩
        simp [counts, pop, totalEnqueued, totalAcked, enqueued]

theorem acknowledge_spec (q : PointToPointQueue) (id : String) :
    (q.acknowledge id).1 = q.inFlight.contains id ∧
      (q.acknowledge id).2.view = q.view.settle id ∧
      (q.acknowledge id).2.counts = (q.totalEnqueued,
        q.totalAcked.map (· + (q.inFlight.contains id).toNat)) := by
  cases q with
  | fifo q =>
      obtain ⟨answer, view, enqueued, acked⟩ := q.acknowledge_spec id
      exact ⟨answer, view, by simp [counts, acknowledge, totalEnqueued, totalAcked, enqueued, acked,
        inFlight]⟩
  | priority q =>
      obtain ⟨answer, view, enqueued⟩ := q.acknowledge_spec id
      exact ⟨answer, view, by simp [counts, acknowledge, totalEnqueued, totalAcked, enqueued]⟩

theorem nack_spec (messages : MessageTable) (q : PointToPointQueue) (id : String) :
    (q.nack messages id).1 = q.inFlight.contains id ∧
      (q.nack messages id).2.view = q.view.giveBack id ∧
      (q.nack messages id).2.counts = q.counts := by
  cases q with
  | fifo q =>
      obtain ⟨answer, view, enqueued, acked⟩ := q.nack_spec id
      exact ⟨answer, view, by simp [counts, nack, totalEnqueued, totalAcked, enqueued, acked]⟩
  | priority q =>
      obtain ⟨answer, view, enqueued⟩ := q.nack_spec messages id
      exact ⟨answer, view, by simp [counts, nack, totalEnqueued, totalAcked, enqueued]⟩

theorem requeueTimedOut_spec (messages : MessageTable) (now : Timestamp) (q : PointToPointQueue) :
    (q.requeueTimedOut messages now).2.view =
        q.view.giveBackAll (Visibility.expired now q.inFlight) ∧
      (q.requeueTimedOut messages now).2.counts = q.counts := by
  cases q with
  | fifo q =>
      obtain ⟨view, enqueued, acked⟩ :=
        MessageQueue.requeue_spec (Visibility.expired now q.inFlight) 0 q
      refine ⟨view, ?_⟩
      simp [counts, requeueTimedOut, MessageQueue.requeueTimedOut, totalEnqueued, totalAcked, enqueued,
        acked]
  | priority q =>
      obtain ⟨view, enqueued⟩ :=
        PriorityQueue.requeue_spec messages (Visibility.expired now q.inFlight) 0 q
      refine ⟨view, ?_⟩
      simp [counts, requeueTimedOut, PriorityQueue.requeueTimedOut, totalEnqueued, totalAcked, enqueued]

theorem purge_spec {removed : ℕ} {q' : PointToPointQueue} (done : q.purge = some (removed, q')) :
    removed = q.ready.length ∧ q'.view = q.view.discard ∧ q'.counts = q.counts := by
  cases q with
  | fifo q =>
      cases done
      exact ⟨rfl, rfl, rfl⟩
  | priority q => cases done

/-- `dequeue` is its requeue step and then its pop step. -/
theorem dequeue_eq (messages : MessageTable) (requeueAt now : Timestamp) (q : PointToPointQueue)
    (timeout : Option Timestamp) : q.dequeue messages requeueAt now timeout =
      (q.requeueTimedOut messages requeueAt).2.pop messages now timeout := by
  cases q <;> rfl

end PointToPointQueue

end BrokerLite
