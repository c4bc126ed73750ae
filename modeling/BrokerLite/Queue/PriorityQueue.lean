/-
# Queue.PriorityQueue -- the priority queue with visibility timeouts

`PriorityQueue` under the source's words.  Its heap holds the negated priority,
a sequence number and the message; every push takes the next sequence number, so
no two entries compare equal and the message itself is never compared.
-/
import BrokerLite.Queue.MessageQueue
import BrokerLite.Theory.Heap
import Mathlib.Data.Prod.Lex

namespace BrokerLite

open Theory

set_option autoImplicit false

structure HeapEntry where
  negPriority : ℤ
  sequence : ℕ
  message : MessageRef
  deriving DecidableEq

/-- What two entries are compared by. -/
def HeapEntry.rank (e : HeapEntry) : ℤ ×ₗ ℕ := toLex (e.negPriority, e.sequence)

structure PriorityQueue where
  name : String
  maxSize : ℤ := 0
  visibilityTimeout : Timestamp := 30
  heap : Heap HeapEntry HeapEntry.rank := .empty
  sequence : ℕ := 0
  inFlight : Dict String (MessageRef × Timestamp) := .empty
  totalEnqueued : ℕ := 0
  totalDequeued : ℕ := 0

namespace PriorityQueue

variable (messages : MessageTable)

def depth (q : PriorityQueue) : ℕ := q.heap.length

/-- `heappush` of a message under its priority and the next sequence number. -/
def push (q : PriorityQueue) (m : MessageRef) : PriorityQueue :=
  { q with
    heap := q.heap.push { negPriority := -(messages m).priority, sequence := q.sequence, message := m }
    sequence := q.sequence + 1 }

def enqueue (now : Timestamp) (q : PriorityQueue) (m : MessageRef) :
    Except Raised (MessageTable × PriorityQueue) :=
  if 0 < q.maxSize ∧ q.maxSize ≤ q.heap.length then
    .error (.valueError (.priorityQueueFull q.name q.maxSize))
  else
    let messages := messages.stamped now m
    .ok (messages, { q.push messages m with totalEnqueued := q.totalEnqueued + 1 })

/-- `dequeue` from its lock on. -/
def pop (now : Timestamp) (q : PriorityQueue) (visibilityTimeout : Option Timestamp) :
    Option MessageRef × PriorityQueue :=
  match q.heap.pop? with
  | none => (none, q)
  | some (entry, heap) =>
      let expiry := now + orDefault visibilityTimeout q.visibilityTimeout
      (some entry.message, { q with
        heap := heap
        inFlight := q.inFlight.set (messages entry.message).id (entry.message, expiry)
        totalDequeued := q.totalDequeued + 1 })

def acknowledge (q : PriorityQueue) (messageId : String) : Bool × PriorityQueue :=
  if q.inFlight.contains messageId then
    (true, { q with inFlight := q.inFlight.erase messageId })
  else (false, q)

def nack (q : PriorityQueue) (messageId : String) : Bool × PriorityQueue :=
  match q.inFlight.get? messageId with
  | none => (false, q)
  | some (msg, _) => (true, push messages { q with inFlight := q.inFlight.erase messageId } msg)

/-- The loop of `_requeue_timed_out`; the ids are keys of the map, so each lookup
finds its entry. -/
def requeue : List String → ℕ → PriorityQueue → ℕ × PriorityQueue
  | [], requeued, q => (requeued, q)
  | id :: rest, requeued, q =>
      match q.inFlight.get? id with
      | none => requeue rest requeued q
      | some (msg, _) =>
          requeue rest (requeued + 1) (push messages { q with inFlight := q.inFlight.erase id } msg)

def requeueTimedOut (now : Timestamp) (q : PriorityQueue) : ℕ × PriorityQueue :=
  requeue messages (Visibility.expired now q.inFlight) 0 q

/-- `dequeue` without other calls between its two steps. -/
def dequeue (requeueAt now : Timestamp) (q : PriorityQueue) (visibilityTimeout : Option Timestamp) :
    Option MessageRef × PriorityQueue :=
  pop messages now (q.requeueTimedOut messages requeueAt).2 visibilityTimeout

/-! ## Every operation on the view -/

/-- The queue without its order. -/
def view (q : PriorityQueue) : Visibility MessageRef String Timestamp :=
  ⟨↑(q.heap.entries.map HeapEntry.message), q.inFlight⟩

variable {messages} {q : PriorityQueue}

theorem push_view (messages : MessageTable) (q : PriorityQueue) (m : MessageRef) :
    (q.push messages m).view = q.view.enter m := by
  have pushed := (q.heap.push_perm
    { negPriority := -(messages m).priority, sequence := q.sequence, message := m }).map
      HeapEntry.message
  simp [view, push, Visibility.enter, Multiset.coe_eq_coe.mpr pushed]

theorem enqueue_spec {now : Timestamp} {m : MessageRef} {messages' : MessageTable}
    {q' : PriorityQueue} (done : q.enqueue messages now m = .ok (messages', q')) :
    messages' = messages.stamped now m ∧ q'.view = q.view.enter m ∧
      q'.totalEnqueued = q.totalEnqueued + 1 := by
  unfold enqueue at done
  split at done
  · cases done
  · cases done
    exact ⟨rfl, push_view _ q m, rfl⟩

theorem pop_spec (messages : MessageTable) (now : Timestamp) (q : PriorityQueue)
    (timeout : Option Timestamp) :
    (q.pop messages now timeout = (none, q) ∧ q.view.ready = 0) ∨
    ∃ m, (q.pop messages now timeout).1 = some m ∧ m ∈ q.view.ready ∧
      (q.pop messages now timeout).2.view =
        q.view.deliver (fun m => (messages m).id) m (now + orDefault timeout q.visibilityTimeout) ∧
      (q.pop messages now timeout).2.totalEnqueued = q.totalEnqueued := by
  unfold pop
  split
  · next empty => exact .inl ⟨rfl, by simp [view, Heap.pop?_eq_none empty]⟩
  · next entry heap popped =>
      have entries := (Heap.pop?_eq_some popped).1
      refine .inr ⟨entry.message, rfl, ?_, ?_, rfl⟩
      · simp [view, entries]
      · simp [view, Visibility.deliver, entries]

theorem acknowledge_spec (q : PriorityQueue) (id : String) :
    (q.acknowledge id).1 = q.inFlight.contains id ∧
      (q.acknowledge id).2.view = q.view.settle id ∧
      (q.acknowledge id).2.totalEnqueued = q.totalEnqueued := by
  unfold acknowledge
  split
  · next present => exact ⟨present.symm, rfl, rfl⟩
  · next absent =>
      have missing : id ∉ q.inFlight.keys := fun member => absent (Dict.contains_iff.mpr member)
      refine ⟨(Bool.eq_false_iff.mpr absent).symm, ?_, rfl⟩
      simp [view, Visibility.settle, Dict.erase_of_absent missing]

theorem nack_spec (messages : MessageTable) (q : PriorityQueue) (id : String) :
    (q.nack messages id).1 = q.inFlight.contains id ∧
      (q.nack messages id).2.view = q.view.giveBack id ∧
      (q.nack messages id).2.totalEnqueued = q.totalEnqueued := by
  unfold nack
  split
  · next absent =>
      exact ⟨by simp [Dict.contains, absent], (Visibility.giveBack_of_absent absent).symm, rfl⟩
  · next msg expiry found =>
      refine ⟨by simp [Dict.contains, found], ?_, rfl⟩
      rw [push_view]
      exact (Visibility.giveBack_of_found (v := q.view) found).symm

theorem requeue_spec (messages : MessageTable) (ids : List String) (requeued : ℕ) (q : PriorityQueue) :
    (requeue messages ids requeued q).2.view = q.view.giveBackAll ids ∧
      (requeue messages ids requeued q).2.totalEnqueued = q.totalEnqueued := by
  induction ids generalizing requeued q with
  | nil => exact ⟨rfl, rfl⟩
  | cons id rest ih =>
      rw [requeue, Visibility.giveBackAll, List.foldl_cons]
      split
      · next absent =>
          rw [Visibility.giveBack_of_absent (v := q.view) absent]
          exact ih requeued q
      · next msg expiry found =>
          obtain ⟨later, count⟩ := ih (requeued + 1)
            (push messages { q with inFlight := q.inFlight.erase id } msg)
          rw [push_view] at later
          rw [Visibility.giveBack_of_found (v := q.view) found]
          exact ⟨later, count⟩

end PriorityQueue

end BrokerLite
