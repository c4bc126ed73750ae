/-
# Queue.MessageQueue -- the first-in first-out queue with visibility timeouts

`MessageQueue` under the source's words, one definition for each method.
`dequeue` is its requeue step and its pop step; the two take the lock separately,
so other calls may come in between.  The `view` forgets the order of the ready
messages: on it every operation is the one of `Visibility`.
-/
import BrokerLite.Store.Message
import BrokerLite.Theory.Visibility
import Mathlib.Logic.Function.Basic

namespace BrokerLite

open Theory

set_option autoImplicit false

/-- The table after `broker_timestamp` of `m` was set. -/
def MessageTable.stamped (messages : MessageTable) (now : Timestamp) (m : MessageRef) : MessageTable :=
  Function.update messages m { messages m with brokerTimestamp := now }

theorem MessageTable.stamped_eq {β : Type} (field : Message → β)
    (kept : ∀ m now, field { m with brokerTimestamp := now } = field m) (messages : MessageTable)
    (now : Timestamp) (m n : MessageRef) : field (messages.stamped now m n) = field (messages n) := by
  by_cases same : n = m
  · subst same
    simp [stamped, kept]
  · simp [stamped, same]

@[simp] theorem MessageTable.stamped_id (messages : MessageTable) (now : Timestamp) (m n : MessageRef) :
    (messages.stamped now m n).id = (messages n).id :=
  stamped_eq Message.id (fun _ _ => rfl) messages now m n

structure MessageQueue where
  name : String
  maxSize : ℤ := 0
  visibilityTimeout : Timestamp := 30
  queue : List MessageRef := []
  inFlight : Dict String (MessageRef × Timestamp) := .empty
  totalEnqueued : ℕ := 0
  totalDequeued : ℕ := 0
  totalAcked : ℕ := 0

namespace MessageQueue

variable (messages : MessageTable)

def depth (q : MessageQueue) : ℕ := q.queue.length

def inFlightCount (q : MessageQueue) : ℕ := q.inFlight.length

def enqueue (now : Timestamp) (q : MessageQueue) (m : MessageRef) :
    Except Raised (MessageTable × MessageQueue) :=
  if 0 < q.maxSize ∧ q.maxSize ≤ q.queue.length then
    .error (.valueError (.queueFull q.name q.maxSize))
  else .ok (messages.stamped now m,
    { q with queue := q.queue ++ [m], totalEnqueued := q.totalEnqueued + 1 })

/-- `dequeue` from its lock on. -/
def pop (now : Timestamp) (q : MessageQueue) (visibilityTimeout : Option Timestamp) :
    Option MessageRef × MessageQueue :=
  match q.queue with
  | [] => (none, q)
  | m :: rest =>
      let expiry := now + orDefault visibilityTimeout q.visibilityTimeout
      (some m, { q with
        queue := rest, inFlight := q.inFlight.set (messages m).id (m, expiry),
        totalDequeued := q.totalDequeued + 1 })

def acknowledge (q : MessageQueue) (messageId : String) : Bool × MessageQueue :=
  if q.inFlight.contains messageId then
    (true, { q with inFlight := q.inFlight.erase messageId, totalAcked := q.totalAcked + 1 })
  else (false, q)

def nack (q : MessageQueue) (messageId : String) : Bool × MessageQueue :=
  match q.inFlight.get? messageId with
  | none => (false, q)
  | some (msg, _) =>
      (true, { q with inFlight := q.inFlight.erase messageId, queue := msg :: q.queue })

/-- The loop of `_requeue_timed_out`; the ids are keys of the map, so each lookup
finds its entry. -/
def requeue : List String → ℕ → MessageQueue → ℕ × MessageQueue
  | [], requeued, q => (requeued, q)
  | id :: rest, requeued, q =>
      match q.inFlight.get? id with
      | none => requeue rest requeued q
      | some (msg, _) =>
          requeue rest (requeued + 1)
            { q with inFlight := q.inFlight.erase id, queue := msg :: q.queue }

def requeueTimedOut (now : Timestamp) (q : MessageQueue) : ℕ × MessageQueue :=
  requeue (Visibility.expired now q.inFlight) 0 q

/-- `dequeue` without other calls between its two steps. -/
def dequeue (requeueAt now : Timestamp) (q : MessageQueue) (visibilityTimeout : Option Timestamp) :
    Option MessageRef × MessageQueue :=
  pop messages now (q.requeueTimedOut requeueAt).2 visibilityTimeout

def peek (q : MessageQueue) : Option MessageRef := q.queue.head?

def purge (q : MessageQueue) : ℕ × MessageQueue := (q.queue.length, { q with queue := [] })

/-! ## Every operation on the view -/

/-- The queue without its order. -/
def view (q : MessageQueue) : Visibility MessageRef String Timestamp := ⟨↑q.queue, q.inFlight⟩

variable {messages} {q : MessageQueue}

theorem enqueue_spec {now : Timestamp} {m : MessageRef} {messages' : MessageTable} {q' : MessageQueue}
    (done : q.enqueue messages now m = .ok (messages', q')) :
    messages' = messages.stamped now m ∧ q'.view = q.view.enter m ∧
      q'.totalEnqueued = q.totalEnqueued + 1 ∧ q'.totalAcked = q.totalAcked := by
  unfold enqueue at done
  split at done
  · cases done
  · cases done
    refine ⟨rfl, ?_, rfl, rfl⟩
    simp [view, Visibility.enter]

theorem pop_spec (messages : MessageTable) (now : Timestamp) (q : MessageQueue) (timeout : Option Timestamp) :
    (q.pop messages now timeout = (none, q) ∧ q.view.ready = 0) ∨
    ∃ m, (q.pop messages now timeout).1 = some m ∧ m ∈ q.view.ready ∧
      (q.pop messages now timeout).2.view =
        q.view.deliver (fun m => (messages m).id) m (now + orDefault timeout q.visibilityTimeout) ∧
      (q.pop messages now timeout).2.totalEnqueued = q.totalEnqueued ∧
      (q.pop messages now timeout).2.totalAcked = q.totalAcked := by
  unfold pop
  split
  · next empty => exact .inl ⟨rfl, by simp [view, empty]⟩
  · next m rest queue =>
      refine .inr ⟨m, rfl, ?_, ?_, rfl, rfl⟩
      · simp [view, queue]
      · simp [view, Visibility.deliver, queue]

theorem acknowledge_spec (q : MessageQueue) (id : String) :
    (q.acknowledge id).1 = q.inFlight.contains id ∧
      (q.acknowledge id).2.view = q.view.settle id ∧
      (q.acknowledge id).2.totalEnqueued = q.totalEnqueued ∧
      (q.acknowledge id).2.totalAcked = q.totalAcked + (q.inFlight.contains id).toNat := by
  unfold acknowledge
  split
  · next present => exact ⟨present.symm, rfl, rfl, by rw [present]; rfl⟩
  · next absent =>
      have missing : id ∉ q.inFlight.keys := fun member => absent (Dict.contains_iff.mpr member)
      have answer := Bool.eq_false_iff.mpr absent
      refine ⟨answer.symm, ?_, rfl, by rw [answer]; rfl⟩
      simp [view, Visibility.settle, Dict.erase_of_absent missing]

theorem nack_spec (q : MessageQueue) (id : String) :
    (q.nack id).1 = q.inFlight.contains id ∧ (q.nack id).2.view = q.view.giveBack id ∧
      (q.nack id).2.totalEnqueued = q.totalEnqueued ∧ (q.nack id).2.totalAcked = q.totalAcked := by
  unfold nack
  split
  · next absent =>
      exact ⟨by simp [Dict.contains, absent], (Visibility.giveBack_of_absent absent).symm, rfl, rfl⟩
  · next msg expiry found =>
      exact ⟨by simp [Dict.contains, found],
        (Visibility.giveBack_of_found (v := q.view) found).symm, rfl, rfl⟩

theorem requeue_spec (ids : List String) (requeued : ℕ) (q : MessageQueue) :
    (requeue ids requeued q).2.view = q.view.giveBackAll ids ∧
      (requeue ids requeued q).2.totalEnqueued = q.totalEnqueued ∧
      (requeue ids requeued q).2.totalAcked = q.totalAcked := by
  induction ids generalizing requeued q with
  | nil => exact ⟨rfl, rfl, rfl⟩
  | cons id rest ih =>
      rw [requeue, Visibility.giveBackAll, List.foldl_cons]
      split
      · next absent =>
          rw [Visibility.giveBack_of_absent absent]
          exact ih requeued q
      · next msg expiry found =>
          rw [Visibility.giveBack_of_found found]
          exact ih (requeued + 1)
            { q with inFlight := q.inFlight.erase id, queue := msg :: q.queue }

end MessageQueue

end BrokerLite
