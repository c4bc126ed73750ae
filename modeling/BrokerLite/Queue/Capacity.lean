/-
# Queue.Capacity -- how many messages are ready

`max_size` is looked at by `enqueue` only.  A message that is handed out makes room
for another one, and is put back by `nack` or by its expiry whether or not that
room is still there.

`run_withinCapacity_iff`: the queue stays within its size in the runs in which what is
given back finds room.
-/
import BrokerLite.Broker.Queues
import BrokerLite.Queue.Conservation

namespace BrokerLite

open Theory

set_option autoImplicit false

/-- What is fixed when a queue is made. -/
structure QueueSettings where
  priority : Bool
  name : String
  maxSize : ℤ
  visibilityTimeout : Timestamp

namespace PointToPointQueue

def settings : PointToPointQueue → QueueSettings
  | .fifo q => ⟨false, q.name, q.maxSize, q.visibilityTimeout⟩
  | .priority q => ⟨true, q.name, q.maxSize, q.visibilityTimeout⟩

variable {messages : MessageTable} {q : PointToPointQueue}

theorem depth_eq_card (q : PointToPointQueue) : q.depth = q.view.ready.card :=
  q.depth_eq_length_ready

theorem maxSize_eq (q : PointToPointQueue) : q.maxSize = q.settings.maxSize := by cases q <;> rfl

theorem requeue_settings (messages : MessageTable) (ids : List String) (n : ℕ) :
    (∀ q : MessageQueue, (fifo (MessageQueue.requeue ids n q).2).settings = (fifo q).settings) ∧
      ∀ q : PriorityQueue,
        (priority (PriorityQueue.requeue messages ids n q).2).settings = (priority q).settings := by
  induction ids generalizing n with
  | nil => exact ⟨fun _ => rfl, fun _ => rfl⟩
  | cons id rest ih =>
      constructor
      · intro q
        rw [MessageQueue.requeue]
        split
        · exact (ih n).1 q
        · exact (ih (n + 1)).1 _
      · intro q
        rw [PriorityQueue.requeue]
        split
        · exact (ih n).2 q
        · exact (ih (n + 1)).2 _

/-- What was enqueued found room. -/
theorem room_of_enqueue {now : Timestamp} {m : MessageRef} {done : MessageTable × PointToPointQueue}
    (entered : q.enqueue messages now m = .ok done) : q.isFull = false := by
  cases full : q.isFull with
  | false => rfl
  | true =>
      obtain ⟨error, refused⟩ := enqueue_of_full messages now m full
      rw [refused] at entered
      cases entered

theorem enqueue_settings {now : Timestamp} {m : MessageRef} {done : MessageTable × PointToPointQueue}
    (entered : q.enqueue messages now m = .ok done) : done.2.settings = q.settings := by
  cases q with
  | fifo q =>
      simp only [enqueue, MessageQueue.enqueue] at entered
      split at entered <;> cases entered
      rfl
  | priority q =>
      simp only [enqueue, PriorityQueue.enqueue] at entered
      split at entered <;> cases entered
      rfl

/-! ### How many are ready after each operation -/

theorem depth_enqueue {now : Timestamp} {m : MessageRef} {done : MessageTable × PointToPointQueue}
    (entered : q.enqueue messages now m = .ok done) : done.2.depth = q.depth + 1 := by
  have view := (enqueue_spec entered).2.1
  rw [depth_eq_card, view, depth_eq_card]
  exact Multiset.card_cons m q.view.ready

theorem depth_requeueTimedOut (messages : MessageTable) (now : Timestamp) (q : PointToPointQueue) :
    (q.requeueTimedOut messages now).2.depth =
      q.depth + (Visibility.expired now q.inFlight).length := by
  have view := (requeueTimedOut_spec messages now q).1
  rw [depth_eq_card, view, depth_eq_card]
  exact Visibility.card_giveBackAll_expired q.view now

theorem depth_pop_le (messages : MessageTable) (now : Timestamp) (q : PointToPointQueue)
    (timeout : Option Timestamp) : (q.pop messages now timeout).2.depth ≤ q.depth := by
  rcases pop_spec messages now q timeout with ⟨nothing, -⟩ | ⟨m, -, ready, view, -⟩
  · rw [nothing]
  · rw [depth_eq_card, view, depth_eq_card]
    exact Multiset.card_le_card (Multiset.erase_le m q.view.ready)

theorem depth_acknowledge (q : PointToPointQueue) (id : String) :
    (q.acknowledge id).2.depth = q.depth := by
  have view := (acknowledge_spec q id).2.1
  rw [depth_eq_card, view, depth_eq_card]
  rfl

theorem depth_nack (messages : MessageTable) (q : PointToPointQueue) (id : String) :
    (q.nack messages id).2.depth = q.depth + if q.inFlight.contains id then 1 else 0 := by
  have view := (nack_spec messages q id).2.1
  rw [depth_eq_card, view, depth_eq_card, Dict.contains]
  cases found : q.inFlight.get? id with
  | none =>
      rw [Visibility.giveBack_of_absent found]
      simp
  | some e =>
      rw [Visibility.giveBack_of_found (v := q.view) found]
      simp

theorem depth_purge {removed : ℕ} {q' : PointToPointQueue} (done : q.purge = some (removed, q')) :
    q'.depth = 0 := by
  rw [depth_eq_card, (purge_spec done).2.1]
  exact Multiset.card_zero

end PointToPointQueue

namespace QueueRun

/-- No operation changes the settings. -/
theorem step_settings (r : QueueRun) (op : QueueOp) :
    (r.step op).queue.settings = r.queue.settings := by
  obtain ⟨messages, queue, enqueued, acked, purged⟩ := r
  cases op with
  | enqueue now m =>
      cases done : queue.enqueue messages now m with
      | error raised => simp only [step, done]
      | ok result =>
          simp only [step, done]
          exact PointToPointQueue.enqueue_settings done
  | requeueTimedOut now =>
      cases queue with
      | fifo q => exact (PointToPointQueue.requeue_settings messages _ 0).1 q
      | priority q => exact (PointToPointQueue.requeue_settings messages _ 0).2 q
  | pop now timeout =>
      cases queue with
      | fifo q =>
          simp only [step, PointToPointQueue.pop, MessageQueue.pop]
          split <;> rfl
      | priority q =>
          simp only [step, PointToPointQueue.pop, PriorityQueue.pop]
          split <;> rfl
  | acknowledge id =>
      cases queue with
      | fifo q =>
          simp only [step, PointToPointQueue.acknowledge, MessageQueue.acknowledge]
          split <;> rfl
      | priority q =>
          simp only [step, PointToPointQueue.acknowledge, PriorityQueue.acknowledge]
          split <;> rfl
  | nack id =>
      cases queue with
      | fifo q =>
          simp only [step, PointToPointQueue.nack, MessageQueue.nack]
          split <;> rfl
      | priority q =>
          simp only [step, PointToPointQueue.nack, PriorityQueue.nack]
          split <;> rfl
  | purge => cases queue <;> rfl

/-- The size of a queue is never changed. -/
theorem step_maxSize (r : QueueRun) (op : QueueOp) :
    (r.step op).queue.maxSize = r.queue.maxSize := by
  rw [PointToPointQueue.maxSize_eq, step_settings, ← PointToPointQueue.maxSize_eq]

/-- The queue holds no more ready messages than its size, and an enqueue that is refused
changes nothing. -/
structure WithinCapacity (r : QueueRun) : Prop where
  depth : r.queue.depth ≤ r.queue.maxSize
  refused : ∀ now m, (r.queue.enqueue r.messages now m).isOk = false → r.step (.enqueue now m) = r

/-- What the operation gives back finds room. -/
def FindsRoom (r : QueueRun) : QueueOp → Prop
  | .nack messageId => r.queue.inFlight.contains messageId = true → r.queue.depth < r.queue.maxSize
  | .requeueTimedOut now =>
      r.queue.depth + (Visibility.expired now r.queue.inFlight).length ≤ r.queue.maxSize
  | _ => True

instance (r : QueueRun) : DecidablePred r.FindsRoom
  | .nack messageId =>
      inferInstanceAs (Decidable (r.queue.inFlight.contains messageId = true → _ < r.queue.maxSize))
  | .requeueTimedOut _ => inferInstanceAs (Decidable (_ ≤ r.queue.maxSize))
  | .enqueue .. => isTrue trivial
  | .pop .. => isTrue trivial
  | .acknowledge _ => isTrue trivial
  | .purge => isTrue trivial

variable {r : QueueRun}

theorem step_of_refused {now : Timestamp} {m : MessageRef}
    (refused : (r.queue.enqueue r.messages now m).isOk = false) : r.step (.enqueue now m) = r := by
  cases done : r.queue.enqueue r.messages now m with
  | error raised => rw [step, done]
  | ok result =>
      rw [done] at refused
      cases refused

/-- **One step**: only what is given back can exceed the size. -/
theorem step_depth_iff (sized : 0 < r.queue.maxSize) (within : r.queue.depth ≤ r.queue.maxSize)
    (op : QueueOp) : (r.step op).queue.depth ≤ r.queue.maxSize ↔ r.FindsRoom op := by
  cases op with
  | enqueue now m =>
      refine iff_of_true ?_ trivial
      cases done : r.queue.enqueue r.messages now m with
      | error raised =>
          rw [step, done]
          exact within
      | ok result =>
          have room := of_decide_eq_false (PointToPointQueue.room_of_enqueue done)
          rw [step, done]
          show (result.2.depth : ℤ) ≤ _
          rw [PointToPointQueue.depth_enqueue done]
          push_cast
          omega
  | requeueTimedOut now =>
      show ((r.queue.requeueTimedOut r.messages now).2.depth : ℤ) ≤ _ ↔
        (r.queue.depth : ℤ) + ((Visibility.expired now r.queue.inFlight).length : ℤ) ≤ _
      rw [PointToPointQueue.depth_requeueTimedOut, Nat.cast_add]
  | pop now timeout =>
      refine iff_of_true ?_ trivial
      have fewer := PointToPointQueue.depth_pop_le r.messages now r.queue timeout
      show ((r.queue.pop r.messages now timeout).2.depth : ℤ) ≤ _
      omega
  | acknowledge id =>
      refine iff_of_true ?_ trivial
      show ((r.queue.acknowledge id).2.depth : ℤ) ≤ _
      rw [PointToPointQueue.depth_acknowledge]
      exact within
  | nack id =>
      show ((r.queue.nack r.messages id).2.depth : ℤ) ≤ _ ↔
        (r.queue.inFlight.contains id = true → (r.queue.depth : ℤ) < _)
      rw [PointToPointQueue.depth_nack]
      split
      · next held =>
          simp only [held, true_implies]
          omega
      · next absent =>
          simp only [absent, Bool.false_eq_true, false_implies, iff_true, Nat.add_zero]
          exact within
  | purge =>
      refine iff_of_true ?_ trivial
      rw [step]
      split
      · exact within
      · next removed queue done =>
          show (queue.depth : ℤ) ≤ _
          rw [PointToPointQueue.depth_purge done]
          omega

theorem withinCapacity_iff : r.WithinCapacity ↔ r.queue.depth ≤ r.queue.maxSize :=
  ⟨fun within => within.depth, fun depth => ⟨depth, fun _ _ refused => step_of_refused refused⟩⟩

/-- **When the size is a bound.**  In every state of a run the ready messages are no more than
`max_size`, exactly if what is given back finds room; a refused enqueue never changes anything. -/
theorem run_withinCapacity_iff (start : r.Start) (sized : 0 < r.queue.maxSize) (ops : List QueueOp) :
    (∀ before, before <+: ops → (run step r before).WithinCapacity) ↔ Guarded step FindsRoom r ops := by
  have preserved : ∀ (s : QueueRun) op, 0 < s.queue.maxSize → 0 < (s.step op).queue.maxSize := by
    intro s op sized
    rw [step_maxSize]
    exact sized
  have empty : r.queue.depth ≤ r.queue.maxSize := by
    rw [PointToPointQueue.depth_eq_length_ready, start.ready, List.length_nil]
    omega
  refine forall_prefix_iff_guarded preserved ?_ sized (withinCapacity_iff.mpr empty)
  intro s op sized within
  rw [withinCapacity_iff, step_maxSize]
  exact step_depth_iff sized within.depth op

/-- Both kinds of queue, of size 1. -/
def narrowStart (priority : Bool) : QueueRun where
  messages n := { topic := "t", value := [], id := toString n }
  queue := if priority then .priority { name := "q", maxSize := 1 } else .fifo { name := "q", maxSize := 1 }

theorem narrowStart_start (priority : Bool) : (narrowStart priority).Start := by
  cases priority <;> refine ⟨rfl, rfl, rfl, fun n counted => ?_, rfl, rfl, rfl⟩ <;> cases counted
  rfl

/-- Message 0 is handed out and put back before message 1 would come. -/
def roomyOps : List QueueOp := [.enqueue 0 0, .pop 1 none, .nack "0", .enqueue 2 1]

theorem roomyOps_withinCapacity_iff :
    (∀ before, before <+: roomyOps → (run step (narrowStart true) before).WithinCapacity) ↔
      Guarded step FindsRoom (narrowStart true) roomyOps :=
  run_withinCapacity_iff (narrowStart_start true) (by decide) roomyOps

/-- Message 0 is handed out and put back when message 1 has its room. -/
def crowdingOps : List QueueOp := [.enqueue 0 0, .pop 1 none, .enqueue 2 1, .nack "0"]

theorem crowdingOps_exceed :
    (¬ ∀ before, before <+: crowdingOps → (run step (narrowStart false) before).WithinCapacity) ∧
      ¬ ∀ before, before <+: crowdingOps → (run step (narrowStart true) before).WithinCapacity := by
  constructor <;> intro within <;>
    exact absurd (within crowdingOps (List.prefix_refl _)).depth (by decide +kernel)

end QueueRun

end BrokerLite
