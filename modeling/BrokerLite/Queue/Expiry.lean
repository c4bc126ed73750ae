/-
# Queue.Expiry -- the order in which expired messages come back

The requeue step of a `MessageQueue` goes through the expired entries in the
order of their delivery and puts each message at the front of the queue, so that
they come to stand there in the opposite order (`requeueTimedOut_spec`).

`requeueTimedOut_keepsOrder_iff` says when the order is kept: if no more than
one message has expired.
-/
import BrokerLite.Queue.MessageQueue

namespace BrokerLite

open Theory

set_option autoImplicit false

namespace MessageQueue

/-- The messages whose visibility has expired, in the order of their delivery. -/
def expiredMessages (now : Timestamp) (q : MessageQueue) : List MessageRef :=
  (q.inFlight.entries.filter fun e => e.2.2 ≤ now).map fun e => e.2.1

/-- The requeue step puts the expired messages in front in the order of their delivery, takes
their entries and no others out of flight, and returns how many they are. -/
structure KeepsOrder (now : Timestamp) (q : MessageQueue) : Prop where
  queue : (q.requeueTimedOut now).2.queue = q.expiredMessages now ++ q.queue
  inFlight : (q.requeueTimedOut now).2.inFlight.entries =
    q.inFlight.entries.filter fun e => ¬ e.2.2 ≤ now
  moved : (q.requeueTimedOut now).1 = (q.expiredMessages now).length

theorem requeue_reverses {ids : List String} (distinct : ids.Nodup) (n : ℕ) (q : MessageQueue) :
    (requeue ids n q).1 =
        n + (ids.filterMap fun id => (q.inFlight.get? id).map Prod.fst).length ∧
      (requeue ids n q).2.queue =
        (ids.filterMap fun id => (q.inFlight.get? id).map Prod.fst).reverse ++ q.queue := by
  induction ids generalizing n q with
  | nil => simp [requeue]
  | cons id rest ih =>
      obtain ⟨absent, distinct⟩ := List.nodup_cons.mp distinct
      rw [requeue, List.filterMap_cons]
      split
      · next missing =>
          rw [missing]
          exact ih distinct n q
      · next m expiry found =>
          obtain ⟨moved, queue⟩ := ih distinct (n + 1)
            { q with inFlight := q.inFlight.erase id, queue := m :: q.queue }
          rw [moved, queue, Dict.filterMap_get?_erase _ absent, found]
          simp
          omega

/-- **The expired messages come to the front in the opposite order.** -/
theorem requeueTimedOut_spec (now : Timestamp) (q : MessageQueue) :
    (q.requeueTimedOut now).1 = (q.expiredMessages now).length ∧
    (q.requeueTimedOut now).2.queue = (q.expiredMessages now).reverse ++ q.queue ∧
    (q.requeueTimedOut now).2.inFlight.entries =
      q.inFlight.entries.filter fun e => ¬ e.2.2 ≤ now := by
  obtain ⟨moved, queue⟩ := requeue_reverses (Visibility.expired_nodup now q.inFlight) 0 q
  rw [Visibility.filterMap_expired] at moved queue
  have view := congrArg Visibility.inFlight (requeue_spec (Visibility.expired now q.inFlight) 0 q).1
  exact ⟨moved.trans (Nat.zero_add _), queue,
    (congrArg Dict.entries view).trans (Visibility.entries_giveBackAll_expired q.view now)⟩

/-- A list without repetitions that reads the same backwards has at most one element. -/
theorem reverse_eq_self_iff {α : Type} {l : List α} (distinct : l.Nodup) :
    l.reverse = l ↔ l.length ≤ 1 := by
  match l, distinct with
  | [], _ => simp
  | [a], _ => simp
  | a :: b :: rest, distinct =>
      refine iff_of_false (fun same => ?_) (by simp)
      have last := congrArg List.head? same
      rw [List.head?_reverse, List.getLast?_cons_cons, List.head?_cons] at last
      exact (List.nodup_cons.mp distinct).1 (List.mem_of_getLast? last)

theorem keepsOrder_iff (now : Timestamp) (q : MessageQueue) :
    KeepsOrder now q ↔ (q.expiredMessages now).reverse = q.expiredMessages now := by
  obtain ⟨moved, queue, inFlight⟩ := requeueTimedOut_spec now q
  constructor
  · intro kept
    have same := queue.symm.trans kept.queue
    exact List.append_cancel_right same
  · intro same
    refine ⟨?_, inFlight, moved⟩
    rw [queue, same]

/-- Messages that stand under their own ids are in flight once. -/
theorem expiredMessages_nodup {idOf : MessageRef → String} {q : MessageQueue}
    (keyed : q.view.Keyed idOf) (now : Timestamp) : (q.expiredMessages now).Nodup := by
  apply List.Nodup.of_map idOf
  have ids : (q.expiredMessages now).map idOf =
      (q.inFlight.entries.filter fun e => e.2.2 ≤ now).map Prod.fst := by
    rw [expiredMessages, List.map_map]
    apply List.map_congr_left
    intro e member
    exact keyed e.1 e.2 (Dict.get?_eq_some_iff.mpr (List.mem_of_mem_filter member))
  rw [ids]
  exact Visibility.expired_nodup now q.inFlight

/-! ## Handing out, and handing out again -/

section Pops

variable (messages : MessageTable)

/-- The pops one after the other, and what they return. -/
def popAll : MessageQueue → List (Timestamp × Option Timestamp) → List MessageRef × MessageQueue
  | q, [] => ([], q)
  | q, (now, timeout) :: pops =>
      match q.pop messages now timeout with
      | (none, q) => popAll q pops
      | (some m, q) => (popAll q pops).map (m :: ·) id

variable {messages}

theorem popAll_queue (q : MessageQueue) (pops : List (Timestamp × Option Timestamp)) :
    (q.popAll messages pops).1 = q.queue.take pops.length ∧
      (q.popAll messages pops).2.queue = q.queue.drop pops.length := by
  induction pops generalizing q with
  | nil => simp [popAll]
  | cons pop pops ih =>
      obtain ⟨now, timeout⟩ := pop
      cases queue : q.queue with
      | nil =>
          have later := ih q
          rw [queue] at later
          simpa [popAll, MessageQueue.pop, queue] using later
      | cons m rest =>
          simp [popAll, MessageQueue.pop, queue, ih]

/-- What is popped goes in flight, one message behind the other. -/
theorem popAll_inFlight {q : MessageQueue} {pops : List (Timestamp × Option Timestamp)}
    (distinct : (q.inFlight.keys ++
      (q.popAll messages pops).1.map fun m => (messages m).id).Nodup) :
    ((q.popAll messages pops).2.inFlight.entries.map fun e => e.2.1) =
      (q.inFlight.entries.map fun e => e.2.1) ++ (q.popAll messages pops).1 := by
  induction pops generalizing q with
  | nil => simp [popAll]
  | cons pop pops ih =>
      obtain ⟨now, timeout⟩ := pop
      cases queue : q.queue with
      | nil =>
          have same : q.popAll messages ((now, timeout) :: pops) = q.popAll messages pops := by
            simp [popAll, MessageQueue.pop, queue]
          rw [same] at distinct ⊢
          exact ih distinct
      | cons m rest =>
          let q' := (q.pop messages now timeout).2
          have popped : q.popAll messages ((now, timeout) :: pops) =
              (q'.popAll messages pops).map (m :: ·) id := by
            simp [q', popAll, MessageQueue.pop, queue]
          rw [popped] at distinct ⊢
          have absent : (messages m).id ∉ q.inFlight.keys := by
            intro present
            exact (List.nodup_append.mp distinct).2.2 _ present _ (by simp) rfl
          have entries : q'.inFlight.entries = q.inFlight.entries ++ [((messages m).id, m,
              now + orDefault timeout q.visibilityTimeout)] := by
            simp [q', MessageQueue.pop, queue, Dict.entries_set_of_absent absent]
          have keys : q'.inFlight.keys = q.inFlight.keys ++ [(messages m).id] := by
            simp [Dict.keys, entries]
          have later := ih (q := q') (by rw [keys]; simpa using distinct)
          simpa [entries] using later

/-- **Messages that were handed out together and time out together are handed out again in
the opposite order.** -/
theorem popAll_again {q : MessageQueue} {pops again : List (Timestamp × Option Timestamp)}
    {requeueAt : Timestamp} (nothing : q.inFlight = .empty)
    (distinct : ((q.popAll messages pops).1.map fun m => (messages m).id).Nodup)
    (due : ∀ e ∈ (q.popAll messages pops).2.inFlight.entries, e.2.2 ≤ requeueAt)
    (all : again.length = (q.popAll messages pops).1.length) :
    (((q.popAll messages pops).2.requeueTimedOut requeueAt).2.popAll messages again).1 =
      (q.popAll messages pops).1.reverse := by
  have fresh : (q.inFlight.keys ++
      (q.popAll messages pops).1.map fun m => (messages m).id).Nodup := by
    simpa [nothing] using distinct
  have inFlight := popAll_inFlight fresh
  have expired : (q.popAll messages pops).2.expiredMessages requeueAt =
      (q.popAll messages pops).1 := by
    rw [expiredMessages, List.filter_eq_self.mpr (by simpa using due), inFlight, nothing]
    rfl
  rw [(popAll_queue _ _).1, (requeueTimedOut_spec _ _).2.1, expired, all, List.take_left' (by simp)]

end Pops

/-- **When expiry keeps the order.**  The requeue step keeps it exactly if the expired messages
read the same backwards, which for messages under their own ids means that at most one has
expired; and messages that were handed out one after the other and have all expired are handed
out again in that order exactly if they are no more than one. -/
theorem requeueTimedOut_keepsOrder_iff (messages : MessageTable) :
    (∀ now (q : MessageQueue),
      KeepsOrder now q ↔ (q.expiredMessages now).reverse = q.expiredMessages now) ∧
    (∀ now (q : MessageQueue), (q.view.Keyed fun m => (messages m).id) →
      (KeepsOrder now q ↔ (q.expiredMessages now).length ≤ 1)) ∧
    ∀ (q : MessageQueue) (pops again : List (Timestamp × Option Timestamp)) (requeueAt : Timestamp),
      let done := q.popAll messages pops
      q.inFlight = .empty → (done.1.map fun m => (messages m).id).Nodup →
      (∀ e ∈ done.2.inFlight.entries, e.2.2 ≤ requeueAt) → again.length = done.1.length →
      (((done.2.requeueTimedOut requeueAt).2.popAll messages again).1 = done.1 ↔
        done.1.length ≤ 1) := by
  refine ⟨keepsOrder_iff, fun now q keyed => ?_, ?_⟩
  · rw [keepsOrder_iff, reverse_eq_self_iff (expiredMessages_nodup keyed now)]
  · intro q pops again requeueAt done nothing distinct due all
    rw [popAll_again nothing distinct due all]
    exact reverse_eq_self_iff (distinct.of_map _)

/-- Messages 0 and 1 are handed out and time out. -/
theorem twoPops_reversed :
    let messages : MessageTable := fun n => { topic := "t", value := [], id := toString n }
    let done := popAll messages { name := "q", queue := [0, 1] } [(0, none), (1, none)]
    done.1 = [0, 1] ∧ (done.2.requeueTimedOut 40).2.queue = [1, 0] ∧ ¬ KeepsOrder 40 done.2 := by
  intro messages done
  have queue : (done.2.requeueTimedOut 40).2.queue = [1, 0] := by decide +kernel
  refine ⟨by decide +kernel, queue, fun kept => ?_⟩
  have ordered := queue.symm.trans kept.queue
  revert ordered
  decide +kernel

end MessageQueue

end BrokerLite
