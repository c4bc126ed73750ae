/-
# Server.Admin -- what an administrator sees of the queues

`AdminManager` lists the queues of the broker and describes one of them.  Both ask
by the truth value of the queue object whether there is one, and a queue has a
length: one with no message ready is left out of the list and is described as if
there were none, whatever is in flight.

`run_shows_iff` says of every state the broker reaches what the administrator sees.
That the names are distinct and are those of the queues is an invariant of the
broker (`Queues.Sound`).
-/
import BrokerLite.Queue.Capacity
import BrokerLite.Server.QueueHandlers
import BrokerLite.Server.Snapshot
import Mathlib.Data.List.Forall2

namespace BrokerLite

open Theory

set_option autoImplicit false

def PointToPointQueue.snapshot : PointToPointQueue → QueueSnapshot
  | .fifo q => q.snapshot
  | .priority q => q.snapshot

@[simp] theorem PointToPointQueue.snapshot_name (q : PointToPointQueue) :
    q.snapshot.name = q.settings.name := by
  cases q <;> rfl

namespace AdminManager

def describeQueue (b : Queues) (name : String) : Option QueueSnapshot :=
  match b.getQueue name with
  | none => none
  | some q => if q.isTrue then some q.snapshot else none

/-- The loop of `list_queues`. -/
def listLoop (b : Queues) : List String → List QueueSnapshot → List QueueSnapshot
  | [], results => results
  | name :: rest, results =>
      match b.getQueue name with
      | none => listLoop b rest results
      | some q => listLoop b rest (if q.isTrue then results ++ [q.snapshot] else results)

def listQueues (b : Queues) : List QueueSnapshot := listLoop b b.listQueues []

end AdminManager

/-! ## Runs of the broker's queues -/

/-- An operation on the broker, or a call of a method on one of its queues. -/
inductive BrokerQueueOp where
  | createQueue (name : String) (maxSize : ℤ) (visibilityTimeout : Timestamp) (priority : Bool)
  | deleteQueue (name : String)
  | enqueue (now : Timestamp) (name : String) (m : MessageRef)
  | call (name : String) (op : QueueOp)

namespace Queues

/-- The method acts on the queue object, and nobody else's. -/
def call (b : Queues) (name : String) (op : QueueOp) : Queues :=
  match b.getQueue name with
  | none => b
  | some q =>
      let done := QueueRun.step { messages := b.messages, queue := q } op
      { b.setQueue name done.queue with messages := done.messages }

def step (b : Queues) : BrokerQueueOp → Queues
  | .createQueue name maxSize visibilityTimeout priority =>
      (b.createQueue name maxSize visibilityTimeout priority).2
  | .deleteQueue name => (b.deleteQueue name).2
  | .enqueue now name m => (enqueue now b name m).2
  | .call name op => b.call name op

/-- A broker without queues. -/
structure Start (b : Queues) : Prop where
  queues : b.queues = .empty
  priorityQueues : b.priorityQueues = .empty

/-- Every queue is kept under its name, and no name is in both dictionaries. -/
structure Sound (b : Queues) : Prop where
  fifo : ∀ name q, b.queues.get? name = some q → q.name = name
  priority : ∀ name q, b.priorityQueues.get? name = some q → q.name = name
  apart : ∀ name, b.queues.get? name = none ∨ b.priorityQueues.get? name = none

variable {b : Queues}

theorem Start.sound (start : b.Start) : b.Sound := by
  constructor
  · simp [start.queues]
  · simp [start.priorityQueues]
  · simp [start.queues]

theorem getQueue_eq_none_iff {name : String} : b.getQueue name = none ↔ name ∉ b.listQueues := by
  unfold getQueue listQueues
  rw [List.mem_append, not_or, ← Dict.get?_eq_none_iff, ← Dict.get?_eq_none_iff]
  cases b.queues.get? name with
  | none => simp
  | some q => simp

theorem getQueue_fifo {name : String} {q : MessageQueue} (found : b.getQueue name = some (.fifo q)) :
    b.queues.get? name = some q := by
  unfold getQueue at found
  split at found
  · next f here =>
      cases found
      exact here
  · simp at found

theorem getQueue_priority {name : String} {q : PriorityQueue}
    (found : b.getQueue name = some (.priority q)) : b.queues.get? name = none := by
  unfold getQueue at found
  split at found
  · cases found
  · next none_ => exact none_

theorem Sound.name_eq (sound : b.Sound) {name : String} {q : PointToPointQueue}
    (found : b.getQueue name = some q) : q.settings.name = name := by
  unfold getQueue at found
  split at found
  · next f here =>
      cases found
      exact sound.fifo name f here
  · obtain ⟨p, here, rfl⟩ := Option.map_eq_some_iff.mp found
    exact sound.priority name p here

theorem Sound.listQueues_nodup (sound : b.Sound) : b.listQueues.Nodup := by
  apply List.Nodup.append b.queues.keys_nodup b.priorityQueues.keys_nodup
  intro name first second
  rcases sound.apart name with none_ | none_
  · exact Dict.get?_eq_none_iff.mp none_ first
  · exact Dict.get?_eq_none_iff.mp none_ second

/-! ### The invariant -/

theorem Sound.setFifo (sound : b.Sound) {q : MessageQueue}
    (apart : b.priorityQueues.get? q.name = none) :
    ({ b with queues := b.queues.set q.name q } : Queues).Sound := by
  refine ⟨fun name q' found => ?_, sound.priority, fun name => ?_⟩
  · rcases Dict.get?_set_eq_some_iff.mp found with ⟨rfl, rfl⟩ | ⟨-, before⟩
    · rfl
    · exact sound.fifo name q' before
  · by_cases here : name = q.name
    · subst here
      exact .inr apart
    · apply (sound.apart name).imp_left
      exact fun none_ => (Dict.get?_set_of_ne _ here _).trans none_

theorem Sound.setPriority (sound : b.Sound) {q : PriorityQueue}
    (apart : b.queues.get? q.name = none) :
    ({ b with priorityQueues := b.priorityQueues.set q.name q } : Queues).Sound := by
  refine ⟨sound.fifo, fun name q' found => ?_, fun name => ?_⟩
  · rcases Dict.get?_set_eq_some_iff.mp found with ⟨rfl, rfl⟩ | ⟨-, before⟩
    · rfl
    · exact sound.priority name q' before
  · by_cases here : name = q.name
    · subst here
      exact .inl apart
    · apply (sound.apart name).imp_right
      exact fun none_ => (Dict.get?_set_of_ne _ here _).trans none_

/-- A queue that was operated on keeps its place. -/
theorem Sound.kept (sound : b.Sound) {name : String} {q q' : PointToPointQueue}
    (found : b.getQueue name = some q) (same : q'.settings = q.settings) :
    (b.setQueue name q').Sound := by
  have named : q'.settings.name = name := by
    rw [same]
    exact sound.name_eq found
  have kind := congrArg QueueSettings.priority same
  subst named
  cases q with
  | fifo f =>
      cases q' with
      | fifo f' =>
          have here : b.queues.get? f'.name = some f := getQueue_fifo found
          have apart := (sound.apart f'.name).resolve_left (by simp [here])
          exact sound.setFifo apart
      | priority p' => cases kind
  | priority p =>
      cases q' with
      | fifo f' => cases kind
      | priority p' =>
          exact sound.setPriority (getQueue_priority found)

theorem Sound.createQueue (sound : b.Sound) (name : String) (maxSize : ℤ)
    (visibilityTimeout : Timestamp) (priority : Bool) :
    (b.createQueue name maxSize visibilityTimeout priority).2.Sound := by
  unfold Queues.createQueue
  split
  · exact sound
  · next absent =>
      rw [not_or] at absent
      split
      · exact sound
      · split
        · have apart : b.queues.get? name = none :=
            Dict.get?_eq_none_iff.mpr fun listed => absent.1 (Dict.contains_iff.mpr listed)
          exact sound.setPriority (q := { name, maxSize, visibilityTimeout }) apart
        · have apart : b.priorityQueues.get? name = none :=
            Dict.get?_eq_none_iff.mpr fun listed => absent.2 (Dict.contains_iff.mpr listed)
          exact sound.setFifo (q := { name, maxSize, visibilityTimeout }) apart

theorem Sound.deleteQueue (sound : b.Sound) (name : String) : (b.deleteQueue name).2.Sound := by
  unfold Queues.deleteQueue
  split
  · refine ⟨fun name' q found => ?_, sound.priority, fun name' => ?_⟩
    · exact sound.fifo name' q (Dict.get?_erase_eq_some_iff.mp found).2
    · apply (sound.apart name').imp_left
      intro none_
      rw [Dict.get?_erase, none_, ite_self]
  · split
    · refine ⟨sound.fifo, fun name' q found => ?_, fun name' => ?_⟩
      · exact sound.priority name' q (Dict.get?_erase_eq_some_iff.mp found).2
      · apply (sound.apart name').imp_right
        intro none_
        rw [Dict.get?_erase, none_, ite_self]
    · exact sound

theorem Sound.messages (sound : b.Sound) (messages : MessageTable) (total : ℕ) :
    ({ b with messages, totalMessagesIn := total } : Queues).Sound :=
  ⟨sound.fifo, sound.priority, sound.apart⟩

theorem Sound.step (sound : b.Sound) (op : BrokerQueueOp) : (b.step op).Sound := by
  cases op with
  | createQueue name maxSize visibilityTimeout priority => exact sound.createQueue ..
  | deleteQueue name => exact sound.deleteQueue name
  | enqueue now name m =>
      show (Queues.enqueue now b name m).2.Sound
      unfold Queues.enqueue
      split
      · exact sound
      · next q found =>
          split
          · exact sound
          · next messages q' entered =>
              have same := PointToPointQueue.enqueue_settings entered
              exact (sound.kept found same).messages messages _
  | call name op =>
      show (b.call name op).Sound
      unfold Queues.call
      split
      · exact sound
      · next q found =>
          have same := QueueRun.step_settings { messages := b.messages, queue := q } op
          exact (sound.kept found same).messages _ _

/-! ## What is shown -/

/-- The snapshot is that of the queue with this name. -/
def Shows (b : Queues) (name : String) (snapshot : QueueSnapshot) : Prop :=
  ∃ q, b.getQueue name = some q ∧ snapshot = q.snapshot ∧ snapshot.name = name

/-- The list has one snapshot for each queue, in their order. -/
def ListsAll (b : Queues) : Prop := List.Forall₂ b.Shows b.listQueues (AdminManager.listQueues b)

/-- The queue is described as missing exactly when there is none of that name. -/
def Describes (b : Queues) (name : String) : Prop :=
  AdminManager.describeQueue b name = none ↔ name ∉ b.listQueues

/-- If there is a queue of that name, it has a message ready. -/
def Stocked (b : Queues) (name : String) : Prop := ∀ q ∈ b.getQueue name, q.ready ≠ []

theorem listLoop_eq (names : List String) (results : List QueueSnapshot) :
    AdminManager.listLoop b names results =
      results ++ names.filterMap (AdminManager.describeQueue b) := by
  induction names generalizing results with
  | nil => simp [AdminManager.listLoop]
  | cons name rest ih =>
      rw [AdminManager.listLoop, List.filterMap_cons, AdminManager.describeQueue]
      cases b.getQueue name with
      | none => exact ih results
      | some q =>
          show AdminManager.listLoop b rest _ = _
          rw [ih]
          cases shown : q.isTrue with
          | false => simp [shown]
          | true => simp [shown]

theorem describeQueue_isSome_iff {name : String} (listed : name ∈ b.listQueues) :
    (AdminManager.describeQueue b name).isSome = true ↔ b.Stocked name := by
  unfold AdminManager.describeQueue Stocked
  cases found : b.getQueue name with
  | none => exact absurd listed (getQueue_eq_none_iff.mp found)
  | some q =>
      by_cases ready : q.isTrue = true
      · simp [ready, ← QueueHandlers.isTrue_iff]
      · simp [ready, ← QueueHandlers.isTrue_iff]

theorem Sound.shows (sound : b.Sound) {name : String} {snapshot : QueueSnapshot}
    (described : AdminManager.describeQueue b name = some snapshot) : b.Shows name snapshot := by
  unfold AdminManager.describeQueue at described
  split at described
  · cases described
  · next q found =>
      split at described
      · cases described
        exact ⟨q, found, rfl, q.snapshot_name.trans (sound.name_eq found)⟩
      · cases described

theorem Sound.listsAll_iff (sound : b.Sound) :
    b.ListsAll ↔ ∀ name ∈ b.listQueues, b.Stocked name := by
  rw [ListsAll, AdminManager.listQueues, listLoop_eq, List.nil_append]
  constructor
  · intro all name listed
    have every := List.filterMap_length_eq_length.mp all.length_eq.symm
    exact (describeQueue_isSome_iff listed).mp (every name listed)
  · generalize names : b.listQueues = listed
    have inside : ∀ name ∈ listed, name ∈ b.listQueues := fun name member => names ▸ member
    clear names
    intro stocked
    induction listed with
    | nil => exact .nil
    | cons name rest ih =>
        have some_ := (describeQueue_isSome_iff (inside name (List.mem_cons_self ..))).mpr
          (stocked name (List.mem_cons_self ..))
        obtain ⟨snapshot, described⟩ := Option.isSome_iff_exists.mp some_
        rw [List.filterMap_cons_some described]
        apply List.Forall₂.cons (sound.shows described)
        apply ih
        · exact fun name member => inside name (List.mem_cons_of_mem _ member)
        · exact fun name member => stocked name (List.mem_cons_of_mem _ member)

theorem describes_iff {name : String} : b.Describes name ↔ b.Stocked name := by
  unfold Describes
  by_cases listed : name ∈ b.listQueues
  · rw [← describeQueue_isSome_iff listed]
    simp [listed, Option.isSome_iff_ne_none]
  · have found := getQueue_eq_none_iff.mpr listed
    simp [AdminManager.describeQueue, Stocked, found, listed]

/-- **What an administrator sees.**  In every state that a broker reaches the names
of its queues are distinct; the list shows all of them exactly when each has a
message ready, and a queue is described exactly when it has. -/
theorem run_shows_iff (start : b.Start) (ops : List BrokerQueueOp) :
    let after := run step b ops
    after.listQueues.Nodup ∧ (after.ListsAll ↔ ∀ name ∈ after.listQueues, after.Stocked name) ∧
      ∀ name, after.Describes name ↔ after.Stocked name := by
  intro after
  have preserved : ∀ b op, Sound b → Sound (b.step op) := fun _ op sound => sound.step op
  have sound : after.Sound := run_preserves preserved start.sound ops
  exact ⟨sound.listQueues_nodup, sound.listsAll_iff, fun _ => describes_iff⟩

/-! ### A queue with its only message in flight -/

def noQueues : Queues where
  messages n := { topic := "t", value := [], id := toString n }

theorem noQueues_start : noQueues.Start := ⟨rfl, rfl⟩

/-- Two messages go into a queue of either kind; the first queue hands its message
out. -/
def emptyingOps : List BrokerQueueOp :=
  [.createQueue "jobs" 0 30 false, .createQueue "urgent" 0 30 true, .enqueue 0 "jobs" 0,
    .enqueue 0 "urgent" 1, .call "jobs" (.pop 1 none)]

theorem emptyingOps_shows_iff :
    let after := run step noQueues emptyingOps
    after.listQueues.Nodup ∧ (after.ListsAll ↔ ∀ name ∈ after.listQueues, after.Stocked name) ∧
      ∀ name, after.Describes name ↔ after.Stocked name :=
  run_shows_iff noQueues_start emptyingOps

/-- The broker has both queues, and the administrator sees the second one only. -/
theorem emptyingOps_hidden :
    let after := run step noQueues emptyingOps
    after.listQueues = ["jobs", "urgent"] ∧
      (AdminManager.listQueues after).map QueueSnapshot.name = ["urgent"] ∧
      AdminManager.describeQueue after "jobs" = none ∧ ¬ after.ListsAll ∧ ¬ after.Describes "jobs" := by
  intro after
  have listed : after.listQueues = ["jobs", "urgent"] := by decide +kernel
  have shown : (AdminManager.listQueues after).map QueueSnapshot.name = ["urgent"] := by decide +kernel
  have missing : AdminManager.describeQueue after "jobs" = none :=
    Option.isNone_iff_eq_none.mp (by decide +kernel)
  refine ⟨listed, shown, missing, fun all => ?_, fun described => ?_⟩
  · have lengths := all.length_eq
    rw [← List.length_map QueueSnapshot.name, shown, listed] at lengths
    cases lengths
  · apply described.mp missing
    rw [listed]
    exact List.mem_cons_self ..

end Queues

end BrokerLite
