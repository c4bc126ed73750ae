/-
# Queue.Redelivery -- what a priority queue does with a message that comes back

A `RedeliveryRun` notes for every message in line by which enqueue it came into
the queue and whether it has been handed out since and come back.  A message that comes
back goes to the end of its priority, behind what was enqueued after it.

`run_keepsPlace_iff`: returned messages keep their place in the runs in which
nothing comes back behind a message of its priority that was enqueued after it.
-/
import BrokerLite.Queue.PriorityOrder

namespace BrokerLite

open Theory

set_option autoImplicit false

/-- A ready message, the number of the enqueue it came by, and whether it has come back. -/
structure Waiting where
  message : MessageRef
  turn : ℕ
  returned : Bool
  deriving DecidableEq

/-- `turnOf` is the turn of what is in flight under an id. -/
structure RedeliveryRun where
  messages : MessageTable
  queue : PriorityQueue
  line : List Waiting := []
  enqueues : ℕ := 0
  turnOf : String → ℕ := fun _ => 0

namespace RedeliveryRun

def priorityOf (r : RedeliveryRun) (w : Waiting) : ℤ := (r.messages w.message).priority

/-- What comes back from under the ids. -/
def givenBack (r : RedeliveryRun) (ids : List String) : List Waiting :=
  ids.filterMap fun id => (r.queue.inFlight.get? id).map fun e =>
    { message := e.1, turn := r.turnOf id, returned := true }

def step (r : RedeliveryRun) : QueueOp → RedeliveryRun
  | .enqueue now m =>
      match r.queue.enqueue r.messages now m with
      | .error _ => r
      | .ok (messages, queue) =>
          { r with
            messages, queue
            line := r.line ++ [{ message := m, turn := r.enqueues, returned := false }]
            enqueues := r.enqueues + 1 }
  | .requeueTimedOut now =>
      { r with
        queue := (r.queue.requeueTimedOut r.messages now).2
        line := r.line ++ r.givenBack (Visibility.expired now r.queue.inFlight) }
  | .pop now timeout =>
      match r.queue.pop r.messages now timeout with
      | (none, queue) => { r with queue }
      | (some m, queue) =>
          let taken := r.line.find? (·.message = m)
          { r with
            queue
            line := r.line.eraseP (·.message = m)
            turnOf := Function.update r.turnOf (r.messages m).id (taken.elim 0 Waiting.turn) }
  | .acknowledge messageId => { r with queue := (r.queue.acknowledge messageId).2 }
  | .nack messageId =>
      { r with
        queue := (r.queue.nack r.messages messageId).2
        line := r.line ++ r.givenBack [messageId] }
  | .purge => r

/-- As the constructor leaves the queue. -/
structure Start (r : RedeliveryRun) : Prop where
  heap : r.queue.heap.entries = []
  inFlight : r.queue.inFlight = .empty
  line : r.line = []

/-! ## Keeping one's place -/

/-- What the pops take, one after the other. -/
def drain : RedeliveryRun → List (Timestamp × Option Timestamp) → List Waiting
  | _, [] => []
  | r, (now, timeout) :: pops =>
      match (r.queue.pop r.messages now timeout).1 with
      | none => []
      | some m => (r.line.find? (·.message = m)).toList ++ drain (r.step (.pop now timeout)) pops

/-- If the later one has come back, the first one was not enqueued after it. -/
def InPlace (first later : Waiting) : Prop := later.returned = true → first.turn ≤ later.turn

/-- However the queue is emptied, a message that has come back is dequeued before every one
of its priority that was enqueued after it. -/
def KeepsPlace (r : RedeliveryRun) : Prop :=
  ∀ pops, pops.length = r.line.length →
    (r.drain pops).Pairwise fun first later => r.priorityOf first = r.priorityOf later →
      InPlace first later

/-- No message of the same priority that is in line, or comes back before it, was
enqueued after one that comes back. -/
def InTurn (r : RedeliveryRun) (back : List Waiting) : Prop :=
  (∀ w ∈ r.line, ∀ b ∈ back, r.priorityOf w = r.priorityOf b → w.turn ≤ b.turn) ∧
    back.Pairwise fun b c => r.priorityOf b = r.priorityOf c → b.turn ≤ c.turn

/-- Nothing is asked of the operation but of one that gives messages back. -/
def ReturnsInTurn (r : RedeliveryRun) : QueueOp → Prop
  | .nack messageId => r.InTurn (r.givenBack [messageId])
  | .requeueTimedOut now => r.InTurn (r.givenBack (Visibility.expired now r.queue.inFlight))
  | _ => True

instance (r : RedeliveryRun) (back : List Waiting) : Decidable (r.InTurn back) :=
  inferInstanceAs (Decidable (_ ∧ List.Pairwise _ back))

instance (r : RedeliveryRun) : DecidablePred r.ReturnsInTurn
  | .nack messageId => inferInstanceAs (Decidable (r.InTurn (r.givenBack [messageId])))
  | .requeueTimedOut _ => inferInstanceAs (Decidable (r.InTurn (r.givenBack _)))
  | .enqueue .. => isTrue trivial
  | .pop .. => isTrue trivial
  | .acknowledge _ => isTrue trivial
  | .purge => isTrue trivial

/-- The heap holds the line. -/
def Sound (r : RedeliveryRun) : Prop := r.queue.Lines r.messages (r.line.map Waiting.message)

/-- The line keeps the places. -/
def Placed (r : RedeliveryRun) : Prop :=
  r.line.Pairwise fun first later => r.priorityOf first = r.priorityOf later → InPlace first later

variable {r : RedeliveryRun}

theorem givenBack_message (r : RedeliveryRun) (ids : List String) :
    (r.givenBack ids).map Waiting.message =
      ids.filterMap fun id => (r.queue.inFlight.get? id).map Prod.fst := by
  rw [givenBack, List.map_filterMap]
  simp only [Option.map_map, Function.comp_def]

theorem givenBack_returned {ids : List String} {w : Waiting} (member : w ∈ r.givenBack ids) :
    w.returned = true := by
  obtain ⟨id, -, made⟩ := List.mem_filterMap.mp member
  obtain ⟨e, -, rfl⟩ := Option.map_eq_some_iff.mp made
  rfl

/-! ## One step -/

theorem step_priorityOf (r : RedeliveryRun) (op : QueueOp) : (r.step op).priorityOf = r.priorityOf := by
  cases op with
  | enqueue now m =>
      cases done : r.queue.enqueue r.messages now m with
      | error raised => rw [step, done]
      | ok result =>
          funext w
          have table := (PriorityQueue.enqueue_spec done).1
          simp only [step, done, priorityOf, table]
          exact MessageTable.stamped_eq Message.priority (fun _ _ => rfl) r.messages now m w.message
  | pop now timeout =>
      rw [step]
      split <;> rfl
  | _ => rfl

/-- A pop takes the first of the highest priority, with its turn. -/
theorem Sound.pop (sound : r.Sound) (now : Timestamp) (timeout : Option Timestamp) :
    ((r.queue.pop r.messages now timeout).1 = none ∧ r.line = [] ∧ r.step (.pop now timeout) = r) ∨
    ∃ w rest, (r.queue.pop r.messages now timeout).1 = some w.message ∧
      Next r.priorityOf r.line w rest ∧ r.line.find? (·.message = w.message) = some w ∧
      (r.step (.pop now timeout)).line = rest ∧ (r.step (.pop now timeout)).Sound := by
  rcases PriorityQueue.Lines.pop sound now timeout with ⟨nothing, empty⟩ | ⟨m, rest, taken, next, lines⟩
  · refine .inl ⟨by rw [nothing], List.map_eq_nil_iff.mp empty, ?_⟩
    rw [step, nothing]
  · obtain ⟨w, rest', next', rfl, same⟩ :=
      Next.transport id Waiting.message (fun n => (r.messages n).priority) (by rw [List.map_id]) next
    have level : ∀ b ∈ r.line, decide (b.message = w.message) = true →
        (r.messages b.message).priority = (r.messages w.message).priority := by
      intro b _ same
      rw [of_decide_eq_true same]
    obtain ⟨erased, found⟩ := next'.eraseP (by simp) level
    have after : (r.step (.pop now timeout)).line = rest' ∧
        (r.step (.pop now timeout)).queue = (r.queue.pop r.messages now timeout).2 ∧
        (r.step (.pop now timeout)).messages = r.messages := by
      rw [step]
      split
      · next queue done =>
          rw [done] at taken
          cases taken
      · next m queue done =>
          rw [done] at taken
          cases taken
          exact ⟨erased, by rw [done], rfl⟩
    obtain ⟨line, queue, messages⟩ := after
    refine .inr ⟨w, rest', taken, next', found, line, ?_⟩
    rw [Sound, line, queue, messages, same, List.map_id]
    exact lines

theorem Sound.step (sound : r.Sound) (op : QueueOp) : (r.step op).Sound := by
  have back : ∀ ids, r.line.map Waiting.message ++
      ids.filterMap (fun id => (r.queue.inFlight.get? id).map Prod.fst) =
        (r.line ++ r.givenBack ids).map Waiting.message := by
    intro ids
    rw [List.map_append, givenBack_message]
  cases op with
  | enqueue now m =>
      cases done : r.queue.enqueue r.messages now m with
      | error raised =>
          rw [RedeliveryRun.step, done]
          exact sound
      | ok result =>
          have lines := PriorityQueue.Lines.enqueue sound done
          rw [RedeliveryRun.step, done]
          show PriorityQueue.Lines _ _ (List.map _ (_ ++ _))
          rw [List.map_append]
          exact lines
  | requeueTimedOut now =>
      have distinct := Visibility.expired_nodup now r.queue.inFlight
      have lines := PriorityQueue.Lines.requeue sound distinct 0
      rw [back] at lines
      exact lines
  | pop now timeout =>
      rcases sound.pop now timeout with ⟨-, -, same⟩ | ⟨w, rest, -, -, -, -, after⟩
      · rw [same]
        exact sound
      · exact after
  | acknowledge id => exact PriorityQueue.Lines.acknowledge sound id
  | nack id =>
      have lines := PriorityQueue.Lines.nack sound id
      rw [back] at lines
      exact lines
  | purge => exact sound

/-- Emptying the queue serves its line. -/
theorem Sound.drain (sound : r.Sound) {pops : List (Timestamp × Option Timestamp)}
    (all : pops.length = r.line.length) : Served r.priorityOf r.line (r.drain pops) := by
  induction pops generalizing r with
  | nil =>
      rw [List.length_eq_zero_iff.mp all.symm]
      exact .nil
  | cons pop pops ih =>
      obtain ⟨now, timeout⟩ := pop
      rcases sound.pop now timeout with ⟨-, empty, -⟩ | ⟨w, rest, taken, next, found, line, after⟩
      · rw [empty] at all
        cases all
      · have later := ih after (by
          rw [line]
          have one := next.perm.length_eq
          rw [List.length_cons] at all one
          omega)
        rw [step_priorityOf, line] at later
        simp only [RedeliveryRun.drain, taken, found, Option.toList_some]
        exact .cons next later

/-- The order of the line is the order of the pops, as far as places are concerned. -/
theorem Sound.keepsPlace_iff (sound : r.Sound) : r.KeepsPlace ↔ r.Placed := by
  constructor
  · intro kept
    have all : (List.replicate r.line.length ((0 : Timestamp), (none : Option Timestamp))).length =
        r.line.length := List.length_replicate
    exact (sound.drain all).pairwise_iff.mp (kept _ all)
  · intro placed pops all
    exact (sound.drain all).pairwise_iff.mpr placed

/-- Messages that come back keep the places if they come back in turn. -/
theorem Placed.append_iff (placed : r.Placed) {back : List Waiting}
    (returned : ∀ b ∈ back, b.returned = true) :
    ((r.line ++ back).Pairwise fun first later => r.priorityOf first = r.priorityOf later →
      InPlace first later) ↔ r.InTurn back := by
  have among : (back.Pairwise fun b c => r.priorityOf b = r.priorityOf c → InPlace b c) ↔
      back.Pairwise fun b c => r.priorityOf b = r.priorityOf c → b.turn ≤ c.turn := by
    apply List.Pairwise.iff_of_mem
    intro b c _ member
    simp [InPlace, returned c member]
  rw [List.pairwise_append, among, InTurn]
  constructor
  · rintro ⟨-, later, across⟩
    exact ⟨fun w inLine b member same => across w inLine b member same (returned b member), later⟩
  · rintro ⟨across, later⟩
    exact ⟨placed, later, fun w inLine b member same _ => across w inLine b member same⟩

theorem Placed.step_iff (placed : r.Placed) (sound : r.Sound) (op : QueueOp) :
    (r.step op).Placed ↔ r.ReturnsInTurn op := by
  unfold Placed
  rw [step_priorityOf]
  cases op with
  | enqueue now m =>
      refine iff_of_true ?_ trivial
      cases done : r.queue.enqueue r.messages now m with
      | error raised =>
          rw [step, done]
          exact placed
      | ok result =>
          rw [step, done]
          refine List.pairwise_append.mpr ⟨placed, List.pairwise_singleton _ _, ?_⟩
          intro w _ b last _ returned
          rw [List.mem_singleton.mp last] at returned
          cases returned
  | requeueTimedOut now => exact placed.append_iff fun b member => givenBack_returned member
  | pop now timeout =>
      refine iff_of_true ?_ trivial
      rcases sound.pop now timeout with ⟨-, -, same⟩ | ⟨w, rest, -, next, -, line, -⟩
      · rw [same]
        exact placed
      · rw [line]
        exact List.Pairwise.sublist next.sublist placed
  | acknowledge id => exact iff_of_true placed trivial
  | nack id => exact placed.append_iff fun b member => givenBack_returned member
  | purge => exact iff_of_true placed trivial

/-! ## Over whole runs -/

/-- **Where redelivered messages keep their place.**  In every state of a run they do,
exactly if nothing comes back behind a message of its priority that was enqueued after it. -/
theorem run_keepsPlace_iff (start : r.Start) (ops : List QueueOp) :
    (∀ before, before <+: ops → (run step r before).KeepsPlace) ↔ Guarded step ReturnsInTurn r ops := by
  have empty : r.Sound := by
    rw [Sound, start.line]
    exact .of_empty start.heap
  have preserved : ∀ (s : RedeliveryRun) op, s.Sound → (s.step op).Sound :=
    fun _ op sound => sound.step op
  have placed : r.Placed := by
    rw [Placed, start.line]
    exact .nil
  rw [← forall_prefix_iff_guarded preserved (fun s op sound placed => placed.step_iff sound op) empty
    placed]
  have sound : ∀ before, (run step r before).Sound := run_preserves preserved empty
  simp only [fun before => (sound before).keepsPlace_iff]

/-- An empty priority queue; all messages have one priority. -/
def evenStart : RedeliveryRun where
  messages n := { topic := "t", value := [], id := toString n }
  queue := { name := "q" }

theorem evenStart_start : evenStart.Start := ⟨rfl, rfl, rfl⟩

/-- Message 0 is handed out and put back before message 1 comes. -/
def earlyOps : List QueueOp := [.enqueue 0 0, .pop 1 none, .nack "0", .enqueue 2 1]

theorem earlyOps_keepsPlace_iff :
    (∀ before, before <+: earlyOps → (run step evenStart before).KeepsPlace) ↔
      Guarded step ReturnsInTurn evenStart earlyOps :=
  run_keepsPlace_iff evenStart_start earlyOps

/-- Message 0 is handed out and put back when message 1 is in line. -/
def overtakenOps : List QueueOp := [.enqueue 0 0, .enqueue 1 1, .pop 2 none, .nack "0"]

theorem overtakenOps_lose_place :
    ¬ ∀ before, before <+: overtakenOps → (run step evenStart before).KeepsPlace := by
  intro kept
  have ordered := kept overtakenOps (List.prefix_refl _) [(3, none), (4, none)] (by decide +kernel)
  have popped : (run step evenStart overtakenOps).drain [(3, none), (4, none)] =
      [{ message := 1, turn := 1, returned := false }, { message := 0, turn := 0, returned := true }] := by
    decide +kernel
  rw [popped, List.pairwise_pair] at ordered
  exact absurd (ordered (by decide +kernel) rfl) (by decide)

end RedeliveryRun

end BrokerLite
