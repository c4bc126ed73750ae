/-
# Queue.PriorityOrder -- in which order a priority queue hands out

`Lines` says that the heap holds a line of messages: sorted by their sequence
numbers, its entries are the messages in line, all numbered below the next
number, each under its own priority.  Every push puts a message at the end of the
line and every pop takes the first of the highest priority out, so that a run of
the queue serves a line to which messages come by enqueue, nack and expiry.

The messages in the heap have pairwise different ranks, so that a comparison never
comes down to two messages, which have no order.
-/
import BrokerLite.Queue.Conservation
import BrokerLite.Theory.Line

namespace BrokerLite

open Theory

set_option autoImplicit false

namespace PriorityQueue

/-- The heap holds the messages in line, numbered in that order. -/
def Lines (messages : MessageTable) (q : PriorityQueue) (line : List MessageRef) : Prop :=
  ∃ es : List HeapEntry, es.Perm q.heap.entries ∧ es.map HeapEntry.message = line ∧
    (es.Pairwise fun d e => d.sequence < e.sequence) ∧
    ∀ e ∈ es, e.sequence < q.sequence ∧ e.negPriority = -(messages e.message).priority

namespace Lines

variable {messages : MessageTable} {q : PriorityQueue} {line : List MessageRef}

theorem of_empty (empty : q.heap.entries = []) : Lines messages q [] :=
  ⟨[], by rw [empty], rfl, .nil, by simp⟩

theorem perm (lines : Lines messages q line) :
    line.Perm (q.heap.entries.map HeapEntry.message) := by
  obtain ⟨es, held, rfl, -⟩ := lines
  exact held.map _

theorem congr {messages' : MessageTable} (lines : Lines messages q line)
    (same : ∀ m, (messages' m).priority = (messages m).priority) : Lines messages' q line := by
  obtain ⟨es, held, inLine, ascending, each⟩ := lines
  refine ⟨es, held, inLine, ascending, fun e member => ?_⟩
  rw [same]
  exact each e member

/-- No two entries compare equal, and none equals an entry with the next number. -/
theorem distinct (lines : Lines messages q line) :
    (q.heap.entries.Pairwise fun d e => d.rank ≠ e.rank) ∧
      ∀ e ∈ q.heap.entries, e.sequence < q.sequence := by
  obtain ⟨es, held, -, ascending, each⟩ := lines
  constructor
  · have apart : es.Pairwise fun d e => d.rank ≠ e.rank := by
      apply ascending.imp
      intro d e before same
      have number : d.sequence = e.sequence := congrArg (fun r => (ofLex r).2) same
      omega
    exact (held.pairwise_iff fun differ => differ.symm).mp apart
  · intro e member
    exact (each e (held.mem_iff.mpr member)).1

theorem push (lines : Lines messages q line) (m : MessageRef) :
    Lines messages (q.push messages m) (line ++ [m]) := by
  obtain ⟨es, held, rfl, ascending, each⟩ := lines
  let entry : HeapEntry :=
    { negPriority := -(messages m).priority, sequence := q.sequence, message := m }
  refine ⟨es ++ [entry], ?_, by simp [entry], ?_, ?_⟩
  · have added := (q.heap.push_perm entry).symm
    have moved : (es ++ [entry]).Perm (entry :: es) := List.perm_append_singleton entry es
    exact moved.trans ((held.cons entry).trans added)
  · refine List.pairwise_append.mpr ⟨ascending, List.pairwise_singleton _ _, ?_⟩
    intro d before e last
    rw [List.mem_singleton.mp last]
    exact (each d before).1
  · intro e member
    rcases List.mem_append.mp member with before | last
    · obtain ⟨below, priority⟩ := each e before
      exact ⟨Nat.lt_succ_of_lt below, priority⟩
    · rw [List.mem_singleton.mp last]
      exact ⟨Nat.lt_succ_self _, rfl⟩

/-- The messages that stand under the ids, in their order, come to the end of the line. -/
theorem requeue (lines : Lines messages q line) {ids : List String} (distinct : ids.Nodup) (n : ℕ) :
    Lines messages (PriorityQueue.requeue messages ids n q).2
      (line ++ ids.filterMap fun id => (q.inFlight.get? id).map Prod.fst) := by
  induction ids generalizing n q line with
  | nil => simpa [PriorityQueue.requeue] using lines
  | cons id rest ih =>
      obtain ⟨absent, distinct⟩ := List.nodup_cons.mp distinct
      rw [PriorityQueue.requeue]
      split
      · next missing =>
          rw [List.filterMap_cons, missing]
          exact ih lines distinct n
      · next m expiry found =>
          have pushed : Lines messages
              (PriorityQueue.push messages { q with inFlight := q.inFlight.erase id } m)
              (line ++ [m]) :=
            push (q := { q with inFlight := q.inFlight.erase id }) lines m
          have later := ih pushed distinct (n + 1)
          rw [show (PriorityQueue.push messages { q with inFlight := q.inFlight.erase id } m).inFlight =
            q.inFlight.erase id from rfl, Dict.filterMap_get?_erase _ absent,
            List.append_assoc] at later
          rw [List.filterMap_cons, found]
          exact later

theorem enqueue (lines : Lines messages q line) {now : Timestamp} {m : MessageRef}
    {messages' : MessageTable} {q' : PriorityQueue}
    (done : q.enqueue messages now m = .ok (messages', q')) : Lines messages' q' (line ++ [m]) := by
  unfold PriorityQueue.enqueue at done
  split at done
  · cases done
  · cases done
    have stamped : ∀ n, (messages.stamped now m n).priority = (messages n).priority :=
      MessageTable.stamped_eq Message.priority (fun _ _ => rfl) messages now m
    exact (lines.congr stamped).push m

theorem acknowledge (lines : Lines messages q line) (id : String) :
    Lines messages (q.acknowledge id).2 line := by
  unfold PriorityQueue.acknowledge
  split <;> exact lines

/-- A `nack` is the loop of the requeue step for one id. -/
theorem nack (lines : Lines messages q line) (id : String) :
    Lines messages (q.nack messages id).2
      (line ++ [id].filterMap fun id => (q.inFlight.get? id).map Prod.fst) := by
  have same : (q.nack messages id).2 = (PriorityQueue.requeue messages [id] 0 q).2 := by
    unfold PriorityQueue.nack
    rw [PriorityQueue.requeue]
    split <;> rfl
  rw [same]
  exact lines.requeue (List.nodup_singleton id) 0

/-- **A pop takes the first of the highest priority out of the line.** -/
theorem pop (lines : Lines messages q line) (now : Timestamp) (timeout : Option Timestamp) :
    (q.pop messages now timeout = (none, q) ∧ line = []) ∨
    ∃ m rest, (q.pop messages now timeout).1 = some m ∧
      Next (fun n => (messages n).priority) line m rest ∧
      Lines messages (q.pop messages now timeout).2 rest := by
  obtain ⟨es, held, rfl, ascending, each⟩ := lines
  unfold PriorityQueue.pop
  split
  · next empty =>
      refine .inl ⟨rfl, ?_⟩
      rw [Heap.pop?_eq_none empty] at held
      rw [held.eq_nil, List.map_nil]
  · next entry heap popped =>
      obtain ⟨entries, least⟩ := Heap.pop?_eq_some popped
      have member : entry ∈ es := held.mem_iff.mpr (by rw [entries]; exact List.mem_cons_self)
      have first : ∀ e ∈ es, -e.negPriority < -entry.negPriority ∨
          -e.negPriority = -entry.negPriority ∧ entry.sequence ≤ e.sequence := by
        intro e here
        have ranked := least e (held.mem_iff.mp here)
        rw [HeapEntry.rank, HeapEntry.rank, Prod.Lex.toLex_le_toLex] at ranked
        simp only at ranked
        omega
      obtain ⟨left, next⟩ := Next.of_least ascending member first
      have rest : left.Perm heap.entries := by
        apply List.Perm.cons_inv (a := entry)
        rw [← entries]
        exact next.perm.symm.trans held
      have inLine : Next (fun n => (messages n).priority) (es.map HeapEntry.message) entry.message
          (left.map HeapEntry.message) := by
        apply next.map
        intro e here
        have priority := (each e here).2
        omega
      refine .inr ⟨entry.message, _, rfl, inLine, left, rest, rfl, ?_, fun e here => ?_⟩
      · exact ascending.sublist next.sublist
      · exact each e (next.sublist.subset here)

end Lines

end PriorityQueue

/-! ## Runs -/

/-- A priority queue, and the ready messages in the order in which they came. -/
structure PriorityRun where
  messages : MessageTable
  queue : PriorityQueue
  line : List MessageRef := []

namespace PriorityRun

def priorityOf (r : PriorityRun) (m : MessageRef) : ℤ := (r.messages m).priority

/-- The messages in flight under the ids. -/
def heldUnder (r : PriorityRun) (ids : List String) : List MessageRef :=
  ids.filterMap fun id => (r.queue.inFlight.get? id).map Prod.fst

/-- What enters the heap comes to the end of the line, what a pop returns leaves it.
There is no `purge`. -/
def step (r : PriorityRun) : QueueOp → PriorityRun
  | .enqueue now m =>
      match r.queue.enqueue r.messages now m with
      | .error _ => r
      | .ok (messages, queue) => { messages, queue, line := r.line ++ [m] }
  | .requeueTimedOut now =>
      { r with
        queue := (r.queue.requeueTimedOut r.messages now).2
        line := r.line ++ r.heldUnder (Visibility.expired now r.queue.inFlight) }
  | .pop now timeout =>
      let done := r.queue.pop r.messages now timeout
      { r with queue := done.2, line := done.1.elim r.line r.line.erase }
  | .acknowledge messageId => { r with queue := (r.queue.acknowledge messageId).2 }
  | .nack messageId =>
      { r with
        queue := (r.queue.nack r.messages messageId).2
        line := r.line ++ r.heldUnder [messageId] }
  | .purge => r

/-- As the constructor leaves the queue. -/
structure Start (r : PriorityRun) : Prop where
  heap : r.queue.heap.entries = []
  inFlight : r.queue.inFlight = .empty
  line : r.line = []

/-- The answer is the first of the highest priority in line, and nothing only when the
line is empty. -/
def Takes (r : PriorityRun) (answer : Option MessageRef) : Prop :=
  match answer with
  | none => r.line = []
  | some m => ∃ rest, Next r.priorityOf r.line m rest

/-- The heap holds the line in entries that no two are alike, also with one pushed next;
a pop, and a whole `dequeue` behind its requeue step, takes the first of the highest
priority in line. -/
structure Orderly (r : PriorityRun) : Prop where
  distinct : r.queue.heap.entries.Pairwise fun d e => d.rank ≠ e.rank
  fresh : ∀ e ∈ r.queue.heap.entries, e.sequence ≠ r.queue.sequence
  ready : r.line.Perm (r.queue.heap.entries.map HeapEntry.message)
  pops : ∀ now timeout, r.Takes (r.queue.pop r.messages now timeout).1
  dequeues : ∀ requeueAt now timeout, (r.step (.requeueTimedOut requeueAt)).Takes
    (r.queue.dequeue r.messages requeueAt now timeout).1

/-- The heap holds the line. -/
def Sound (r : PriorityRun) : Prop := r.queue.Lines r.messages r.line

variable {r : PriorityRun}

theorem Sound.takes (sound : r.Sound) (now : Timestamp) (timeout : Option Timestamp) :
    r.Takes (r.queue.pop r.messages now timeout).1 := by
  rcases sound.pop now timeout with ⟨nothing, empty⟩ | ⟨m, rest, taken, next, -⟩
  · rw [nothing]
    exact empty
  · rw [taken]
    exact ⟨rest, next⟩

theorem Sound.step (sound : r.Sound) (op : QueueOp) : (r.step op).Sound := by
  cases op with
  | enqueue now m =>
      cases done : r.queue.enqueue r.messages now m with
      | error raised =>
          rw [PriorityRun.step, done]
          exact sound
      | ok result =>
          rw [PriorityRun.step, done]
          exact sound.enqueue done
  | requeueTimedOut now => exact sound.requeue (Visibility.expired_nodup now r.queue.inFlight) 0
  | pop now timeout =>
      rcases sound.pop now timeout with ⟨nothing, empty⟩ | ⟨m, rest, taken, next, lines⟩
      · rw [PriorityRun.step, nothing]
        exact sound
      · have erased : r.line.erase m = rest := by
          rw [List.erase_eq_eraseP]
          have level : ∀ b ∈ r.line, (m == b) = true →
              (r.messages b).priority = (r.messages m).priority := by
            intro b _ same
            rw [beq_iff_eq.mp same]
          exact (next.eraseP (by simp) level).1
        rw [PriorityRun.step, taken]
        show PriorityQueue.Lines _ _ (r.line.erase m)
        rw [erased]
        exact lines
  | acknowledge id => exact sound.acknowledge id
  | nack id => exact sound.nack id
  | purge => exact sound

theorem Sound.orderly (sound : r.Sound) : r.Orderly where
  distinct := sound.distinct.1
  fresh e member := Nat.ne_of_lt (sound.distinct.2 e member)
  ready := sound.perm
  pops := sound.takes
  dequeues requeueAt now timeout := (sound.step (.requeueTimedOut requeueAt)).takes now timeout

/-- **A priority queue hands out the highest priority first, and under it what came
first.** -/
theorem run_orderly (start : r.Start) (ops : List QueueOp) : (run step r ops).Orderly := by
  have lines : r.Sound := by
    rw [Sound, start.line]
    exact .of_empty start.heap
  have preserved : ∀ (s : PriorityRun) op, s.Sound → (s.step op).Sound := fun _ op sound => sound.step op
  exact (run_preserves preserved lines ops).orderly

/-- An empty priority queue; message 1 has a higher priority than the others. -/
def urgentStart : PriorityRun where
  messages n := { topic := "t", value := [], id := toString n, priority := if n = 1 then 9 else -2 }
  queue := { name := "q" }

/-- Message 0 is handed out, and behind messages 1 and 2 put back in line by its expiry. -/
def urgentOps : List QueueOp :=
  [.enqueue 0 0, .pop 1 none, .enqueue 2 2, .enqueue 3 1, .requeueTimedOut 40]

theorem urgentOps_orderly : (run step urgentStart urgentOps).Orderly :=
  run_orderly ⟨rfl, rfl, rfl⟩ urgentOps

example : (run step urgentStart urgentOps).line = [2, 1, 0] := by decide +kernel

end PriorityRun

end BrokerLite
