/-
# Consume.Consumer -- positions, polling and committing of one consumer

A consumer keeps a position for every `(topic, partition id)` it ever was
assigned.  `assign` starts a position at the group's committed offset unless one
is already kept; `revoke` keeps them all.  `poll` reads its partitions one after
another, each up to the same quota, moves every position past what it read, and
returns the first `limit` messages.

`poll` returns messages; the model tags each with the partition it was read
from, which the program forgets.  Every call of `time.time()` is a parameter.
-/
import BrokerLite.Store.PartitionLog

namespace BrokerLite

open Theory

set_option autoImplicit false

structure ConsumerConfig where
  groupId : String := ""
  autoCommit : Bool := true
  autoCommitInterval : Timestamp := 5
  maxPollMessages : ℤ := 100
  sessionTimeout : Timestamp := 30

/-- Positions by `(topic, partition id)`: the next offset to read. -/
abbrev Positions := Dict (String × ℤ) ℤ

structure Consumer where
  consumerId : String
  config : ConsumerConfig := {}
  assignedPartitions : List PartitionRef := []
  offsets : Positions := .empty
  lastPoll : Timestamp := 0
  lastCommit : Timestamp := 0
  totalConsumed : ℕ := 0
  active : Bool := true

/-- The clock readings of one poll: at its start, at the auto-commit check, and
at the commit. -/
structure PollTimes where
  started : Timestamp
  checked : Timestamp
  committed : Timestamp

/-- A message as `poll` finds it, with the partition it was read from. -/
abbrev Entry := PartitionRef × MessageRef

namespace Consumer

def position (c : Consumer) (key : String × ℤ) : ℤ := c.offsets.getD key 0

/-- The loop of `assign`: a partition without a kept position starts at the
group's committed offset. -/
def openPositions (partitions : PartitionRef → Partition) (groupId : String) :
    List PartitionRef → Positions → Positions
  | [], offsets => offsets
  | p :: rest, offsets =>
      let partition := partitions p
      openPositions partitions groupId rest
        (if offsets.contains partition.key then offsets
        else offsets.set partition.key (partition.getCommittedOffset groupId))

def assign (partitions : PartitionRef → Partition) (c : Consumer) (assigned : List PartitionRef) :
    Consumer :=
  { c with
    assignedPartitions := assigned
    offsets := openPositions partitions c.config.groupId assigned c.offsets }

def revoke (c : Consumer) : Consumer := { c with assignedPartitions := [] }

def isAlive (now : Timestamp) (c : Consumer) : Bool :=
  if !c.active then false else now - c.lastPoll < c.config.sessionTimeout

/-- The position after `batch` was read from `position`. -/
def advance (s : Store) (position : ℤ) (batch : List MessageRef) : ℤ :=
  match batch.getLast? with
  | none => position
  | some last => s.offsetOf last + 1

/-- The loop of `poll`: read every partition from its position, at most
`perPartition` messages each. -/
def readPartitions (s : Store) (perPartition : ℤ) :
    List PartitionRef → Positions → List Entry × Positions
  | [], offsets => ([], offsets)
  | p :: rest, offsets =>
      let partition := s.partitions p
      let offset := offsets.getD partition.key 0
      let batch := partition.read s.messages offset perPartition
      let moved := if batch = [] then offsets else offsets.set partition.key (advance s offset batch)
      let later := readPartitions s perPartition rest moved
      (batch.map (fun m => (p, m)) ++ later.1, later.2)

/-- The loop of `_do_commit`. -/
def commitPartitions (groupId : String) (offsets : Positions) : List PartitionRef → Store → Store
  | [], s => s
  | p :: rest, s =>
      commitPartitions groupId offsets rest
        (s.commitOffset p groupId (offsets.getD (s.partitions p).key 0))

/-- `_do_commit`: the committed positions by key, the store and the consumer. -/
def doCommit (now : Timestamp) (s : Store) (c : Consumer) : Positions × Store × Consumer :=
  let committed := c.assignedPartitions.foldl (fun committed p =>
    let key := (s.partitions p).key
    committed.set key (c.offsets.getD key 0)) .empty
  (committed, commitPartitions c.config.groupId c.offsets c.assignedPartitions s,
    { c with lastCommit := now })

def commit (now : Timestamp) (s : Store) (c : Consumer) : Positions × Store × Consumer :=
  c.doCommit now s

def close (now : Timestamp) (s : Store) (c : Consumer) : Store × Consumer :=
  let done := c.doCommit now s
  (done.2.1, { done.2.2 with active := false })

/-- `max_messages or self.config.max_poll_messages`. -/
def pollLimit (c : Consumer) (maxMessages : Option ℤ) : ℤ :=
  orDefault maxMessages c.config.maxPollMessages

/-- The quota of each partition in a poll. -/
def perPartition (c : Consumer) (limit : ℤ) : ℤ := max 1 (limit / c.assignedPartitions.length)

def poll (times : PollTimes) (s : Store) (c : Consumer) (maxMessages : Option ℤ) :
    List Entry × Store × Consumer :=
  let limit := c.pollLimit maxMessages
  let c := { c with lastPoll := times.started }
  if c.assignedPartitions = [] then ([], s, c)
  else
    let loop := readPartitions s (c.perPartition limit) c.assignedPartitions c.offsets
    let c := { c with offsets := loop.2, totalConsumed := c.totalConsumed + loop.1.length }
    let done :=
      if c.config.autoCommit ∧ c.config.autoCommitInterval ≤ times.checked - c.lastCommit then
        (c.doCommit times.committed s).2
      else (s, c)
    (sliceTo loop.1 limit, done)

/-! ## Seeking -/

def seek (c : Consumer) (topic : String) (partitionId offset : ℤ) : Consumer :=
  { c with offsets := c.offsets.set (topic, partitionId) offset }

/-- The loop of both `seek_to_beginning` and `seek_to_end`. -/
def seekAll (s : Store) (target : Partition → ℤ) (c : Consumer) : Consumer :=
  { c with
    offsets := c.assignedPartitions.foldl
      (fun offsets p => offsets.set (s.partitions p).key (target (s.partitions p))) c.offsets }

def seekToBeginning (s : Store) (c : Consumer) : Consumer :=
  c.seekAll s (Partition.earliestOffset s.messages)

def seekToEnd (s : Store) (c : Consumer) : Consumer := c.seekAll s Partition.currentOffset

/-! ## What `assign` does to the positions -/

section Assign

variable {partitions : PartitionRef → Partition} {groupId : String}

/-- A kept position stays. -/
theorem openPositions_of_kept {key : String × ℤ} {v : ℤ} (ps : List PartitionRef) {offsets : Positions}
    (kept : offsets.get? key = some v) :
    (openPositions partitions groupId ps offsets).get? key = some v := by
  induction ps generalizing offsets with
  | nil => exact kept
  | cons p rest ih =>
      apply ih
      split
      · exact kept
      · next absent =>
          have other : key ≠ (partitions p).key := by
            rintro rfl
            exact absent (by simp [Dict.contains, kept])
          rw [Dict.get?_set_of_ne _ other, kept]

/-- A position after `assign` was kept, or is the committed offset of an
assigned partition whose key had none. -/
theorem openPositions_cases {key : String × ℤ} {v : ℤ} (ps : List PartitionRef) {offsets : Positions}
    (found : (openPositions partitions groupId ps offsets).get? key = some v) :
    offsets.get? key = some v ∨ (offsets.get? key = none ∧
      ∃ p ∈ ps, (partitions p).key = key ∧ v = (partitions p).getCommittedOffset groupId) := by
  induction ps generalizing offsets with
  | nil => exact .inl found
  | cons p rest ih =>
      rw [openPositions] at found
      split at found
      · rcases ih found with kept | ⟨absent, q, member, opened⟩
        · exact .inl kept
        · exact .inr ⟨absent, q, List.mem_cons_of_mem _ member, opened⟩
      · next absent =>
          by_cases same : key = (partitions p).key
          · subst same
            rw [openPositions_of_kept rest (Dict.get?_set_self ..), Option.some.injEq] at found
            have none_ : offsets.get? (partitions p).key = none := by
              simpa [Dict.contains] using absent
            exact .inr ⟨none_, p, List.mem_cons_self, rfl, found.symm⟩
          · rcases ih found with kept | ⟨none_, q, member, opened⟩
            · exact .inl (by rwa [Dict.get?_set_of_ne _ same] at kept)
            · exact .inr ⟨by rwa [Dict.get?_set_of_ne _ same] at none_, q,
                List.mem_cons_of_mem _ member, opened⟩

/-- Every assigned partition has a position afterwards. -/
theorem openPositions_isSome {p : PartitionRef} {ps : List PartitionRef} (offsets : Positions)
    (member : p ∈ ps) :
    ∃ v, (openPositions partitions groupId ps offsets).get? (partitions p).key = some v := by
  induction ps generalizing offsets with
  | nil => cases member
  | cons q rest ih =>
      rcases List.mem_cons.mp member with rfl | later
      · rw [openPositions]
        split
        · next kept =>
            obtain ⟨v, here⟩ := Option.isSome_iff_exists.mp kept
            exact ⟨v, openPositions_of_kept rest here⟩
        · exact ⟨_, openPositions_of_kept rest (Dict.get?_set_self ..)⟩
      · exact ih _ later

end Assign

/-! ## What the loops leave alone -/

section Commit

variable (groupId : String) (offsets : Positions) (ps : List PartitionRef) (s : Store)

theorem commitPartitions_sameLogs : s.SameLogs (commitPartitions groupId offsets ps s) := by
  induction ps generalizing s with
  | nil => exact .refl s
  | cons p rest ih => exact (s.commitOffset_sameLogs ..).trans (ih _)

/-- What a group has committed after the loop: the positions of the committing
consumer on its own partitions, and what it was elsewhere. -/
theorem commitPartitions_getCommittedOffset (q : PartitionRef) (g : String) :
    ((commitPartitions groupId offsets ps s).partitions q).getCommittedOffset g =
      if q ∈ ps ∧ g = groupId then offsets.getD (s.partitions q).key 0
      else (s.partitions q).getCommittedOffset g := by
  induction ps generalizing s with
  | nil => simp [commitPartitions]
  | cons p rest ih =>
      rw [commitPartitions, ih, (s.commitOffset_sameLogs ..).key, Store.commitOffset_getCommittedOffset]
      by_cases later : q ∈ rest ∧ g = groupId
      · simp [later]
      · rw [if_neg later]
        by_cases here : q = p ∧ g = groupId
        · simp [here]
        · have absent : ¬ (q ∈ p :: rest ∧ g = groupId) := by
            rw [List.mem_cons]
            tauto
          rw [if_neg here, if_neg absent]

end Commit

end Consumer

end BrokerLite
