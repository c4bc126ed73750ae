/-
# Store.Partition -- the append-only log of one partition

A `Partition` is the record behind one partition object; its log holds
references into the message table, because `append` stores the caller's object
and writes its partition, offset and broker timestamp.  A `Store` is the message
table together with the table of partition objects, indexed by `PartitionRef`:
two partition objects may print the same topic and id (a topic deleted and
created again) and are still different partitions.

Reading computes a list position from the first record's offset; the three
removals (`applyRetention`, `compact`, `clear`) only ever drop records.
-/
import BrokerLite.Store.Message
import BrokerLite.Theory.Slice
import BrokerLite.Theory.OffsetLog
import Mathlib.Logic.Function.Basic

namespace BrokerLite

open Theory

set_option autoImplicit false

abbrev PartitionRef := ℕ

structure Partition where
  topic : String
  partitionId : ℤ
  maxSize : ℤ := 0
  retentionMs : ℤ := 0
  log : List MessageRef := []
  nextOffset : ℤ := 0
  committedOffsets : Dict String ℤ := .empty

namespace Partition

/-- The pair under which consumers keep their position. -/
def key (p : Partition) : String × ℤ := (p.topic, p.partitionId)

def currentOffset (p : Partition) : ℤ := p.nextOffset

def earliestOffset (messages : MessageTable) (p : Partition) : ℤ :=
  match p.log with
  | [] => p.nextOffset
  | first :: _ => (messages first).offset

def isFull (p : Partition) : Bool := 0 < p.maxSize ∧ p.maxSize ≤ p.log.length

def read (messages : MessageTable) (p : Partition) (offset maxMessages : ℤ) : List MessageRef :=
  match p.log with
  | [] => []
  | first :: _ =>
      let baseOffset := (messages first).offset
      let startIdx := offset - baseOffset
      let startIdx := if startIdx < 0 then 0 else startIdx
      if p.log.length ≤ startIdx then []
      else
        let endIdx := min (startIdx + maxMessages) p.log.length
        slice p.log startIdx endIdx

def readAt (messages : MessageTable) (p : Partition) (offset : ℤ) : Option MessageRef :=
  match p.log with
  | [] => none
  | first :: _ =>
      let baseOffset := (messages first).offset
      let idx := offset - baseOffset
      if 0 ≤ idx ∧ idx < p.log.length then p.log[idx.toNat]? else none

def commitOffset (p : Partition) (groupId : String) (offset : ℤ) : Partition :=
  { p with committedOffsets := p.committedOffsets.set groupId offset }

def getCommittedOffset (p : Partition) (groupId : String) : ℤ :=
  p.committedOffsets.getD groupId 0

/-! ## Removals: the number removed, and the partition left -/

def applyRetention (now : Timestamp) (messages : MessageTable) (p : Partition) : ℕ × Partition :=
  if p.retentionMs ≤ 0 then (0, p)
  else
    let cutoff := now - p.retentionMs / 1000
    let kept := p.log.filter fun m => cutoff ≤ (messages m).brokerTimestamp
    (p.log.length - kept.length, { p with log := kept })

/-- The position of the last record of every key. -/
def latestByKey (messages : MessageTable) (log : List MessageRef) : Dict String ℕ :=
  log.zipIdx.foldl (fun latest entry =>
    match (messages entry.1).key with
    | none => latest
    | some key => latest.set key entry.2) .empty

def compact (messages : MessageTable) (p : Partition) : ℕ × Partition :=
  let latest := latestByKey messages p.log
  let kept := p.log.zipIdx.filter fun entry =>
    match (messages entry.1).key with
    | none => true
    | some key => latest.get? key = some entry.2
  (p.log.length - kept.length, { p with log := kept.map Prod.fst })

def clear (p : Partition) : Partition := { p with log := [] }

end Partition

/-- The message objects and the partition objects. -/
structure Store where
  messages : MessageTable
  partitions : PartitionRef → Partition

namespace Store

def offsetOf (s : Store) (m : MessageRef) : ℤ := (s.messages m).offset

/-- The records of partition `p`, oldest first. -/
def logOf (s : Store) (p : PartitionRef) : List MessageRef := (s.partitions p).log

def modifyPartition (s : Store) (p : PartitionRef) (f : Partition → Partition) : Store :=
  { s with partitions := Function.update s.partitions p (f (s.partitions p)) }

/-- The store after `m` was stored as the next record of `p`. -/
def appended (now : Timestamp) (s : Store) (p : PartitionRef) (m : MessageRef) : Store :=
  let partition := s.partitions p
  let stamped := { s.messages m with
    partition := partition.partitionId, offset := partition.nextOffset, brokerTimestamp := now }
  let grown := { partition with
    log := partition.log ++ [m], nextOffset := partition.nextOffset + 1 }
  { messages := Function.update s.messages m stamped
    partitions := Function.update s.partitions p grown }

def append (now : Timestamp) (s : Store) (p : PartitionRef) (m : MessageRef) :
    Except Raised ℤ × Store :=
  let partition := s.partitions p
  if partition.isFull then
    (.error (.valueError (.partitionFull partition.topic partition.partitionId partition.maxSize)), s)
  else (.ok partition.nextOffset, s.appended now p m)

def applyRetention (now : Timestamp) (s : Store) (p : PartitionRef) : ℕ × Store :=
  (((s.partitions p).applyRetention now s.messages).1,
    s.modifyPartition p fun partition => (partition.applyRetention now s.messages).2)

def compact (s : Store) (p : PartitionRef) : ℕ × Store :=
  (((s.partitions p).compact s.messages).1,
    s.modifyPartition p fun partition => (partition.compact s.messages).2)

def clear (s : Store) (p : PartitionRef) : Store := s.modifyPartition p Partition.clear

def commitOffset (s : Store) (p : PartitionRef) (groupId : String) (offset : ℤ) : Store :=
  s.modifyPartition p fun partition => partition.commitOffset groupId offset

/-! ## What each field becomes -/

@[simp] theorem modifyPartition_messages (s : Store) (p : PartitionRef) (f : Partition → Partition) :
    (s.modifyPartition p f).messages = s.messages := rfl

@[simp] theorem modifyPartition_offsetOf (s : Store) (p : PartitionRef) (f : Partition → Partition) :
    (s.modifyPartition p f).offsetOf = s.offsetOf := rfl

theorem modifyPartition_partitions (s : Store) (p q : PartitionRef) (f : Partition → Partition) :
    (s.modifyPartition p f).partitions q = if q = p then f (s.partitions p) else s.partitions q := by
  simp [modifyPartition, Function.update_apply]

section Append

variable (now : Timestamp) (s : Store) (p q : PartitionRef) (m n : MessageRef)

theorem appended_logOf :
    (s.appended now p m).logOf q = if q = p then s.logOf p ++ [m] else s.logOf q := by
  by_cases same : q = p <;> simp [appended, logOf, same]

theorem appended_nextOffset : ((s.appended now p m).partitions q).nextOffset =
    if q = p then (s.partitions p).nextOffset + 1 else (s.partitions q).nextOffset := by
  by_cases same : q = p <;> simp [appended, same]

@[simp] theorem appended_key :
    ((s.appended now p m).partitions q).key = (s.partitions q).key := by
  by_cases same : q = p <;> simp [appended, same, Partition.key]

@[simp] theorem appended_committed :
    ((s.appended now p m).partitions q).committedOffsets = (s.partitions q).committedOffsets := by
  by_cases same : q = p <;> simp [appended, same]

@[simp] theorem appended_offsetOf_self :
    (s.appended now p m).offsetOf m = (s.partitions p).nextOffset := by
  simp [appended, offsetOf]

theorem appended_messages_of_ne (other : n ≠ m) :
    (s.appended now p m).messages n = s.messages n := by
  simp [appended, other]

theorem appended_offsetOf_of_ne (other : n ≠ m) :
    (s.appended now p m).offsetOf n = s.offsetOf n := by
  rw [offsetOf, appended_messages_of_ne now s p m n other, offsetOf]

theorem append_of_full (full : (s.partitions p).isFull = true) : s.append now p m =
    (.error (.valueError (.partitionFull (s.partitions p).topic (s.partitions p).partitionId
      (s.partitions p).maxSize)), s) := if_pos full

theorem append_of_room (room : (s.partitions p).isFull = false) :
    s.append now p m = (.ok (s.partitions p).nextOffset, s.appended now p m) :=
  if_neg (by simp [room])

/-- A full partition refuses and nothing changes; otherwise the next offset is
returned and the message stored under it. -/
theorem append_cases :
    (∃ error, s.append now p m = (.error (.valueError error), s)) ∨
      s.append now p m = (.ok (s.partitions p).nextOffset, s.appended now p m) := by
  cases full : (s.partitions p).isFull with
  | true => exact .inl ⟨_, s.append_of_full now p m full⟩
  | false => exact .inr (s.append_of_room now p m full)

end Append

/-- `t` differs from `s` in committed offsets only. -/
structure SameLogs (s t : Store) : Prop where
  messages : t.messages = s.messages
  logOf : t.logOf = s.logOf
  nextOffset : ∀ p, (t.partitions p).nextOffset = (s.partitions p).nextOffset
  key : ∀ p, (t.partitions p).key = (s.partitions p).key

namespace SameLogs

variable {s t u : Store}

theorem refl (s : Store) : s.SameLogs s := ⟨rfl, rfl, fun _ => rfl, fun _ => rfl⟩

theorem trans (first : s.SameLogs t) (second : t.SameLogs u) : s.SameLogs u :=
  ⟨second.messages.trans first.messages, second.logOf.trans first.logOf,
    fun p => (second.nextOffset p).trans (first.nextOffset p),
    fun p => (second.key p).trans (first.key p)⟩

theorem offsetOf (same : s.SameLogs t) : t.offsetOf = s.offsetOf := by
  funext m
  simp only [Store.offsetOf, same.messages]

end SameLogs

section Commit

variable (s : Store) (p q : PartitionRef) (groupId g : String) (offset : ℤ)

theorem commitOffset_sameLogs : s.SameLogs (s.commitOffset p groupId offset) := by
  refine ⟨rfl, funext fun q => ?_, fun q => ?_, fun q => ?_⟩
  all_goals
    simp only [Store.logOf, commitOffset, modifyPartition_partitions]
    split
    · next same => rw [same]; rfl
    · rfl

theorem commitOffset_getCommittedOffset :
    ((s.commitOffset p groupId offset).partitions q).getCommittedOffset g =
      if q = p ∧ g = groupId then offset else (s.partitions q).getCommittedOffset g := by
  rw [commitOffset, modifyPartition_partitions]
  by_cases same : q = p
  · subst same
    by_cases group : g = groupId
    · simp [group, Partition.getCommittedOffset, Partition.commitOffset]
    · simp [group, Partition.getCommittedOffset, Partition.commitOffset,
        Dict.getD_set_of_ne _ group]
  · rw [if_neg same, if_neg fun both => same both.1]

end Commit

end Store

/-! ## A removal only drops records -/

/-- `t` is `s` after records were dropped from its logs: the message objects,
the counters and the names are those of `s`. -/
structure Store.Trimmed (s t : Store) : Prop where
  messages : t.messages = s.messages
  log : ∀ p, (t.logOf p).Sublist (s.logOf p)
  nextOffset : ∀ p, (t.partitions p).nextOffset = (s.partitions p).nextOffset
  key : ∀ p, (t.partitions p).key = (s.partitions p).key
  committed : ∀ p, (t.partitions p).committedOffsets = (s.partitions p).committedOffsets

namespace Store

theorem trimmed_modify {s : Store} {p : PartitionRef} {f : Partition → Partition}
    (log : (f (s.partitions p)).log.Sublist (s.logOf p))
    (next : (f (s.partitions p)).nextOffset = (s.partitions p).nextOffset)
    (key : (f (s.partitions p)).key = (s.partitions p).key)
    (committed : (f (s.partitions p)).committedOffsets = (s.partitions p).committedOffsets) :
    s.Trimmed (s.modifyPartition p f) where
  messages := rfl
  log q := by
    rw [logOf, modifyPartition_partitions]
    split
    · next same => exact same ▸ log
    · exact List.Sublist.refl _
  nextOffset q := by rw [modifyPartition_partitions]; split <;> simp_all
  key q := by rw [modifyPartition_partitions]; split <;> simp_all
  committed q := by rw [modifyPartition_partitions]; split <;> simp_all

theorem applyRetention_trimmed (now : Timestamp) (s : Store) (p : PartitionRef) :
    s.Trimmed (s.applyRetention now p).2 := by
  show s.Trimmed (s.modifyPartition p fun partition => (partition.applyRetention now s.messages).2)
  refine trimmed_modify ?_ ?_ ?_ ?_ <;> unfold Partition.applyRetention
  · split
    · exact List.Sublist.refl _
    · exact List.filter_sublist
  all_goals split <;> rfl

theorem zipIdx_filter_sublist (log : List MessageRef) (keep : MessageRef × ℕ → Bool) :
    ((log.zipIdx.filter keep).map Prod.fst).Sublist log := by
  have dropped := (List.filter_sublist (p := keep) (l := log.zipIdx)).map Prod.fst
  rwa [List.zipIdx_map_fst] at dropped

theorem compact_trimmed (s : Store) (p : PartitionRef) : s.Trimmed (s.compact p).2 := by
  show s.Trimmed (s.modifyPartition p fun partition => (partition.compact s.messages).2)
  exact trimmed_modify (zipIdx_filter_sublist _ _) rfl rfl rfl

theorem clear_trimmed (s : Store) (p : PartitionRef) : s.Trimmed (s.clear p) :=
  trimmed_modify (List.nil_sublist _) rfl rfl rfl

end Store

end BrokerLite
