/-
# Server.Snapshot -- what `METADATA` and `METRICS` report

The `snapshot` methods of the broker and of what it holds, without the fields
that say when an object was made, and without producers, which no request makes.
There is no snapshot while a stored message has no size: `size_bytes` encodes its
strings, and one of them may have no encoding.
-/
import BrokerLite.Broker.Broker
import BrokerLite.Broker.Queues

namespace BrokerLite

open Theory

set_option autoImplicit false

structure PartitionSnapshot where
  topic : String
  partitionId : ℤ
  currentOffset : ℤ
  earliestOffset : ℤ
  messageCount : ℕ
  sizeBytes : ℕ
  committedOffsets : Dict String ℤ

structure TopicSnapshot where
  name : String
  numPartitions : ℕ
  retentionMs : ℤ
  maxMessageBytes : ℤ
  compactionEnabled : Bool
  totalMessages : ℕ
  totalBytes : ℕ
  subscribers : List String
  partitions : List PartitionSnapshot

structure QueueSnapshot where
  name : String
  depth : ℕ
  inFlight : ℕ
  totalEnqueued : ℕ
  totalDequeued : ℕ
  /-- A priority queue does not report the last two. -/
  totalAcked : Option ℕ
  maxSize : ℤ
  visibilityTimeout : Option Timestamp

structure ConsumerSnapshot where
  consumerId : String
  groupId : String
  assignedPartitions : List String
  offsets : Dict String ℤ
  totalConsumed : ℕ
  active : Bool
  lastPoll : Timestamp

structure GroupSnapshot where
  groupId : String
  strategy : AssignmentStrategy
  generation : ℕ
  memberCount : ℕ
  members : List ConsumerSnapshot
  subscribedTopics : List String
  totalLag : ℤ

structure BrokerSnapshot where
  topics : List (String × TopicSnapshot)
  queues : List (String × QueueSnapshot)
  priorityQueues : List (String × QueueSnapshot)
  consumerGroups : List (String × GroupSnapshot)
  totalMessagesIn : ℕ

/-- The text `f"{topic}-{partition_id}"`. -/
def Partition.label (p : Partition) : String := s!"{p.topic}-{p.partitionId}"

namespace Store

variable (s : Store)

def size (p : PartitionRef) : ℕ := (s.logOf p).length

def sizeBytes (enc : Encoding) (p : PartitionRef) : Option ℕ :=
  (s.logOf p).foldlM (fun total m => ((s.messages m).sizeBytes enc).map (total + ·)) 0

def consumerLag (p : PartitionRef) (groupId : String) : ℤ :=
  max 0 ((s.partitions p).nextOffset - (s.partitions p).getCommittedOffset groupId)

def partitionSnapshot (enc : Encoding) (p : PartitionRef) : Option PartitionSnapshot :=
  let partition := s.partitions p
  (s.sizeBytes enc p).map fun sizeBytes =>
    { topic := partition.topic
      partitionId := partition.partitionId
      currentOffset := partition.nextOffset
      earliestOffset := partition.earliestOffset s.messages
      messageCount := s.size p
      sizeBytes
      committedOffsets := partition.committedOffsets }

end Store

namespace Topic

variable (s : Store) (t : Topic)

def totalMessages : ℕ := t.partitions.foldl (fun total p => total + s.size p) 0

def totalBytes (enc : Encoding) : Option ℕ :=
  t.partitions.foldlM (fun total p => (s.sizeBytes enc p).map (total + ·)) 0

def snapshot (enc : Encoding) : Option TopicSnapshot := do
  let totalBytes ← t.totalBytes s enc
  let partitions ← t.partitions.mapM (s.partitionSnapshot enc)
  some {
    name := t.name
    numPartitions := t.partitions.length
    retentionMs := t.config.retentionMs
    maxMessageBytes := t.config.maxMessageBytes
    compactionEnabled := t.config.compactionEnabled
    totalMessages := t.totalMessages s
    totalBytes
    subscribers := t.subscribers
    partitions }

end Topic

def MessageQueue.snapshot (q : MessageQueue) : QueueSnapshot where
  name := q.name
  depth := q.depth
  inFlight := q.inFlight.length
  totalEnqueued := q.totalEnqueued
  totalDequeued := q.totalDequeued
  totalAcked := some q.totalAcked
  maxSize := q.maxSize
  visibilityTimeout := some q.visibilityTimeout

def PriorityQueue.snapshot (q : PriorityQueue) : QueueSnapshot where
  name := q.name
  depth := q.depth
  inFlight := q.inFlight.length
  totalEnqueued := q.totalEnqueued
  totalDequeued := q.totalDequeued
  totalAcked := none
  maxSize := q.maxSize
  visibilityTimeout := none

/-- Positions under the texts of their keys. -/
def Positions.labelled (offsets : Positions) : Dict String ℤ :=
  offsets.entries.foldl (fun result e => result.set s!"{e.1.1}-{e.1.2}" e.2) .empty

def Consumer.snapshot (s : Store) (c : Consumer) : ConsumerSnapshot where
  consumerId := c.consumerId
  groupId := c.config.groupId
  assignedPartitions := c.assignedPartitions.map fun p => (s.partitions p).label
  offsets := c.offsets.labelled
  totalConsumed := c.totalConsumed
  active := c.active
  lastPoll := c.lastPoll

namespace ConsumerGroup

variable (o : Objects) (g : ConsumerGroup)

/-- The lag of each member, by its id. -/
def consumerLag : Dict String ℤ :=
  g.members.values.foldl (fun lag c => lag.set (o.idOf c)
    ((o.consumers c).assignedPartitions.foldl (fun total p => total + o.consumerLag p g.groupId) 0)) .empty

def totalLag : ℤ := (g.consumerLag o).values.foldl (· + ·) 0

def snapshot : GroupSnapshot where
  groupId := g.groupId
  strategy := g.strategy
  generation := g.generation
  memberCount := g.members.length
  members := g.members.values.map fun c => (o.consumers c).snapshot o.toStore
  subscribedTopics := g.subscribedTopics.keys
  totalLag := g.totalLag o

end ConsumerGroup

/-- `Broker.snapshot`; the two parts of the broker count the messages they took. -/
def Broker.snapshot (enc : Encoding) (b : Broker) (q : Queues) : Option BrokerSnapshot := do
  let topics ← b.topics.entries.mapM fun e => (e.2.snapshot b.toStore enc).map fun taken => (e.1, taken)
  some {
    topics
    queues := q.queues.entries.map (Prod.map id MessageQueue.snapshot)
    priorityQueues := q.priorityQueues.entries.map (Prod.map id PriorityQueue.snapshot)
    consumerGroups := b.consumerGroups.entries.map
      (Prod.map id fun G => (b.groups G).snapshot b.toObjects)
    totalMessagesIn := b.totalMessagesIn + q.totalMessagesIn }

/-! ## When there is a snapshot -/

theorem isSome_foldlM_add {α : Type} (size : α → Option ℕ) (l : List α) (total : ℕ) :
    (l.foldlM (fun total a => (size a).map (total + ·)) total).isSome ↔ ∀ a ∈ l, (size a).isSome := by
  induction l generalizing total with
  | nil => simp
  | cons a rest ih =>
      rw [List.foldlM_cons, List.forall_mem_cons]
      cases size a with
      | none => simp
      | some n => simpa using ih (total + n)

theorem isSome_mapM {α β : Type} (f : α → Option β) (l : List α) :
    (l.mapM f).isSome ↔ ∀ a ∈ l, (f a).isSome := by
  induction l with
  | nil => simp
  | cons a rest ih =>
      rw [List.mapM_cons, List.forall_mem_cons, ← ih]
      cases f a with
      | none => simp
      | some b => cases rest.mapM f <;> simp

theorem Store.sizeBytes_isSome_iff (enc : Encoding) (s : Store) (p : PartitionRef) :
    (s.sizeBytes enc p).isSome ↔ ∀ m ∈ s.logOf p, ((s.messages m).sizeBytes enc).isSome :=
  isSome_foldlM_add _ _ _

/-- Every message that is stored in the topic has a size. -/
def Topic.Sized (enc : Encoding) (s : Store) (t : Topic) : Prop :=
  ∀ p ∈ t.partitions, ∀ m ∈ s.logOf p, ((s.messages m).sizeBytes enc).isSome

instance (enc : Encoding) (s : Store) (t : Topic) : Decidable (t.Sized enc s) :=
  inferInstanceAs (Decidable (∀ p ∈ t.partitions, ∀ m ∈ s.logOf p, _))

theorem Topic.snapshot_isSome_iff (enc : Encoding) (s : Store) (t : Topic) :
    (t.snapshot s enc).isSome ↔ t.Sized enc s := by
  have total : (t.totalBytes s enc).isSome ↔ t.Sized enc s :=
    (isSome_foldlM_add _ _ _).trans (forall₂_congr fun p _ => s.sizeBytes_isSome_iff enc p)
  have partitions : (t.partitions.mapM (s.partitionSnapshot enc)).isSome ↔ t.Sized enc s := by
    refine (isSome_mapM _ _).trans (forall₂_congr fun p _ => ?_)
    rw [Store.partitionSnapshot, Option.isSome_map]
    exact s.sizeBytes_isSome_iff enc p
  rw [← total] at partitions ⊢
  unfold snapshot
  cases sized : t.totalBytes s enc with
  | none => rfl
  | some n =>
      obtain ⟨taken, found⟩ := Option.isSome_iff_exists.mp (partitions.mpr (by rw [sized]; rfl))
      simp [found]

/-- The broker has a snapshot when every stored message has a size. -/
theorem Broker.snapshot_isSome_iff (enc : Encoding) (b : Broker) (q : Queues) :
    (b.snapshot enc q).isSome ↔ ∀ e ∈ b.topics.entries, e.2.Sized enc b.toStore := by
  have topics : (b.topics.entries.mapM fun e : String × Topic =>
      (e.2.snapshot b.toStore enc).map fun taken => (e.1, taken)).isSome ↔
      ∀ e ∈ b.topics.entries, e.2.Sized enc b.toStore := by
    refine (isSome_mapM _ _).trans (forall₂_congr fun e _ => ?_)
    rw [Option.isSome_map]
    exact e.2.snapshot_isSome_iff enc b.toStore
  rw [← topics]
  unfold snapshot
  generalize (b.topics.entries.mapM fun e : String × Topic =>
    (e.2.snapshot b.toStore enc).map fun taken => (e.1, taken)) = topics
  cases topics <;> rfl

end BrokerLite
