/-
# Broker.Routing -- where a topic's messages go

A run publishes messages that name no partition, with and without keys, to one new
topic without size limits.  `Routed` is the invariant: the log of partition `j` is
lane `j` of the messages published, for the digest of the keys and the number of
partitions.  Key affinity, order and balance are what `Theory.Lanes` says of lanes.
-/
import BrokerLite.Broker.Atomicity
import BrokerLite.Theory.Lanes

namespace BrokerLite

open Theory

set_option autoImplicit false

structure RoutingRun where
  store : Store
  topic : Topic
  /-- The messages whose publish returned. -/
  published : List MessageRef := []

namespace RoutingRun

variable {enc : Encoding} {hash : String → ℕ}

/-- One publish, at a clock reading. -/
def step (enc : Encoding) (r : RoutingRun) (op : Timestamp × MessageRef) : RoutingRun :=
  let done := r.topic.publish enc op.1 r.store op.2
  { store := done.2.1
    topic := done.2.2
    published := match done.1 with
      | .ok _ => r.published ++ [op.2]
      | .error _ => r.published }

/-- A topic that was just created. -/
def start (b : Broker) (name : String) (config : TopicConfig) : RoutingRun where
  store := (b.newTopic name config).2.toStore
  topic := (b.newTopic name config).1

/-- The message names no partition. -/
def Unset (r : RoutingRun) (op : Timestamp × MessageRef) : Prop :=
  (r.store.messages op.2).partition < 0

instance (r : RoutingRun) (op : Timestamp × MessageRef) : Decidable (r.Unset op) :=
  inferInstanceAs (Decidable (_ < _))

/-- The partition objects `ps` of the topic hold the lanes of what was published. -/
structure Routed (hash : String → ℕ) (key : MessageRef → Option String) (ps : List PartitionRef)
    (r : RoutingRun) : Prop where
  partitions : r.topic.partitions = ps
  anySize : r.topic.config.maxMessageBytes ≤ 0
  counter : r.topic.roundRobinCounter = (keyless key r.published).length
  unlimited : ∀ p ∈ ps, (r.store.partitions p).maxSize ≤ 0
  logs : ∀ (j : ℕ) p, ps[j]? = some p → r.store.logOf p = lane hash key ps.length r.published j
  keys : ∀ m, (r.store.messages m).key = key m

theorem start_routed (hash : String → ℕ) (b : Broker) (name : String) {config : TopicConfig}
    (anySize : config.maxMessageBytes ≤ 0) (unlimited : config.maxPartitionSize ≤ 0) :
    (start b name config).Routed hash (fun m => (b.messages m).key) (b.newTopic name config).1.partitions := by
  have fresh : ∀ p ∈ (b.newTopic name config).1.partitions,
      (b.newTopic name config).2.partitions p =
        { topic := name, partitionId := p - b.nextPartition, maxSize := config.maxPartitionSize,
          retentionMs := config.retentionMs } := by
    intro p member
    have inside : b.nextPartition ≤ p ∧ p < b.nextPartition + config.numPartitions.toNat := by
      simpa [Broker.newTopic] using member
    simp [Broker.newTopic, inside]
  refine ⟨rfl, anySize, rfl, fun p member => ?_, fun j p found => ?_, fun m => rfl⟩
  · show ((b.newTopic name config).2.partitions p).maxSize ≤ 0
    rw [fresh p member]
    exact unlimited
  · show ((b.newTopic name config).2.partitions p).log = []
    rw [fresh p (List.mem_of_getElem? found)]

section Hashed

variable {key : MessageRef → Option String} {ps : List PartitionRef} {r : RoutingRun}
  (hashed : ∀ k, enc.digest k = some (hash k))

include hashed

/-- The message goes to the end of the log of its lane's partition. -/
theorem Routed.publish (routed : r.Routed hash key ps) (pos : 0 < ps.length) {op : Timestamp × MessageRef}
    (unset : r.Unset op) : ∃ (p : PartitionRef) (t : Topic) (s : Store),
      ps[laneOf hash key ps.length r.published op.2]? = some p ∧
      r.step enc op = ⟨s.appended op.1 p op.2, t, r.published ++ [op.2]⟩ ∧
      t.partitions = ps ∧ t.config = r.topic.config ∧
      t.roundRobinCounter = (keyless key (r.published ++ [op.2])).length ∧
      s.partitions = r.store.partitions ∧ ∀ m, (s.messages m).key = (r.store.messages m).key := by
  obtain ⟨now, m⟩ := op
  have unset : (r.store.messages m).partition < 0 := unset
  have inside := laneOf_lt hash key pos r.published m
  have fits : ¬ r.topic.Refuses enc (r.store.messages m) := fun refused => by
    have := refused.1
    have := routed.anySize
    omega
  obtain ⟨t, routes, same, config, counter⟩ : ∃ t : Topic,
      r.topic.route enc (r.store.messages m) = (.ok (laneOf hash key ps.length r.published m : ℕ), t) ∧
      t.partitions = ps ∧ t.config = r.topic.config ∧
      t.roundRobinCounter = (keyless key (r.published ++ [m])).length := by
    have nonempty : ps.length ≠ 0 := by omega
    unfold Topic.route Topic.assignPartition laneOf
    rw [if_pos unset, routed.keys m]
    cases found : key m with
    | some k =>
        refine ⟨r.topic, ?_, routed.partitions, rfl, by simp [routed.counter, keyless, found]⟩
        simp only [hashed k, routed.partitions, if_neg nonempty]
    | none =>
        refine ⟨{ r.topic with roundRobinCounter := r.topic.roundRobinCounter + 1 }, ?_,
          routed.partitions, rfl, by simp [routed.counter, keyless, found]⟩
        simp only [routed.counter, routed.partitions, if_neg nonempty]
  have there : t.partitions[((laneOf hash key ps.length r.published m : ℕ) : ℤ).toNat]? =
      some ps[laneOf hash key ps.length r.published m] := by
    rw [Int.toNat_natCast, same, List.getElem?_eq_getElem inside]
  generalize laneOf hash key ps.length r.published m = j at inside routes there
  have room : ((Topic.labelled r.store m j t.name).partitions ps[j]).isFull = false := by
    have unlimited := routed.unlimited ps[j] (List.getElem_mem inside)
    show (r.store.partitions ps[j]).isFull = false
    simp only [Partition.isFull, decide_eq_false_iff_not]
    omega
  refine ⟨ps[j], t, Topic.labelled r.store m j t.name, List.getElem?_eq_getElem inside, ?_, same,
    config, counter, rfl, fun n => ?_⟩
  · unfold step
    rw [Topic.publish_routed fits routes there, Store.append_of_room _ _ _ _ room]
  · by_cases here : n = m <;> simp [Topic.labelled, Store.modifyMessage, here]

/-- One publish keeps the lanes. -/
theorem Routed.step (routed : r.Routed hash key ps) (pos : 0 < ps.length) (distinct : ps.Nodup)
    {op : Timestamp × MessageRef} (unset : r.Unset op) :
    (r.step enc op).Routed hash key ps ∧ (r.step enc op).published = r.published ++ [op.2] := by
  obtain ⟨p, t, s, found, stored, same, config, counter, partitions, keys⟩ := routed.publish hashed pos unset
  rw [stored]
  refine ⟨⟨same, config ▸ routed.anySize, counter, fun q member => ?_, fun j q here => ?_, fun m => ?_⟩, rfl⟩
  · have kept : ((s.appended op.1 p op.2).partitions q).maxSize = (s.partitions q).maxSize := by
      by_cases here : q = p <;> simp [Store.appended, here]
    rw [kept, partitions]
    exact routed.unlimited q member
  · have before : s.logOf q = lane hash key ps.length r.published j := by
      rw [← routed.logs j q here, Store.logOf, partitions, Store.logOf]
    rw [Store.appended_logOf, lane_append_single, ← before]
    by_cases last : laneOf hash key ps.length r.published op.2 = j
    · subst last
      obtain rfl : q = p := Option.some.inj (here.symm.trans found)
      rw [if_pos rfl, if_pos rfl]
    · have other : q ≠ p := by
        rintro rfl
        exact last ((List.getElem?_inj (laneOf_lt hash key pos ..) distinct).mp (found.trans here.symm))
      rw [if_neg other, if_neg last, List.append_nil]
  · have kept : ((s.appended op.1 p op.2).messages m).key = (s.messages m).key := by
      by_cases here : m = op.2 <;> simp [Store.appended, here]
    exact kept.trans ((keys m).trans (routed.keys m))

theorem Routed.run (routed : r.Routed hash key ps) (pos : 0 < ps.length) (distinct : ps.Nodup)
    {ops : List (Timestamp × MessageRef)} (unset : Guarded (RoutingRun.step enc) Unset r ops) :
    (Theory.run (RoutingRun.step enc) r ops).Routed hash key ps ∧
      (Theory.run (RoutingRun.step enc) r ops).published = r.published ++ ops.map Prod.snd := by
  induction ops generalizing r with
  | nil => exact ⟨routed, by simp⟩
  | cons op rest ih =>
      obtain ⟨next, published⟩ := routed.step hashed pos distinct unset.1
      obtain ⟨last, all⟩ := ih next unset.2
      refine ⟨last, all.trans ?_⟩
      rw [published]
      simp

end Hashed

/-- **Partition routing.**  After any publishes of messages that name no partition
to a new topic with `n` partitions and no size limits: every publish has returned
and its message is in one of the partitions; all messages of a key are in the
partition their key hashes to, in the order of their publishes; and the `i`-th
message without a key is in partition `i % n`, so that no two partitions differ
by more than one in the number of those. -/
theorem run_routes (hash : String → ℕ) (b : Broker) (name : String) {config : TopicConfig}
    (some_ : 1 ≤ config.numPartitions) (anySize : config.maxMessageBytes ≤ 0)
    (unlimited : config.maxPartitionSize ≤ 0) {ops : List (Timestamp × MessageRef)}
    (unset : Guarded (step (.total hash)) Unset (start b name config) ops) :
    let r := run (step (.total hash)) (start b name config) ops
    let n := config.numPartitions.toNat
    let key := fun m => (b.messages m).key
    let published := ops.map Prod.snd
    r.published = published ∧
    (∀ m ∈ published, ∃ j < n, ∃ p, r.topic.partitions[j]? = some p ∧ m ∈ r.store.logOf p) ∧
    (∀ k (j : ℕ) p, r.topic.partitions[j]? = some p →
      (r.store.logOf p).filter (fun m => key m = some k) =
        if hash k % n = j then published.filter (fun m => key m = some k) else []) ∧
    (∀ (i : ℕ) m, (published.filter fun m => key m = none)[i]? = some m →
      ∃ p, r.topic.partitions[i % n]? = some p ∧ m ∈ r.store.logOf p) ∧
    ∀ p ∈ r.topic.partitions, ∀ q ∈ r.topic.partitions,
      ((r.store.logOf p).filter fun m => key m = none).length ≤
        ((r.store.logOf q).filter fun m => key m = none).length + 1 := by
  intro r n key published
  have length : (b.newTopic name config).1.partitions.length = n := List.length_range' ..
  have pos : 0 < n := by omega
  obtain ⟨routed, all⟩ := (start_routed hash b name anySize unlimited).run
    (Encoding.digest_total hash) (by omega) (List.nodup_range' ..) unset
  have all : r.published = published := all
  have partitions := routed.partitions
  have logs : ∀ (j : ℕ) p, r.topic.partitions[j]? = some p → r.store.logOf p = lane hash key n published j := by
    intro j p found
    have lanes := routed.logs j p (partitions ▸ found)
    rwa [length, show (run (step (.total hash)) (start b name config) ops).published = published from all] at lanes
  have at_ : ∀ {j}, j < n → ∃ p, r.topic.partitions[j]? = some p := by
    intro j inside
    exact ⟨_, List.getElem?_eq_getElem (by rw [partitions, length]; exact inside)⟩
  refine ⟨all, fun m member => ?_, fun k j p found => ?_, fun i m found => ?_, fun p first q second => ?_⟩
  · obtain ⟨j, inside, here⟩ := exists_mem_lane hash key pos member
    obtain ⟨p, found⟩ := at_ inside
    exact ⟨j, inside, p, found, logs j p found ▸ here⟩
  · rw [logs j p found]
    exact lane_keyed published j k
  · obtain ⟨p, there⟩ := at_ (Nat.mod_lt i pos)
    exact ⟨p, there, logs _ p there ▸ mem_lane_of_turn found⟩
  · obtain ⟨i, insideP, foundP⟩ := List.getElem_of_mem first
    obtain ⟨j, insideQ, foundQ⟩ := List.getElem_of_mem second
    rw [logs i p (by rw [List.getElem?_eq_getElem insideP, foundP]),
      logs j q (by rw [List.getElem?_eq_getElem insideQ, foundQ])]
    rw [partitions, length] at insideP insideQ
    exact keyless_lane_le pos published insideP insideQ

/-- Message 0 has no key, the others have key "k". -/
def mixedOps : List (Timestamp × MessageRef) := [(1, 0), (2, 1), (3, 2), (4, 3)]

theorem mixedOps_routes :
    let b := PublishRun.publishStart.broker
    let r := run (step (.total String.length)) (start b "t" { numPartitions := 2 }) mixedOps
    let key := fun m => (b.messages m).key
    r.published = mixedOps.map Prod.snd ∧
    (∀ m ∈ mixedOps.map Prod.snd, ∃ j < 2, ∃ p, r.topic.partitions[j]? = some p ∧ m ∈ r.store.logOf p) ∧
    (∀ k (j : ℕ) p, r.topic.partitions[j]? = some p →
      (r.store.logOf p).filter (fun m => key m = some k) =
        if k.length % 2 = j then
          (mixedOps.map Prod.snd).filter (fun m => key m = some k) else []) ∧
    (∀ (i : ℕ) m, ((mixedOps.map Prod.snd).filter fun m => key m = none)[i]? = some m →
      ∃ p, r.topic.partitions[i % 2]? = some p ∧ m ∈ r.store.logOf p) ∧
    ∀ p ∈ r.topic.partitions, ∀ q ∈ r.topic.partitions,
      ((r.store.logOf p).filter fun m => key m = none).length ≤
        ((r.store.logOf q).filter fun m => key m = none).length + 1 :=
  run_routes String.length PublishRun.publishStart.broker "t" (by decide) (by decide) (by decide)
    (by decide +kernel)

end RoutingRun

end BrokerLite
