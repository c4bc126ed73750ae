/-
# Broker.Offsets -- offsets are never reused and never change

Runs of `publish`, of creating topics, and of the three removals on any
partition.  `published` is the history of the successful publishes with the
metadata each returned.

`PublishRun.Sound` ties the three together: under the key of every partition the
history has handed out the offsets `0, 1, ..., next_offset - 1` in this order
(`history`), whatever has been removed from the log since, and every message in
a log carries what its publish returned (`logged`).
-/
import BrokerLite.Broker.Broker
import BrokerLite.Store.PartitionRead

namespace BrokerLite

open Theory

set_option autoImplicit false

/-- The partition a publish named, as `(topic, partition id)`. -/
def RecordMetadata.key (metadata : RecordMetadata) : String × ℤ := (metadata.topic, metadata.partition)

structure PublishRun where
  broker : Broker
  /-- The successful publishes: the message object and what was returned. -/
  published : List (MessageRef × RecordMetadata) := []

inductive PublishOp where
  | publish (now : Timestamp) (m : MessageRef)
  | createTopic (name : String) (config : Option TopicConfig)
  | applyRetention (now : Timestamp) (p : PartitionRef)
  | compact (p : PartitionRef)
  | clear (p : PartitionRef)

namespace Broker

def applyLog (b : Broker) (op : LogOp) : Broker := { b with toStore := b.toStore.applyOp op }

def keyOf (b : Broker) (p : PartitionRef) : String × ℤ := (b.partitions p).key

end Broker

namespace PublishRun

def step (enc : Encoding) (r : PublishRun) : PublishOp → PublishRun
  | .publish now m =>
      let done := r.broker.publish enc now m
      { broker := done.2
        published := match done.1 with
          | .ok metadata => r.published ++ [(m, metadata)]
          | .error _ => r.published }
  | .createTopic name config => { r with broker := (r.broker.createTopic name config).2 }
  | .applyRetention now p => { r with broker := r.broker.applyLog (.applyRetention now p) }
  | .compact p => { r with broker := r.broker.applyLog (.compact p) }
  | .clear p => { r with broker := r.broker.applyLog (.clear p) }

/-- A published object has not been published successfully before. -/
def Once (r : PublishRun) : PublishOp → Prop
  | .publish _ m => m ∉ r.published.map Prod.fst
  | _ => True

structure Sound (b : Broker) (published : List (MessageRef × RecordMetadata)) : Prop where
  ordered : b.Ordered
  registered : ∀ name t, b.topics.get? name = some t →
    t.name = name ∧ ∀ p ∈ t.partitions, p < b.nextPartition ∧ (b.partitions p).topic = name
  located : ∀ p < b.nextPartition, b.topics.contains (b.partitions p).topic = true
  distinct : ∀ p < b.nextPartition, ∀ q < b.nextPartition, b.keyOf p = b.keyOf q → p = q
  history : ∀ p < b.nextPartition,
    (published.filter fun e => e.2.key = b.keyOf p).map (fun e => e.2.offset) =
      (List.range (b.partitions p).nextOffset.toNat).map Int.ofNat
  known : ∀ e ∈ published, ∃ p < b.nextPartition, e.2.key = b.keyOf p
  logged : ∀ p, ∀ m ∈ b.logOf p, ∃ metadata, (m, metadata) ∈ published ∧
    metadata.key = b.keyOf p ∧ (b.messages m).topic = metadata.topic ∧
    (b.messages m).partition = metadata.partition ∧ b.offsetOf m = metadata.offset

variable {b : Broker} {published : List (MessageRef × RecordMetadata)}

theorem Sound.unstored (sound : Sound b published) {m : MessageRef}
    (once : m ∉ published.map Prod.fst) : b.Unstored m := by
  intro p member
  obtain ⟨metadata, listed, -⟩ := sound.logged p m member
  exact once (List.mem_map.mpr ⟨_, listed, rfl⟩)

/-! ## Creating a topic -/

/-- A partition after a topic was created: an old one, or a fresh one of that
topic with an empty log. -/
theorem newTopic_partitions (b : Broker) (name : String) (config : TopicConfig) (p : PartitionRef) :
    ((b.newTopic name config).2.partitions p = b.partitions p ∧
      (p < (b.newTopic name config).2.nextPartition → p < b.nextPartition)) ∨
    (b.nextPartition ≤ p ∧ p ∈ (b.newTopic name config).1.partitions ∧
      (b.newTopic name config).2.partitions p =
        { topic := name, partitionId := p - b.nextPartition, maxSize := config.maxPartitionSize,
          retentionMs := config.retentionMs }) := by
  by_cases fresh : b.nextPartition ≤ p ∧ p < b.nextPartition + config.numPartitions.toNat
  · exact .inr ⟨fresh.1, by simpa [Broker.newTopic] using fresh, by simp [Broker.newTopic, fresh]⟩
  · refine .inl ⟨by simp [Broker.newTopic, fresh], fun inside => ?_⟩
    exact Nat.lt_of_not_le fun low => fresh ⟨low, inside⟩

theorem newTopic_mem {name : String} {config : TopicConfig} {p : PartitionRef}
    (member : p ∈ (b.newTopic name config).1.partitions) :
    p < (b.newTopic name config).2.nextPartition ∧
      ((b.newTopic name config).2.partitions p).topic = name := by
  have inside : b.nextPartition ≤ p ∧ p < b.nextPartition + config.numPartitions.toNat := by
    simpa [Broker.newTopic] using member
  exact ⟨inside.2, by simp [Broker.newTopic, inside]⟩

theorem newTopic_old (name : String) (config : TopicConfig) {p : PartitionRef}
    (old : p < b.nextPartition) :
    p < (b.newTopic name config).2.nextPartition ∧
      (b.newTopic name config).2.partitions p = b.partitions p := by
  refine ⟨lt_of_lt_of_le old (Nat.le_add_right ..), ?_⟩
  rcases newTopic_partitions b name config p with same | ⟨fresh, -⟩
  · exact same.1
  · exact absurd old (Nat.not_lt.mpr fresh)

theorem newTopic_ordered (ordered : b.Ordered) (name : String) (config : TopicConfig) :
    (b.newTopic name config).2.Ordered := by
  refine ⟨?_, ?_, ?_, ?_, ?_⟩ <;> intro p <;>
    rcases newTopic_partitions b name config p with ⟨same, -⟩ | ⟨-, -, fresh⟩ <;>
    simp only [Store.logOf, *]
  · exact ordered.ascending p
  · exact .nil
  · exact ordered.nonneg p
  · exact fun m member => by cases member
  · exact ordered.bounded p
  · exact fun m member => by cases member
  · exact ordered.next p
  · exact le_refl 0
  · exact ordered.stamped p
  · exact fun m member => by cases member

/-- Nothing has the name of a topic that does not exist. -/
theorem Sound.elsewhere (sound : Sound b published) {name : String}
    (absent : b.topics.contains name = false) {p : PartitionRef} (old : p < b.nextPartition) :
    (b.partitions p).topic ≠ name := by
  intro same
  have present := sound.located p old
  rw [same, absent] at present
  cases present

theorem Sound.unpublished (sound : Sound b published) {name : String}
    (absent : b.topics.contains name = false) {e : MessageRef × RecordMetadata} (member : e ∈ published) :
    e.2.topic ≠ name := by
  intro same
  obtain ⟨p, old, key⟩ := sound.known e member
  exact sound.elsewhere absent old ((congrArg Prod.fst key).symm.trans same)

/-- Old keys differ, the new ones are numbered, and an old key has another topic. -/
theorem Sound.newTopic_distinct (sound : Sound b published) {name : String} (config : TopicConfig)
    (absent : b.topics.contains name = false) {p q : PartitionRef}
    (inside : p < (b.newTopic name config).2.nextPartition)
    (inside' : q < (b.newTopic name config).2.nextPartition)
    (same : ((b.newTopic name config).2.partitions p).key =
      ((b.newTopic name config).2.partitions q).key) : p = q := by
  rcases newTopic_partitions b name config p with ⟨kept, old⟩ | ⟨start, -, fresh⟩ <;>
    rcases newTopic_partitions b name config q with ⟨kept', old'⟩ | ⟨start', -, fresh'⟩
  · rw [kept, kept'] at same
    exact sound.distinct p (old inside) q (old' inside') same
  · rw [kept, fresh'] at same
    exact absurd (congrArg Prod.fst same) (sound.elsewhere absent (old inside))
  · rw [fresh, kept'] at same
    exact absurd (congrArg Prod.fst same).symm (sound.elsewhere absent (old' inside'))
  · rw [fresh, fresh'] at same
    have ids : (p : ℤ) - b.nextPartition = q - b.nextPartition := congrArg Prod.snd same
    exact Int.ofNat.inj (sub_left_injective ids)

/-- Nothing was published to a new partition. -/
theorem Sound.newTopic_history (sound : Sound b published) {name : String} (config : TopicConfig)
    (absent : b.topics.contains name = false) {p : PartitionRef}
    (inside : p < (b.newTopic name config).2.nextPartition) :
    (published.filter fun e => e.2.key = ((b.newTopic name config).2.partitions p).key).map
        (fun e => e.2.offset) =
      (List.range ((b.newTopic name config).2.partitions p).nextOffset.toNat).map Int.ofNat := by
  rcases newTopic_partitions b name config p with ⟨same, old⟩ | ⟨-, -, fresh⟩
  · rw [same]
    exact sound.history p (old inside)
  · rw [fresh, List.filter_eq_nil_iff.mpr fun e member => ?_]
    · rfl
    · simp only [decide_eq_true_eq]
      exact fun key => sound.unpublished absent member (congrArg Prod.fst key)

theorem Sound.newTopic (sound : Sound b published) {name : String} (config : TopicConfig)
    (absent : b.topics.contains name = false) :
    Sound { (b.newTopic name config).2 with
      topics := b.topics.set name (b.newTopic name config).1 } published := by
  refine ⟨newTopic_ordered sound.ordered name config, ?_, ?_,
    fun p inside q inside' => sound.newTopic_distinct config absent inside inside',
    fun p inside => sound.newTopic_history config absent inside, ?_, ?_⟩
  · intro other t found
    rcases Dict.get?_set_eq_some_iff.mp found with ⟨here, rfl⟩ | ⟨-, before⟩
    · exact ⟨here.symm, fun p member => here ▸ newTopic_mem member⟩
    · obtain ⟨named, members⟩ := sound.registered other t before
      refine ⟨named, fun p member => ?_⟩
      obtain ⟨old, topic⟩ := members p member
      obtain ⟨inside, same⟩ := newTopic_old name config old
      exact ⟨inside, same ▸ topic⟩
  · intro p inside
    show (b.topics.set name (b.newTopic name config).1).contains _ = true
    rw [Dict.contains_iff, Dict.mem_keys_set]
    rcases newTopic_partitions b name config p with ⟨same, old⟩ | ⟨-, -, fresh⟩
    · right
      show ((b.newTopic name config).2.partitions p).topic ∈ _
      rw [same]
      exact Dict.contains_iff.mp (sound.located p (old inside))
    · exact .inl (congrArg Partition.topic fresh)
  · intro e member
    obtain ⟨p, old, key⟩ := sound.known e member
    obtain ⟨inside, same⟩ := newTopic_old name config old
    exact ⟨p, inside, key.trans (congrArg Partition.key same).symm⟩
  · intro p m member
    have member : m ∈ ((b.newTopic name config).2.partitions p).log := member
    rcases newTopic_partitions b name config p with ⟨same, old⟩ | ⟨-, -, fresh⟩
    · rw [same] at member
      obtain ⟨metadata, listed, key, rest⟩ := sound.logged p m member
      exact ⟨metadata, listed, key.trans (congrArg Partition.key same).symm, rest⟩
    · rw [fresh] at member
      cases member

theorem Sound.createTopic (sound : Sound b published) (name : String) (config : Option TopicConfig) :
    Sound (b.createTopic name config).2 published ∧
    ((∃ raised, b.createTopic name config = (.error raised, b)) ∨
      ∃ t, (b.createTopic name config).1 = .ok t ∧
        (b.createTopic name config).2.topics.get? name = some t) := by
  unfold Broker.createTopic
  split
  · exact ⟨sound, .inl ⟨_, rfl⟩⟩
  · next absent =>
      split
      · exact ⟨sound, .inl ⟨_, rfl⟩⟩
      · exact ⟨sound.newTopic _ (by simpa using absent), .inr ⟨_, rfl, Dict.get?_set_self ..⟩⟩

theorem createTopic_keeps (b : Broker) (name : String) (config : Option TopicConfig) {p : PartitionRef}
    (inside : p < b.nextPartition) :
    p < (b.createTopic name config).2.nextPartition ∧
      (b.createTopic name config).2.partitions p = b.partitions p := by
  unfold Broker.createTopic
  split
  · exact ⟨inside, rfl⟩
  · split
    · exact ⟨inside, rfl⟩
    · exact newTopic_old _ _ inside

theorem Sound.topicFor (sound : Sound b published) (name : String) :
    Sound (b.topicFor name).2 published ∧
    ((∃ raised, b.topicFor name = (.error raised, b)) ∨
      ∃ t, (b.topicFor name).1 = .ok t ∧ (b.topicFor name).2.topics.get? name = some t) := by
  unfold Broker.topicFor
  cases found : b.topics.get? name with
  | some t => exact ⟨sound, .inr ⟨t, rfl, found⟩⟩
  | none => exact sound.createTopic name none

/-! ## Publishing -/

/-- A topic may change its counter and its subscribers. -/
theorem Sound.retopic (sound : Sound b published) {name : String} {t t' : Topic}
    (found : b.topics.get? name = some t) (same_name : t'.name = t.name)
    (same_partitions : t'.partitions = t.partitions) :
    Sound { b with topics := b.topics.set name t' } published := by
  refine ⟨sound.ordered, fun other u here => ?_, fun p inside => ?_, sound.distinct, sound.history,
    sound.known, sound.logged⟩
  · rcases Dict.get?_set_eq_some_iff.mp here with ⟨rfl, rfl⟩ | ⟨-, before⟩
    · rw [same_name, same_partitions]
      exact sound.registered _ t found
    · exact sound.registered other u before
  · show (b.topics.set name t').contains _ = true
    rw [Dict.contains_iff, Dict.mem_keys_set]
    exact .inr (Dict.contains_iff.mp (sound.located p inside))

/-- The fields of an unpublished object may change. -/
theorem Sound.retouched (sound : Sound b published) {m : MessageRef}
    (once : m ∉ published.map Prod.fst) {s : Store} (retouched : b.Retouched m s) :
    Sound { b with toStore := s } published := by
  have fresh := sound.unstored once
  have keys : ∀ p, Broker.keyOf { b with toStore := s } p = b.keyOf p := fun p => by
    show (s.partitions p).key = (b.partitions p).key
    rw [retouched.partitions]
  refine ⟨retouched.ordered fresh sound.ordered, ?_, ?_, ?_, ?_, ?_, fun p n member => ?_⟩ <;>
    simp only [retouched.partitions, keys]
  · exact sound.registered
  · exact sound.located
  · exact sound.distinct
  · exact sound.history
  · exact sound.known
  · have member : n ∈ s.logOf p := member
    rw [retouched.logOf] at member
    have kept : s.messages n = b.messages n :=
      retouched.messages n fun same => fresh p (same ▸ member)
    simp only [Store.offsetOf, kept]
    exact sound.logged p n member

/-- A successful append enters the history under its partition's key. -/
theorem Sound.appended (sound : Sound b published) {m : MessageRef}
    (once : m ∉ published.map Prod.fst) {p : PartitionRef} (inside : p < b.nextPartition)
    (topic : (b.messages m).topic = (b.partitions p).topic) (now : Timestamp)
    {metadata : RecordMetadata} (key : metadata.key = b.keyOf p)
    (offset : metadata.offset = (b.partitions p).nextOffset) :
    Sound { b with toStore := b.toStore.appended now p m } (published ++ [(m, metadata)]) := by
  have fresh := sound.unstored once
  have keys : ∀ q, Broker.keyOf { b with toStore := b.toStore.appended now p m } q = b.keyOf q :=
    fun q => b.toStore.appended_key now p q m
  have topics : ∀ q, ((b.toStore.appended now p m).partitions q).topic = (b.partitions q).topic :=
    fun q => congrArg Prod.fst (keys q)
  refine ⟨sound.ordered.appended fresh, ?_, ?_, ?_, fun q here => ?_, ?_, fun q n member => ?_⟩ <;>
    simp only [keys, topics]
  · exact sound.registered
  · exact sound.located
  · exact sound.distinct
  · rw [Store.appended_nextOffset, List.filter_append, List.map_append, sound.history q here]
    by_cases same : q = p
    · subst same
      have next := sound.ordered.next q
      rw [if_pos rfl, Int.toNat_add next (by omega), Int.toNat_one, List.range_succ, List.map_append]
      simp [key, offset, Int.toNat_of_nonneg next]
    · have other : metadata.key ≠ b.keyOf q := fun shared =>
        same (sound.distinct q here p inside (shared.symm.trans key))
      simp [same, other]
  · intro e member
    rcases List.mem_append.mp member with old | new
    · exact sound.known e old
    · rw [List.mem_singleton.mp new]
      exact ⟨p, inside, key⟩
  · rcases Store.Ordered.mem_appended member with old | ⟨rfl, rfl⟩
    · have other : n ≠ m := fun same => fresh q (same ▸ old)
      obtain ⟨returned, listed, rest⟩ := sound.logged q n old
      refine ⟨returned, List.mem_append_left _ listed, ?_⟩
      rw [Store.offsetOf, b.toStore.appended_messages_of_ne now p m n other]
      exact rest
    · refine ⟨metadata, List.mem_append_right _ (List.mem_singleton_self _), key, ?_⟩
      have named : metadata.topic = (b.partitions q).topic := congrArg Prod.fst key
      have numbered : metadata.partition = (b.partitions q).partitionId := congrArg Prod.snd key
      simp [Store.appended, Store.offsetOf, topic, named, numbered, offset]

theorem Sound.counted (sound : Sound b published) (count : ℕ) :
    Sound { b with totalMessagesIn := count } published :=
  ⟨sound.ordered, sound.registered, sound.located, sound.distinct, sound.history, sound.known,
    sound.logged⟩

theorem Sound.applyLog (sound : Sound b published) {op : LogOp} (removal : op.stores? = none) :
    Sound (b.applyLog op) published := by
  have trimmed : b.Trimmed (b.toStore.applyOp op) := by
    rcases b.applyOp_cases op with trimmed | ⟨now, p, m, rfl, -⟩
    · exact trimmed
    · cases removal
  have keys : ∀ p, (b.applyLog op).keyOf p = b.keyOf p := trimmed.key
  have topics : ∀ p, ((b.applyLog op).partitions p).topic = (b.partitions p).topic :=
    fun p => congrArg Prod.fst (keys p)
  have next : ∀ p, ((b.applyLog op).partitions p).nextOffset = (b.partitions p).nextOffset :=
    trimmed.nextOffset
  have messages : (b.applyLog op).messages = b.messages := trimmed.messages
  refine ⟨sound.ordered.trimmed trimmed, ?_, ?_, ?_, ?_, ?_, fun p m member => ?_⟩ <;>
    simp only [keys, topics, next]
  · exact sound.registered
  · exact sound.located
  · exact sound.distinct
  · exact sound.history
  · exact sound.known
  · simp only [Store.offsetOf, messages]
    exact sound.logged p m ((trimmed.log p).mem member)

variable {r : PublishRun} {enc : Encoding}

theorem Sound.publish (sound : Sound r.broker r.published) (now : Timestamp) {m : MessageRef}
    (once : m ∉ r.published.map Prod.fst) :
    Sound (r.step enc (.publish now m)).broker (r.step enc (.publish now m)).published := by
  obtain ⟨sound₁, topic_found⟩ := sound.topicFor (r.broker.messages m).topic
  rcases r.broker.publish_cases enc now m with ⟨raised, b₁, created, outcome⟩ |
    ⟨t, b₁, t', created, name, partitions, outcome⟩
  · rw [created] at sound₁
    simpa only [step, outcome] using sound₁
  · rw [created] at sound₁ topic_found
    have found : b₁.topics.get? (r.broker.messages m).topic = some t := by
      rcases topic_found with ⟨raised, failed⟩ | ⟨u, same, found⟩
      · cases failed
      · cases same
        exact found
    obtain ⟨named, members⟩ := sound₁.registered _ t found
    rcases outcome with ⟨raised, s, retouched, outcome⟩ | ⟨p, member, s, retouched, topic, outcome⟩
    · have kept := (sound₁.retouched once retouched).retopic found name partitions
      simpa only [step, outcome] using kept
    · obtain ⟨inside, at_topic⟩ := members p member
      have before := sound₁.retouched once retouched
      have same : s.partitions = b₁.partitions := retouched.partitions
      have labelled : (s.messages m).topic = (s.partitions p).topic := by
        rw [topic, named, same, at_topic]
      simp only [step, outcome]
      refine (Sound.retopic (Sound.appended before once inside labelled now ?_ ?_) found name
        partitions).counted _
      · show (t.name, (b₁.partitions p).partitionId) = (s.partitions p).key
        rw [same, Partition.key, at_topic, named]
      · show _ = (s.partitions p).nextOffset
        rw [same]

theorem Sound.step (sound : Sound r.broker r.published) {op : PublishOp} (once : r.Once op) :
    Sound (r.step enc op).broker (r.step enc op).published := by
  cases op with
  | publish now m => exact sound.publish now once
  | createTopic name config => exact (sound.createTopic name config).1
  | applyRetention now p => exact sound.applyLog rfl
  | compact p => exact sound.applyLog rfl
  | clear p => exact sound.applyLog rfl

/-! ## Next offsets never go back -/

theorem topicFor_keeps (b : Broker) (name : String) {p : PartitionRef} (inside : p < b.nextPartition) :
    p < (b.topicFor name).2.nextPartition ∧ (b.topicFor name).2.partitions p = b.partitions p := by
  unfold Broker.topicFor
  split
  · exact ⟨inside, rfl⟩
  · exact createTopic_keeps b name none inside

theorem step_nextOffset_le (r : PublishRun) (op : PublishOp) {p : PartitionRef}
    (inside : p < r.broker.nextPartition) :
    p < (r.step enc op).broker.nextPartition ∧
      (r.broker.partitions p).nextOffset ≤ ((r.step enc op).broker.partitions p).nextOffset := by
  have removal : ∀ op : LogOp, (r.broker.partitions p).nextOffset ≤
      ((r.broker.applyLog op).partitions p).nextOffset := by
    intro op
    show _ ≤ ((r.broker.toStore.applyOp op).partitions p).nextOffset
    rcases r.broker.applyOp_cases op with trimmed | ⟨now, q, m, rfl, stored⟩
    · rw [trimmed.nextOffset]
    · rw [stored, Store.appended_nextOffset]
      split
      · next same => rw [same]; omega
      · exact le_refl _
  cases op with
  | publish now m =>
      obtain ⟨inside₁, same⟩ := topicFor_keeps r.broker (r.broker.messages m).topic inside
      rcases r.broker.publish_cases enc now m with ⟨raised, b₁, created, outcome⟩ |
        ⟨t, b₁, t', created, -, -, ⟨raised, s, retouched, outcome⟩ | ⟨q, -, s, retouched, -, outcome⟩⟩ <;>
        rw [created] at inside₁ same <;> simp only [step, outcome]
      · exact ⟨inside₁, by rw [same]⟩
      · exact ⟨inside₁, by rw [retouched.partitions, same]⟩
      · refine ⟨inside₁, ?_⟩
        rw [Store.appended_nextOffset, retouched.partitions, same]
        split
        · next here => rw [← here, same]; omega
        · exact le_refl _
  | createTopic name config =>
      obtain ⟨inside₁, same⟩ := createTopic_keeps r.broker name config inside
      exact ⟨inside₁, le_of_eq (congrArg Partition.nextOffset same).symm⟩
  | applyRetention now p => exact ⟨inside, removal _⟩
  | compact p => exact ⟨inside, removal _⟩
  | clear p => exact ⟨inside, removal _⟩

/-! ## Over whole runs -/

/-- A new broker: no topics, no partition objects. -/
structure Start (r : PublishRun) : Prop where
  store : r.broker.New
  topics : r.broker.topics = .empty
  nextPartition : r.broker.nextPartition = 0
  published : r.published = []

theorem Start.sound (start : r.Start) : Sound r.broker r.published := by
  have none_ : ∀ p, ¬ p < r.broker.nextPartition := fun p => by
    rw [start.nextPartition]
    exact Nat.not_lt_zero p
  refine ⟨start.store.ordered, fun name t found => ?_, fun p inside => absurd inside (none_ p),
    fun p inside => absurd inside (none_ p), fun p inside => absurd inside (none_ p),
    fun e member => ?_, fun p m member => ?_⟩
  · rw [start.topics] at found
    cases found
  · rw [start.published] at member
    cases member
  · rw [(start.store p).1] at member
    cases member

/-- Values that do not repeat under any key make pairs that do not repeat. -/
theorem nodup_map_pair {α κ β : Type} [DecidableEq κ] {l : List α} {key : α → κ} {value : α → β}
    (once : ∀ x ∈ l, ((l.filter fun y => key y = key x).map value).Nodup) :
    (l.map fun x => (key x, value x)).Nodup := by
  refine List.pairwise_map.mpr (List.pairwise_iff_forall_sublist.mpr fun {a c} pair same => ?_)
  have keys : key c = key a := (congrArg Prod.fst same).symm
  have together := (pair.filter fun y => key y = key a).map value
  have apart := List.Pairwise.sublist together (once a (pair.mem List.mem_cons_self))
  simp only [List.filter_cons, keys, decide_true, if_true, List.filter_nil, List.map_cons,
    List.map_nil] at apart
  exact (List.pairwise_cons.mp apart).1 (value c) List.mem_cons_self (congrArg Prod.snd same)

/-- **Offsets are never reused and never change.**  After any run in which no
object is published again: no two successful publishes returned the same topic,
partition and offset; every log ascends below its next offset; the next offset
counts the successful publishes to the partition and has never decreased; and
what is in a log was published and carries what its publish returned. -/
theorem offsets_stable (start : r.Start) {ops : List PublishOp} (once : Guarded (step enc) Once r ops) :
    let after := run (step enc) r ops
    (after.published.map fun e => ((e.2.topic, e.2.partition), e.2.offset)).Nodup ∧
    (∀ p, Ascending after.broker.offsetOf (after.broker.logOf p) ∧
      ∀ m ∈ after.broker.logOf p, after.broker.offsetOf m < (after.broker.partitions p).nextOffset) ∧
    (∀ p < after.broker.nextPartition, (after.broker.partitions p).nextOffset =
      (after.published.filter fun e => e.2.key = after.broker.keyOf p).length) ∧
    (∀ p, ∀ m ∈ after.broker.logOf p, ∃ metadata, (m, metadata) ∈ after.published ∧
      metadata.key = after.broker.keyOf p ∧ (after.broker.messages m).topic = metadata.topic ∧
      (after.broker.messages m).partition = metadata.partition ∧
      after.broker.offsetOf m = metadata.offset) ∧
    ∀ before later, ops = before ++ later →
      ∀ p < (run (step enc) r before).broker.nextPartition,
        ((run (step enc) r before).broker.partitions p).nextOffset ≤
          (after.broker.partitions p).nextOffset := by
  intro after
  have preserved : ∀ r op, Sound (broker r) (published r) → r.Once op →
      Sound (r.step enc op).broker (r.step enc op).published := fun _ _ sound once => sound.step once
  have sound : Sound after.broker after.published := run_invariant preserved start.sound once
  refine ⟨nodup_map_pair fun e member => ?_, fun p => ⟨sound.ordered.ascending p,
    sound.ordered.bounded p⟩, fun p inside => ?_, sound.logged, ?_⟩
  · obtain ⟨p, inside, key⟩ := sound.known e member
    have handed := sound.history p inside
    rw [← key] at handed
    show ((after.published.filter fun f => f.2.key = e.2.key).map fun f => f.2.offset).Nodup
    rw [handed]
    exact List.nodup_range.map fun _ _ same => Int.ofNat.inj same
  · have counted := congrArg List.length (sound.history p inside)
    rw [List.length_map, List.length_map, List.length_range] at counted
    rw [counted, Int.toNat_of_nonneg (sound.ordered.next p)]
  · rintro before later rfl p inside
    have kept : ∀ s op, p < (broker s).nextPartition → s.Once op →
        p < (s.step enc op).broker.nextPartition :=
      fun s op inside _ => (step_nextOffset_le s op inside).1
    have raised : ∀ s op, p < (broker s).nextPartition → s.Once op →
        (s.broker.partitions p).nextOffset ≤ ((s.step enc op).broker.partitions p).nextOffset :=
      fun s op inside _ => (step_nextOffset_le s op inside).2
    have continued : after = run (step enc) (run (step enc) r before) later := run_append ..
    rw [continued]
    exact run_mono (fun s : PublishRun => (s.broker.partitions p).nextOffset) kept raised inside
      ((guarded_append r before later).mp once).2

instance (r : PublishRun) : ∀ op, Decidable (r.Once op)
  | .publish _ m => inferInstanceAs (Decidable (m ∉ r.published.map Prod.fst))
  | .createTopic _ _ => isTrue trivial
  | .applyRetention _ _ => isTrue trivial
  | .compact _ => isTrue trivial
  | .clear _ => isTrue trivial

/-- The digest of the key "k", as a number; the example hashes no other key. -/
def digestOfK : Encoding where
  encode s := some (utf8 s)
  md5 _ := 0x8ce4b16b22b58894aa86c421e8759df3

/-- Messages for topic "t", every one but the first with key "k". -/
def publishStart : PublishRun where
  broker :=
    { toStore := Store.keyedStart
      consumers := fun c => { consumerId := toString c }
      groups := fun _ => { groupId := "" } }

/-- Three publishes with a compaction in between; the topic is created with two
partitions. -/
def publishOps : List PublishOp :=
  [.createTopic "t" (some { numPartitions := 2 }), .publish 1 1, .publish 2 2, .compact 1,
    .publish 3 0, .clear 0]

theorem publishOps_offsets_stable :
    let after := run (step digestOfK) publishStart publishOps
    (after.published.map fun e => ((e.2.topic, e.2.partition), e.2.offset)).Nodup ∧
    (∀ p, Ascending after.broker.offsetOf (after.broker.logOf p) ∧
      ∀ m ∈ after.broker.logOf p, after.broker.offsetOf m < (after.broker.partitions p).nextOffset) ∧
    (∀ p < after.broker.nextPartition, (after.broker.partitions p).nextOffset =
      (after.published.filter fun e => e.2.key = after.broker.keyOf p).length) ∧
    (∀ p, ∀ m ∈ after.broker.logOf p, ∃ metadata, (m, metadata) ∈ after.published ∧
      metadata.key = after.broker.keyOf p ∧ (after.broker.messages m).topic = metadata.topic ∧
      (after.broker.messages m).partition = metadata.partition ∧
      after.broker.offsetOf m = metadata.offset) ∧
    ∀ before later, publishOps = before ++ later →
      ∀ p < (run (step digestOfK) publishStart before).broker.nextPartition,
        ((run (step digestOfK) publishStart before).broker.partitions p).nextOffset ≤
          (after.broker.partitions p).nextOffset :=
  offsets_stable ⟨Store.keyedStart_new, rfl, rfl, rfl⟩
    ⟨trivial, List.not_mem_nil, by decide +kernel, trivial, by decide +kernel, trivial, trivial⟩

end PublishRun

end BrokerLite
