/-
# Broker.BrokerRun -- runs of a broker with its consumers

A run creates and deletes topics and groups, publishes, subscribes and leaves,
and lets the consumers poll, commit, seek and close, in any order.  Nothing is
asked of the operations: consumers may share an id, sit in several groups, and
stay with a group the broker has dropped, and callers may write into their
messages at any time.

`Arranged` is what holds in every run (`run_arranged`): members are registered
under their own ids, topics and groups under their own names, and the partitions
registered under a name are partition objects of that name with distinct numbers.
-/
import BrokerLite.Broker.Offsets
import BrokerLite.Broker.Ownership

namespace BrokerLite

open Theory

set_option autoImplicit false

inductive BrokerOp where
  | createTopic (name : String) (config : Option TopicConfig)
  | deleteTopic (name : String)
  | publish (now : Timestamp) (m : MessageRef)
  | createConsumerGroup (groupId : String) (strategy : AssignmentStrategy)
  | deleteConsumerGroup (groupId : String)
  | subscribe (groupId topicName : String) (c : ConsumerRef)
  | leave (G : GroupRef) (consumerId : String)
  | removeDeadConsumers (now : String → String → Timestamp)
  | poll (c : ConsumerRef) (times : PollTimes) (maxMessages : Option ℤ)
  | commit (c : ConsumerRef) (now : Timestamp)
  | close (c : ConsumerRef) (now : Timestamp)
  | seek (c : ConsumerRef) (topic : String) (partitionId offset : ℤ)
  | seekToBeginning (c : ConsumerRef)
  | seekToEnd (c : ConsumerRef)
  | applyRetention (now : Timestamp) (p : PartitionRef)
  | compact (p : PartitionRef)
  | clear (p : PartitionRef)
  /-- A caller writes into a message object it holds. -/
  | edit (m : MessageRef) (message : Message)

namespace Broker

/-- Put other objects in place. -/
def withObjects (b : Broker) (o : Objects) : Broker := { b with toObjects := o }

def step (enc : Encoding) (b : Broker) : BrokerOp → Broker
  | .createTopic name config => (b.createTopic name config).2
  | .deleteTopic name => (b.deleteTopic name).2
  | .publish now m => (b.publish enc now m).2
  | .createConsumerGroup groupId strategy => (b.createConsumerGroup groupId strategy).2
  | .deleteConsumerGroup groupId => (b.deleteConsumerGroup groupId).2
  | .subscribe groupId topicName c => (b.subscribe groupId topicName c).2
  | .leave G consumerId => (b.leave G consumerId).2
  | .removeDeadConsumers now => (b.removeDeadConsumers now).2
  | .poll c times maxMessages => b.withObjects (b.toObjects.poll c times maxMessages)
  | .commit c now => b.withObjects (b.toObjects.commit c now)
  | .close c now => b.withObjects (b.toObjects.close c now)
  | .seek c topic partitionId offset => b.withObjects
      (b.modifyConsumer c fun consumer => consumer.seek topic partitionId offset)
  | .seekToBeginning c => b.withObjects (b.modifyConsumer c (Consumer.seekToBeginning b.toStore))
  | .seekToEnd c => b.withObjects (b.modifyConsumer c (Consumer.seekToEnd b.toStore))
  | .applyRetention now p => b.applyLog (.applyRetention now p)
  | .compact p => b.applyLog (.compact p)
  | .clear p => b.applyLog (.clear p)
  | .edit m message => { b with toStore := b.toStore.modifyMessage m fun _ => message }

/-- The partitions of a list are created, carry the name, and have distinct numbers. -/
structure Named (b : Broker) (name : String) (ps : List PartitionRef) : Prop where
  created : ∀ p ∈ ps, p < b.nextPartition
  topic : ∀ p ∈ ps, (b.partitions p).topic = name
  distinct : ∀ p ∈ ps, ∀ q ∈ ps, (b.partitions p).partitionId = (b.partitions q).partitionId → p = q

structure Arranged (b : Broker) : Prop where
  keyed : ∀ G, (b.groups G).Keyed b.toObjects
  live : ∀ groupId G, b.Live groupId G → G < b.nextGroup ∧ (b.groups G).groupId = groupId
  topics : ∀ name t, b.topics.get? name = some t → t.name = name ∧ b.Named name t.partitions
  subscribed : ∀ G name ps, (b.groups G).subscribedTopics.get? name = some ps → b.Named name ps

/-- A new broker, and group objects that are not used yet. -/
structure Start (b : Broker) : Prop where
  topics : b.topics = .empty
  consumerGroups : b.consumerGroups = .empty
  members : ∀ G, (b.groups G).members = .empty
  subscribed : ∀ G, (b.groups G).subscribedTopics = .empty
  totalMessagesIn : b.totalMessagesIn = 0

variable {b : Broker}

theorem Start.arranged (start : b.Start) : b.Arranged := by
  refine ⟨fun G id c found => ?_, fun groupId G live => ?_, fun name t found => ?_,
    fun G name ps found => ?_⟩
  · rw [start.members] at found
    cases found
  · rw [Live, start.consumerGroups] at live
    cases live
  · rw [start.topics] at found
    cases found
  · rw [start.subscribed] at found
    cases found

/-- One id for one group object. -/
theorem Arranged.live_unique (arranged : b.Arranged) {id id' : String} {G : GroupRef}
    (live : b.Live id G) (live' : b.Live id' G) : id = id' :=
  (arranged.live id G live).2.symm.trans (arranged.live id' G live').2

/-! ## What keeps the arrangement -/

/-- Every created partition object keeps its topic and its number. -/
def SameKeys (b b' : Broker) : Prop :=
  b.nextPartition ≤ b'.nextPartition ∧
    ∀ p < b.nextPartition, (b'.partitions p).key = (b.partitions p).key

theorem Named.mono {b' : Broker} (keys : b.SameKeys b') {name : String} {ps : List PartitionRef}
    (named : b.Named name ps) : b'.Named name ps := by
  have same : ∀ p ∈ ps, (b'.partitions p).key = (b.partitions p).key :=
    fun p member => keys.2 p (named.created p member)
  refine ⟨fun p member => Nat.lt_of_lt_of_le (named.created p member) keys.1, fun p member => ?_,
    fun p first q second number => ?_⟩
  · exact (congrArg Prod.fst (same p member)).trans (named.topic p member)
  · have numberP : (b'.partitions p).partitionId = (b.partitions p).partitionId :=
      congrArg Prod.snd (same p first)
    have numberQ : (b'.partitions q).partitionId = (b.partitions q).partitionId :=
      congrArg Prod.snd (same q second)
    exact named.distinct p first q second (numberP.symm.trans (number.trans numberQ))

/-- What happened to the topics: each is as named and partitioned before, or new and named. -/
def TopicsKept (b b' : Broker) : Prop :=
  ∀ name t, b'.topics.get? name = some t →
    (∃ t₀, b.topics.get? name = some t₀ ∧ t.name = t₀.name ∧ t.partitions = t₀.partitions) ∨
      (t.name = name ∧ b'.Named name t.partitions)

theorem Arranged.congr (arranged : b.Arranged) {b' : Broker} (ids : b'.idOf = b.idOf)
    (keys : b.SameKeys b') (topics : b.TopicsKept b') (groups : b'.groups = b.groups)
    (consumerGroups : b'.consumerGroups = b.consumerGroups) (nextGroup : b'.nextGroup = b.nextGroup) :
    b'.Arranged := by
  refine ⟨fun G => ?_, fun groupId G live => ?_, fun name t found => ?_, fun G name ps found => ?_⟩
  · rw [groups]
    exact (arranged.keyed G).congr ids
  · rw [Live, consumerGroups] at live
    rw [nextGroup, groups]
    exact arranged.live groupId G live
  · rcases topics name t found with ⟨t₀, before, sameName, samePartitions⟩ | new
    · obtain ⟨named, partitions⟩ := arranged.topics name t₀ before
      exact ⟨sameName.trans named, samePartitions ▸ partitions.mono keys⟩
    · exact new
  · rw [groups] at found
    exact (arranged.subscribed G name ps found).mono keys

theorem TopicsKept.refl (b : Broker) {b' : Broker} (same : b'.topics = b.topics) : b.TopicsKept b' :=
  fun _ t found => .inl ⟨t, same ▸ found, rfl, rfl⟩

theorem SameKeys.refl (b : Broker) {b' : Broker} (next : b'.nextPartition = b.nextPartition)
    (keys : ∀ p, (b'.partitions p).key = (b.partitions p).key) : b.SameKeys b' :=
  ⟨Nat.le_of_eq next.symm, fun p _ => keys p⟩

/-- Other objects with the same ids and partition keys. -/
theorem Arranged.withObjects (arranged : b.Arranged) {o : Objects} (ids : o.idOf = b.idOf)
    (keys : ∀ p, (o.partitions p).key = (b.partitions p).key) : (b.withObjects o).Arranged :=
  arranged.congr ids (.refl b rfl keys) (.refl b rfl) rfl rfl rfl

/-- One group object changes and is rebalanced. -/
theorem Arranged.put (arranged : b.Arranged) {G : GroupRef} {o : Objects} {g : ConsumerGroup}
    (shrunk : b.Shrunk o) (groupId : g.groupId = (b.groups G).groupId) (keyed : g.Keyed o)
    (subscribed : ∀ name ps, g.subscribedTopics.get? name = some ps → b.Named name ps) :
    (b.putGroup G (g.rebalance o)).Arranged := by
  obtain ⟨sameId, -, members, topics⟩ := ConsumerGroup.rebalance_group o g
  have ids : (b.putGroup G (g.rebalance o)).idOf = b.idOf :=
    (ConsumerGroup.rebalance_idOf keyed).trans shrunk.idOf
  have store : (g.rebalance o).1.toStore = b.toStore := by
    rw [ConsumerGroup.rebalance_store keyed]
    exact shrunk.store
  have keys : b.SameKeys (b.putGroup G (g.rebalance o)) :=
    .refl b rfl fun p => congrArg (fun s => (Store.partitions s p).key) store
  refine ⟨fun G' => ?_, fun id G' live => ?_, fun name t found => ?_, fun G' name ps found => ?_⟩
  · by_cases here : G' = G
    · subst here
      simp only [putGroup_groups_self]
      intro id c found
      rw [members] at found
      exact (congrFun ids c).trans ((congrFun shrunk.idOf c).symm.trans (keyed id c found))
    · simp only [putGroup_groups_of_ne _ _ here]
      exact (arranged.keyed G').congr ids
  · obtain ⟨born, named⟩ := arranged.live id G' live
    refine ⟨born, ?_⟩
    by_cases here : G' = G
    · subst here
      simp only [putGroup_groups_self]
      exact sameId.trans (groupId.trans named)
    · simpa only [putGroup_groups_of_ne _ _ here] using named
  · obtain ⟨named, partitions⟩ := arranged.topics name t found
    exact ⟨named, partitions.mono keys⟩
  · by_cases here : G' = G
    · subst here
      simp only [putGroup_groups_self] at found
      rw [topics] at found
      exact (subscribed name ps found).mono keys
    · simp only [putGroup_groups_of_ne _ _ here] at found
      exact (arranged.subscribed G' name ps found).mono keys

/-! ## Topics and publishing -/

/-- A new topic has its name, and partition objects of its own. -/
theorem Arranged.newTopic (arranged : b.Arranged) (name : String) (config : TopicConfig) :
    Arranged { (b.newTopic name config).2 with
      topics := b.topics.set name (b.newTopic name config).1 } := by
  have keys : b.SameKeys (b.newTopic name config).2 :=
    ⟨Nat.le_add_right .., fun p old => by rw [(PublishRun.newTopic_old name config old).2]⟩
  refine arranged.congr rfl keys (fun other t found => ?_) rfl rfl rfl
  rcases Dict.get?_set_eq_some_iff.mp found with ⟨rfl, rfl⟩ | ⟨-, before⟩
  · refine .inr ⟨rfl, fun p member => (PublishRun.newTopic_mem member).1,
      fun p member => (PublishRun.newTopic_mem member).2, fun p first q second number => ?_⟩
    have numberOf : ∀ {p}, p ∈ (b.newTopic other config).1.partitions →
        ((b.newTopic other config).2.partitions p).partitionId = (p : ℤ) - b.nextPartition := by
      intro p member
      have inside : b.nextPartition ≤ p ∧ p < b.nextPartition + config.numPartitions.toNat := by
        simpa [Broker.newTopic] using member
      simp [Broker.newTopic, inside]
    have same : (p : ℤ) - b.nextPartition = q - b.nextPartition :=
      (numberOf first).symm.trans (number.trans (numberOf second))
    exact Int.ofNat.inj (sub_left_injective same)
  · exact .inl ⟨t, before, rfl, rfl⟩

theorem createTopic_cases (b : Broker) (name : String) (config : Option TopicConfig) :
    (∃ raised, b.createTopic name config = (.error raised, b)) ∨
    ∃ config', b.topics.contains name = false ∧ b.createTopic name config =
      (.ok (b.newTopic name config').1,
        { (b.newTopic name config').2 with
          topics := b.topics.set name (b.newTopic name config').1 }) := by
  unfold Broker.createTopic
  split
  · exact .inl ⟨_, rfl⟩
  · next absent =>
      split
      · exact .inl ⟨_, rfl⟩
      · exact .inr ⟨_, by simpa using absent, rfl⟩

/-- The topic was there, could not be created, or is new. -/
theorem topicFor_cases (b : Broker) (name : String) :
    (∃ t, b.topics.get? name = some t ∧ b.topicFor name = (.ok t, b)) ∨
    (∃ raised, b.topicFor name = (.error raised, b)) ∨
    ∃ config, b.topics.contains name = false ∧ b.topicFor name =
      (.ok (b.newTopic name config).1,
        { (b.newTopic name config).2 with
          topics := b.topics.set name (b.newTopic name config).1 }) := by
  unfold Broker.topicFor
  cases found : b.topics.get? name with
  | some t => exact .inl ⟨t, rfl, rfl⟩
  | none => exact .inr (b.createTopic_cases name none)

theorem Arranged.createTopic (arranged : b.Arranged) (name : String) (config : Option TopicConfig) :
    (b.createTopic name config).2.Arranged := by
  rcases b.createTopic_cases name config with ⟨raised, outcome⟩ | ⟨config', -, outcome⟩ <;>
    rw [outcome]
  · exact arranged
  · exact arranged.newTopic ..

theorem Arranged.topicFor (arranged : b.Arranged) (name : String) :
    (b.topicFor name).2.Arranged := by
  rcases b.topicFor_cases name with ⟨t, -, outcome⟩ | ⟨raised, outcome⟩ | ⟨config, -, outcome⟩ <;>
    rw [outcome]
  · exact arranged
  · exact arranged
  · exact arranged.newTopic ..

theorem topicFor_listed {name : String} {t : Topic} {b₁ : Broker}
    (made : b.topicFor name = (.ok t, b₁)) : b₁.topics.get? name = some t := by
  rcases b.topicFor_cases name with ⟨t, found, outcome⟩ | ⟨raised, outcome⟩ | ⟨config, -, outcome⟩ <;>
    rw [outcome] at made <;> cases made
  · exact found
  · exact Dict.get?_set_self ..

theorem topicFor_kept {name : String} {t : Topic} {b₁ : Broker}
    (created : b.topicFor name = (.ok t, b₁)) :
    b₁.consumers = b.consumers ∧ b₁.groups = b.groups ∧ b₁.consumerGroups = b.consumerGroups := by
  rcases b.topicFor_cases name with ⟨t, -, outcome⟩ | ⟨raised, outcome⟩ | ⟨config, -, outcome⟩ <;>
    rw [outcome] at created <;> cases created <;> exact ⟨rfl, rfl, rfl⟩

/-- A topic may change its counter and its subscribers, and the store its messages. -/
theorem Arranged.retopic (arranged : b.Arranged) {s : Store} {name : String} {t t' : Topic}
    (found : b.topics.get? name = some t) (sameName : t'.name = t.name)
    (samePartitions : t'.partitions = t.partitions)
    (keys : ∀ p, (s.partitions p).key = (b.partitions p).key) (count : ℕ) :
    Arranged { b with toStore := s, topics := b.topics.set name t', totalMessagesIn := count } := by
  refine arranged.congr rfl (.refl b rfl keys) (fun other u here => .inl ?_) rfl rfl rfl
  rcases Dict.get?_set_eq_some_iff.mp here with ⟨same, rfl⟩ | ⟨-, before⟩
  · exact ⟨t, same ▸ found, sameName, samePartitions⟩
  · exact ⟨u, before, rfl, rfl⟩

theorem Arranged.publish (arranged : b.Arranged) (enc : Encoding) (now : Timestamp) (m : MessageRef) :
    (b.publish enc now m).2.Arranged := by
  have arranged₁ := arranged.topicFor (b.messages m).topic
  rcases b.publish_cases enc now m with ⟨raised, b₁, created, outcome⟩ |
    ⟨t, b₁, t', created, name, partitions, outcome⟩
  · rw [created] at arranged₁
    rw [outcome]
    exact arranged₁
  · have found := topicFor_listed created
    rw [created] at arranged₁
    rcases outcome with ⟨raised, s, retouched, outcome⟩ | ⟨p, -, s, retouched, -, outcome⟩ <;>
      rw [outcome]
    · exact arranged₁.retopic found name partitions (fun q => by rw [retouched.partitions]) _
    · exact arranged₁.retopic found name partitions
        (fun q => by rw [Store.appended_key, retouched.partitions]) _

/-! ## Groups -/

/-- A new group has no members and no topics. -/
theorem Arranged.createConsumerGroup (arranged : b.Arranged) (groupId : String)
    (strategy : AssignmentStrategy) : (b.createConsumerGroup groupId strategy).2.Arranged := by
  unfold Broker.createConsumerGroup
  split
  · exact arranged
  · next absent =>
      have keys : b.SameKeys { b with
          consumerGroups := b.consumerGroups.set groupId b.nextGroup
          groups := Function.update b.groups b.nextGroup { groupId, strategy }
          nextGroup := b.nextGroup + 1 } := .refl b rfl fun _ => rfl
      refine ⟨fun G => ?_, fun id G live => ?_, fun name t found => ?_, fun G name ps found => ?_⟩
      · by_cases new : G = b.nextGroup
        · subst new
          simp only [Function.update_self]
          exact fun id c found => by cases found
        · simp only [Function.update_of_ne new]
          exact arranged.keyed G
      · rcases (live_newGroup_iff (fun id G live => (arranged.live id G live).1) absent).mp live with
          ⟨same, rfl⟩ | ⟨old, other⟩
        · refine ⟨Nat.lt_succ_self _, ?_⟩
          simp only [Function.update_self]
          exact same.symm
        · obtain ⟨born, named⟩ := arranged.live id G old
          refine ⟨Nat.lt_succ_of_lt born, ?_⟩
          simpa only [Function.update_of_ne other] using named
      · obtain ⟨named, partitions⟩ := arranged.topics name t found
        exact ⟨named, partitions.mono keys⟩
      · by_cases new : G = b.nextGroup
        · subst new
          simp only [Function.update_self] at found
          cases found
        · simp only [Function.update_of_ne new] at found
          exact (arranged.subscribed G name ps found).mono keys

theorem createConsumerGroup_live (b : Broker) (groupId : String) (strategy : AssignmentStrategy) :
    (b.createConsumerGroup groupId strategy).2.Live groupId
        (b.createConsumerGroup groupId strategy).1 ∧
      (b.createConsumerGroup groupId strategy).2.toObjects = b.toObjects ∧
      (b.createConsumerGroup groupId strategy).2.topics = b.topics := by
  unfold Broker.createConsumerGroup
  split
  · next G found => exact ⟨found, rfl, rfl⟩
  · exact ⟨Dict.get?_set_self .., rfl, rfl⟩

theorem Arranged.deleteConsumerGroup (arranged : b.Arranged) (groupId : String) :
    (b.deleteConsumerGroup groupId).2.Arranged := by
  have keys : b.SameKeys (b.deleteConsumerGroup groupId).2 := .refl b rfl fun _ => rfl
  refine ⟨arranged.keyed, fun id G live => arranged.live id G ?_, fun name t found => ?_,
    fun G name ps found => (arranged.subscribed G name ps found).mono keys⟩
  · exact (Dict.get?_erase_eq_some_iff.mp live).2
  · obtain ⟨named, partitions⟩ := arranged.topics name t found
    exact ⟨named, partitions.mono keys⟩

theorem Arranged.leave (arranged : b.Arranged) (G : GroupRef) (consumerId : String) :
    (b.leave G consumerId).2.Arranged := by
  rcases ConsumerGroup.leave_cases b.toObjects (b.groups G) consumerId with left | ⟨c, -, left⟩
  · have same : (b.leave G consumerId).2 = b := by simp [Broker.leave, left, putGroup]
    rw [same]
    exact arranged
  · have shrunk := b.shrunk_revoke c
    rw [Broker.leave, left]
    exact arranged.put shrunk rfl (((arranged.keyed G).erased consumerId).congr shrunk.idOf)
      (arranged.subscribed G)

theorem Arranged.removeDead (arranged : b.Arranged) (G : GroupRef) (now : String → Timestamp) :
    (b.putGroup G ((b.groups G).removeDeadMembers now b.toObjects).2).Arranged := by
  rcases ConsumerGroup.removeDeadMembers_cases now b.toObjects (b.groups G) with removed | removed
  · have same : b.putGroup G ((b.groups G).removeDeadMembers now b.toObjects).2 = b := by
      simp [removed, putGroup]
    rw [same]
    exact arranged
  · obtain ⟨shrunk, groupId, subscribed, -⟩ := ConsumerGroup.popDead_spec
      ((b.groups G).deadMembers now b.toObjects) b.toObjects (b.groups G)
    rw [removed]
    refine arranged.put shrunk groupId ((arranged.keyed G).popDead _) fun name ps found => ?_
    rw [subscribed] at found
    exact arranged.subscribed G name ps found

theorem Arranged.removeDeadFrom (arranged : b.Arranged) (now : String → String → Timestamp)
    (entries : List (String × GroupRef)) (results : Dict String (List String)) :
    (removeDeadFrom now entries results b).2.Arranged := by
  induction entries generalizing b results with
  | nil => exact arranged
  | cons e rest ih => exact ih (arranged.removeDead e.2 (now e.1)) _

theorem Arranged.unsubscribeAll (arranged : b.Arranged) (name : String) (groups : List GroupRef) :
    (unsubscribeAll name groups b).Arranged := by
  induction groups generalizing b with
  | nil => exact arranged
  | cons G rest ih =>
      refine ih (arranged.put (.refl _) rfl (arranged.keyed G) fun other ps found => ?_)
      exact arranged.subscribed G other ps (Dict.get?_erase_eq_some_iff.mp found).2

theorem Arranged.deleteTopic (arranged : b.Arranged) (name : String) :
    (b.deleteTopic name).2.Arranged := by
  unfold Broker.deleteTopic
  split
  · exact arranged
  · have erased : Arranged { b with topics := b.topics.erase name } := by
      refine arranged.congr rfl (.refl b rfl fun _ => rfl) (fun other t found => .inl ?_) rfl rfl rfl
      exact ⟨t, (Dict.get?_erase_eq_some_iff.mp found).2, rfl, rfl⟩
    exact erased.unsubscribeAll name _

/-! ## Subscribing -/

/-- The group with the topic subscribed, before it rebalances. -/
def subscribed (b : Broker) (G : GroupRef) (topicName : String) (partitions : List PartitionRef) :
    ConsumerGroup :=
  { b.groups G with subscribedTopics := (b.groups G).subscribedTopics.set topicName partitions }

/-- What a subscription does before the consumer joins: the topic and the group
are there, and the group has rebalanced with the topic's partitions. -/
theorem openSubscription_cases (b : Broker) (groupId topicName : String) :
    (∃ raised b₁, b.topicFor topicName = (.error raised, b₁) ∧
      b.openSubscription groupId topicName = (.error raised, b₁)) ∨
    ∃ t b₁ G b₂, b.topicFor topicName = (.ok t, b₁) ∧
      b₁.createConsumerGroup groupId .range = (G, b₂) ∧
      b.openSubscription groupId topicName = (.ok G,
        { b₂.putGroup G ((b₂.subscribed G topicName t.partitions).rebalance b₂.toObjects) with
          topics := b₂.topics.set topicName
            { t with subscribers := t.subscribers.insert groupId } }) := by
  rcases created : b.topicFor topicName with ⟨raised | t, b₁⟩
  · exact .inl ⟨raised, b₁, rfl, by simp only [openSubscription, created]⟩
  · refine .inr ⟨t, b₁, _, _, rfl, rfl, ?_⟩
    simp only [openSubscription, created]
    rfl

theorem Arranged.subscribedGroup (arranged : b.Arranged) {G : GroupRef} {topicName : String} {t : Topic}
    (found : b.topics.get? topicName = some t) {name : String} {ps : List PartitionRef}
    (listed : (b.subscribed G topicName t.partitions).subscribedTopics.get? name = some ps) :
    b.Named name ps := by
  rcases Dict.get?_set_eq_some_iff.mp listed with ⟨rfl, rfl⟩ | ⟨-, before⟩
  · exact (arranged.topics name t found).2
  · exact arranged.subscribed G name ps before

theorem Arranged.openSubscription (arranged : b.Arranged) (groupId topicName : String) :
    (b.openSubscription groupId topicName).2.Arranged := by
  have arranged₁ := arranged.topicFor topicName
  rcases b.openSubscription_cases groupId topicName with ⟨raised, b₁, created, opened⟩ |
    ⟨t, b₁, G, b₂, created, made, opened⟩
  · rw [created] at arranged₁
    rw [opened]
    exact arranged₁
  · have found := topicFor_listed created
    rw [created] at arranged₁
    have grouped := arranged₁.createConsumerGroup groupId .range
    obtain ⟨-, -, topics⟩ := b₁.createConsumerGroup_live groupId .range
    rw [made] at grouped topics
    have arranged₂ : b₂.Arranged := grouped
    have listed : b₂.topics.get? topicName = some t := (congrArg (Dict.get? · topicName) topics).trans found
    have rebalanced : Arranged
        (b₂.putGroup G ((b₂.subscribed G topicName t.partitions).rebalance b₂.toObjects)) :=
      arranged₂.put (.refl _) rfl (arranged₂.keyed G) fun _ _ => arranged₂.subscribedGroup listed
    let noted : Topic := { t with subscribers := t.subscribers.insert groupId }
    have name : noted.name = t.name := rfl
    have partitions : noted.partitions = t.partitions := rfl
    rw [opened]
    exact rebalanced.retopic listed name partitions (fun _ => rfl) _

theorem Arranged.join (arranged : b.Arranged) (G : GroupRef) (c : ConsumerRef) :
    (b.putGroup G ((b.groups G).join b.toObjects c)).Arranged :=
  arranged.put (b.shrunk_modify c rfl rfl fun _ member => member) rfl ((arranged.keyed G).joined c)
    (arranged.subscribed G)

theorem Arranged.subscribe (arranged : b.Arranged) (groupId topicName : String) (c : ConsumerRef) :
    (b.subscribe groupId topicName c).2.Arranged := by
  have opened := arranged.openSubscription groupId topicName
  unfold Broker.subscribe
  split
  · next found => exact found ▸ opened
  · next G b₁ found =>
      rw [found] at opened
      exact opened.join G c

/-! ## Consumers and logs -/

theorem Arranged.modifyConsumer (arranged : b.Arranged) (c : ConsumerRef) {f : Consumer → Consumer}
    (id : (f (b.consumers c)).consumerId = (b.consumers c).consumerId)
    (assigned : (f (b.consumers c)).assignedPartitions = (b.consumers c).assignedPartitions) :
    (b.withObjects (b.modifyConsumer c f)).Arranged :=
  arranged.withObjects (Objects.sameAssignment_update rfl id assigned).idOf fun _ => rfl

theorem Arranged.poll (arranged : b.Arranged) (c : ConsumerRef) (times : PollTimes)
    (maxMessages : Option ℤ) : (b.withObjects (b.toObjects.poll c times maxMessages)).Arranged := by
  have same := Consumer.poll_sameLogs times b.toStore (b.consumers c) maxMessages
  exact arranged.withObjects (b.toObjects.poll_sameAssignment c times maxMessages).idOf same.key

/-- A commit writes into the partitions it commits, and neither ids nor keys change. -/
theorem Arranged.committed (arranged : b.Arranged) (groupId : String) (offsets : Positions)
    (ps : List PartitionRef) {o : Objects} (ids : o.idOf = b.idOf)
    (stored : o.toStore = Consumer.commitPartitions groupId offsets ps b.toStore) :
    (b.withObjects o).Arranged := by
  have same := Consumer.commitPartitions_sameLogs groupId offsets ps b.toStore
  rw [← stored] at same
  exact arranged.withObjects ids same.key

theorem Arranged.applyLog (arranged : b.Arranged) (op : LogOp) : (b.applyLog op).Arranged :=
  arranged.congr rfl (.refl b rfl fun p => Store.applyOp_key b.toStore op p) (.refl b rfl) rfl rfl rfl

theorem Arranged.step (arranged : b.Arranged) (enc : Encoding) (op : BrokerOp) :
    (b.step enc op).Arranged := by
  cases op with
  | createTopic name config => exact arranged.createTopic name config
  | deleteTopic name => exact arranged.deleteTopic name
  | publish now m => exact arranged.publish enc now m
  | createConsumerGroup groupId strategy => exact arranged.createConsumerGroup groupId strategy
  | deleteConsumerGroup groupId => exact arranged.deleteConsumerGroup groupId
  | subscribe groupId topicName c => exact arranged.subscribe groupId topicName c
  | leave G consumerId => exact arranged.leave G consumerId
  | removeDeadConsumers now => exact arranged.removeDeadFrom now _ _
  | poll c times maxMessages => exact arranged.poll c times maxMessages
  | commit c now =>
      have same : b.SameAssignment (b.toObjects.commit c now) :=
        Objects.sameAssignment_update (c := c) rfl rfl rfl
      exact arranged.committed _ _ _ same.idOf rfl
  | close c now =>
      have same : b.SameAssignment (b.toObjects.close c now) :=
        Objects.sameAssignment_update (c := c) rfl rfl rfl
      exact arranged.committed _ _ _ same.idOf rfl
  | seek c topic partitionId offset => exact arranged.modifyConsumer c rfl rfl
  | seekToBeginning c => exact arranged.modifyConsumer c rfl rfl
  | seekToEnd c => exact arranged.modifyConsumer c rfl rfl
  | applyRetention now p => exact arranged.applyLog _
  | compact p => exact arranged.applyLog _
  | clear p => exact arranged.applyLog _
  | edit m message => exact arranged.congr rfl (.refl b rfl fun _ => rfl) (.refl b rfl) rfl rfl rfl

theorem run_arranged (enc : Encoding) (start : b.Start) (ops : List BrokerOp) :
    (run (step enc) b ops).Arranged := by
  have preserved : ∀ (b : Broker) op, b.Arranged → (b.step enc op).Arranged :=
    fun _ op arranged => arranged.step enc op
  exact run_preserves preserved start.arranged ops

end Broker

end BrokerLite
