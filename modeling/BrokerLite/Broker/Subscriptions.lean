/-
# Broker.Subscriptions -- one relation, stored with the topics and with the groups

Which groups subscribe to which topics is kept twice: a topic lists the ids of
its subscribers, and a group keeps the partitions of its topics by name.
`Consistent` says that the two agree, and that what a group keeps are the
partitions of the topic as it is now.

The groups never hold more than the topics (`Settled`, in every run).  Deleting
a topic tells the groups; deleting a group does not tell the topics, so the
agreement lasts exactly as long as only groups without topics are deleted
(`run_consistent_iff`).
-/
import BrokerLite.Broker.BrokerRun

namespace BrokerLite

open Theory

set_option autoImplicit false

/-- What a topic says about itself and its subscribers. -/
def Topic.roll (t : Topic) : String × List PartitionRef × List String :=
  (t.name, t.partitions, t.subscribers)

namespace Topic

theorem route_roll (enc : Encoding) (t : Topic) (message : Message) :
    (t.route enc message).2.roll = t.roll := by
  unfold route assignPartition
  split
  · split
    · split
      · rfl
      · split <;> rfl
    · split <;> rfl
  · rfl

theorem publish_roll (enc : Encoding) (now : Timestamp) (s : Store) (t : Topic) (m : MessageRef) :
    (t.publish enc now s m).2.2.roll = t.roll := by
  have routed := t.route_roll enc (s.messages m)
  unfold publish
  split
  · rfl
  · split
    · next found => rwa [found] at routed
    · next found =>
        rw [found] at routed
        split <;> exact routed

end Topic

namespace Broker

/-- The broker has a group of that id, and the group a topic of that name. -/
def Enrolled (b : Broker) (groupId name : String) : Prop :=
  ∃ G, b.Live groupId G ∧ name ∈ (b.groups G).subscribedTopics.keys

structure Consistent (b : Broker) : Prop where
  subscribers : ∀ name t, b.topics.get? name = some t → ∀ groupId,
    groupId ∈ t.subscribers ↔ b.Enrolled groupId t.name
  partitions : ∀ name t, b.topics.get? name = some t → ∀ groupId G, b.Live groupId G →
    ∀ ps, (b.groups G).subscribedTopics.get? t.name = some ps → ps = t.partitions

/-- A group is deleted only if it has no topics. -/
def Relieved (b : Broker) : BrokerOp → Prop
  | .deleteConsumerGroup groupId => ∀ name, ¬ b.Enrolled groupId name
  | _ => True

/-- The list of a topic's subscribers is the groups' side of the relation. -/
def Mirrored (b : Broker) : Prop :=
  ∀ name t, b.topics.get? name = some t → ∀ groupId, groupId ∈ t.subscribers ↔ b.Enrolled groupId name

/-- What the groups are subscribed to is there. -/
structure Settled (b : Broker) : Prop where
  arranged : b.Arranged
  current : ∀ groupId G, b.Live groupId G → Current b.topics (b.groups G)

variable {b b' : Broker}

theorem Settled.consistent_iff (settled : b.Settled) : b.Consistent ↔ b.Mirrored := by
  constructor
  · intro consistent name t found
    obtain rfl := (settled.arranged.topics name t found).1
    exact consistent.subscribers t.name t found
  · intro mirrored
    constructor
    · intro name t found
      obtain rfl := (settled.arranged.topics name t found).1
      exact mirrored t.name t found
    · intro name t found groupId G live ps subscribed
      obtain rfl := (settled.arranged.topics name t found).1
      obtain ⟨t', found', same⟩ := settled.current groupId G live t.name ps subscribed
      rw [found] at found'
      cases found'
      exact same.symm

/-- No group has a topic that is not there. -/
theorem Settled.listed (settled : b.Settled) {groupId name : String} (enrolled : b.Enrolled groupId name) :
    ∃ t, b.topics.get? name = some t := by
  obtain ⟨G, live, member⟩ := enrolled
  obtain ⟨ps, entry⟩ := Dict.mem_keys.mp member
  obtain ⟨t, found, -⟩ := settled.current groupId G live name ps (Dict.get?_eq_some_iff.mpr entry)
  exact ⟨t, found⟩

/-! ## What does not concern subscriptions -/

/-- The same topics, subscribers and subscriptions. -/
structure SameSubscriptions (b b' : Broker) : Prop where
  topics : ∀ name, (b'.topics.get? name).map Topic.roll = (b.topics.get? name).map Topic.roll
  live : b'.consumerGroups = b.consumerGroups
  groups : ∀ G, (b'.groups G).subscribedTopics = (b.groups G).subscribedTopics

namespace SameSubscriptions

theorem refl (b : Broker) : b.SameSubscriptions b := ⟨fun _ => rfl, rfl, fun _ => rfl⟩

theorem topic (same : b.SameSubscriptions b') {name : String} {t' : Topic}
    (found : b'.topics.get? name = some t') :
    ∃ t, b.topics.get? name = some t ∧ t'.partitions = t.partitions ∧ t'.subscribers = t.subscribers := by
  have rolls := same.topics name
  rw [found, Option.map_some, eq_comm, Option.map_eq_some_iff] at rolls
  obtain ⟨t, before, roll⟩ := rolls
  simp only [Topic.roll, Prod.mk.injEq] at roll
  exact ⟨t, before, roll.2.1.symm, roll.2.2.symm⟩

theorem symm (same : b.SameSubscriptions b') : b'.SameSubscriptions b :=
  ⟨fun name => (same.topics name).symm, same.live.symm, fun G => (same.groups G).symm⟩

theorem enrolled_iff (same : b.SameSubscriptions b') (groupId name : String) :
    b'.Enrolled groupId name ↔ b.Enrolled groupId name := by
  simp only [Enrolled, Live, same.live, same.groups]

theorem mirrored (same : b.SameSubscriptions b') (mirrored : b.Mirrored) : b'.Mirrored := by
  intro name t' found groupId
  obtain ⟨t, before, -, subscribers⟩ := same.topic found
  rw [subscribers, same.enrolled_iff]
  exact mirrored name t before groupId

theorem current (same : b.SameSubscriptions b')
    (current : ∀ groupId G, b.Live groupId G → Current b.topics (b.groups G)) :
    ∀ groupId G, b'.Live groupId G → Current b'.topics (b'.groups G) := by
  intro groupId G live name ps subscribed
  rw [Live, same.live] at live
  rw [same.groups] at subscribed
  obtain ⟨t, before, partitions⟩ := current groupId G live name ps subscribed
  obtain ⟨t', found, partitions', -⟩ := same.symm.topic before
  exact ⟨t', found, partitions'.symm.trans partitions⟩

/-- One group object changes, but not its topics. -/
theorem put (b : Broker) {G : GroupRef} {done : Objects × ConsumerGroup}
    (subscribed : done.2.subscribedTopics = (b.groups G).subscribedTopics) :
    b.SameSubscriptions (b.putGroup G done) := by
  refine ⟨fun _ => rfl, rfl, fun G' => ?_⟩
  by_cases here : G' = G
  · subst here
    simpa [putGroup] using subscribed
  · simp [putGroup_groups_of_ne _ _ here]

theorem trans {b'' : Broker} (first : b.SameSubscriptions b') (second : b'.SameSubscriptions b'') :
    b.SameSubscriptions b'' :=
  ⟨fun name => (second.topics name).trans (first.topics name), second.live.trans first.live,
    fun G => (second.groups G).trans (first.groups G)⟩

end SameSubscriptions

theorem leave_sameSubscriptions (b : Broker) (G : GroupRef) (consumerId : String) :
    b.SameSubscriptions (b.leave G consumerId).2 := by
  apply SameSubscriptions.put
  rcases ConsumerGroup.leave_cases b.toObjects (b.groups G) consumerId with left | ⟨c, -, left⟩
  · rw [left]
  · rw [left]
    exact (ConsumerGroup.rebalance_group ..).2.2.2

theorem removeDeadFrom_sameSubscriptions (now : String → String → Timestamp)
    (entries : List (String × GroupRef)) (results : Dict String (List String)) (b : Broker) :
    b.SameSubscriptions (removeDeadFrom now entries results b).2 := by
  induction entries generalizing b results with
  | nil => exact .refl b
  | cons e rest ih =>
      refine SameSubscriptions.trans (.put b ?_) (ih ..)
      obtain ⟨-, -, subscribed, -⟩ := ConsumerGroup.popDead_spec
        ((b.groups e.2).deadMembers (now e.1) b.toObjects) b.toObjects (b.groups e.2)
      rcases ConsumerGroup.removeDeadMembers_cases (now e.1) b.toObjects (b.groups e.2) with
        removed | removed
      · rw [removed]
      · rw [removed]
        exact (ConsumerGroup.rebalance_group ..).2.2.2.trans subscribed

/-- Publishing to a topic that is there changes its counter at most. -/
theorem publish_sameSubscriptions (enc : Encoding) (now : Timestamp) (b : Broker) (m : MessageRef) :
    (b.topicFor (b.messages m).topic).2.SameSubscriptions (b.publish enc now m).2 := by
  rcases found : b.topicFor (b.messages m).topic with ⟨raised | t, b₁⟩
  · simp only [publish, found]
    exact .refl b₁
  · have listed := topicFor_listed found
    have roll := t.publish_roll enc now b₁.toStore m
    have kept : ∀ t' : Topic, t'.roll = t.roll → ∀ name,
        ((b₁.topics.set (b.messages m).topic t').get? name).map Topic.roll =
          (b₁.topics.get? name).map Topic.roll := by
      intro t' roll name
      rw [Dict.get?_set]
      split
      · next here => rw [here, listed, Option.map_some, Option.map_some, roll]
      · rfl
    rcases sent : t.publish enc now b₁.toStore m with ⟨raised | offset, s, t'⟩ <;>
      rw [sent] at roll <;> simp only [publish, found, sent] <;>
      exact ⟨kept t' roll, rfl, fun _ => rfl⟩

/-! ## Topics -/

/-- No group has a topic that is only now created. -/
theorem Settled.newTopic (settled : b.Settled) {name : String} (absent : b.topics.contains name = false)
    (config : TopicConfig) :
    Settled { (b.newTopic name config).2 with
      topics := b.topics.set name (b.newTopic name config).1 } := by
  refine ⟨settled.arranged.newTopic name config, fun groupId G live other ps subscribed => ?_⟩
  obtain ⟨t, found, same⟩ := settled.current groupId G live other ps subscribed
  refine ⟨t, ?_, same⟩
  have different : other ≠ name := by
    rintro rfl
    exact Bool.false_ne_true (absent.symm.trans (by simp [Dict.contains, found]))
  exact (Dict.get?_set_of_ne _ different _).trans found

theorem Mirrored.newTopic (mirrored : b.Mirrored) (settled : b.Settled) {name : String}
    (absent : b.topics.contains name = false) (config : TopicConfig) :
    Mirrored { (b.newTopic name config).2 with
      topics := b.topics.set name (b.newTopic name config).1 } := by
  intro other t found groupId
  rcases Dict.get?_set_eq_some_iff.mp found with ⟨rfl, rfl⟩ | ⟨-, before⟩
  · refine iff_of_false (by simp [Broker.newTopic]) fun enrolled => ?_
    obtain ⟨t, listed⟩ := settled.listed (b := b) enrolled
    exact Bool.false_ne_true (absent.symm.trans (by simp [Dict.contains, listed]))
  · exact mirrored other t before groupId

theorem Settled.createTopic (settled : b.Settled) (name : String) (config : Option TopicConfig) :
    (b.createTopic name config).2.Settled ∧
      (b.Mirrored → (b.createTopic name config).2.Mirrored) := by
  rcases b.createTopic_cases name config with ⟨raised, outcome⟩ | ⟨config', absent, outcome⟩ <;>
    rw [outcome]
  · exact ⟨settled, fun mirrored => mirrored⟩
  · exact ⟨settled.newTopic absent config', fun mirrored => mirrored.newTopic settled absent config'⟩

theorem Settled.topicFor (settled : b.Settled) (name : String) :
    (b.topicFor name).2.Settled ∧ (b.Mirrored → (b.topicFor name).2.Mirrored) := by
  rcases b.topicFor_cases name with ⟨t, -, outcome⟩ | ⟨raised, outcome⟩ | ⟨config, absent, outcome⟩ <;>
    rw [outcome]
  · exact ⟨settled, fun mirrored => mirrored⟩
  · exact ⟨settled, fun mirrored => mirrored⟩
  · exact ⟨settled.newTopic absent config, fun mirrored => mirrored.newTopic settled absent config⟩

/-- The loop of `delete_topic` takes the topic from every group of the list. -/
theorem unsubscribeAll_spec (name : String) (groups : List GroupRef) (b : Broker) :
    (unsubscribeAll name groups b).topics = b.topics ∧
    (unsubscribeAll name groups b).consumerGroups = b.consumerGroups ∧
    ∀ G, ((unsubscribeAll name groups b).groups G).subscribedTopics =
      if G ∈ groups then (b.groups G).subscribedTopics.erase name
      else (b.groups G).subscribedTopics := by
  induction groups generalizing b with
  | nil => exact ⟨rfl, rfl, fun _ => rfl⟩
  | cons G rest ih =>
      obtain ⟨topics, live, subscribed⟩ :=
        ih (b.putGroup G ((b.groups G).unsubscribe b.toObjects name))
      refine ⟨topics, live, fun G' => ?_⟩
      rw [unsubscribeAll, subscribed]
      by_cases here : G' = G
      · subst here
        have erased : ((b.groups G').unsubscribe b.toObjects name).2.subscribedTopics =
            (b.groups G').subscribedTopics.erase name := (ConsumerGroup.rebalance_group ..).2.2.2
        have twice : ((b.groups G').subscribedTopics.erase name).erase name =
            (b.groups G').subscribedTopics.erase name :=
          Dict.erase_of_absent fun member => (Dict.mem_keys_erase.mp member).2 rfl
        simp [putGroup, erased, twice]
      · simp [here, putGroup_groups_of_ne _ _ here]

/-- After a topic was deleted, the groups have what they had but for it. -/
theorem deleteTopic_spec {name : String} {t : Topic} (found : b.topics.get? name = some t) :
    (b.deleteTopic name).2.topics = b.topics.erase name ∧
    (b.deleteTopic name).2.consumerGroups = b.consumerGroups ∧
    ∀ groupId G, b.Live groupId G → ((b.deleteTopic name).2.groups G).subscribedTopics =
      (b.groups G).subscribedTopics.erase name := by
  simp only [deleteTopic, found]
  obtain ⟨topics, live, subscribed⟩ := unsubscribeAll_spec name b.consumerGroups.values
    { b with topics := b.topics.erase name }
  refine ⟨topics, live, fun groupId G alive => (subscribed G).trans (if_pos ?_)⟩
  exact Dict.mem_values.mpr ⟨groupId, Dict.get?_eq_some_iff.mp alive⟩

theorem Settled.deleteTopic (settled : b.Settled) (name : String) : (b.deleteTopic name).2.Settled := by
  refine ⟨settled.arranged.deleteTopic name, ?_⟩
  cases found : b.topics.get? name with
  | none =>
      simp only [Broker.deleteTopic, found]
      exact settled.current
  | some t =>
      obtain ⟨topics, consumerGroups, subscriptions⟩ := deleteTopic_spec found
      intro groupId G live other ps subscribed
      rw [Live, consumerGroups] at live
      rw [subscriptions groupId G live, Dict.get?_erase_eq_some_iff] at subscribed
      obtain ⟨different, subscribed⟩ := subscribed
      rw [topics, Dict.get?_erase_of_ne _ different]
      exact settled.current groupId G live other ps subscribed

theorem Mirrored.deleteTopic (mirrored : b.Mirrored) (name : String) :
    (b.deleteTopic name).2.Mirrored := by
  cases found : b.topics.get? name with
  | none =>
      simp only [Broker.deleteTopic, found]
      exact mirrored
  | some t =>
      obtain ⟨topics, consumerGroups, subscriptions⟩ := deleteTopic_spec found
      intro other t' listed groupId
      rw [topics, Dict.get?_erase_eq_some_iff] at listed
      obtain ⟨different, listed⟩ := listed
      rw [mirrored other t' listed groupId]
      simp only [Enrolled, Live, consumerGroups]
      refine exists_congr fun G => and_congr_right fun live => ?_
      rw [subscriptions groupId G live, Dict.mem_keys_erase]
      exact (and_iff_left different).symm

/-! ## Groups -/

theorem Settled.createConsumerGroup (settled : b.Settled) (groupId : String)
    (strategy : AssignmentStrategy) : (b.createConsumerGroup groupId strategy).2.Settled := by
  refine ⟨settled.arranged.createConsumerGroup groupId strategy, fun id G live => ?_⟩
  cases found : b.consumerGroups.get? groupId with
  | some G₀ =>
      simp only [Broker.createConsumerGroup, found] at live ⊢
      exact settled.current id G live
  | none =>
      have born := fun id G live => (settled.arranged.live id G live).1
      simp only [Broker.createConsumerGroup, found] at live ⊢
      rcases (live_newGroup_iff born found).mp live with ⟨-, rfl⟩ | ⟨old, other⟩
      · intro name ps subscribed
        simp at subscribed
      · simpa only [Function.update_of_ne other] using settled.current id G old

/-- A group that is only now created has no topics. -/
theorem Arranged.enrolled_createConsumerGroup (arranged : b.Arranged) (groupId : String)
    (strategy : AssignmentStrategy) (id name : String) :
    (b.createConsumerGroup groupId strategy).2.Enrolled id name ↔ b.Enrolled id name := by
  cases found : b.consumerGroups.get? groupId with
  | some G => simp [Broker.createConsumerGroup, found]
  | none =>
      have born := fun id G live => (arranged.live id G live).1
      simp only [Broker.createConsumerGroup, found, Enrolled, Live, live_newGroup_iff born found]
      constructor
      · rintro ⟨G, ⟨rfl, rfl⟩ | ⟨live, other⟩, member⟩
        · simp at member
        · rw [Function.update_of_ne other] at member
          exact ⟨G, live, member⟩
      · rintro ⟨G, live, member⟩
        have other := ne_of_lt (born id G live)
        refine ⟨G, .inr ⟨live, other⟩, ?_⟩
        rwa [Function.update_of_ne other]

theorem Mirrored.createConsumerGroup (mirrored : b.Mirrored) (arranged : b.Arranged) (groupId : String)
    (strategy : AssignmentStrategy) : (b.createConsumerGroup groupId strategy).2.Mirrored := by
  intro name t found id
  rw [(b.createConsumerGroup_live groupId strategy).2.2] at found
  rw [arranged.enrolled_createConsumerGroup]
  exact mirrored name t found id

theorem enrolled_deleteConsumerGroup (groupId id name : String) :
    (b.deleteConsumerGroup groupId).2.Enrolled id name ↔ id ≠ groupId ∧ b.Enrolled id name := by
  simp only [Enrolled, Live, Broker.deleteConsumerGroup, Dict.get?_erase]
  by_cases here : id = groupId <;> simp [here]

theorem Settled.deleteConsumerGroup (settled : b.Settled) (groupId : String) :
    (b.deleteConsumerGroup groupId).2.Settled := by
  refine ⟨settled.arranged.deleteConsumerGroup groupId, fun id G live => ?_⟩
  exact settled.current id G (Dict.get?_erase_eq_some_iff.mp live).2

/-- **Deleting a group is exact only for a group without topics**: otherwise the
topics go on listing it. -/
theorem Mirrored.deleteConsumerGroup_iff (mirrored : b.Mirrored) (settled : b.Settled)
    (groupId : String) :
    (b.deleteConsumerGroup groupId).2.Mirrored ↔ ∀ name, ¬ b.Enrolled groupId name := by
  constructor
  · intro after name enrolled
    obtain ⟨t, found⟩ := settled.listed enrolled
    have listed : groupId ∈ t.subscribers := (mirrored name t found groupId).mpr enrolled
    exact (enrolled_deleteConsumerGroup groupId groupId name).mp ((after name t found _).mp listed) |>.1 rfl
  · intro relieved name t found id
    rw [mirrored name t found id, enrolled_deleteConsumerGroup, iff_and_self]
    rintro enrolled rfl
    exact relieved name enrolled

/-! ## Subscribing -/

/-- The broker in which topic `t`, of that name, and group `G`, of that id, have noted
each other. -/
def enrol (b : Broker) (groupId name : String) (t : Topic) (G : GroupRef) : Broker :=
  { b.putGroup G ((b.subscribed G name t.partitions).rebalance b.toObjects) with
    topics := b.topics.set name { t with subscribers := t.subscribers.insert groupId } }

theorem enrol_subscribedTopics (b : Broker) (groupId name : String) (t : Topic) (G G' : GroupRef) :
    ((b.enrol groupId name t G).groups G').subscribedTopics =
      if G' = G then (b.groups G).subscribedTopics.set name t.partitions
      else (b.groups G').subscribedTopics := by
  by_cases here : G' = G
  · subst here
    simp [enrol, putGroup, (ConsumerGroup.rebalance_group ..).2.2.2, subscribed]
  · simp [enrol, putGroup, here]

theorem enrolled_enrol (arranged : b.Arranged) {groupId : String} {G : GroupRef}
    (live : b.Live groupId G) (name : String) (t : Topic) (id other : String) :
    (b.enrol groupId name t G).Enrolled id other ↔
      id = groupId ∧ other = name ∨ b.Enrolled id other := by
  have kept : ∀ G', (b.enrol groupId name t G).Live id G' ↔ b.Live id G' := fun _ => Iff.rfl
  simp only [Enrolled, kept, enrol_subscribedTopics]
  constructor
  · rintro ⟨G', live', member⟩
    split at member
    · next here =>
        subst here
        rcases Dict.mem_keys_set.mp member with rfl | before
        · exact .inl ⟨arranged.live_unique live' live, rfl⟩
        · exact .inr ⟨G', live', before⟩
    · exact .inr ⟨G', live', member⟩
  · rintro (⟨rfl, rfl⟩ | ⟨G', live', member⟩)
    · exact ⟨G, live, by simp [Dict.mem_keys_set]⟩
    · refine ⟨G', live', ?_⟩
      split
      · next here => exact Dict.mem_keys_set.mpr (.inr (here ▸ member))
      · exact member

theorem Mirrored.enrol (mirrored : b.Mirrored) (arranged : b.Arranged) {groupId name : String}
    {t : Topic} {G : GroupRef} (found : b.topics.get? name = some t) (live : b.Live groupId G) :
    (b.enrol groupId name t G).Mirrored := by
  intro other t' listed id
  have listed : (b.topics.set name { t with subscribers := t.subscribers.insert groupId }).get? other =
    some t' := listed
  rw [enrolled_enrol arranged live]
  rcases Dict.get?_set_eq_some_iff.mp listed with ⟨rfl, rfl⟩ | ⟨different, before⟩
  · simp [List.mem_insert_iff, mirrored other t found id]
  · simp [different, mirrored other t' before id]

theorem current_enrol (settled : b.Settled) {groupId name : String} {t : Topic} {G : GroupRef}
    (found : b.topics.get? name = some t) (id : String) (G' : GroupRef)
    (live : (b.enrol groupId name t G).Live id G') :
    Current (b.enrol groupId name t G).topics ((b.enrol groupId name t G).groups G') := by
  have kept : ∀ other u, b.topics.get? other = some u →
      ∃ u', (b.enrol groupId name t G).topics.get? other = some u' ∧ u'.partitions = u.partitions := by
    intro other u listed
    by_cases here : other = name
    · subst here
      rw [found] at listed
      cases listed
      exact ⟨_, Dict.get?_set_self .., rfl⟩
    · exact ⟨u, (Dict.get?_set_of_ne _ here _).trans listed, rfl⟩
  have before : ∀ other ps, (b.groups G').subscribedTopics.get? other = some ps →
      ∃ u', (b.enrol groupId name t G).topics.get? other = some u' ∧ u'.partitions = ps := by
    intro other ps subscribed
    obtain ⟨u, listed, same⟩ := settled.current id G' live other ps subscribed
    obtain ⟨u', listed', same'⟩ := kept other u listed
    exact ⟨u', listed', same'.trans same⟩
  intro other ps subscribed
  rw [enrol_subscribedTopics] at subscribed
  split at subscribed
  · next here =>
      subst here
      rcases Dict.get?_set_eq_some_iff.mp subscribed with ⟨rfl, rfl⟩ | ⟨-, listed⟩
      · exact kept other t found
      · exact before other ps listed
  · exact before other ps subscribed

/-- The side of the topics and the side of the groups change together. -/
theorem Settled.openSubscription (settled : b.Settled) (groupId topicName : String) :
    (b.openSubscription groupId topicName).2.Settled ∧
      (b.Mirrored → (b.openSubscription groupId topicName).2.Mirrored) := by
  have arranged := settled.arranged.openSubscription groupId topicName
  obtain ⟨settled₁, mirrored₁⟩ := settled.topicFor topicName
  rcases b.openSubscription_cases groupId topicName with ⟨raised, b₁, created, opened⟩ |
    ⟨t, b₁, G, b₂, created, made, opened⟩
  · rw [created] at settled₁ mirrored₁
    rw [opened]
    exact ⟨settled₁, mirrored₁⟩
  · have found := topicFor_listed created
    rw [created] at settled₁ mirrored₁
    have settled₂ := settled₁.createConsumerGroup groupId .range
    obtain ⟨live, -, topics⟩ := b₁.createConsumerGroup_live groupId .range
    have mirrored₂ : b.Mirrored → (b₁.createConsumerGroup groupId .range).2.Mirrored :=
      fun mirrored => (mirrored₁ mirrored).createConsumerGroup settled₁.arranged groupId .range
    rw [made] at settled₂ live topics mirrored₂
    have settled₂ : b₂.Settled := settled₂
    have found₂ : b₂.topics.get? topicName = some t :=
      (congrArg (Dict.get? · topicName) topics).trans found
    rw [opened] at arranged ⊢
    refine ⟨⟨arranged, ?_⟩, fun mirrored => ?_⟩
    · intro id G' live'
      exact current_enrol settled₂ found₂ id G' live'
    · exact (mirrored₂ mirrored).enrol settled₂.arranged found₂ live

theorem Settled.subscribe (settled : b.Settled) (groupId topicName : String) (c : ConsumerRef) :
    (b.subscribe groupId topicName c).2.Settled ∧
      (b.Mirrored → (b.subscribe groupId topicName c).2.Mirrored) := by
  have arranged := settled.arranged.subscribe groupId topicName c
  obtain ⟨opened, mirrored₁⟩ := settled.openSubscription groupId topicName
  have same : (b.openSubscription groupId topicName).2.SameSubscriptions
      (b.subscribe groupId topicName c).2 := by
    rcases found : b.openSubscription groupId topicName with ⟨raised | G, b₁⟩
    · simp only [Broker.subscribe, found]
      exact .refl b₁
    · simp only [Broker.subscribe, found]
      exact .put b₁ (ConsumerGroup.rebalance_group ..).2.2.2
  exact ⟨⟨arranged, same.current opened.current⟩, fun mirrored => same.mirrored (mirrored₁ mirrored)⟩

/-! ## The runs -/

/-- The operations that are neither about topics nor about groups. -/
theorem step_sameSubscriptions (enc : Encoding) (b : Broker) (op : BrokerOp) :
    match op with
    | .createTopic .. | .deleteTopic .. | .publish .. | .createConsumerGroup ..
    | .deleteConsumerGroup .. | .subscribe .. => True
    | _ => b.SameSubscriptions (b.step enc op) := by
  cases op with
  | leave G consumerId => exact b.leave_sameSubscriptions G consumerId
  | removeDeadConsumers now => exact removeDeadFrom_sameSubscriptions now _ _ b
  | _ => first | trivial | exact ⟨fun _ => rfl, rfl, fun _ => rfl⟩

theorem Settled.step (settled : b.Settled) (enc : Encoding) (op : BrokerOp) :
    (b.step enc op).Settled := by
  refine ⟨settled.arranged.step enc op, ?_⟩
  have other := b.step_sameSubscriptions enc op
  cases op with
  | createTopic name config => exact (settled.createTopic name config).1.current
  | deleteTopic name => exact (settled.deleteTopic name).current
  | publish now m =>
      exact (publish_sameSubscriptions enc now b m).current (settled.topicFor _).1.current
  | createConsumerGroup groupId strategy => exact (settled.createConsumerGroup groupId strategy).current
  | deleteConsumerGroup groupId => exact (settled.deleteConsumerGroup groupId).current
  | subscribe groupId topicName c => exact (settled.subscribe groupId topicName c).1.current
  | _ => exact other.current settled.current

theorem Mirrored.step_iff (mirrored : b.Mirrored) (settled : b.Settled) (enc : Encoding)
    (op : BrokerOp) : (b.step enc op).Mirrored ↔ b.Relieved op := by
  have other := b.step_sameSubscriptions enc op
  cases op with
  | deleteConsumerGroup groupId => exact mirrored.deleteConsumerGroup_iff settled groupId
  | createTopic name config => exact iff_of_true ((settled.createTopic name config).2 mirrored) trivial
  | deleteTopic name => exact iff_of_true (mirrored.deleteTopic name) trivial
  | publish now m =>
      refine iff_of_true ?_ trivial
      exact (publish_sameSubscriptions enc now b m).mirrored ((settled.topicFor _).2 mirrored)
  | createConsumerGroup groupId strategy =>
      exact iff_of_true (mirrored.createConsumerGroup settled.arranged groupId strategy) trivial
  | subscribe groupId topicName c =>
      exact iff_of_true ((settled.subscribe groupId topicName c).2 mirrored) trivial
  | _ => exact iff_of_true (other.mirrored mirrored) trivial

theorem Start.settled (start : b.Start) : b.Settled := by
  refine ⟨start.arranged, fun groupId G live => ?_⟩
  rw [Live, start.consumerGroups] at live
  cases live

theorem Start.mirrored (start : b.Start) : b.Mirrored := by
  intro name t found
  rw [start.topics] at found
  cases found

/-- **Topics and groups agree on who subscribes to what**, and the groups keep the
topics' current partitions, in every state of a run exactly when every group that
the run deletes has no topics at that time. -/
theorem run_consistent_iff (enc : Encoding) (start : b.Start) (ops : List BrokerOp) :
    (∀ before, before <+: ops → (run (step enc) b before).Consistent) ↔
      Guarded (step enc) Relieved b ops := by
  have preserved : ∀ (b : Broker) op, b.Settled → (b.step enc op).Settled :=
    fun _ op settled => settled.step enc op
  have exact_ : ∀ (b : Broker) op, b.Settled → b.Consistent →
      ((b.step enc op).Consistent ↔ b.Relieved op) := by
    intro b op settled consistent
    rw [(settled.step enc op).consistent_iff]
    exact (settled.consistent_iff.mp consistent).step_iff settled enc op
  exact forall_prefix_iff_guarded preserved exact_ start.settled
    (start.settled.consistent_iff.mpr start.mirrored)

/-! ## A group deleted with its topic -/

/-- The topic is created by the subscription, and its only group is deleted. -/
def orphaningOps : List BrokerOp := [.subscribe "g" "t" 0, .deleteConsumerGroup "g"]

theorem orphaningOps_consistent_iff :
    (∀ before, before <+: orphaningOps →
        (run (step PublishRun.digestOfK) PublishRun.publishStart.broker before).Consistent) ↔
      Guarded (step PublishRun.digestOfK) Relieved PublishRun.publishStart.broker orphaningOps :=
  run_consistent_iff PublishRun.digestOfK ⟨rfl, rfl, fun _ => rfl, fun _ => rfl, rfl⟩ orphaningOps

/-- The topic still counts the group that is no more. -/
theorem orphaningOps_leave_subscriber :
    let b := run (step PublishRun.digestOfK) PublishRun.publishStart.broker orphaningOps
    ¬ b.Consistent ∧ (b.topics.get? "t").map Topic.subscribers = some ["g"] ∧
      b.consumerGroups.keys = [] := by
  refine ⟨fun consistent => ?_, by decide +kernel, by decide +kernel⟩
  let b := run (step PublishRun.digestOfK) PublishRun.publishStart.broker orphaningOps
  have listed : (b.topics.get? "t").map Topic.subscribers = some ["g"] := by decide +kernel
  obtain ⟨t, found, subscribers⟩ := Option.map_eq_some_iff.mp listed
  have member : "g" ∈ t.subscribers := subscribers ▸ List.mem_singleton_self "g"
  obtain ⟨G, live, -⟩ := (consistent.subscribers "t" t found "g").mp member
  have none_ : b.consumerGroups.get? "g" = none := by decide +kernel
  cases none_.symm.trans live

end Broker

end BrokerLite
