/-
# Broker.Recreation -- a topic that is deleted and created again

Deleting a topic drops its partition objects, and with them what groups have
committed there; consumers keep their positions under the topic's name and the
partition's number.  A consumer that subscribes to the name again is therefore
placed, in the new partition, where it stood in the old one.

`subscribe_position` computes where a subscription places the consumer, and
`recreated_position_iff` says when that is the beginning.
-/
import BrokerLite.Broker.BrokerRun

namespace BrokerLite

open Theory

set_option autoImplicit false

namespace Broker

/-- The consumer object is a member of the broker's group of that id. -/
def IsMember (b : Broker) (groupId : String) (c : ConsumerRef) : Prop :=
  ∃ G, b.Live groupId G ∧ (b.groups G).members.get? (b.idOf c) = some c

/-- Nothing places the consumer past the beginning of partition object `p`: it
stands at 0 under the partition's key or keeps no position there; and if it keeps
none and is a member already, the group it is configured for has committed
nothing but 0 in `p`. -/
def Forgotten (b : Broker) (groupId : String) (c : ConsumerRef) (p : PartitionRef)
    (key : String × ℤ) : Prop :=
  match (b.consumers c).offsets.get? key with
  | some position => position = 0
  | none => b.IsMember groupId c → p < b.nextPartition →
      (b.partitions p).getCommittedOffset (b.consumers c).config.groupId = 0

variable {b : Broker}

/-! ## What a subscription does -/

theorem subscribe_cases {groupId topicName : String} {c : ConsumerRef} {G : GroupRef} {b' : Broker}
    (subscribed : b.subscribe groupId topicName c = (.ok G, b')) :
    ∃ t b₁ b₂, b.topicFor topicName = (.ok t, b₁) ∧
      b₁.createConsumerGroup groupId .range = (G, b₂) ∧
      b'.toObjects = (((b₂.subscribed G topicName t.partitions).rebalance b₂.toObjects).2.join
        ((b₂.subscribed G topicName t.partitions).rebalance b₂.toObjects).1 c).1 ∧
      b'.topics = b₂.topics.set topicName
        { t with subscribers := t.subscribers.insert groupId } := by
  rcases b.openSubscription_cases groupId topicName with ⟨raised, b₁, -, opened⟩ |
    ⟨t, b₁, G', b₂, created, made, opened⟩
  · simp [Broker.subscribe, opened] at subscribed
  · simp only [Broker.subscribe, opened, Prod.mk.injEq, Except.ok.injEq] at subscribed
    obtain ⟨rfl, rfl⟩ := subscribed
    exact ⟨t, b₁, b₂, created, made, by simp [putGroup], by simp [putGroup]⟩

/-- Nothing is committed in a partition that the subscription itself creates. -/
theorem topicFor_uncommitted (arranged : b.Arranged) {name : String} {t : Topic} {b₁ : Broker}
    (created : b.topicFor name = (.ok t, b₁)) {p : PartitionRef} (member : p ∈ t.partitions)
    (fresh : ¬ p < b.nextPartition) : (b₁.partitions p).committedOffsets = .empty := by
  rcases b.topicFor_cases name with ⟨t, found, outcome⟩ | ⟨raised, outcome⟩ | ⟨config, -, outcome⟩ <;>
    rw [outcome] at created <;> cases created
  · exact absurd ((arranged.topics name t found).2.created p member) fresh
  · rcases PublishRun.newTopic_partitions b name config p with ⟨-, old⟩ | ⟨-, -, new⟩
    · exact absurd (old (PublishRun.newTopic_mem member).1) fresh
    · exact congrArg Partition.committedOffsets new

theorem createConsumerGroup_member (b : Broker) (groupId : String) (strategy : AssignmentStrategy)
    (id : String) (c : ConsumerRef) :
    ((b.createConsumerGroup groupId strategy).2.groups
        (b.createConsumerGroup groupId strategy).1).members.get? id = some c ↔
      ∃ G, b.Live groupId G ∧ (b.groups G).members.get? id = some c := by
  unfold createConsumerGroup
  cases found : b.consumerGroups.get? groupId with
  | some G =>
      constructor
      · exact fun member => ⟨G, found, member⟩
      · rintro ⟨G', live, member⟩
        rw [Live, found] at live
        cases live
        exact member
  | none =>
      simp only [Function.update_self]
      refine iff_of_false (fun member => ?_) ?_
      · cases member
      · rintro ⟨G, live, -⟩
        rw [Live, found] at live
        cases live

/-- Among the partitions of a group whose topics have their own, a key is that of one
partition. -/
theorem key_unique {g : ConsumerGroup} {topicName : String} {partitions : List PartitionRef}
    (named : ∀ name ps, g.subscribedTopics.get? name = some ps → b.Named name ps)
    (own : g.subscribedTopics.get? topicName = some partitions) {p q : PartitionRef}
    (member : p ∈ partitions) (there : q ∈ g.allPartitions)
    (key : (b.partitions q).key = (b.partitions p).key) : q = p := by
  obtain ⟨ps, listed, inside⟩ := List.mem_flatten.mp there
  obtain ⟨name, entry⟩ := Dict.mem_values.mp listed
  have subscribed := Dict.get?_eq_some_iff.mpr entry
  -- the key names the topic, so both are partitions of it
  have topic : name = topicName := ((named name ps subscribed).topic q inside).symm.trans
    ((congrArg Prod.fst key).trans ((named _ _ own).topic p member))
  subst topic
  rw [own] at subscribed
  cases subscribed
  exact (named _ _ own).distinct q inside p member (congrArg Prod.snd key)

/-- **Where a subscription places the consumer** in a partition of the topic that
it is handed: where it stood under the partition's key; otherwise at what the
group has committed there, or, for a consumer that is a member already, the group
it is configured for.  An old partition is as it was, and in a new one nothing is
committed. -/
theorem subscribe_position (arranged : b.Arranged) {groupId topicName : String} {c : ConsumerRef}
    {G : GroupRef} {b' : Broker} (subscribed : b.subscribe groupId topicName c = (.ok G, b')) {t : Topic}
    (found : b'.topics.get? topicName = some t) {p : PartitionRef} (member : p ∈ t.partitions)
    (handed : p ∈ b'.held c) [Decidable (b.IsMember groupId c)] :
    (p < b.nextPartition → b'.partitions p = b.partitions p) ∧
    (¬ p < b.nextPartition → (b'.partitions p).committedOffsets = .empty) ∧
    (b'.consumers c).position (b'.partitions p).key =
      ((b.consumers c).offsets.get? (b'.partitions p).key).getD
        ((b'.partitions p).getCommittedOffset
          (if b.IsMember groupId c then (b.consumers c).config.groupId else groupId)) := by
  obtain ⟨t₁, b₁, b₂, created, made, objects, topics⟩ := subscribe_cases subscribed
  have same : t.partitions = t₁.partitions := by
    rw [topics, Dict.get?_set_self, Option.some.injEq] at found
    rw [← found]
  have listed := topicFor_listed created
  obtain ⟨consumers, groups, live⟩ := topicFor_kept created
  obtain ⟨live₂, objects₂, topics₂⟩ := b₁.createConsumerGroup_live groupId .range
  have members := b₁.createConsumerGroup_member groupId .range (b.idOf c) c
  have arranged₂ := (arranged.topicFor topicName).createConsumerGroup groupId .range
  rw [created] at arranged₂
  rw [made] at live₂ objects₂ topics₂ members arranged₂
  dsimp only at arranged₂ live₂ objects₂ topics₂ members
  have consumers₂ : b₂.consumers = b.consumers :=
    (congrArg Objects.consumers objects₂).trans consumers
  let g := b₂.subscribed G topicName t₁.partitions
  have keyed : ConsumerGroup.Keyed b₂.toObjects g := arranged₂.keyed G
  have named : ∀ name ps, g.subscribedTopics.get? name = some ps → b₂.Named name ps :=
    fun _ _ => arranged₂.subscribedGroup ((congrArg (Dict.get? · topicName) topics₂).trans listed)
  have own : g.subscribedTopics.get? topicName = some t₁.partitions := Dict.get?_set_self ..
  have alone : ∀ q ∈ g.allPartitions, (b₂.partitions q).key = (b₂.partitions p).key → q = p :=
    fun _ there key => key_unique named own (same ▸ member) there key
  have store : b'.toStore = b₂.toStore := by
    rw [objects]
    exact (ConsumerGroup.rebalance_store ((ConsumerGroup.Keyed.rebalanced keyed).joined c)).trans
      (ConsumerGroup.rebalance_store keyed)
  have partitions : b'.partitions = b₂.partitions := congrArg Store.partitions store
  have stood := ConsumerGroup.rebalance_join_position keyed c (p := p)
    (by rw [← objects]; exact handed) alone
  rw [← objects] at stood
  have groupId_ : g.groupId = groupId := (arranged₂.live groupId G live₂).2
  have ids : b₂.idOf c = b.idOf c := congrArg (fun f => Consumer.consumerId (f c)) consumers₂
  have joined : (g.members.get? (b₂.idOf c) = some c) ↔ b.IsMember groupId c := by
    rw [ids, IsMember]
    refine members.trans ?_
    simp only [Live, live, groups]
  have partitions₁ : b'.partitions = b₁.partitions :=
    partitions.trans (congrArg (fun o : Objects => o.partitions) objects₂)
  refine ⟨fun old => ?_, fun fresh => ?_, ?_⟩
  · have kept := (PublishRun.topicFor_keeps b topicName old).2
    rw [created] at kept
    rw [partitions₁]
    exact kept
  · rw [partitions₁]
    exact topicFor_uncommitted arranged created (same ▸ member) fresh
  · rw [Consumer.position, partitions, Dict.getD, stood, consumers₂, groupId_]
    simp only [joined]
    rfl

/-- **When a topic is consumed from its beginning.**  In every run that deletes the
topic and goes on in any way, a subscription to a topic of that name leaves the
consumer at 0, in a partition where the group has committed nothing, exactly when
it is `Forgotten` there. -/
theorem recreated_fromBeginning_iff (start : b.Start) (enc : Encoding) (before between : List BrokerOp)
    {groupId topicName : String} {c : ConsumerRef} {G : GroupRef} {b' : Broker}
    (subscribed : (run (step enc) b (before ++ .deleteTopic topicName :: between)).subscribe
      groupId topicName c = (.ok G, b'))
    {t : Topic} (found : b'.topics.get? topicName = some t) {p : PartitionRef}
    (member : p ∈ t.partitions) (handed : p ∈ b'.held c)
    (uncommitted : (b'.partitions p).committedOffsets.get? groupId = none) :
    (b'.consumers c).position (b'.partitions p).key = 0 ↔
      (run (step enc) b (before ++ .deleteTopic topicName :: between)).Forgotten groupId c p
        (b'.partitions p).key := by
  have arranged := run_arranged enc start (before ++ .deleteTopic topicName :: between)
  generalize run (step enc) b (before ++ .deleteTopic topicName :: between) = b₀ at subscribed arranged
  have nothing : (b'.partitions p).getCommittedOffset groupId = 0 := by
    rw [Partition.getCommittedOffset, Dict.getD, uncommitted]
    rfl
  classical
  obtain ⟨old, fresh, position⟩ := subscribe_position arranged subscribed found member handed
  rw [position, Forgotten]
  cases kept : (b₀.consumers c).offsets.get? (b'.partitions p).key with
  | some v => exact Iff.rfl
  | none =>
      rw [Option.getD_none]
      by_cases joined : b₀.IsMember groupId c
      · simp only [if_pos joined]
        by_cases existed : p < b₀.nextPartition
        · rw [old existed]
          exact ⟨fun zero _ _ => zero, fun forgotten => forgotten joined existed⟩
        · refine iff_of_true ?_ fun _ inside => absurd inside existed
          rw [Partition.getCommittedOffset, fresh existed]
          rfl
      · rw [if_neg joined]
        exact iff_of_true nothing fun member => absurd member joined

/-! ## A topic deleted after it was polled, and before -/

/-- Every message but the first has key "k", and goes to partition 3 of 4. -/
def recreationStart : Broker := PublishRun.publishStart.broker

theorem recreationStart_start : recreationStart.Start :=
  ⟨rfl, rfl, fun _ => rfl, fun _ => rfl, rfl⟩

/-- The topic is deleted and created again, with consumer 0 still in the group. -/
def unpolledOps : List BrokerOp :=
  [.subscribe "g" "t" 0, .publish 0 1] ++ .deleteTopic "t" :: [.publish 1 2]

theorem unpolledOps_fromBeginning :
    let b := run (step PublishRun.digestOfK) recreationStart unpolledOps
    let b' := (b.subscribe "g" "t" 0).2
    (b'.consumers 0).position (b'.partitions 7).key = 0 ↔
      b.Forgotten "g" 0 7 (b'.partitions 7).key :=
  recreated_fromBeginning_iff recreationStart_start PublishRun.digestOfK
    [.subscribe "g" "t" 0, .publish 0 1] [.publish 1 2] (G := 0)
    (t := { name := "t", partitions := [4, 5, 6, 7], subscribers := ["g"] })
    (by rfl) (by rfl) (by decide) (by decide +kernel) (by decide +kernel)

/-- The same, but the consumer polled the message before its topic was deleted. -/
def polledOps : List BrokerOp :=
  [.subscribe "g" "t" 0, .publish 0 1, .poll 0 ⟨0, 0, 0⟩ none] ++ .deleteTopic "t" :: [.publish 1 2]

/-- It is placed at 1 in the new partition 3, and does not get the message there. -/
theorem polled_consumer_skips :
    let b := run (step PublishRun.digestOfK) recreationStart polledOps
    let b' := (b.subscribe "g" "t" 0).2
    (b.subscribe "g" "t" 0).1.toOption = some 0 ∧
      (b'.topics.get? "t").map Topic.partitions = some [4, 5, 6, 7] ∧
      7 ∈ b'.held 0 ∧ (b'.partitions 7).committedOffsets.get? "g" = none ∧
      (b'.consumers 0).position (b'.partitions 7).key = 1 ∧
      (b'.logOf 7).map b'.offsetOf = [0] ∧
      ((b'.consumers 0).poll ⟨2, 2, 2⟩ b'.toStore none).1 = [] := by
  decide +kernel

end Broker

end BrokerLite
