/-
# Broker.Broker -- topics, groups and publishing in one place

The `Broker` is the program's broker together with the objects it works on:
partitions and messages (`Store`), consumers, and the group objects, which stay
reachable for whoever holds one after the broker has dropped it.  New partition
and group objects take the next unused reference.

Operations return what the program returns or raises, and the broker they leave;
a raised error does not undo what was done before it.
-/
import BrokerLite.Broker.Topic
import BrokerLite.Consume.Group

namespace BrokerLite

open Theory

set_option autoImplicit false

abbrev GroupRef := ℕ

structure BrokerConfig where
  defaultPartitions : ℤ := 4
  defaultRetentionMs : ℤ := 0
  maxTopics : ℤ := 0

structure RecordMetadata where
  topic : String
  partition : ℤ
  offset : ℤ
  timestamp : Timestamp
  messageId : String
  deriving DecidableEq

structure Broker extends Objects where
  config : BrokerConfig := {}
  topics : Dict String Topic := .empty
  consumerGroups : Dict String GroupRef := .empty
  groups : GroupRef → ConsumerGroup
  nextPartition : ℕ := 0
  nextGroup : ℕ := 0
  totalMessagesIn : ℕ := 0

namespace Broker

/-! ## Topics -/

/-- The constructor of `Topic`: fresh partitions numbered from 0. -/
def newTopic (b : Broker) (name : String) (config : TopicConfig) : Topic × Broker :=
  ({ name, config, partitions := List.range' b.nextPartition config.numPartitions.toNat },
    { b with
      partitions := fun p =>
        if b.nextPartition ≤ p ∧ p < b.nextPartition + config.numPartitions.toNat then
          { topic := name, partitionId := p - b.nextPartition, maxSize := config.maxPartitionSize,
            retentionMs := config.retentionMs }
        else b.partitions p
      nextPartition := b.nextPartition + config.numPartitions.toNat })

def createTopic (b : Broker) (name : String) (config : Option TopicConfig) :
    Except Raised Topic × Broker :=
  if b.topics.contains name then (.error (.valueError (.topicExists name)), b)
  else if 0 < b.config.maxTopics ∧ b.config.maxTopics ≤ b.topics.length then
    (.error (.valueError (.maximumTopics b.config.maxTopics)), b)
  else
    let config := config.getD
      { numPartitions := b.config.defaultPartitions, retentionMs := b.config.defaultRetentionMs }
    let made := b.newTopic name config
    (.ok made.1, { made.2 with topics := made.2.topics.set name made.1 })

/-- The topic of that name, created if there is none. -/
def topicFor (b : Broker) (name : String) : Except Raised Topic × Broker :=
  match b.topics.get? name with
  | some topic => (.ok topic, b)
  | none => b.createTopic name none

/-! ## Publishing -/

/-- `publish` behind an empty middleware pipeline. -/
def publish (enc : Encoding) (now : Timestamp) (b : Broker) (m : MessageRef) :
    Except Raised RecordMetadata × Broker :=
  let name := (b.messages m).topic
  match b.topicFor name with
  | (.error raised, b) => (.error raised, b)
  | (.ok topic, b) =>
      match topic.publish enc now b.toStore m with
      | (.error raised, s, topic) =>
          (.error raised, { b with toStore := s, topics := b.topics.set name topic })
      | (.ok offset, s, topic) =>
          (.ok
            { topic := (s.messages m).topic
              partition := (s.messages m).partition
              offset
              timestamp := (s.messages m).brokerTimestamp
              messageId := (s.messages m).id },
            { b with
              toStore := s
              topics := b.topics.set name topic
              totalMessagesIn := b.totalMessagesIn + 1 })

/-! ## Consumer groups -/

def createConsumerGroup (b : Broker) (groupId : String) (strategy : AssignmentStrategy) :
    GroupRef × Broker :=
  match b.consumerGroups.get? groupId with
  | some G => (G, b)
  | none => (b.nextGroup,
      { b with
        consumerGroups := b.consumerGroups.set groupId b.nextGroup
        groups := Function.update b.groups b.nextGroup { groupId, strategy }
        nextGroup := b.nextGroup + 1 })

def deleteConsumerGroup (b : Broker) (groupId : String) : Bool × Broker :=
  (b.consumerGroups.contains groupId,
    { b with consumerGroups := b.consumerGroups.erase groupId })

/-- Store what an operation on group `G` left. -/
def putGroup (b : Broker) (G : GroupRef) (done : Objects × ConsumerGroup) : Broker :=
  { b with toObjects := done.1, groups := Function.update b.groups G done.2 }

@[simp] theorem putGroup_toObjects (b : Broker) (G : GroupRef) (done : Objects × ConsumerGroup) :
    (b.putGroup G done).toObjects = done.1 := rfl

@[simp] theorem putGroup_groups_self (b : Broker) (G : GroupRef) (done : Objects × ConsumerGroup) :
    (b.putGroup G done).groups G = done.2 := Function.update_self ..

theorem putGroup_groups_of_ne (b : Broker) {G G' : GroupRef} (done : Objects × ConsumerGroup)
    (other : G' ≠ G) : (b.putGroup G done).groups G' = b.groups G' := Function.update_of_ne other ..

/-- `subscribe` up to the point where the consumer joins: the group, created if
there is none, has the topic. -/
def openSubscription (b : Broker) (groupId topicName : String) : Except Raised GroupRef × Broker :=
  match b.topicFor topicName with
  | (.error raised, b) => (.error raised, b)
  | (.ok topic, b) =>
      let made := b.createConsumerGroup groupId .range
      let G := made.1
      let b := made.2
      let b := b.putGroup G ((b.groups G).subscribe b.toObjects topicName topic.partitions)
      let subscribed := { topic with subscribers := topic.subscribers.insert groupId }
      (.ok G, { b with topics := b.topics.set topicName subscribed })

def subscribe (b : Broker) (groupId topicName : String) (c : ConsumerRef) :
    Except Raised GroupRef × Broker :=
  match b.openSubscription groupId topicName with
  | (.error raised, b) => (.error raised, b)
  | (.ok G, b) => (.ok G, b.putGroup G ((b.groups G).join b.toObjects c))

/-- `ConsumerGroup.leave` on a group object, also one the broker has dropped. -/
def leave (b : Broker) (G : GroupRef) (consumerId : String) : Option ConsumerRef × Broker :=
  let done := (b.groups G).leave b.toObjects consumerId
  (done.1, b.putGroup G done.2)

/-- Every group of the list unsubscribes from the topic. -/
def unsubscribeAll (topicName : String) : List GroupRef → Broker → Broker
  | [], b => b
  | G :: rest, b =>
      unsubscribeAll topicName rest (b.putGroup G ((b.groups G).unsubscribe b.toObjects topicName))

def deleteTopic (b : Broker) (name : String) : Bool × Broker :=
  match b.topics.get? name with
  | none => (false, b)
  | some _ => (true, unsubscribeAll name b.consumerGroups.values { b with topics := b.topics.erase name })

/-- The loop of `remove_dead_consumers`, with the results so far; every member is
judged at its own clock reading. -/
def removeDeadFrom (now : String → String → Timestamp) :
    List (String × GroupRef) → Dict String (List String) → Broker →
      Dict String (List String) × Broker
  | [], results, b => (results, b)
  | (groupId, G) :: rest, results, b =>
      let done := (b.groups G).removeDeadMembers (now groupId) b.toObjects
      removeDeadFrom now rest (if done.1 = [] then results else results.set groupId done.1)
        (b.putGroup G done.2)

def removeDeadConsumers (now : String → String → Timestamp) (b : Broker) :
    Dict String (List String) × Broker :=
  removeDeadFrom now b.consumerGroups.entries .empty b

/-! ## What publishing does -/

/-- **The outcomes of `publish`.**  It raises before or after the topic was found
or created, or it appends the message to a partition of that topic and returns
where. -/
theorem publish_cases (enc : Encoding) (now : Timestamp) (b : Broker) (m : MessageRef) :
    (∃ raised b₁, b.topicFor (b.messages m).topic = (.error raised, b₁) ∧
      b.publish enc now m = (.error raised, b₁)) ∨
    ∃ t b₁ t', b.topicFor (b.messages m).topic = (.ok t, b₁) ∧ t'.name = t.name ∧
      t'.partitions = t.partitions ∧
      ((∃ raised s, b₁.Retouched m s ∧ b.publish enc now m = (.error raised,
          { b₁ with toStore := s, topics := b₁.topics.set (b.messages m).topic t' })) ∨
        ∃ p ∈ t.partitions, ∃ s, b₁.Retouched m s ∧ (s.messages m).topic = t.name ∧
          b.publish enc now m = (.ok
            { topic := t.name
              partition := (b₁.partitions p).partitionId
              offset := (b₁.partitions p).nextOffset
              timestamp := now
              messageId := (s.messages m).id },
            { b₁ with
              toStore := s.appended now p m
              topics := b₁.topics.set (b.messages m).topic t'
              totalMessagesIn := b₁.totalMessagesIn + 1 })) := by
  rcases found : b.topicFor (b.messages m).topic with ⟨raised | t, b₁⟩
  · exact .inl ⟨raised, b₁, rfl, by simp only [publish, found]⟩
  · right
    obtain ⟨name, partitions, outcome⟩ := t.publish_cases enc now b₁.toStore m
    rcases sent : t.publish enc now b₁.toStore m with ⟨result, s', t'⟩
    rw [sent] at name partitions outcome
    refine ⟨t, b₁, t', rfl, name, partitions, ?_⟩
    rcases outcome with ⟨raised, failed, retouched⟩ | ⟨p, member, s, retouched, topic, ok, stored⟩
    · have failed : result = .error raised := failed
      subst failed
      exact .inl ⟨raised, s', retouched, by simp only [publish, found, sent]⟩
    · have ok : result = .ok (b₁.partitions p).nextOffset := ok
      have stored : s' = s.appended now p m := stored
      subst ok stored
      refine .inr ⟨p, member, s, retouched, topic, ?_⟩
      simp only [publish, found, sent]
      simp [Store.appended, topic, retouched.partitions]

end Broker

end BrokerLite
