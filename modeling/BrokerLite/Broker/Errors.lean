/-
# Broker.Errors -- what the broker's operations raise

Callers catch `ValueError`.  Creating a topic or a queue and subscribing raise
nothing else; `Broker.landsOrValueError_iff` says when publishing does not, and that
the message is in a partition of its topic otherwise.
-/
import BrokerLite.Broker.Middleware
import BrokerLite.Broker.Queues

namespace BrokerLite

open Theory

set_option autoImplicit false

theorem onlyValueErrors_ok {α : Type} (a : α) : OnlyValueErrors (.ok a : Except Raised α) :=
  fun _ raises => by cases raises

theorem onlyValueErrors_error {α : Type} {raised : Raised} :
    OnlyValueErrors (.error raised : Except Raised α) ↔ raised.isValueError = true := by
  refine ⟨fun only => only raised rfl, fun isValueError raised' raises => ?_⟩
  cases raises
  exact isValueError

@[simp] theorem onlyValueErrors_valueError {α : Type} (error : ValueError) :
    OnlyValueErrors (.error (.valueError error) : Except Raised α) := onlyValueErrors_error.mpr rfl

namespace Topic

variable {enc : Encoding} {t t₁ : Topic} {s : Store} {m : MessageRef}

/-- What choosing a partition raises: a key without an encoding is a `ValueError`. -/
theorem route_error {message : Message} {raised : Raised}
    (routed : t.route enc message = (.error raised, t₁)) :
    raised.isValueError = true ↔ message.partition < 0 ∧ ¬ message.Hashed enc := by
  unfold route at routed
  split at routed
  · next unset =>
      by_cases chooses : (∀ k ∈ message.key, (enc.encode k).isSome) ∧ t.partitions ≠ []
      · obtain ⟨index, t', p, chosen, -⟩ := assignPartition_chosen chooses.1 chooses.2
        rw [chosen] at routed
        cases routed
      · obtain ⟨raised', failed, valueError⟩ := assignPartition_failed chooses
        rw [failed] at routed
        cases routed
        rw [valueError, and_iff_right unset, Message.Hashed]
  · cases routed

/-- A topic's `publish` raises nothing but a `ValueError` when it refuses the message for
its size, has a partition for it, or would choose one by a key without an encoding. -/
theorem publish_onlyValueErrors_iff (now : Timestamp) : OnlyValueErrors (t.publish enc now s m).1 ↔
    t.Refuses enc (s.messages m) ∨ (s.messages m).Spared enc t.partitions.length := by
  rw [Message.spared_iff, ← target_isSome_iff enc]
  by_cases refused : t.Refuses enc (s.messages m)
  · obtain ⟨raised, outcome, valueError⟩ := publish_refused now refused
    rw [outcome, onlyValueErrors_error]
    exact iff_of_true valueError (.inl refused)
  · obtain ⟨-, same⟩ := t.route_topic enc (s.messages m)
    rw [target]
    rcases routed : t.route enc (s.messages m) with ⟨raised | index, t₁⟩
    · rw [publish_unroutable refused routed, onlyValueErrors_error, route_error routed]
      simp [refused]
    · rw [routed] at same
      have same : t₁.partitions = t.partitions := same
      cases found : t.partitions[index.toNat]? with
      | none =>
          rw [publish_outside refused routed (same ▸ found), onlyValueErrors_error]
          have hashed : ¬ ((s.messages m).partition < 0 ∧ ¬ (s.messages m).Hashed enc) := by
            rintro ⟨unset, unhashed⟩
            rw [route, if_pos unset] at routed
            exact unhashed (chooses_of_assignPartition (congrArg Prod.fst routed)).1
          simp [Raised.isValueError, refused, found, hashed]
      | some p =>
          rw [publish_routed refused routed (same ▸ found)]
          refine iff_of_true ?_ (.inr (.inl ⟨p, by simp [found]⟩))
          rcases (labelled s m index t₁.name).append_cases now p m with ⟨error, full⟩ | stored
          · simp [full]
          · rw [stored]
            exact onlyValueErrors_ok _

end Topic

namespace Broker

variable (b : Broker)

/-- There is a topic of that name, or no more are allowed. -/
def RefusesTopic (b : Broker) (name : String) : Prop :=
  b.topics.contains name = true ∨ (0 < b.config.maxTopics ∧ b.config.maxTopics ≤ b.topics.length)

instance (b : Broker) (name : String) : Decidable (b.RefusesTopic name) :=
  inferInstanceAs (Decidable (_ ∨ _))

section CreateTopic

variable {b}

theorem createTopic_refused {name : String} (refused : b.RefusesTopic name)
    (config : Option TopicConfig) : ∃ error, b.createTopic name config = (.error (.valueError error), b) := by
  unfold createTopic
  by_cases known : b.topics.contains name = true
  · exact ⟨_, if_pos known⟩
  · rw [if_neg known, if_pos (refused.resolve_left known)]
    exact ⟨_, rfl⟩

theorem createTopic_created {name : String} (allowed : ¬ b.RefusesTopic name)
    (config : Option TopicConfig) : ∃ t after, b.createTopic name config = (.ok t, after) := by
  obtain ⟨known, full⟩ := not_or.mp allowed
  unfold createTopic
  rw [if_neg known, if_neg full]
  exact ⟨_, _, rfl⟩

end CreateTopic

theorem createTopic_onlyValueErrors (name : String) (config : Option TopicConfig) :
    OnlyValueErrors (b.createTopic name config).1 := by
  by_cases refused : b.RefusesTopic name
  · obtain ⟨error, outcome⟩ := createTopic_refused refused config
    simp [outcome]
  · obtain ⟨t, after, outcome⟩ := createTopic_created refused config
    rw [outcome]
    exact onlyValueErrors_ok _

theorem topicFor_onlyValueErrors (name : String) : OnlyValueErrors (b.topicFor name).1 := by
  unfold topicFor
  split
  · exact onlyValueErrors_ok _
  · exact b.createTopic_onlyValueErrors name none

theorem subscribe_onlyValueErrors (groupId topicName : String) (c : ConsumerRef) :
    OnlyValueErrors (b.subscribe groupId topicName c).1 := by
  have only := b.topicFor_onlyValueErrors topicName
  unfold subscribe openSubscription
  rcases there : b.topicFor topicName with ⟨raised | topic, b₁⟩
  · rw [there] at only
    exact onlyValueErrors_error.mpr (onlyValueErrors_error.mp only)
  · exact onlyValueErrors_ok _

/-- There is a partition for the message: in its topic, unless that refuses it for
its size, or in the one that would be created, unless no more topics are allowed; or
the choice would be by a key without an encoding. -/
def Routes (enc : Encoding) (b : Broker) (message : Message) : Prop :=
  match b.topics.get? message.topic with
  | some t => t.Refuses enc message ∨ message.Spared enc t.partitions.length
  | none => (0 < b.config.maxTopics ∧ b.config.maxTopics ≤ b.topics.length) ∨
      message.Spared enc b.config.defaultPartitions

instance Routes.decidable (enc : Encoding) (b : Broker) (message : Message) : Decidable (b.Routes enc message) :=
  match found : b.topics.get? message.topic with
  | some t => decidable_of_iff (t.Refuses enc message ∨ message.Spared enc t.partitions.length)
      (by simp only [Routes, found])
  | none => decidable_of_iff ((0 < b.config.maxTopics ∧ b.config.maxTopics ≤ b.topics.length) ∨
      message.Spared enc b.config.defaultPartitions) (by simp only [Routes, found])

/-- **When publishing raises nothing but a `ValueError`.** -/
theorem publish_onlyValueErrors_iff (enc : Encoding) (now : Timestamp) (m : MessageRef) :
    OnlyValueErrors (b.publish enc now m).1 ↔ b.Routes enc (b.messages m) := by
  have only_iff : ∀ {t b₁}, b.topicFor (b.messages m).topic = (.ok t, b₁) →
      (OnlyValueErrors (b.publish enc now m).1 ↔
        OnlyValueErrors (t.publish enc now b₁.toStore m).1) := by
    intro t b₁ there
    rcases sent : t.publish enc now b₁.toStore m with ⟨raised | offset, s', t'⟩
    · simp only [publish, there, sent, onlyValueErrors_error]
    · simp only [publish, there, sent]
      exact iff_of_true (onlyValueErrors_ok _) (onlyValueErrors_ok _)
  unfold Routes
  cases found : b.topics.get? (b.messages m).topic with
  | some t =>
      have there : b.topicFor (b.messages m).topic = (.ok t, b) := by simp [topicFor, found]
      exact (only_iff there).trans (Topic.publish_onlyValueErrors_iff now)
  | none =>
      dsimp only
      by_cases allowed : b.config.maxTopics ≤ 0 ∨ b.topics.length < b.config.maxTopics
      · obtain ⟨t, b₁, created, messages, length, fits, -⟩ := topicFor_created found allowed
        refine (only_iff created).trans ((Topic.publish_onlyValueErrors_iff now).trans ?_)
        have room : ¬ (0 < b.config.maxTopics ∧ b.config.maxTopics ≤ b.topics.length) := by omega
        rw [messages, length, Message.spared_toNat, or_iff_right (fits _ _), or_iff_right room]
      · have full : 0 < b.config.maxTopics ∧ b.config.maxTopics ≤ b.topics.length := by omega
        refine iff_of_true ?_ (.inl full)
        simp [publish, topicFor_full found full]

/-- The pipeline raises nothing but a `ValueError`, and there is a partition for
the message that it lets through. -/
def RoutesThrough {σ : Type} (enc : Encoding) (pipeline : List (Process σ)) (state : σ) (b : Broker) (m : MessageRef) :
    Prop :=
  match MiddlewarePipeline.process pipeline state b.messages m with
  | (.error raised, _, _) => raised.isValueError = true
  | (.ok none, _, _) => True
  | (.ok (some m), _, messages) => (b.withMessages messages).Routes enc (messages m)

instance RoutesThrough.decidable {σ : Type} (enc : Encoding) (pipeline : List (Process σ)) (state : σ)
    (b : Broker) (m : MessageRef) : Decidable (b.RoutesThrough enc pipeline state m) :=
  match processed : MiddlewarePipeline.process pipeline state b.messages m with
  | (.error raised, _, _) =>
      decidable_of_iff (raised.isValueError = true) (by simp only [RoutesThrough, processed])
  | (.ok none, _, _) => isTrue (by simp only [RoutesThrough, processed])
  | (.ok (some m), _, messages) => decidable_of_iff ((b.withMessages messages).Routes enc (messages m))
      (by simp only [RoutesThrough, processed])

theorem publishThrough_onlyValueErrors_iff {σ : Type} (enc : Encoding) (now : Timestamp)
    (pipeline : List (Process σ)) (state : σ) (m : MessageRef) :
    OnlyValueErrors (b.publishThrough enc now pipeline state m).1 ↔
      b.RoutesThrough enc pipeline state m := by
  unfold publishThrough RoutesThrough
  rcases MiddlewarePipeline.process pipeline state b.messages m with ⟨raised | _ | m', state', messages⟩
  · exact onlyValueErrors_error
  · simp
  · exact (b.withMessages messages).publish_onlyValueErrors_iff enc now m'

/-! ## Publishing lands in a partition, or raises a `ValueError` -/

/-- The message that the pipeline let through is the last one of a partition of its topic. -/
def Lands {σ : Type} (pipeline : List (Process σ)) (state : σ) (b : Broker) (m : MessageRef)
    (b' : Broker) : Prop :=
  ∃ m' state' messages, MiddlewarePipeline.process pipeline state b.messages m =
      (.ok (some m'), state', messages) ∧
    ∃ t, b'.topics.get? (messages m').topic = some t ∧ ∃ (index : ℕ) (p : PartitionRef),
      index < t.partitions.length ∧ t.partitions[index]? = some p ∧ (b'.logOf p).getLast? = some m'

/-- The contract of `publish`. -/
def LandsOrValueError {σ : Type} (enc : Encoding) (now : Timestamp) (pipeline : List (Process σ))
    (state : σ) (b : Broker) (m : MessageRef) : Prop :=
  match b.publishThrough enc now pipeline state m with
  | (.ok _, _, b') => b.Lands pipeline state m b'
  | (.error raised, _, _) => raised.isValueError = true

/-- What `publish` returns for is in the log of a partition of its topic. -/
theorem publish_lands {enc : Encoding} {now : Timestamp} {m : MessageRef} {metadata : RecordMetadata}
    {b' : Broker} (returned : b.publish enc now m = (.ok metadata, b')) :
    ∃ t, b'.topics.get? (b.messages m).topic = some t ∧ ∃ (index : ℕ) (p : PartitionRef),
      index < t.partitions.length ∧ t.partitions[index]? = some p ∧ (b'.logOf p).getLast? = some m := by
  rcases b.publish_cases enc now m with ⟨raised, b₁, -, outcome⟩ |
    ⟨t, b₁, t', -, -, partitions, ⟨raised, s, -, outcome⟩ | ⟨p, member, s, -, -, outcome⟩⟩ <;>
    rw [outcome] at returned <;> cases returned
  obtain ⟨index, inside, found⟩ := List.getElem_of_mem (partitions ▸ member)
  refine ⟨t', Dict.get?_set_self .., index, p, inside, ?_, ?_⟩
  · rw [List.getElem?_eq_getElem inside, found]
  · show ((s.appended now p m).logOf p).getLast? = some m
    rw [Store.appended_logOf, if_pos rfl, List.getLast?_concat]

/-- **When publishing keeps its contract.** -/
theorem landsOrValueError_iff {σ : Type} (enc : Encoding) (now : Timestamp)
    (pipeline : List (Process σ)) (state : σ) (m : MessageRef) :
    b.LandsOrValueError enc now pipeline state m ↔ b.RoutesThrough enc pipeline state m := by
  rw [← b.publishThrough_onlyValueErrors_iff enc now pipeline state m]
  unfold LandsOrValueError
  rcases sent : b.publishThrough enc now pipeline state m with ⟨raised | metadata, state', b'⟩
  · exact onlyValueErrors_error.symm
  · refine iff_of_true ?_ (onlyValueErrors_ok _)
    unfold publishThrough at sent
    rcases processed : MiddlewarePipeline.process pipeline state b.messages m with
      ⟨raised | _ | m', state'', messages⟩ <;> simp only [processed] at sent
    · cases sent
    · cases sent
    · have returned : (b.withMessages messages).publish enc now m' = (.ok metadata, b') := by
        rw [Prod.mk.injEq, Prod.mk.injEq] at sent
        exact Prod.ext sent.1 sent.2.2
      exact ⟨m', state'', messages, processed, publish_lands _ returned⟩

/-- A topic without partitions, and one with two for a message that names partition 7. -/
def unroutableOps : List BrokerOp :=
  [.createTopic "t" (some { numPartitions := 0 }), .createTopic "u" (some { numPartitions := 2 }),
    .edit 1 { topic := "u", value := [], id := "1", partition := 7 }]

def raisedBy {α : Type} : Except Raised α → Option Raised
  | .error raised => some raised
  | .ok _ => none

theorem not_lands_of_raised {b : Broker} {σ : Type} {enc : Encoding} {now : Timestamp}
    {pipeline : List (Process σ)} {state : σ} {m : MessageRef} {raised : Raised}
    (raises : raisedBy (b.publishThrough enc now pipeline state m).1 = some raised)
    (other : raised.isValueError = false) : ¬ b.LandsOrValueError enc now pipeline state m := by
  unfold LandsOrValueError
  rcases sent : b.publishThrough enc now pipeline state m with ⟨raised' | metadata, state', b'⟩ <;>
    rw [sent] at raises <;> cases raises
  simp [other]

/-- Publishing raises a `ZeroDivisionError` for the one, and an `IndexError` for the other. -/
theorem unroutable_publish_raises :
    let b := run (step PublishRun.digestOfK) PublishRun.publishStart.broker unroutableOps
    (raisedBy (b.publishThrough PublishRun.digestOfK 1 [] () 0).1 = some .zeroDivisionError ∧
      ¬ b.LandsOrValueError PublishRun.digestOfK 1 [] () 0) ∧
    raisedBy (b.publishThrough PublishRun.digestOfK 1 [] () 1).1 = some .indexError ∧
      ¬ b.LandsOrValueError PublishRun.digestOfK 1 [] () 1 := by
  intro b
  have divided : raisedBy (b.publishThrough PublishRun.digestOfK 1 [] () 0).1 =
      some .zeroDivisionError := by decide +kernel
  have outside : raisedBy (b.publishThrough PublishRun.digestOfK 1 [] () 1).1 = some .indexError := by
    decide +kernel
  exact ⟨⟨divided, not_lands_of_raised divided rfl⟩, outside, not_lands_of_raised outside rfl⟩

end Broker

namespace Queues

/-- There is a queue of that name, or no more are allowed. -/
def RefusesQueue (b : Queues) (name : String) : Prop :=
  (b.queues.contains name = true ∨ b.priorityQueues.contains name = true) ∨
    (0 < b.maxQueues ∧ b.maxQueues ≤ b.queues.length + b.priorityQueues.length)

instance (b : Queues) (name : String) : Decidable (b.RefusesQueue name) :=
  inferInstanceAs (Decidable (_ ∨ _))

section CreateQueue

variable {b : Queues} {name : String}

theorem createQueue_refused (refused : b.RefusesQueue name) (maxSize : ℤ) (visibilityTimeout : Timestamp)
    (priority : Bool) : ∃ error,
      b.createQueue name maxSize visibilityTimeout priority = (.error (.valueError error), b) := by
  unfold createQueue
  by_cases known : b.queues.contains name = true ∨ b.priorityQueues.contains name = true
  · exact ⟨_, if_pos known⟩
  · rw [if_neg known, if_pos (refused.resolve_left known)]
    exact ⟨_, rfl⟩

theorem createQueue_created (allowed : ¬ b.RefusesQueue name) (maxSize : ℤ)
    (visibilityTimeout : Timestamp) (priority : Bool) : ∃ q after,
      b.createQueue name maxSize visibilityTimeout priority = (.ok q, after) := by
  obtain ⟨known, full⟩ := not_or.mp allowed
  unfold createQueue
  rw [if_neg known, if_neg full]
  cases priority
  · exact ⟨_, _, rfl⟩
  · exact ⟨_, _, rfl⟩

end CreateQueue

end Queues

end BrokerLite
