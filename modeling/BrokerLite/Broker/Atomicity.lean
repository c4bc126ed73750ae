/-
# Broker.Atomicity -- what a failed publish leaves behind

`Broker.publish` writes in five places before it may raise.  `Broker.Atomic` is
the condition on the state and the message under which a publish that raises has
changed nothing (`publish_atomic`): the topic exists or cannot be created, or the
publish does not raise; and a message that names no partition is not routed to a
full one.  In the states of a run the condition is exact
(`run_publish_atomic_iff`).
-/
import BrokerLite.Broker.BrokerRun

namespace BrokerLite

open Theory

set_option autoImplicit false

/-- Writing into an object, its offset apart, moves no offset. -/
theorem Store.modifyMessage_offsetOf (s : Store) (m : MessageRef) {f : Message → Message}
    (keeps : ∀ message, (f message).offset = message.offset) :
    (s.modifyMessage m f).offsetOf = s.offsetOf := by
  funext n
  by_cases here : n = m
  · subst here
    simp [modifyMessage, offsetOf, keeps]
  · simp [modifyMessage, offsetOf, here]

namespace Topic

/-- The size check raises: the message is larger than the topic admits, or has no size. -/
def Refuses (enc : Encoding) (t : Topic) (message : Message) : Prop :=
  0 < t.config.maxMessageBytes ∧ ∀ size ∈ message.sizeBytes enc, t.config.maxMessageBytes < size

instance (enc : Encoding) (t : Topic) (message : Message) : Decidable (t.Refuses enc message) :=
  inferInstanceAs (Decidable (_ ∧ ∀ size ∈ message.sizeBytes enc, _))

/-- The partition chosen for the key, if there is one, is not full. -/
def HasRoom (enc : Encoding) (s : Store) (t : Topic) (key : Option String) : Prop :=
  ∀ index p, (t.assignPartition enc key).1 = .ok index → t.partitions[index.toNat]? = some p →
    (s.partitions p).isFull = false

/-- What makes a topic's `publish` raise without a trace, or not at all. -/
def Atomic (enc : Encoding) (s : Store) (t : Topic) (message : Message) : Prop :=
  t.Refuses enc message ∨ 0 ≤ message.partition ∨ t.HasRoom enc s message.key

variable {enc : Encoding} {t : Topic}

theorem sizeError_of_fits {message : Message} (fits : ¬ t.Refuses enc message) :
    t.sizeError enc message = none := by
  unfold Refuses at fits
  unfold sizeError
  by_cases limited : 0 < t.config.maxMessageBytes
  · rw [if_pos limited]
    cases size : message.sizeBytes enc with
    | none => simp [limited, size] at fits
    | some size' =>
        have small : ¬ t.config.maxMessageBytes < size' := fun large => fits ⟨limited, by simp [size, large]⟩
        simp only [if_neg small]
  · rw [if_neg limited]

theorem sizeError_of_refused {message : Message} (refused : t.Refuses enc message) :
    ∃ raised, t.sizeError enc message = some raised ∧ raised.isValueError = true := by
  obtain ⟨limited, large⟩ := refused
  unfold sizeError
  rw [if_pos limited]
  cases size : message.sizeBytes enc with
  | none => exact ⟨_, rfl, rfl⟩
  | some size' =>
      dsimp only
      rw [if_pos (large size' size)]
      exact ⟨_, rfl, rfl⟩

/-- With partitions, one of them is chosen, if the key has an encoding. -/
theorem assignPartition_chosen {key : Option String} (hashed : ∀ k ∈ key, (enc.encode k).isSome)
    (some_ : t.partitions ≠ []) :
    ∃ (index : ℤ) (t' : Topic) (p : PartitionRef), t.assignPartition enc key = (.ok index, t') ∧
      0 ≤ index ∧ t.partitions[index.toNat]? = some p ∧ t'.partitions = t.partitions := by
  have pos : 0 < t.partitions.length := List.length_pos_iff.mpr some_
  have nonempty : t.partitions.length ≠ 0 := by omega
  unfold assignPartition
  cases key with
  | none =>
      have inside := Nat.mod_lt t.roundRobinCounter pos
      dsimp only
      rw [if_neg nonempty]
      exact ⟨_, _, t.partitions[t.roundRobinCounter % t.partitions.length], rfl, Int.natCast_nonneg _,
        List.getElem?_eq_getElem inside, rfl⟩
  | some key =>
      obtain ⟨bytes, encoded⟩ := Option.isSome_iff_exists.mp (hashed key rfl)
      have digest : enc.digest key = some (enc.md5 bytes) := by rw [Encoding.digest, encoded, Option.map_some]
      have inside := Nat.mod_lt (enc.md5 bytes) pos
      simp only [digest, if_neg nonempty]
      exact ⟨_, _, t.partitions[enc.md5 bytes % t.partitions.length], rfl, Int.natCast_nonneg _,
        List.getElem?_eq_getElem inside, rfl⟩

/-- Otherwise nothing is chosen, and nothing happens to the topic. -/
theorem assignPartition_failed {key : Option String}
    (failed : ¬ ((∀ k ∈ key, (enc.encode k).isSome) ∧ t.partitions ≠ [])) :
    ∃ raised, t.assignPartition enc key = (.error raised, t) ∧
      (raised.isValueError = true ↔ ¬ ∀ k ∈ key, (enc.encode k).isSome) := by
  unfold assignPartition
  cases key with
  | none =>
      have empty : t.partitions = [] := by simpa using failed
      simp [empty, Raised.isValueError]
  | some key =>
      cases encoded : enc.encode key with
      | none => simp [Encoding.digest, encoded, Raised.isValueError]
      | some bytes =>
          have empty : t.partitions = [] := by simpa [encoded] using failed
          simp [Encoding.digest, encoded, empty, Raised.isValueError]

/-- What a choice needs. -/
theorem chooses_of_assignPartition {key : Option String} {index : ℤ}
    (chosen : (t.assignPartition enc key).1 = .ok index) :
    (∀ k ∈ key, (enc.encode k).isSome) ∧ t.partitions ≠ [] := by
  by_contra failed
  obtain ⟨raised, none_, -⟩ := assignPartition_failed failed
  rw [none_] at chosen
  cases chosen

variable {s : Store} {m : MessageRef} {now : Timestamp}

/-- The message as it is appended: it carries the index and the topic's name. -/
def labelled (s : Store) (m : MessageRef) (index : ℤ) (name : String) : Store :=
  (s.modifyMessage m fun message => { message with partition := index }).modifyMessage m
    fun message => { message with topic := name }

theorem labelled_self {name : String} (named : name = (s.messages m).topic) :
    labelled s m (s.messages m).partition name = s := by
  subst named
  simp [labelled, Store.modifyMessage]

theorem labelled_partition (index : ℤ) (name : String) :
    ((labelled s m index name).messages m).partition = index := by
  simp [labelled, Store.modifyMessage]

theorem labelled_offsetOf (index : ℤ) (name : String) :
    (labelled s m index name).offsetOf = s.offsetOf := by
  unfold labelled
  rw [Store.modifyMessage_offsetOf, Store.modifyMessage_offsetOf]
  all_goals
    intro message
    rfl

theorem labelled_retouched (index : ℤ) (name : String) : s.Retouched m (labelled s m index name) :=
  (s.retouched_modifyMessage m _).trans (Store.retouched_modifyMessage _ m _)

section Outcomes

theorem publish_refused (now : Timestamp) (refused : t.Refuses enc (s.messages m)) :
    ∃ raised, t.publish enc now s m = (.error raised, s, t) ∧ raised.isValueError = true := by
  obtain ⟨raised, error, valueError⟩ := sizeError_of_refused refused
  exact ⟨raised, by simp only [publish, error], valueError⟩

variable (fits : ¬ t.Refuses enc (s.messages m)) {index : ℤ} {t₁ : Topic}

include fits

theorem publish_unroutable {raised : Raised}
    (routed : t.route enc (s.messages m) = (.error raised, t₁)) :
    t.publish enc now s m = (.error raised, s, t₁) := by
  simp only [publish, sizeError_of_fits fits, routed]

theorem publish_outside (routed : t.route enc (s.messages m) = (.ok index, t₁))
    (outside : t₁.partitions[index.toNat]? = none) :
    t.publish enc now s m = (.error .indexError,
      s.modifyMessage m fun message => { message with partition := index }, t₁) := by
  simp only [publish, sizeError_of_fits fits, routed, outside]

theorem publish_routed (routed : t.route enc (s.messages m) = (.ok index, t₁)) {p : PartitionRef}
    (found : t₁.partitions[index.toNat]? = some p) :
    t.publish enc now s m = (((labelled s m index t₁.name).append now p m).1,
      ((labelled s m index t₁.name).append now p m).2, t₁) := by
  simp only [publish, sizeError_of_fits fits, routed, found]
  rfl

end Outcomes

/-- **A topic's `publish` that raises under `Atomic` has changed nothing.** -/
theorem publish_of_atomic (named : t.name = (s.messages m).topic)
    (atomic : t.Atomic enc s (s.messages m)) {raised : Raised} {s' : Store} {t' : Topic}
    (failed : t.publish enc now s m = (.error raised, s', t')) : s' = s ∧ t' = t := by
  by_cases refused : t.Refuses enc (s.messages m)
  · obtain ⟨raised', outcome, -⟩ := publish_refused now refused
    rw [outcome] at failed
    cases failed
    exact ⟨rfl, rfl⟩
  · by_cases preset : 0 ≤ (s.messages m).partition
    · have routed : t.route enc (s.messages m) = (.ok (s.messages m).partition, t) :=
        if_neg (not_lt.mpr preset)
      cases found : t.partitions[(s.messages m).partition.toNat]? with
      | none =>
          rw [publish_outside refused routed found] at failed
          cases failed
          exact ⟨by simp [Store.modifyMessage], rfl⟩
      | some p =>
          rw [publish_routed refused routed found, labelled_self named] at failed
          rcases s.append_cases now p m with ⟨error, full⟩ | stored
          · rw [full] at failed
            cases failed
            exact ⟨rfl, rfl⟩
          · rw [stored] at failed
            cases failed
    · have room := (atomic.resolve_left refused).resolve_left preset
      have unassigned : t.route enc (s.messages m) = t.assignPartition enc (s.messages m).key :=
        if_pos (not_le.mp preset)
      by_cases chooses : (∀ k ∈ (s.messages m).key, (enc.encode k).isSome) ∧ t.partitions ≠ []
      · obtain ⟨index, t₁, p, chosen, -, found, same⟩ := assignPartition_chosen chooses.1 chooses.2
        have stored := (labelled s m index t₁.name).append_of_room now p m
          (room index p (congrArg Prod.fst chosen) found)
        rw [publish_routed refused (unassigned.trans chosen) (same ▸ found), stored] at failed
        cases failed
      · obtain ⟨raised', none_, -⟩ := assignPartition_failed chooses
        rw [publish_unroutable refused (unassigned.trans none_)] at failed
        cases failed
        exact ⟨rfl, rfl⟩

/-- Otherwise it raises, and the message has been given a partition. -/
theorem publish_of_not_atomic (not_atomic : ¬ t.Atomic enc s (s.messages m)) :
    ∃ raised s' t', t.publish enc now s m = (.error raised, s', t') ∧
      (s'.messages m).partition ≠ (s.messages m).partition := by
  simp only [Atomic, not_or, HasRoom, not_forall, Bool.not_eq_false] at not_atomic
  obtain ⟨fits, unassigned, index, p, chosen, found, full⟩ := not_atomic
  obtain ⟨hashed, some_⟩ := chooses_of_assignPartition chosen
  obtain ⟨index', t₁, q, chosen', nonneg, -, same⟩ := assignPartition_chosen hashed some_
  have one : index' = index := by
    rw [chosen'] at chosen
    exact Except.ok.inj chosen
  subst one
  have routed : t.route enc (s.messages m) = (.ok index', t₁) :=
    (if_pos (not_le.mp unassigned)).trans chosen'
  have refused := (labelled s m index' t₁.name).append_of_full now p m full
  have outcome : t.publish enc now s m = _ := publish_routed fits routed (same ▸ found)
  rw [refused] at outcome
  refine ⟨_, _, _, outcome, ?_⟩
  rw [labelled_partition]
  omega

/-- The partition object the message is routed to. -/
def target (enc : Encoding) (t : Topic) (message : Message) : Option PartitionRef :=
  match (t.route enc message).1 with
  | .error _ => none
  | .ok index => t.partitions[index.toNat]?

/-- The topic takes the message: it is not too large, and is routed to a partition
that is not full. -/
def Takes (enc : Encoding) (s : Store) (t : Topic) (message : Message) : Prop :=
  ¬ t.Refuses enc message ∧ ∃ p ∈ t.target enc message, (s.partitions p).isFull = false

/-- **What a publish does to the offsets.**  It raises and moves none, or it appends
the message to its target. -/
theorem publish_outcome (enc : Encoding) (now : Timestamp) (s : Store) (t : Topic) (m : MessageRef) :
    (¬ t.Takes enc s (s.messages m) ∧
      ∃ raised s' t', t.publish enc now s m = (.error raised, s', t') ∧ s.Retouched m s' ∧
        s'.offsetOf = s.offsetOf) ∨
    (t.Takes enc s (s.messages m) ∧
      ∃ p s₁ t', t.target enc (s.messages m) = some p ∧ s.Retouched m s₁ ∧ s₁.offsetOf = s.offsetOf ∧
        t.publish enc now s m = (.ok (s.partitions p).nextOffset, s₁.appended now p m, t')) := by
  by_cases refused : t.Refuses enc (s.messages m)
  · obtain ⟨raised, outcome, -⟩ := publish_refused now refused
    exact .inl ⟨fun takes => takes.1 refused, raised, s, t, outcome, .refl s m, rfl⟩
  · obtain ⟨-, same⟩ := t.route_topic enc (s.messages m)
    rw [Takes, target]
    rcases routed : t.route enc (s.messages m) with ⟨raised | index, t₁⟩
    · exact .inl ⟨by simp, _, _, _, publish_unroutable refused routed, .refl s m, rfl⟩
    · rw [routed] at same
      have same : t₁.partitions = t.partitions := same
      cases found : t.partitions[index.toNat]? with
      | none =>
          refine .inl ⟨by simp [found], _, _, _, publish_outside refused routed (same ▸ found),
            s.retouched_modifyMessage m _, s.modifyMessage_offsetOf m ?_⟩
          intro message
          rfl
      | some p =>
          have stored : t.publish enc now s m = (((labelled s m index t₁.name).append now p m).1,
              ((labelled s m index t₁.name).append now p m).2, t₁) :=
            publish_routed refused routed (same ▸ found)
          cases full : (s.partitions p).isFull with
          | true =>
              rw [(labelled s m index t₁.name).append_of_full now p m full] at stored
              exact .inl ⟨by simp [found, full], _, _, _, stored, labelled_retouched ..,
                labelled_offsetOf ..⟩
          | false =>
              rw [(labelled s m index t₁.name).append_of_room now p m full] at stored
              exact .inr ⟨by simp [found, full, refused], p, _, _, found, labelled_retouched ..,
                labelled_offsetOf .., stored⟩

theorem publish_returns_iff : (∃ offset s' t', t.publish enc now s m = (.ok offset, s', t')) ↔
    t.Takes enc s (s.messages m) := by
  rcases t.publish_outcome enc now s m with ⟨refuses, raised, s', t', failed, -⟩ |
    ⟨takes, p, s₁, t', -, -, -, stored⟩
  · rw [failed]
    exact iff_of_false (by simp) refuses
  · exact iff_of_true ⟨_, _, _, stored⟩ takes

/-- A message is routed to a partition when the one it names is there, or one is chosen. -/
theorem target_isSome_iff (enc : Encoding) {message : Message} :
    (∃ p, t.target enc message = some p) ↔ message.Finds enc t.partitions.length := by
  rw [target, route, Message.Finds, Message.Hashed]
  by_cases preset : 0 ≤ message.partition
  · rw [if_neg (not_lt.mpr preset), max_eq_right preset]
    constructor
    · rintro ⟨p, found⟩
      have := (List.getElem?_eq_some_iff.mp found).1
      exact ⟨by omega, fun unassigned => absurd preset (not_le.mpr unassigned)⟩
    · rintro ⟨inside, -⟩
      exact ⟨_, List.getElem?_eq_getElem (by omega)⟩
  · rw [if_pos (not_le.mp preset), max_eq_left (le_of_lt (not_le.mp preset))]
    by_cases chooses : (∀ k ∈ message.key, (enc.encode k).isSome) ∧ t.partitions ≠ []
    · obtain ⟨index, t₁, p, chosen, -, found, -⟩ := assignPartition_chosen chooses.1 chooses.2
      have pos := List.length_pos_iff.mpr chooses.2
      simp only [chosen]
      exact iff_of_true ⟨p, found⟩ ⟨by omega, fun _ => chooses.1⟩
    · obtain ⟨raised, none_, -⟩ := assignPartition_failed chooses
      simp only [none_]
      refine iff_of_false (by simp) fun finds => chooses ⟨finds.2 (not_le.mp preset), ?_⟩
      exact List.length_pos_iff.mp (by omega)

/-- While every partition has room, a topic takes what is not too large and fits a
partition. -/
theorem takes_of_room {message : Message} (fits : ¬ t.Refuses enc message)
    (room : ∀ p ∈ t.partitions, (s.partitions p).isFull = false) :
    t.Takes enc s message ↔ message.Finds enc t.partitions.length := by
  rw [← target_isSome_iff enc]
  refine ⟨fun takes => ?_, fun ⟨p, found⟩ => ⟨fits, p, found, room p ?_⟩⟩
  · obtain ⟨p, found, -⟩ := takes.2
    exact ⟨p, found⟩
  · unfold target at found
    split at found
    · cases found
    · exact List.mem_of_getElem? found

end Topic

namespace Broker

/-- Nothing that a publish of `m` may write differs. -/
structure Unchanged (b b' : Broker) (m : MessageRef) : Prop where
  topics : ∀ name, b'.topics.contains name = b.topics.contains name
  logs : ∀ p, b'.logOf p = b.logOf p ∧
    (b'.partitions p).nextOffset = (b.partitions p).nextOffset
  counters : ∀ name, (b'.topics.get? name).map Topic.roundRobinCounter =
    (b.topics.get? name).map Topic.roundRobinCounter
  totalMessagesIn : b'.totalMessagesIn = b.totalMessagesIn
  topic : (b'.messages m).topic = (b.messages m).topic
  partition : (b'.messages m).partition = (b.messages m).partition
  offset : (b'.messages m).offset = (b.messages m).offset

theorem Unchanged.refl (b : Broker) (m : MessageRef) : b.Unchanged b m :=
  ⟨fun _ => rfl, fun _ => ⟨rfl, rfl⟩, fun _ => rfl, rfl, rfl, rfl, rfl⟩

/-- The topic exists and its `publish` leaves no trace when it raises; or it does
not exist, and either cannot be created or takes the message. -/
def Atomic (enc : Encoding) (b : Broker) (m : MessageRef) : Prop :=
  match b.topics.get? (b.messages m).topic with
  | some t => t.Atomic enc b.toStore (b.messages m)
  | none => (0 < b.config.maxTopics ∧ b.config.maxTopics ≤ b.topics.length) ∨
      (b.messages m).Finds enc b.config.defaultPartitions

variable {b : Broker} {enc : Encoding}

theorem publish_failed {now : Timestamp} {m : MessageRef} {t : Topic} {b₁ : Broker}
    (there : b.topicFor (b.messages m).topic = (.ok t, b₁)) {raised : Raised} {s' : Store} {t' : Topic}
    (failed : t.publish enc now b₁.toStore m = (.error raised, s', t')) :
    b.publish enc now m = (.error raised,
      { b₁ with toStore := s', topics := b₁.topics.set (b.messages m).topic t' }) := by
  simp only [publish, there, failed]

/-- When no more topics are allowed, none is created. -/
theorem topicFor_full {name : String} (absent : b.topics.get? name = none)
    (full : 0 < b.config.maxTopics ∧ b.config.maxTopics ≤ b.topics.length) :
    b.topicFor name = (.error (.valueError (.maximumTopics b.config.maxTopics)), b) := by
  have missing : ¬ b.topics.contains name = true := by simp [Dict.contains, absent]
  simp only [topicFor, absent, createTopic, if_neg missing, if_pos full]

/-- A topic that is created without a configuration takes messages of any size, and
its partitions are empty. -/
theorem topicFor_created {name : String} (absent : b.topics.get? name = none)
    (allowed : b.config.maxTopics ≤ 0 ∨ b.topics.length < b.config.maxTopics) :
    ∃ t b₁, b.topicFor name = (.ok t, b₁) ∧ b₁.messages = b.messages ∧
      t.partitions.length = b.config.defaultPartitions.toNat ∧
      (∀ (enc : Encoding) message, ¬ t.Refuses enc message) ∧
      ∀ p ∈ t.partitions, (b₁.partitions p).isFull = false := by
  have missing : ¬ b.topics.contains name = true := by simp [Dict.contains, absent]
  have room : ¬ (0 < b.config.maxTopics ∧ b.config.maxTopics ≤ b.topics.length) := by omega
  have created : b.topicFor name = b.createTopic name none := by simp only [topicFor, absent]
  rw [createTopic, if_neg missing, if_neg room] at created
  refine ⟨_, _, created, rfl, by simp [newTopic], fun enc message => ?_, fun p member => ?_⟩
  · simp [Topic.Refuses, newTopic]
  · have inside : b.nextPartition ≤ p ∧ p < b.nextPartition + b.config.defaultPartitions.toNat := by
      simpa [newTopic] using member
    simp [newTopic, inside, Partition.isFull]

/-- The broker takes the message: its topic does, or would if it were created now. -/
def Takes (enc : Encoding) (b : Broker) (m : MessageRef) : Prop :=
  match b.topics.get? (b.messages m).topic with
  | some t => t.Takes enc b.toStore (b.messages m)
  | none => (b.config.maxTopics ≤ 0 ∨ b.topics.length < b.config.maxTopics) ∧
      (b.messages m).Finds enc b.config.defaultPartitions

/-- **Which publishes return.** -/
theorem publish_returns_iff (b : Broker) (enc : Encoding) (now : Timestamp) (m : MessageRef) :
    (∃ metadata b', b.publish enc now m = (.ok metadata, b')) ↔ b.Takes enc m := by
  have topic_returns : ∀ {t b₁}, b.topicFor (b.messages m).topic = (.ok t, b₁) →
      ((∃ metadata b', b.publish enc now m = (.ok metadata, b')) ↔
        ∃ offset s' t', t.publish enc now b₁.toStore m = (.ok offset, s', t')) := by
    intro t b₁ there
    rcases sent : t.publish enc now b₁.toStore m with ⟨raised | offset, s', t'⟩ <;>
      simp [publish, there, sent]
  unfold Takes
  cases found : b.topics.get? (b.messages m).topic with
  | some t =>
      have there : b.topicFor (b.messages m).topic = (.ok t, b) := by simp [topicFor, found]
      exact (topic_returns there).trans Topic.publish_returns_iff
  | none =>
      dsimp only
      by_cases allowed : b.config.maxTopics ≤ 0 ∨ b.topics.length < b.config.maxTopics
      · obtain ⟨t, b₁, created, messages, length, fits, room⟩ := topicFor_created found allowed
        refine (topic_returns created).trans (Topic.publish_returns_iff.trans ?_)
        rw [messages]
        refine (Topic.takes_of_room (fits _ _) room).trans ?_
        rw [length, Message.finds_toNat, and_iff_right allowed]
      · refine iff_of_false ?_ fun takes => allowed takes.1
        simp [publish, topicFor_full found (by omega)]

theorem publish_atomic_of_found (arranged : b.Arranged) (now : Timestamp) {m : MessageRef} {t : Topic}
    (found : b.topics.get? (b.messages m).topic = some t) :
    (∀ raised b', b.publish enc now m = (.error raised, b') → b.Unchanged b' m) ↔
      t.Atomic enc b.toStore (b.messages m) := by
  have there : b.topicFor (b.messages m).topic = (.ok t, b) := by simp [topicFor, found]
  obtain ⟨named, -⟩ := arranged.topics _ t found
  constructor
  · intro unchanged
    by_contra not_atomic
    obtain ⟨raised, s', t', failed, moved⟩ : ∃ raised s' t',
        t.publish enc now b.toStore m = (.error raised, s', t') ∧
          (s'.messages m).partition ≠ (b.messages m).partition :=
      Topic.publish_of_not_atomic not_atomic
    exact moved (unchanged raised _ (publish_failed there failed)).partition
  · intro atomic raised b' outcome
    rcases sent : t.publish enc now b.toStore m with ⟨raised' | offset, s', t'⟩
    · obtain ⟨rfl, rfl⟩ := Topic.publish_of_atomic named atomic sent
      rw [publish_failed there sent, Dict.set_of_get? found, Prod.mk.injEq] at outcome
      rw [← outcome.2]
      exact .refl b m
    · simp [publish, there, sent] at outcome

/-- A topic that was created stays, whatever becomes of the message. -/
theorem publish_atomic_of_absent (now : Timestamp) {m : MessageRef}
    (absent : b.topics.get? (b.messages m).topic = none) :
    (∀ raised b', b.publish enc now m = (.error raised, b') → b.Unchanged b' m) ↔
      (0 < b.config.maxTopics ∧ b.config.maxTopics ≤ b.topics.length) ∨
        (b.messages m).Finds enc b.config.defaultPartitions := by
  have returns := b.publish_returns_iff enc now m
  simp only [Takes, absent] at returns
  by_cases refused : 0 < b.config.maxTopics ∧ b.config.maxTopics ≤ b.topics.length
  · refine iff_of_true (fun raised b' outcome => ?_) (.inl refused)
    simp only [publish, topicFor_full absent refused, Prod.mk.injEq] at outcome
    rw [← outcome.2]
    exact .refl b m
  · have allowed : b.config.maxTopics ≤ 0 ∨ b.topics.length < b.config.maxTopics := by omega
    obtain ⟨t, b₁, created, -⟩ := topicFor_created absent allowed
    constructor
    · intro unchanged
      by_contra outside
      rcases sent : t.publish enc now b₁.toStore m with ⟨raised | offset, s', t'⟩
      · have kept := (unchanged raised _ (publish_failed created sent)).topics (b.messages m).topic
        have new : ∀ d : Dict String Topic, (d.set (b.messages m).topic t').contains
            (b.messages m).topic = true :=
          fun d => Dict.contains_iff.mpr (Dict.mem_keys_set.mpr (.inl rfl))
        rw [new, Dict.contains, absent] at kept
        cases kept
      · exact outside (.inr (returns.mp (by simp [publish, created, sent])).2)
    · rintro (no | inside) raised b' outcome
      · exact absurd no refused
      · obtain ⟨metadata, b'', returned⟩ := returns.mpr ⟨allowed, inside⟩
        rw [returned] at outcome
        cases outcome

/-- **When a failed publish changes nothing.** -/
theorem publish_atomic (arranged : b.Arranged) (now : Timestamp) (m : MessageRef) :
    (∀ raised b', b.publish enc now m = (.error raised, b') → b.Unchanged b' m) ↔ b.Atomic enc m := by
  unfold Atomic
  cases found : b.topics.get? (b.messages m).topic with
  | some t => exact publish_atomic_of_found arranged now found
  | none => exact publish_atomic_of_absent now found

/-- **When a publish that raises changes nothing**, in every state of every run. -/
theorem run_publish_atomic_iff (start : b.Start) (enc : Encoding) (ops : List BrokerOp)
    (now : Timestamp) (m : MessageRef) :
    (∀ raised b', (run (step enc) b ops).publish enc now m = (.error raised, b') →
        (run (step enc) b ops).Unchanged b' m) ↔
      (run (step enc) b ops).Atomic enc m :=
  publish_atomic (run_arranged enc start ops) now m

/-! ## A full partition -/

/-- One partition with room for one message, which is there; messages 1 and 2 have
no key, and 2 names the partition. -/
def fullOps : List BrokerOp :=
  [.createTopic "t" (some { numPartitions := 1, maxPartitionSize := 1 }), .publish 0 0,
    .edit 1 { topic := "t", value := [], id := "1" },
    .edit 2 { topic := "t", value := [], id := "2", partition := 0 }]

theorem fullOps_publish_atomic_iff :
    let b := run (step PublishRun.digestOfK) PublishRun.publishStart.broker fullOps
    (∀ raised b', b.publish PublishRun.digestOfK 1 2 = (.error raised, b') → b.Unchanged b' 2) ↔
      b.Atomic PublishRun.digestOfK 2 :=
  run_publish_atomic_iff ⟨rfl, rfl, fun _ => rfl, fun _ => rfl, rfl⟩ PublishRun.digestOfK fullOps 1 2

/-- Message 1 is refused, but has been given partition 0, and the topic's counter
has moved on. -/
theorem fullOps_publish_changes :
    let b := run (step PublishRun.digestOfK) PublishRun.publishStart.broker fullOps
    let done := b.publish PublishRun.digestOfK 1 1
    done.1.toOption = none ∧ ¬ b.Unchanged done.2 1 ∧
      ((b.messages 1).partition = -1 ∧ (done.2.messages 1).partition = 0) ∧
      ((b.topics.get? "t").map Topic.roundRobinCounter = some 1 ∧
        (done.2.topics.get? "t").map Topic.roundRobinCounter = some 2) :=
  ⟨by decide +kernel, fun unchanged => absurd unchanged.partition (by decide +kernel),
    by decide +kernel, by decide +kernel⟩

end Broker

end BrokerLite
