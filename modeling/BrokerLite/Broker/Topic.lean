/-
# Broker.Topic -- routing a message to a partition

A `Topic` is a named list of partition objects.  `publish` checks the size,
chooses a partition if the message names none (by the hash of its key, or in
turn), writes the choice and the topic's name into the message object and
appends it.  What was written stays written when a later step raises.

A key is hashed by the digest of its bytes; a string without an encoding has none.
`Topic.publish_cases` is all that the rest of the development uses.
-/
import BrokerLite.Store.PartitionLog

namespace BrokerLite

open Theory

set_option autoImplicit false

structure TopicConfig where
  numPartitions : ℤ := 4
  retentionMs : ℤ := 0
  maxMessageBytes : ℤ := 0
  maxPartitionSize : ℤ := 0
  compactionEnabled : Bool := false

structure Topic where
  name : String
  config : TopicConfig := {}
  partitions : List PartitionRef := []
  roundRobinCounter : ℕ := 0
  subscribers : List String := []

namespace Message

/-- The key, if there is one, has an encoding. -/
def Hashed (enc : Encoding) (message : Message) : Prop := ∀ key ∈ message.key, (enc.encode key).isSome

instance (enc : Encoding) (message : Message) : Decidable (message.Hashed enc) :=
  inferInstanceAs (Decidable (∀ key ∈ message.key, _))

/-- The message names one of `n` partitions, or one of them is chosen for it. -/
def Finds (enc : Encoding) (message : Message) (n : ℤ) : Prop :=
  max 0 message.partition < n ∧ (message.partition < 0 → message.Hashed enc)

instance (enc : Encoding) (message : Message) (n : ℤ) : Decidable (message.Finds enc n) :=
  inferInstanceAs (Decidable (_ ∧ (_ → _)))

/-- The message finds a partition, or is refused for its key before one is chosen. -/
def Spared (enc : Encoding) (message : Message) (n : ℤ) : Prop :=
  max 0 message.partition < n ∨ (message.partition < 0 ∧ ¬ message.Hashed enc)

instance (enc : Encoding) (message : Message) (n : ℤ) : Decidable (message.Spared enc n) :=
  inferInstanceAs (Decidable (_ ∨ _))

theorem spared_iff {enc : Encoding} {message : Message} {n : ℤ} : message.Spared enc n ↔
    message.Finds enc n ∨ (message.partition < 0 ∧ ¬ message.Hashed enc) := by
  unfold Spared Finds
  tauto

/-- A negative number of partitions is none. -/
theorem spared_toNat {enc : Encoding} {message : Message} {n : ℤ} :
    message.Spared enc n.toNat ↔ message.Spared enc n := by
  unfold Spared
  apply or_congr_left
  omega

/-- A negative number of partitions is none. -/
theorem finds_toNat {enc : Encoding} {message : Message} {n : ℤ} :
    message.Finds enc n.toNat ↔ message.Finds enc n := by
  unfold Finds
  apply and_congr_left'
  omega

end Message

def Store.modifyMessage (s : Store) (m : MessageRef) (f : Message → Message) : Store :=
  { s with messages := Function.update s.messages m (f (s.messages m)) }

/-- `t` is `s` but for the fields of the message object `m`. -/
structure Store.Retouched (s : Store) (m : MessageRef) (t : Store) : Prop where
  partitions : t.partitions = s.partitions
  messages : ∀ n, n ≠ m → t.messages n = s.messages n

namespace Topic

/-- `assign_partition`: the chosen index, and the topic after it. -/
def assignPartition (enc : Encoding) (t : Topic) (key : Option String) : Except Raised ℤ × Topic :=
  match key with
  | some key =>
      match enc.digest key with
      | none => (.error .unicodeEncodeError, t)
      | some h =>
          if t.partitions.length = 0 then (.error .zeroDivisionError, t)
          else (.ok (h % t.partitions.length : ℕ), t)
  | none =>
      if t.partitions.length = 0 then (.error .zeroDivisionError, t)
      else (.ok (t.roundRobinCounter % t.partitions.length : ℕ),
        { t with roundRobinCounter := t.roundRobinCounter + 1 })

/-- The index `publish` uses: the one the message names, or a chosen one. -/
def route (enc : Encoding) (t : Topic) (message : Message) : Except Raised ℤ × Topic :=
  if message.partition < 0 then t.assignPartition enc message.key else (.ok message.partition, t)

/-- What the size check of `publish` raises, if it does. -/
def sizeError (enc : Encoding) (t : Topic) (message : Message) : Option Raised :=
  if 0 < t.config.maxMessageBytes then
    match message.sizeBytes enc with
    | none => some .unicodeEncodeError
    | some size =>
        if t.config.maxMessageBytes < size then
          some (.valueError (.messageTooLarge size t.config.maxMessageBytes t.name))
        else none
  else none

def publish (enc : Encoding) (now : Timestamp) (s : Store) (t : Topic) (m : MessageRef) :
    Except Raised ℤ × Store × Topic :=
  match t.sizeError enc (s.messages m) with
  | some raised => (.error raised, s, t)
  | none =>
      match t.route enc (s.messages m) with
      | (.error raised, t) => (.error raised, s, t)
      | (.ok index, t) =>
          let s := s.modifyMessage m fun message => { message with partition := index }
          match t.partitions[index.toNat]? with
          | none => (.error .indexError, s, t)
          | some p =>
              let s := s.modifyMessage m fun message => { message with topic := t.name }
              let done := s.append now p m
              (done.1, done.2, t)

end Topic

/-! ## What publishing changes -/

namespace Store

theorem retouched_modifyMessage (s : Store) (m : MessageRef) (f : Message → Message) :
    s.Retouched m (s.modifyMessage m f) :=
  ⟨rfl, fun n other => by simp [modifyMessage, other]⟩

theorem Retouched.refl (s : Store) (m : MessageRef) : s.Retouched m s := ⟨rfl, fun _ _ => rfl⟩

theorem Retouched.trans {s t u : Store} {m : MessageRef} (first : s.Retouched m t)
    (second : t.Retouched m u) : s.Retouched m u :=
  ⟨second.partitions.trans first.partitions,
    fun n other => (second.messages n other).trans (first.messages n other)⟩

section Retouched

variable {s t : Store} {m : MessageRef} (retouched : s.Retouched m t)

include retouched

theorem Retouched.logOf : t.logOf = s.logOf := by
  funext p
  rw [Store.logOf, retouched.partitions, Store.logOf]

/-- Fields of an object that no log holds do not matter to the logs. -/
theorem Retouched.ordered (fresh : s.Unstored m) (ordered : s.Ordered) : t.Ordered := by
  have kept : ∀ {p n}, n ∈ s.logOf p → t.messages n = s.messages n :=
    fun member => retouched.messages _ fun same => fresh _ (same ▸ member)
  have offsets : ∀ {p n}, n ∈ s.logOf p → t.offsetOf n = s.offsetOf n :=
    fun member => congrArg Message.offset (kept member)
  refine ⟨?_, ?_, ?_, ?_, ?_⟩ <;> simp only [retouched.logOf, retouched.partitions] <;> intro p
  · exact (ordered.ascending p).imp_of_mem fun ha hb lt => by rwa [offsets ha, offsets hb]
  · exact fun n member => offsets member ▸ ordered.nonneg p n member
  · exact fun n member => offsets member ▸ ordered.bounded p n member
  · exact ordered.next p
  · exact fun n member => kept member ▸ ordered.stamped p n member

end Retouched

end Store

namespace Topic

theorem route_topic (enc : Encoding) (t : Topic) (message : Message) :
    (t.route enc message).2.name = t.name ∧ (t.route enc message).2.partitions = t.partitions := by
  unfold route assignPartition
  split
  · split
    · split
      · exact ⟨rfl, rfl⟩
      · split <;> exact ⟨rfl, rfl⟩
    · split <;> exact ⟨rfl, rfl⟩
  · exact ⟨rfl, rfl⟩

/-- **What a topic's `publish` does.**  It raises and at most the fields of the
message changed, or it appends the message, which by then carries the topic's
name, to one of the topic's partitions and returns the offset given there. -/
theorem publish_cases (enc : Encoding) (now : Timestamp) (s : Store) (t : Topic) (m : MessageRef) :
    (t.publish enc now s m).2.2.name = t.name ∧
    (t.publish enc now s m).2.2.partitions = t.partitions ∧
    ((∃ raised, (t.publish enc now s m).1 = .error raised ∧
        s.Retouched m (t.publish enc now s m).2.1) ∨
      ∃ p ∈ t.partitions, ∃ s₁, s.Retouched m s₁ ∧ (s₁.messages m).topic = t.name ∧
        (t.publish enc now s m).1 = .ok (s.partitions p).nextOffset ∧
        (t.publish enc now s m).2.1 = s₁.appended now p m) := by
  obtain ⟨name, partitions⟩ := t.route_topic enc (s.messages m)
  unfold publish
  split
  · exact ⟨rfl, rfl, .inl ⟨_, rfl, .refl s m⟩⟩
  · rcases routed : t.route enc (s.messages m) with ⟨raised | index, t'⟩ <;>
      rw [routed] at name partitions
    · exact ⟨name, partitions, .inl ⟨raised, rfl, .refl s m⟩⟩
    · have indexed := s.retouched_modifyMessage m fun message => { message with partition := index }
      cases found : t'.partitions[index.toNat]? with
      | none =>
          simp only [found]
          exact ⟨name, partitions, .inl ⟨_, rfl, indexed⟩⟩
      | some p =>
          simp only [found]
          generalize s.modifyMessage m (fun message => { message with partition := index }) = s₁
            at indexed
          have named := s₁.retouched_modifyMessage m fun message => { message with topic := t'.name }
          have topic : ((s₁.modifyMessage m fun message =>
              { message with topic := t'.name }).messages m).topic = t.name := by
            simpa [Store.modifyMessage] using name
          generalize s₁.modifyMessage m (fun message => { message with topic := t'.name }) = s₂
            at named topic
          have retouched := indexed.trans named
          refine ⟨name, partitions, ?_⟩
          rcases s₂.append_cases now p m with ⟨error, refused⟩ | stored
          · rw [refused]
            exact .inl ⟨_, rfl, retouched⟩
          · rw [stored]
            exact .inr ⟨p, partitions ▸ List.mem_of_getElem? found, s₂, retouched, topic,
              by rw [retouched.partitions], rfl⟩

end Topic

end BrokerLite
