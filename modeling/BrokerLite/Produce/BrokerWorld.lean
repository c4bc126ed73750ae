/-
# Produce.BrokerWorld -- a broker as what a producer publishes to

A message that is published is a new object, put into the table under the next unused
reference; the broker writes its partition, offset and time into it and the producer
reads them there.  `arrived` lists the publishes that returned, in order, each with who
made it and the message as it was handed over.

`Fed` is the invariant for one topic without size limits while nobody names a partition
of it: partition `j` holds lane `j` of what arrived there, and every object carries what
was handed over (`publish_fed`).
-/
import BrokerLite.Broker.Routing
import BrokerLite.Produce.Upkeep

namespace BrokerLite

open Theory

set_option autoImplicit false

abbrev ProducerRef := ℕ

/-- A publish that returned: who made it (nobody, when no producer did), and of what. -/
structure Arrival where
  sender : Option ProducerRef
  ref : MessageRef
  message : Message

structure BrokerWorld where
  broker : Broker
  nextMessage : MessageRef := 0
  /-- How often the clock was read. -/
  reading : ℕ := 0
  /-- How many ids were drawn. -/
  drawn : ℕ := 0
  arrived : List Arrival := []

/-- The object is as handed over, but for what a topic writes into it. -/
def Message.Carries (stored handed : Message) : Prop :=
  stored = { handed with
    topic := stored.topic, partition := stored.partition, offset := stored.offset,
    brokerTimestamp := stored.brokerTimestamp }

namespace BrokerWorld

/-- The broker with a new message object. -/
def withMessage (w : BrokerWorld) (message : Message) : Broker :=
  { w.broker with toStore := w.broker.toStore.modifyMessage w.nextMessage fun _ => message }

/-- `Broker.publish`, called with a message made for it. -/
def publish (hash : String → ℕ) (clock : ℕ → Timestamp) (sender : Option ProducerRef)
    (message : Message) (w : BrokerWorld) : Except Raised RecordMetadata × Message × BrokerWorld :=
  let done := (w.withMessage message).publish (.total hash) (clock w.reading) w.nextMessage
  (done.1, done.2.messages w.nextMessage,
    { w with
      broker := done.2
      nextMessage := w.nextMessage + 1
      reading := w.reading + 1
      arrived := if done.1.isOk then w.arrived ++ [⟨sender, w.nextMessage, message⟩] else w.arrived })

/-- What a producer of the broker calls; it has no callbacks. -/
def environment (hash : String → ℕ) (clock : ℕ → Timestamp) (ids : ℕ → String) (i : ProducerRef) :
    Environment BrokerWorld Raised where
  time w := (clock w.reading, { w with reading := w.reading + 1 })
  uuid4 w := (ids w.drawn, { w with drawn := w.drawn + 1 })
  publishFn := some (publish hash clock (some i))

/-- What arrived at a topic. -/
def arrivedAt (w : BrokerWorld) (name : String) : List Arrival :=
  w.arrived.filter fun a => a.message.topic = name

/-- What one sender brought to a topic. -/
def arrivedFrom (w : BrokerWorld) (name : String) (sender : Option ProducerRef) : List Message :=
  ((w.arrivedAt name).filter fun a => a.sender = sender).map Arrival.message

/-! ## One topic -/

variable {hash : String → ℕ} {clock : ℕ → Timestamp} {name : String} {ps : List PartitionRef}
  {w : BrokerWorld}

/-- The topic's view of a broker. -/
def routing (b : Broker) (t : Topic) (published : List Arrival) : RoutingRun :=
  ⟨b.toStore, t, published.map Arrival.ref⟩

/-- The partitions `ps` of the topic hold the lanes of what arrived there. -/
structure Fed (hash : String → ℕ) (name : String) (ps : List PartitionRef) (w : BrokerWorld) : Prop where
  arranged : w.broker.Arranged
  topic : ∃ t, w.broker.topics.get? name = some t ∧
    (routing w.broker t (w.arrivedAt name)).Routed hash (fun m => (w.broker.messages m).key) ps
  old : ∀ a ∈ w.arrived, a.ref < w.nextMessage
  carried : ∀ a ∈ w.arrivedAt name, (w.broker.messages a.ref).Carries a.message

/-- What does not touch the partitions and the messages of the topic keeps its lanes. -/
theorem routed_congr {b b' : Broker} {t : Topic} {published : List Arrival}
    (routed : (routing b t published).Routed hash (fun m => (b.messages m).key) ps)
    (partitions : ∀ p ∈ ps, (b'.partitions p).log = (b.partitions p).log ∧
      (b'.partitions p).maxSize = (b.partitions p).maxSize)
    (messages : ∀ a ∈ published, b'.messages a.ref = b.messages a.ref) :
    (routing b' t published).Routed hash (fun m => (b'.messages m).key) ps := by
  have keys : ∀ m ∈ published.map Arrival.ref, (b'.messages m).key = (b.messages m).key := by
    intro m member
    obtain ⟨a, arrived, rfl⟩ := List.mem_map.mp member
    exact congrArg Message.key (messages a arrived)
  refine ⟨routed.partitions, routed.anySize, ?_, fun p member => ?_, fun j p found => ?_, fun _ => rfl⟩
  · rw [show (routing b' t published).topic.roundRobinCounter = _ from routed.counter]
    congr 1
    apply List.filter_congr
    intro m member
    simpa using congrArg (fun key => decide (key = none)) (keys m member).symm
  · exact (partitions p member).2.trans_le (routed.unlimited p member)
  · have log : b'.logOf p = b.logOf p := (partitions p (List.mem_of_getElem? found)).1
    exact log.trans ((routed.logs j p found).trans (lane_congr keys j).symm)

/-! ## One publish -/

@[simp] theorem withMessage_self (w : BrokerWorld) (message : Message) :
    (w.withMessage message).messages w.nextMessage = message := by simp [withMessage, Store.modifyMessage]

theorem withMessage_of_ne (w : BrokerWorld) (message : Message) {m : MessageRef}
    (other : m ≠ w.nextMessage) : (w.withMessage message).messages m = w.broker.messages m := by
  simp [withMessage, Store.modifyMessage, other]

theorem withMessage_arranged (arranged : w.broker.Arranged) (message : Message) :
    (w.withMessage message).Arranged :=
  arranged.congr rfl (.refl _ rfl fun _ => rfl) (.refl _ rfl) rfl rfl rfl

/-- A topic writes its name, a place and a time into the message, and nothing else. -/
theorem topic_publish_carries (enc : Encoding) (now : Timestamp) (s : Store) (t : Topic)
    (m : MessageRef) : ((t.publish enc now s m).2.1.messages m).Carries (s.messages m) := by
  unfold Topic.publish
  split
  · rfl
  · rcases t.route enc (s.messages m) with ⟨raised | index, t'⟩
    · rfl
    · dsimp only
      split
      · simp [Message.Carries, Store.modifyMessage]
      · next p _ =>
          show (((Topic.labelled s m index t'.name).append now p m).2.messages m).Carries _
          rcases (Topic.labelled s m index t'.name).append_cases now p m with ⟨error, refused⟩ | stored
          · rw [refused]
            simp [Message.Carries, Topic.labelled, Store.modifyMessage]
          · rw [stored]
            simp [Message.Carries, Topic.labelled, Store.modifyMessage, Store.appended]

/-- A publish to the topic returns, and the topic's run makes a step. -/
theorem publish_own {b : Broker} {t : Topic} {published : List Arrival} (pos : 0 < ps.length)
    (distinct : ps.Nodup) (found : b.topics.get? name = some t)
    (routed : (routing b t published).Routed hash (fun m => (b.messages m).key) ps) {m : MessageRef}
    (here : (b.messages m).topic = name) (unset : (b.messages m).partition < 0) (now : Timestamp) :
    let r := (routing b t published).step (.total hash) (now, m)
    r.Routed hash (fun m => (b.messages m).key) ps ∧ r.published = published.map Arrival.ref ++ [m] ∧
    (b.publish (.total hash) now m).1.isOk = true ∧
    (b.publish (.total hash) now m).2 = { b with
      toStore := r.store, topics := b.topics.set name r.topic, totalMessagesIn := b.totalMessagesIn + 1 } := by
  intro r
  have unset : (routing b t published).Unset (now, m) := unset
  obtain ⟨kept, grown⟩ := routed.step (Encoding.digest_total hash) pos distinct unset
  refine ⟨kept, grown, ?_⟩
  have topicFor : b.topicFor name = (.ok t, b) := by simp [Broker.topicFor, found]
  unfold Broker.publish
  simp only [here, topicFor]
  rcases sent : t.publish (.total hash) now b.toStore m with ⟨raised | offset, s, t'⟩
  · have same : r.published = published.map Arrival.ref := by simp [r, routing, RoutingRun.step, sent]
    exact absurd (congrArg List.length (same.symm.trans grown)) (by simp [routing])
  · have store : r.store = s := by simp [r, routing, RoutingRun.step, sent]
    have topic : r.topic = t' := by simp [r, routing, RoutingRun.step, sent]
    rw [store, topic]
    exact ⟨rfl, rfl⟩

/-- A publish writes into no other message. -/
theorem publish_messages (enc : Encoding) (now : Timestamp) (b : Broker) {m n : MessageRef}
    (other : n ≠ m) : (b.publish enc now m).2.messages n = b.messages n := by
  have created : ∀ outcome b₁, b.topicFor (b.messages m).topic = (outcome, b₁) → b₁.messages = b.messages := by
    intro outcome b₁ made
    rcases b.topicFor_cases (b.messages m).topic with ⟨u, -, done⟩ | ⟨raised, done⟩ | ⟨config, -, done⟩ <;>
      rw [done] at made <;> cases made <;> rfl
  rcases b.publish_cases enc now m with ⟨raised, b₁, made, outcome⟩ | ⟨u, b₁, u', made, -, -, outcome⟩
  · rw [outcome, ← created _ _ made]
  · rw [← created _ _ made]
    rcases outcome with ⟨raised, s, retouched, outcome⟩ | ⟨p, -, s, retouched, -, outcome⟩ <;> rw [outcome]
    · exact retouched.messages n other
    · simp [Store.appended, other, retouched.messages n other]

/-- A publish to another topic does not touch this one. -/
theorem publish_other {b : Broker} {t : Topic} (arranged : b.Arranged)
    (found : b.topics.get? name = some t) {m : MessageRef} (other : (b.messages m).topic ≠ name)
    (enc : Encoding) (now : Timestamp) :
    (b.publish enc now m).2.topics.get? name = some t ∧
      ∀ p ∈ t.partitions, (b.publish enc now m).2.partitions p = b.partitions p := by
  obtain ⟨-, named⟩ := arranged.topics name t found
  have created : ∀ outcome b₁, b.topicFor (b.messages m).topic = (outcome, b₁) →
      b₁.topics.get? name = some t ∧ ∀ p ∈ t.partitions, b₁.partitions p = b.partitions p := by
    intro outcome b₁ made
    rcases b.topicFor_cases (b.messages m).topic with ⟨u, -, done⟩ | ⟨raised, done⟩ | ⟨config, -, done⟩ <;>
      rw [done] at made <;> cases made
    · exact ⟨found, fun _ _ => rfl⟩
    · exact ⟨found, fun _ _ => rfl⟩
    · refine ⟨(Dict.get?_set_of_ne _ other.symm _).trans found, fun p member => ?_⟩
      exact (PublishRun.newTopic_old _ config (named.created p member)).2
  rcases b.publish_cases enc now m with ⟨raised, b₁, made, outcome⟩ | ⟨u, b₁, u', made, -, -, outcome⟩ <;>
    obtain ⟨kept, partitions⟩ := created _ _ made
  · rw [outcome]
    exact ⟨kept, partitions⟩
  · rcases outcome with ⟨raised, s, retouched, outcome⟩ | ⟨p, inside, s, retouched, -, outcome⟩ <;> rw [outcome]
    · refine ⟨(Dict.get?_set_of_ne _ other.symm _).trans kept, fun q member => ?_⟩
      exact (congrFun retouched.partitions q).trans (partitions q member)
    · -- the partition appended to carries the other topic's name
      have arranged₁ := arranged.topicFor (b.messages m).topic
      rw [made] at arranged₁
      obtain ⟨-, theirs⟩ := arranged₁.topics _ u (Broker.topicFor_listed made)
      refine ⟨(Dict.get?_set_of_ne _ other.symm _).trans kept, fun q member => ?_⟩
      have differs : q ≠ p := by
        rintro rfl
        have ours := named.topic q member
        rw [← partitions q member, theirs.topic q inside] at ours
        exact other ours
      simp [Store.appended, differs, retouched.partitions, partitions q member]

/-! ## What arrives -/

variable (name) in
/-- What a publish brings to the topic, once those to it return. -/
theorem arrivedAt_publish {sender : Option ProducerRef} {message : Message}
    (returned : message.topic = name → (w.publish hash clock sender message).1.isOk = true) :
    (w.publish hash clock sender message).2.2.arrivedAt name = w.arrivedAt name ++
      if message.topic = name then [⟨sender, w.nextMessage, message⟩] else [] := by
  show List.filter _ (if (w.publish hash clock sender message).1.isOk then _ else _) = _
  by_cases here : message.topic = name
  · rw [if_pos (returned here), List.filter_append, if_pos here]
    simp [here, arrivedAt]
  · rw [if_neg here, List.append_nil]
    split
    · rw [List.filter_append]
      simp [here, arrivedAt]
    · rfl

/-- A publish does not write into what arrived before. -/
theorem Fed.publish_kept (fed : w.Fed hash name ps) (clock : ℕ → Timestamp) (sender : Option ProducerRef)
    (message : Message) {a : Arrival} (member : a ∈ w.arrived) :
    (w.publish hash clock sender message).2.2.broker.messages a.ref = w.broker.messages a.ref := by
  have unstored : a.ref ≠ w.nextMessage := Nat.ne_of_lt (fed.old a member)
  exact (publish_messages (.total hash) _ _ unstored).trans (withMessage_of_ne w message unstored)

theorem Fed.publish_old (fed : w.Fed hash name ps) (clock : ℕ → Timestamp) (sender : Option ProducerRef)
    (message : Message) :
    ∀ a ∈ (w.publish hash clock sender message).2.2.arrived, a.ref < w.nextMessage + 1 := by
  intro a member
  have member : a ∈ if (w.publish hash clock sender message).1.isOk then
      w.arrived ++ [⟨sender, w.nextMessage, message⟩] else w.arrived := member
  split at member
  · rcases List.mem_append.mp member with before | new
    · exact Nat.lt_succ_of_lt (fed.old a before)
    · rw [List.mem_singleton.mp new]
      exact Nat.lt_succ_self _
  · exact Nat.lt_succ_of_lt (fed.old a member)

/-- A publish to the topic returns, and the message is behind the others in its lane. -/
theorem Fed.publish_here (fed : w.Fed hash name ps) (pos : 0 < ps.length) (distinct : ps.Nodup)
    (clock : ℕ → Timestamp) (sender : Option ProducerRef) {message : Message}
    (here : message.topic = name) (unset : message.partition < 0) :
    (w.publish hash clock sender message).1.isOk = true ∧
      (w.publish hash clock sender message).2.2.Fed hash name ps := by
  obtain ⟨t, found, routed⟩ := fed.topic
  have listed : ∀ a ∈ w.arrivedAt name, a ∈ w.arrived := fun a member => List.mem_of_mem_filter member
  have before : (routing (w.withMessage message) t (w.arrivedAt name)).Routed hash
      (fun m => ((w.withMessage message).messages m).key) ps :=
    routed_congr routed (fun _ _ => ⟨rfl, rfl⟩) fun a member =>
      withMessage_of_ne w message (Nat.ne_of_lt (fed.old a (listed a member)))
  obtain ⟨fed', grown, returned, left⟩ := publish_own pos distinct (b := w.withMessage message) found before
    (by rw [withMessage_self, here]) (by rw [withMessage_self]; exact unset) (clock w.reading)
  have returned : (w.publish hash clock sender message).1.isOk = true := returned
  have arrives := arrivedAt_publish name fun _ => returned
  rw [if_pos here] at arrives
  have store : (w.publish hash clock sender message).2.2.broker.toStore = _ :=
    congrArg (fun b : Broker => b.toStore) left
  have carries := topic_publish_carries (.total hash) (clock w.reading) (w.withMessage message).toStore t
    w.nextMessage
  rw [withMessage_self] at carries
  have carries : (((routing (w.withMessage message) t (w.arrivedAt name)).step (.total hash)
    (clock w.reading, w.nextMessage)).store.messages w.nextMessage).Carries message := carries
  generalize (routing (w.withMessage message) t (w.arrivedAt name)).step (.total hash)
    (clock w.reading, w.nextMessage) = r at fed' grown left store carries
  refine ⟨returned, (withMessage_arranged fed.arranged message).publish .., ⟨r.topic, ?_, ?_⟩,
    fed.publish_old clock sender message, fun a member => ?_⟩
  · exact (congrArg (fun b => Dict.get? b.topics name) left).trans (Dict.get?_set_self ..)
  · have same : routing (w.publish hash clock sender message).2.2.broker r.topic
        ((w.publish hash clock sender message).2.2.arrivedAt name) = r := by
      rw [arrives, routing, store, List.map_append, List.map_singleton, ← grown]
    have keys : (fun m => (r.store.messages m).key) = fun m => ((w.withMessage message).messages m).key :=
      funext fed'.keys
    rw [same, store, keys]
    exact fed'
  · rw [arrives] at member
    rcases List.mem_append.mp member with before | new
    · rw [fed.publish_kept clock sender message (listed a before)]
      exact fed.carried a before
    · rw [List.mem_singleton.mp new, store]
      exact carries

/-- A publish to another topic keeps the lanes of this one. -/
theorem Fed.publish_elsewhere (fed : w.Fed hash name ps) (clock : ℕ → Timestamp)
    (sender : Option ProducerRef) {message : Message} (other : message.topic ≠ name) :
    (w.publish hash clock sender message).2.2.Fed hash name ps := by
  obtain ⟨t, found, routed⟩ := fed.topic
  have arranged := withMessage_arranged fed.arranged message
  have kept : ∀ a ∈ w.arrivedAt name,
      (w.publish hash clock sender message).2.2.broker.messages a.ref = w.broker.messages a.ref :=
    fun a member => fed.publish_kept clock sender message (List.mem_of_mem_filter member)
  have arrives : (w.publish hash clock sender message).2.2.arrivedAt name = w.arrivedAt name := by
    rw [arrivedAt_publish name fun same => absurd same other, if_neg other, List.append_nil]
  obtain ⟨still, partitions⟩ := publish_other arranged found (by rw [withMessage_self]; exact other)
    (.total hash) (clock w.reading)
  refine ⟨arranged.publish .., ⟨t, still, ?_⟩, fed.publish_old clock sender message, fun a member => ?_⟩
  · rw [arrives]
    have unmoved : ∀ p ∈ ps, (w.publish hash clock sender message).2.2.broker.partitions p =
        w.broker.partitions p := fun p member => partitions p (routed.partitions ▸ member)
    exact routed_congr routed (fun p member => by rw [unmoved p member]; exact ⟨rfl, rfl⟩) kept
  · rw [arrives] at member
    rw [kept a member]
    exact fed.carried a member

/-- **A publish feeds the topic.**  One to the topic returns; every publish keeps the lanes. -/
theorem Fed.publish (fed : w.Fed hash name ps) (pos : 0 < ps.length) (distinct : ps.Nodup)
    (clock : ℕ → Timestamp) (sender : Option ProducerRef) {message : Message}
    (unset : message.topic = name → message.partition < 0) :
    (message.topic = name → (w.publish hash clock sender message).1.isOk = true) ∧
      (w.publish hash clock sender message).2.2.Fed hash name ps := by
  by_cases here : message.topic = name
  · obtain ⟨returned, fed'⟩ := fed.publish_here pos distinct clock sender here (unset here)
    exact ⟨fun _ => returned, fed'⟩
  · exact ⟨fun same => absurd same here, fed.publish_elsewhere clock sender here⟩

/-- **What the partitions hold**: all that arrived, a key's messages in its own partition. -/
theorem Fed.holds (fed : w.Fed hash name ps) (pos : 0 < ps.length) :
    (∀ a ∈ w.arrivedAt name, (w.broker.messages a.ref).Carries a.message ∧
      ∃ p ∈ ps, a.ref ∈ w.broker.logOf p) ∧
    ∀ k (j : ℕ) p, ps[j]? = some p →
      (w.broker.logOf p).filter (fun m => (w.broker.messages m).key = some k) =
        if hash k % ps.length = j then
          ((w.arrivedAt name).filter fun a => a.message.key = some k).map Arrival.ref
        else [] := by
  obtain ⟨t, -, routed⟩ := fed.topic
  refine ⟨fun a member => ⟨fed.carried a member, ?_⟩, fun k j p found => ?_⟩
  · have listed : a.ref ∈ (w.arrivedAt name).map Arrival.ref := List.mem_map_of_mem member
    obtain ⟨j, inside, there⟩ := exists_mem_lane hash (fun m => (w.broker.messages m).key) pos listed
    refine ⟨ps[j], List.getElem_mem inside, ?_⟩
    rw [show w.broker.logOf ps[j] = _ from routed.logs j _ (List.getElem?_eq_getElem inside)]
    exact there
  · rw [show w.broker.logOf p = _ from routed.logs j p found, lane_keyed]
    show (if _ then ((w.arrivedAt name).map Arrival.ref).filter _ else _) = _
    rw [List.filter_map]
    congr 2
    apply List.filter_congr
    intro a member
    have same := congrArg Message.key (fed.carried a member)
    simp only [Function.comp_apply]
    rw [show (w.broker.messages a.ref).key = a.message.key from same]

/-- A topic that was just created without size limits. -/
theorem created_fed (hash : String → ℕ) {b b' : Broker} (arranged : b.Arranged) {config : TopicConfig}
    (anySize : config.maxMessageBytes ≤ 0) (unlimited : config.maxPartitionSize ≤ 0) {t : Topic}
    (created : b.createTopic name (some config) = (.ok t, b')) (nextMessage : MessageRef) :
    Fed hash name t.partitions { broker := b', nextMessage } ∧
      t.partitions.length = config.numPartitions.toNat ∧ t.partitions.Nodup := by
  have arranged' := arranged.createTopic name (some config)
  unfold Broker.createTopic at created arranged'
  split at created
  · cases created
  · split at created
    · cases created
    · next absent room =>
        rw [if_neg absent, if_neg room] at arranged'
        cases created
        refine ⟨⟨arranged', ⟨_, Dict.get?_set_self .., ?_⟩, fun a here => absurd here List.not_mem_nil,
          fun a here => absurd here List.not_mem_nil⟩, List.length_range' .., List.nodup_range' ..⟩
        exact RoutingRun.start_routed hash b name anySize unlimited

end BrokerWorld

end BrokerLite
