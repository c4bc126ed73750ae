/-
# Broker.Accounting -- where the messages of a broker are

`apply_retention` and `compact_topics` go through the topics and their partitions, and
report for each topic how many messages were removed, if any were.

In every run of the broker, the messages that came in are those that the topics hold,
those that were reported as removed, and those of deleted topics (`run_accounted`).
-/
import BrokerLite.Broker.BrokerRun
import BrokerLite.Server.Snapshot
import Mathlib.Algebra.BigOperators.Group.List.Basic

namespace BrokerLite

open Theory

set_option autoImplicit false

/-! ## Maintenance -/

namespace Topic

/-- A loop over the partitions that adds up what `op` removes from each. -/
def eachPartition (op : PartitionRef → Store → ℕ × Store) : List PartitionRef → ℕ → Store → ℕ × Store
  | [], total, s => (total, s)
  | p :: rest, total, s => eachPartition op rest (total + (op p s).1) (op p s).2

/-- Every partition reads the clock for itself. -/
def applyRetention (now : PartitionRef → Timestamp) (s : Store) (t : Topic) : ℕ × Store :=
  eachPartition (fun p s => s.applyRetention (now p) p) t.partitions 0 s

def compact (s : Store) (t : Topic) : ℕ × Store :=
  if !t.config.compactionEnabled then (0, s)
  else eachPartition (fun p s => s.compact p) t.partitions 0 s

end Topic

namespace Broker

/-- A loop over the topics that notes what `op` removes from each. -/
def eachTopic (op : Store → Topic → ℕ × Store) :
    List (String × Topic) → Dict String ℕ → Store → Dict String ℕ × Store
  | [], results, s => (results, s)
  | (name, topic) :: rest, results, s =>
      let done := op s topic
      eachTopic op rest (if 0 < done.1 then results.set name done.1 else results) done.2

def applyRetention (now : PartitionRef → Timestamp) (b : Broker) : Dict String ℕ × Broker :=
  let done := eachTopic (Topic.applyRetention now) b.topics.entries .empty b.toStore
  (done.1, { b with toStore := done.2 })

def compactTopics (b : Broker) : Dict String ℕ × Broker :=
  let done := eachTopic Topic.compact b.topics.entries .empty b.toStore
  (done.1, { b with toStore := done.2 })

end Broker

/-! ## What a removal removes -/

/-- The operation takes out of partition `p` as many messages as it returns. -/
structure Store.Removes (p : PartitionRef) (s : Store) (done : ℕ × Store) : Prop where
  trimmed : s.Trimmed done.2
  others : ∀ q, q ≠ p → done.2.logOf q = s.logOf q
  counted : done.2.size p + done.1 = s.size p

theorem Store.applyRetention_removes (now : Timestamp) (s : Store) (p : PartitionRef) :
    s.Removes p (s.applyRetention now p) := by
  refine ⟨s.applyRetention_trimmed now p, fun q other => ?_, ?_⟩
  · simp [Store.logOf, Store.applyRetention, modifyPartition_partitions, other]
  · simp only [Store.size, Store.logOf, Store.applyRetention, modifyPartition_partitions, if_true]
    unfold Partition.applyRetention
    split
    · rfl
    · have le := List.length_filter_le (fun m => decide (now - (s.partitions p).retentionMs / 1000 ≤
        (s.messages m).brokerTimestamp)) (s.partitions p).log
      dsimp only
      omega

theorem Store.compact_removes (s : Store) (p : PartitionRef) : s.Removes p (s.compact p) := by
  refine ⟨s.compact_trimmed p, fun q other => ?_, ?_⟩
  · simp [Store.logOf, Store.compact, modifyPartition_partitions, other]
  · have le := ((s.compact_trimmed p).log p).length_le
    simp only [Store.size, Store.logOf, Store.compact, modifyPartition_partitions, if_true] at le ⊢
    simp only [Partition.compact, List.length_map] at le ⊢
    omega

theorem Store.clear_removes (s : Store) (p : PartitionRef) : s.Removes p (s.size p, s.clear p) := by
  refine ⟨s.clear_trimmed p, fun q other => ?_, ?_⟩
  · simp [Store.logOf, Store.clear, modifyPartition_partitions, other]
  · simp [Store.size, Store.logOf, Store.clear, modifyPartition_partitions, Partition.clear]

/-- Only what happens to one partition matters. -/
theorem sum_of_one {ps : List PartitionRef} {p : PartitionRef} {f g : PartitionRef → ℕ} (distinct : ps.Nodup)
    (member : p ∈ ps) (others : ∀ q, q ≠ p → g q = f q) :
    (ps.map g).sum + f p = (ps.map f).sum + g p := by
  induction ps with
  | nil => cases member
  | cons q rest ih =>
      obtain ⟨absent, distinct⟩ := List.nodup_cons.mp distinct
      simp only [List.map_cons, List.sum_cons]
      rcases List.mem_cons.mp member with rfl | later
      · have rest_ : rest.map g = rest.map f :=
          List.map_congr_left fun q inside => others q fun same => absent (same ▸ inside)
        rw [rest_]
        omega
      · have other : q ≠ p := fun same => absent (same ▸ later)
        have here := others q other
        have kept := ih distinct later
        omega

/-- How many messages the partitions of a list hold. -/
def Store.held (s : Store) (ps : List PartitionRef) : ℕ := (ps.map s.size).sum

namespace Store

variable {s : Store} {ps : List PartitionRef} {p : PartitionRef} {done : ℕ × Store}

theorem Removes.held (removes : s.Removes p done) (distinct : ps.Nodup) (member : p ∈ ps) :
    done.2.held ps + done.1 = s.held ps := by
  have others : ∀ q, q ≠ p → done.2.size q = s.size q := fun q other => by
    rw [size, removes.others q other, size]
  have one : done.2.held ps + s.size p = s.held ps + done.2.size p := sum_of_one distinct member others
  have counted := removes.counted
  omega

/-- A partition of no topic. -/
theorem Removes.held_of_absent (removes : s.Removes p done) (absent : p ∉ ps) :
    done.2.held ps = s.held ps := by
  have same : ps.map done.2.size = ps.map s.size := List.map_congr_left fun q inside => by
    rw [size, removes.others q fun same => absent (same ▸ inside), size]
  rw [Store.held, Store.held, same]

end Store

/-! ## The loops -/

section Loops

variable {op : PartitionRef → Store → ℕ × Store} (removes : ∀ p (s : Store), s.Removes p (op p s))

include removes

theorem Topic.eachPartition_held {all : List PartitionRef} (distinct : all.Nodup) {ps : List PartitionRef}
    (members : ∀ p ∈ ps, p ∈ all) (total : ℕ) (s : Store) :
    (eachPartition op ps total s).2.held all + (eachPartition op ps total s).1 = s.held all + total := by
  induction ps generalizing total s with
  | nil => rfl
  | cons p rest ih =>
      rw [eachPartition, ih fun q later => members q (List.mem_cons_of_mem _ later)]
      have here := (removes p s).held distinct (members p List.mem_cons_self)
      omega

end Loops

/-- What a loop over the topics removes from a topic comes from that topic's partitions. -/
theorem Broker.eachTopic_held {op : Store → Topic → ℕ × Store} {all : List PartitionRef}
    (counts : ∀ s t, (∀ p ∈ t.partitions, p ∈ all) → (op s t).2.held all + (op s t).1 = s.held all)
    {entries : List (String × Topic)} (members : ∀ e ∈ entries, ∀ p ∈ e.2.partitions, p ∈ all)
    (names : (entries.map Prod.fst).Nodup) {results : Dict String ℕ}
    (new : ∀ e ∈ entries, e.1 ∉ results.keys) (s : Store) :
    (eachTopic op entries results s).2.held all + (eachTopic op entries results s).1.values.sum =
      s.held all + results.values.sum := by
  induction entries generalizing results s with
  | nil => rfl
  | cons e rest ih =>
      obtain ⟨name, topic⟩ := e
      obtain ⟨absent, names⟩ := List.nodup_cons.mp names
      have here := counts s topic (members _ List.mem_cons_self)
      have first := new _ List.mem_cons_self
      have later : ∀ e ∈ rest, e.1 ≠ name := fun e member same =>
        absent (List.mem_map.mpr ⟨e, member, same⟩)
      have noted : (if 0 < (op s topic).1 then results.set name (op s topic).1 else results).values.sum =
          results.values.sum + (op s topic).1 := by
        split
        · simp [Dict.values, Dict.entries_set_of_absent first]
        · omega
      rw [eachTopic, ih (fun e member => members e (List.mem_cons_of_mem _ member)) names ?_, noted]
      · omega
      · intro e member
        split
        · rw [Dict.mem_keys_set]
          rintro (same | before)
          · exact later e member same
          · exact new e (List.mem_cons_of_mem _ member) before
        · exact new e (List.mem_cons_of_mem _ member)

namespace Broker

/-- The partitions of the topics. -/
def livePartitions (b : Broker) : List PartitionRef := b.topics.entries.flatMap fun e => e.2.partitions

/-- The messages that the topics hold. -/
def heldMessages (b : Broker) : ℕ := (b.topics.values.map fun t => t.totalMessages b.toStore).sum

theorem totalMessages_eq (s : Store) (t : Topic) : t.totalMessages s = s.held t.partitions := by
  have go : ∀ (ps : List PartitionRef) (start : ℕ),
      ps.foldl (fun total p => total + s.size p) start = start + s.held ps := by
    intro ps
    induction ps with
    | nil => intro start; rfl
    | cons p rest ih =>
        intro start
        rw [List.foldl_cons, ih, Store.held, Store.held, List.map_cons, List.sum_cons, Nat.add_assoc]
  rw [Topic.totalMessages, go, Nat.zero_add]

theorem heldMessages_eq (b : Broker) : b.heldMessages = b.toStore.held b.livePartitions := by
  unfold heldMessages livePartitions Dict.values
  induction b.topics.entries with
  | nil => rfl
  | cons e rest ih =>
      simp only [List.map_cons, List.sum_cons, List.flatMap_cons, Store.held, List.map_append,
        List.sum_append] at ih ⊢
      rw [totalMessages_eq, ih, Store.held]

/-! ## What a step adds -/

/-- The topics have got `fresh` partitions, and at most one message has come in, to `added`. -/
structure Grows (b b' : Broker) (fresh : List PartitionRef) (added : Option PartitionRef) : Prop where
  live : b'.livePartitions = b.livePartitions ++ fresh
  distinct : fresh.Nodup
  new : ∀ p ∈ fresh, b.nextPartition ≤ p ∧ p < b'.nextPartition
  next : b.nextPartition ≤ b'.nextPartition
  inside : ∀ p, added = some p → p ∈ b'.livePartitions
  size : ∀ p, b'.size p = (if p ∈ fresh then 0 else b.size p) + if added = some p then 1 else 0
  counted : b'.totalMessagesIn = b.totalMessagesIn + added.toList.length

variable {b b' b'' : Broker}

theorem Grows.held {fresh : List PartitionRef} {added : Option PartitionRef} (grows : b.Grows b' fresh added)
    (distinct : b'.livePartitions.Nodup) (apart : ∀ p ∈ b.livePartitions, p ∉ fresh) :
    b'.toStore.held b'.livePartitions = b.toStore.held b.livePartitions + added.toList.length := by
  let before : PartitionRef → ℕ := fun p => if p ∈ fresh then 0 else b.size p
  have start : (b'.livePartitions.map before).sum = b.toStore.held b.livePartitions := by
    have old : b.livePartitions.map before = b.livePartitions.map b.size :=
      List.map_congr_left fun p member => if_neg (apart p member)
    have empty : fresh.map before = fresh.map fun _ => 0 :=
      List.map_congr_left fun p member => if_pos member
    rw [grows.live, List.map_append, List.sum_append, old, empty]
    simp [Store.held]
  have sizes : b'.size = fun p => before p + if added = some p then 1 else 0 := funext grows.size
  rw [Store.held, sizes]
  cases added with
  | none => simpa using start
  | some q =>
      have one := sum_of_one (f := before) (g := fun p => before p + if some q = some p then 1 else 0)
        distinct (grows.inside q rfl) fun p other => by simp [Ne.symm other]
      simp only [if_true] at one
      simp only [Option.toList_some, List.length_singleton]
      omega

/-- Nothing that is counted has changed. -/
theorem Grows.still (live : b'.livePartitions = b.livePartitions) (next : b'.nextPartition = b.nextPartition)
    (logs : b'.logOf = b.logOf) (counted : b'.totalMessagesIn = b.totalMessagesIn) :
    Grows b b' [] none := by
  refine ⟨by simp [live], List.nodup_nil, nofun, Nat.le_of_eq next.symm, nofun, fun p => ?_, by simp [counted]⟩
  simp [Store.size, logs]

/-- Then nothing more changes, or a message comes in. -/
theorem Grows.then_ {fresh : List PartitionRef} (grows : Grows b b' fresh none) {added : Option PartitionRef}
    (live : b''.livePartitions = b'.livePartitions) (next : b''.nextPartition = b'.nextPartition)
    (inside : ∀ p, added = some p → p ∈ b'.livePartitions)
    (size : ∀ p, b''.size p = b'.size p + if added = some p then 1 else 0)
    (counted : b''.totalMessagesIn = b'.totalMessagesIn + added.toList.length) :
    Grows b b'' fresh added := by
  refine ⟨live.trans grows.live, grows.distinct, fun p member => ?_, next ▸ grows.next,
    fun p same => live ▸ inside p same, fun p => ?_, ?_⟩
  · rw [next]
    exact grows.new p member
  · rw [size p, grows.size p]
    simp
  · rw [counted, grows.counted]
    simp

/-- A topic whose partitions are as before is written back. -/
theorem livePartitions_set {d : Dict String Topic} {name : String} {t t' : Topic}
    (found : d.get? name = some t) (same : t'.partitions = t.partitions) :
    (d.set name t').entries.flatMap (fun e => e.2.partitions) = d.entries.flatMap fun e => e.2.partitions := by
  rw [List.flatMap_def, List.flatMap_def, Dict.map_entries_set _ found same]

theorem newTopic_grows (b : Broker) {name : String} (config : TopicConfig)
    (absent : b.topics.contains name = false) :
    Grows b { (b.newTopic name config).2 with
      topics := b.topics.set name (b.newTopic name config).1 } (b.newTopic name config).1.partitions none := by
  have inside : ∀ {p}, p ∈ (b.newTopic name config).1.partitions ↔
      b.nextPartition ≤ p ∧ p < b.nextPartition + config.numPartitions.toNat := by
    simp [Broker.newTopic]
  refine ⟨?_, List.nodup_range' .., fun p member => inside.mp member, Nat.le_add_right ..,
    fun p same => absurd same (Option.some_ne_none p).symm, fun p => ?_, rfl⟩
  · have absent : name ∉ b.topics.keys := fun here => by
      rw [Dict.contains_iff.mpr here] at absent
      cases absent
    simp [livePartitions, Dict.entries_set_of_absent absent]
  · show ((b.newTopic name config).2.partitions p).log.length = _
    by_cases here : p ∈ (b.newTopic name config).1.partitions
    · rw [if_pos here]
      simp [Broker.newTopic, inside.mp here]
    · have outside : ¬ (b.nextPartition ≤ p ∧ p < b.nextPartition + config.numPartitions.toNat) :=
        fun both => here (inside.mpr both)
      rw [if_neg here]
      simp only [Broker.newTopic, if_neg outside]
      rfl

theorem createTopic_grows (b : Broker) (name : String) (config : Option TopicConfig) :
    ∃ fresh, Grows b (b.createTopic name config).2 fresh none := by
  rcases b.createTopic_cases name config with ⟨raised, outcome⟩ | ⟨config', absent, outcome⟩ <;> rw [outcome]
  · exact ⟨[], .still rfl rfl rfl rfl⟩
  · exact ⟨_, newTopic_grows b config' absent⟩

theorem topicFor_grows (b : Broker) (name : String) : ∃ fresh, Grows b (b.topicFor name).2 fresh none := by
  rcases b.topicFor_cases name with ⟨t, -, outcome⟩ | ⟨raised, outcome⟩ | ⟨config, absent, outcome⟩ <;>
    rw [outcome]
  · exact ⟨[], .still rfl rfl rfl rfl⟩
  · exact ⟨[], .still rfl rfl rfl rfl⟩
  · exact ⟨_, newTopic_grows b config absent⟩

/-- **A publish brings in one message or none.** -/
theorem publish_grows (b : Broker) (enc : Encoding) (now : Timestamp) (m : MessageRef) :
    ∃ fresh added, Grows b (b.publish enc now m).2 fresh added := by
  obtain ⟨fresh, grows⟩ := b.topicFor_grows (b.messages m).topic
  rcases b.publish_cases enc now m with ⟨raised, b₁, made, outcome⟩ | ⟨t, b₁, t', made, -, partitions, outcome⟩ <;>
    rw [made] at grows
  · rw [outcome]
    exact ⟨fresh, none, grows⟩
  · have found := topicFor_listed made
    have live := livePartitions_set found partitions
    rcases outcome with ⟨raised, s, retouched, outcome⟩ | ⟨p, member, s, retouched, -, outcome⟩ <;> rw [outcome]
    · refine ⟨fresh, none, grows.then_ live rfl nofun (fun q => ?_) rfl⟩
      show (s.logOf q).length = _
      simp [retouched.logOf, Store.size]
    · refine ⟨fresh, some p, grows.then_ live rfl ?_ (fun q => ?_) rfl⟩
      · rintro q same
        cases same
        exact List.mem_flatMap.mpr ⟨(_, t), Dict.get?_eq_some_iff.mp found, member⟩
      · show ((s.appended now p m).logOf q).length = (b₁.logOf q).length + _
        rw [Store.appended_logOf, retouched.logOf]
        by_cases here : q = p
        · simp [here]
        · simp [here, Ne.symm here]

/-! ## Groups hold no messages -/

/-- Topics, logs and the count of messages are as before. -/
structure Quiet (b b' : Broker) : Prop where
  topics : b'.topics = b.topics
  next : b'.nextPartition = b.nextPartition
  logs : b'.logOf = b.logOf
  counted : b'.totalMessagesIn = b.totalMessagesIn

theorem Quiet.refl (b : Broker) : b.Quiet b := ⟨rfl, rfl, rfl, rfl⟩

theorem Quiet.trans (first : b.Quiet b') (second : b'.Quiet b'') : b.Quiet b'' :=
  ⟨second.topics.trans first.topics, second.next.trans first.next, second.logs.trans first.logs,
    second.counted.trans first.counted⟩

theorem Quiet.grows (quiet : b.Quiet b') : Grows b b' [] none :=
  .still (by rw [livePartitions, quiet.topics]; rfl) quiet.next quiet.logs quiet.counted

theorem Quiet.putGroup {G : GroupRef} {done : Objects × ConsumerGroup} (same : done.1.toStore = b.toStore) :
    b.Quiet (b.putGroup G done) :=
  ⟨rfl, rfl, congrArg Store.logOf same, rfl⟩

theorem Quiet.withObjects {o : Objects} (same : b.toStore.SameLogs o.toStore) : b.Quiet (b.withObjects o) :=
  ⟨rfl, rfl, same.logOf, rfl⟩

end Broker

namespace ConsumerGroup

variable (o : Objects) (g : ConsumerGroup)

theorem assignRangeLoop_toStore (partitionsPer remainder : ℕ) (partitions : List PartitionRef)
    (members : List ConsumerRef) (i idx : ℕ) :
    (assignRangeLoop partitionsPer remainder partitions members i idx o).toStore = o.toStore := by
  induction members generalizing i idx o with
  | nil => rfl
  | cons c rest ih => exact ih ..

theorem rebalance_toStore : (g.rebalance o).1.toStore = o.toStore := by
  unfold rebalance
  split
  · rfl
  · dsimp only
    split
    · exact revokeAll_toStore ..
    · cases g.strategy <;> simp only [distribute, assignRange, assignRoundRobin]
      · exact (assignRangeLoop_toStore ..).trans (revokeAll_toStore ..)
      · exact (assignEach_toStore ..).trans (revokeAll_toStore ..)
      · exact (assignRangeLoop_toStore ..).trans (revokeAll_toStore ..)

theorem leave_toStore (consumerId : String) : (g.leave o consumerId).2.1.toStore = o.toStore := by
  unfold leave
  split
  · rfl
  · exact rebalance_toStore ..

theorem popDead_toStore (dead : List String) : (popDead dead o g).1.toStore = o.toStore := by
  induction dead generalizing o g with
  | nil => rfl
  | cons id rest ih =>
      rw [popDead]
      split
      · exact ih ..
      · exact ih ..

theorem removeDeadMembers_toStore (now : String → Timestamp) :
    (g.removeDeadMembers now o).2.1.toStore = o.toStore := by
  simp only [removeDeadMembers]
  split
  · exact popDead_toStore ..
  · exact (rebalance_toStore ..).trans (popDead_toStore ..)

end ConsumerGroup

namespace Broker

variable {b b' : Broker}

theorem removeDeadFrom_quiet (now : String → String → Timestamp) (entries : List (String × GroupRef))
    (results : Dict String (List String)) (b : Broker) : b.Quiet (removeDeadFrom now entries results b).2 := by
  induction entries generalizing b results with
  | nil => exact .refl b
  | cons e rest ih => exact (Quiet.putGroup (ConsumerGroup.removeDeadMembers_toStore ..)).trans (ih ..)

theorem unsubscribeAll_quiet (name : String) (groups : List GroupRef) (b : Broker) :
    b.Quiet (unsubscribeAll name groups b) := by
  induction groups generalizing b with
  | nil => exact .refl b
  | cons G rest ih => exact (Quiet.putGroup (ConsumerGroup.rebalance_toStore ..)).trans (ih _)

theorem createConsumerGroup_quiet (b : Broker) (groupId : String) (strategy : AssignmentStrategy) :
    b.Quiet (b.createConsumerGroup groupId strategy).2 := by
  unfold Broker.createConsumerGroup
  split
  · exact .refl b
  · exact ⟨rfl, rfl, rfl, rfl⟩

theorem openSubscription_grows (b : Broker) (groupId topicName : String) :
    ∃ fresh, Grows b (b.openSubscription groupId topicName).2 fresh none := by
  obtain ⟨fresh, grows⟩ := b.topicFor_grows topicName
  rcases b.openSubscription_cases groupId topicName with ⟨raised, b₁, created, opened⟩ |
    ⟨t, b₁, G, b₂, created, made, opened⟩ <;> rw [created] at grows <;> rw [opened]
  · exact ⟨fresh, grows⟩
  · have quiet := b₁.createConsumerGroup_quiet groupId .range
    rw [made] at quiet
    have listed : b₂.topics.get? topicName = some t := quiet.topics ▸ topicFor_listed created
    have regrouped := quiet.trans (Quiet.putGroup (G := G) (ConsumerGroup.rebalance_toStore b₂.toObjects
      (b₂.subscribed G topicName t.partitions)))
    refine ⟨fresh, grows.then_ ?_ regrouped.next nofun (fun p => ?_) regrouped.counted⟩
    · let noted_ : Topic := { t with subscribers := t.subscribers.insert groupId }
      have partitions : noted_.partitions = t.partitions := rfl
      have noted := livePartitions_set listed partitions
      exact noted.trans (by rw [quiet.topics]; rfl)
    · exact congrArg List.length (congrFun regrouped.logs p)

theorem subscribe_grows (b : Broker) (groupId topicName : String) (c : ConsumerRef) :
    ∃ fresh, Grows b (b.subscribe groupId topicName c).2 fresh none := by
  obtain ⟨fresh, grows⟩ := b.openSubscription_grows groupId topicName
  unfold Broker.subscribe
  split
  · next opened =>
      rw [opened] at grows
      exact ⟨fresh, grows⟩
  · next G b₁ opened =>
      rw [opened] at grows
      have joins : b₁.Quiet (b₁.putGroup G ((b₁.groups G).join b₁.toObjects c)) :=
        .putGroup (ConsumerGroup.rebalance_toStore ..)
      refine ⟨fresh, grows.then_ ?_ joins.next nofun (fun p => ?_) joins.counted⟩
      · rw [livePartitions, joins.topics]
        rfl
      · exact congrArg List.length (congrFun joins.logs p)

/-- **A step of the broker, but for what takes messages out.** -/
theorem step_grows (enc : Encoding) (b : Broker) (op : BrokerOp)
    (keeps : ∀ name, op ≠ .deleteTopic name) (retains : ∀ now p, op ≠ .applyRetention now p)
    (compacts : ∀ p, op ≠ .compact p) (clears : ∀ p, op ≠ .clear p) :
    ∃ fresh added, Grows b (b.step enc op) fresh added := by
  cases op with
  | createTopic name config =>
      obtain ⟨fresh, grows⟩ := b.createTopic_grows name config
      exact ⟨fresh, none, grows⟩
  | deleteTopic name => exact absurd rfl (keeps name)
  | publish now m => exact b.publish_grows enc now m
  | createConsumerGroup groupId strategy =>
      exact ⟨[], none, (b.createConsumerGroup_quiet groupId strategy).grows⟩
  | deleteConsumerGroup groupId => exact ⟨[], none, .still rfl rfl rfl rfl⟩
  | subscribe groupId topicName c =>
      obtain ⟨fresh, grows⟩ := b.subscribe_grows groupId topicName c
      exact ⟨fresh, none, grows⟩
  | leave G consumerId =>
      have quiet : b.Quiet (b.leave G consumerId).2 := .putGroup (ConsumerGroup.leave_toStore ..)
      exact ⟨[], none, quiet.grows⟩
  | removeDeadConsumers now => exact ⟨[], none, (removeDeadFrom_quiet now _ _ b).grows⟩
  | poll c times maxMessages =>
      have quiet : b.Quiet (b.withObjects (b.toObjects.poll c times maxMessages)) :=
        .withObjects (Consumer.poll_sameLogs times b.toStore (b.consumers c) maxMessages)
      exact ⟨[], none, quiet.grows⟩
  | commit c now =>
      have quiet : b.Quiet (b.withObjects (b.toObjects.commit c now)) :=
        .withObjects (Consumer.commitPartitions_sameLogs ..)
      exact ⟨[], none, quiet.grows⟩
  | close c now =>
      have quiet : b.Quiet (b.withObjects (b.toObjects.close c now)) :=
        .withObjects (Consumer.commitPartitions_sameLogs ..)
      exact ⟨[], none, quiet.grows⟩
  | seek c topic partitionId offset => exact ⟨[], none, .still rfl rfl rfl rfl⟩
  | seekToBeginning c => exact ⟨[], none, .still rfl rfl rfl rfl⟩
  | seekToEnd c => exact ⟨[], none, .still rfl rfl rfl rfl⟩
  | applyRetention now p => exact absurd rfl (retains now p)
  | compact p => exact absurd rfl (compacts p)
  | clear p => exact absurd rfl (clears p)
  | edit m message => exact ⟨[], none, .still rfl rfl rfl rfl⟩

end Broker

/-! ## Runs with maintenance -/

/-- What a broker is asked to do, maintenance of all its topics included. -/
inductive MaintenanceOp where
  | broker (op : BrokerOp)
  | applyRetention (now : PartitionRef → Timestamp)
  | compactTopics

/-- A broker, how many messages its maintenance has reported as removed, and how many went
with a deleted topic or by a call to a partition of a topic. -/
structure MaintenanceRun where
  broker : Broker
  reported : ℕ := 0
  discarded : ℕ := 0

namespace MaintenanceRun

/-- How many messages of the topics an operation takes out without a report. -/
def discards (b : Broker) : BrokerOp → ℕ
  | .deleteTopic name => ((b.topics.get? name).elim 0 fun t => t.totalMessages b.toStore)
  | .applyRetention now p => if p ∈ b.livePartitions then (b.toStore.applyRetention now p).1 else 0
  | .compact p => if p ∈ b.livePartitions then (b.toStore.compact p).1 else 0
  | .clear p => if p ∈ b.livePartitions then b.size p else 0
  | _ => 0

def step (enc : Encoding) (r : MaintenanceRun) : MaintenanceOp → MaintenanceRun
  | .broker op => { r with broker := r.broker.step enc op, discarded := r.discarded + discards r.broker op }
  | .applyRetention now =>
      let done := r.broker.applyRetention now
      { r with broker := done.2, reported := r.reported + done.1.values.sum }
  | .compactTopics =>
      let done := r.broker.compactTopics
      { r with broker := done.2, reported := r.reported + done.1.values.sum }

/-- The partitions of the topics are different and created, and every message is somewhere. -/
structure Accounted (r : MaintenanceRun) : Prop where
  distinct : r.broker.livePartitions.Nodup
  created : ∀ p ∈ r.broker.livePartitions, p < r.broker.nextPartition
  balance : r.broker.totalMessagesIn = r.broker.heldMessages + r.reported + r.discarded

variable {r : MaintenanceRun}

theorem start_accounted {b : Broker} (start : b.Start) : Accounted { broker := b } := by
  have none_ : b.livePartitions = [] := by
    rw [Broker.livePartitions, start.topics]
    rfl
  refine ⟨none_ ▸ List.nodup_nil, fun p member => ?_, ?_⟩
  · rw [none_] at member
    cases member
  · rw [start.totalMessagesIn, Broker.heldMessages_eq, none_]
    rfl

theorem Accounted.of {b : Broker} {reported discarded : ℕ} (distinct : b.livePartitions.Nodup)
    (created : ∀ p ∈ b.livePartitions, p < b.nextPartition)
    (balance : b.totalMessagesIn = b.toStore.held b.livePartitions + reported + discarded) :
    Accounted { broker := b, reported, discarded } :=
  ⟨distinct, created, b.heldMessages_eq.symm ▸ balance⟩

theorem Accounted.sum (accounted : r.Accounted) :
    r.broker.totalMessagesIn = r.broker.toStore.held r.broker.livePartitions + r.reported + r.discarded :=
  r.broker.heldMessages_eq ▸ accounted.balance

theorem Accounted.grows (accounted : r.Accounted) {b' : Broker} {fresh : List PartitionRef}
    {added : Option PartitionRef} (grows : r.broker.Grows b' fresh added) :
    Accounted { r with broker := b' } := by
  have apart : ∀ p ∈ r.broker.livePartitions, p ∉ fresh := fun p old new =>
    absurd (accounted.created p old) (Nat.not_lt.mpr (grows.new p new).1)
  have distinct : b'.livePartitions.Nodup := by
    rw [grows.live]
    exact List.nodup_append'.mpr ⟨accounted.distinct, grows.distinct, fun p old new => apart p old new⟩
  refine .of distinct (fun p member => ?_) ?_
  · rw [grows.live] at member
    rcases List.mem_append.mp member with old | new
    · exact Nat.lt_of_lt_of_le (accounted.created p old) grows.next
    · exact (grows.new p new).2
  · have counted := grows.counted
    have held := grows.held distinct apart
    have balance := accounted.sum
    omega

theorem Accounted.deleteTopic (accounted : r.Accounted) (enc : Encoding) (name : String) :
    (r.step enc (.broker (.deleteTopic name))).Accounted := by
  cases found : r.broker.topics.get? name with
  | none =>
      have same : r.step enc (.broker (.deleteTopic name)) = r := by
        simp [MaintenanceRun.step, discards, Broker.step, Broker.deleteTopic, found]
      rw [same]
      exact accounted
  | some t =>
      let erased : Broker := { r.broker with topics := r.broker.topics.erase name }
      let left := Broker.unsubscribeAll name r.broker.consumerGroups.values erased
      have stepped : r.step enc (.broker (.deleteTopic name)) =
          { r with broker := left, discarded := r.discarded + t.totalMessages r.broker.toStore } := by
        simp [MaintenanceRun.step, discards, Broker.step, Broker.deleteTopic, found, left, erased]
      have quiet : erased.Quiet left := Broker.unsubscribeAll_quiet name _ erased
      have split : r.broker.livePartitions.Perm (t.partitions ++ erased.livePartitions) :=
        (Dict.perm_erase found).flatMap_right _
      have live : left.livePartitions = erased.livePartitions := by
        rw [Broker.livePartitions, quiet.topics]
        rfl
      have sizes : left.size = r.broker.size := funext fun p => congrArg List.length (congrFun quiet.logs p)
      have held : r.broker.toStore.held r.broker.livePartitions =
          t.totalMessages r.broker.toStore + left.toStore.held left.livePartitions := by
        rw [Store.held, (split.map _).sum_eq, List.map_append, List.sum_append, Broker.totalMessages_eq,
          live, Store.held, Store.held, sizes]
      rw [stepped]
      refine .of ?_ (fun p member => ?_) ?_
      · rw [live]
        exact (List.nodup_append.mp (split.nodup_iff.mp accounted.distinct)).2.1
      · rw [live] at member
        rw [quiet.next]
        exact accounted.created p (split.mem_iff.mpr (List.mem_append_right _ member))
      · have counted : left.totalMessagesIn = r.broker.totalMessagesIn := quiet.counted
        have balance := accounted.sum
        omega

/-- Only logs change, and all that the topics lose is accounted for. -/
theorem Accounted.removed (accounted : r.Accounted) {s : Store} {reported discarded : ℕ}
    (lost : s.held r.broker.livePartitions + reported + discarded =
      r.broker.toStore.held r.broker.livePartitions) :
    Accounted { r with
      broker := { r.broker with toStore := s }
      reported := r.reported + reported
      discarded := r.discarded + discarded } := by
  have balance : _ = r.broker.toStore.held r.broker.livePartitions + _ + _ := accounted.sum
  refine .of accounted.distinct accounted.created ?_
  show r.broker.totalMessagesIn = s.held r.broker.livePartitions + _ + _
  omega

/-- One partition is told to drop messages. -/
theorem Accounted.discarded (accounted : r.Accounted) {p : PartitionRef} {done : ℕ × Store}
    (removes : r.broker.toStore.Removes p done) :
    Accounted { r with
      broker := { r.broker with toStore := done.2 }
      discarded := r.discarded + if p ∈ r.broker.livePartitions then done.1 else 0 } := by
  have lost : done.2.held r.broker.livePartitions + 0 +
      (if p ∈ r.broker.livePartitions then done.1 else 0) = r.broker.toStore.held r.broker.livePartitions := by
    split
    · next member => exact removes.held accounted.distinct member
    · next absent => exact removes.held_of_absent absent
  exact accounted.removed lost

/-- A loop over all topics reports what it removes. -/
theorem Accounted.maintained (accounted : r.Accounted) {op : Store → Topic → ℕ × Store}
    (counts : ∀ s t, (∀ p ∈ t.partitions, p ∈ r.broker.livePartitions) →
      (op s t).2.held r.broker.livePartitions + (op s t).1 = s.held r.broker.livePartitions) :
    Accounted { r with
      broker := { r.broker with
        toStore := (Broker.eachTopic op r.broker.topics.entries .empty r.broker.toStore).2 }
      reported := r.reported +
        (Broker.eachTopic op r.broker.topics.entries .empty r.broker.toStore).1.values.sum } := by
  have members : ∀ e ∈ r.broker.topics.entries, ∀ p ∈ e.2.partitions, p ∈ r.broker.livePartitions :=
    fun e listed p inside => List.mem_flatMap.mpr ⟨e, listed, inside⟩
  have new : ∀ e ∈ r.broker.topics.entries, e.1 ∉ (Dict.empty : Dict String ℕ).keys := nofun
  have lost : (Broker.eachTopic op r.broker.topics.entries .empty r.broker.toStore).2.held
      r.broker.livePartitions + (Broker.eachTopic op r.broker.topics.entries .empty
        r.broker.toStore).1.values.sum + 0 = r.broker.toStore.held r.broker.livePartitions :=
    Broker.eachTopic_held counts members r.broker.topics.nodup new r.broker.toStore
  exact accounted.removed lost

theorem Accounted.step (accounted : r.Accounted) (enc : Encoding) (op : MaintenanceOp) :
    (r.step enc op).Accounted := by
  cases op with
  | broker op =>
      by_cases deletes : ∃ name, op = .deleteTopic name
      · obtain ⟨name, rfl⟩ := deletes
        exact accounted.deleteTopic enc name
      by_cases retains : ∃ now p, op = .applyRetention now p
      · obtain ⟨now, p, rfl⟩ := retains
        exact accounted.discarded (r.broker.toStore.applyRetention_removes now p)
      by_cases compacts : ∃ p, op = .compact p
      · obtain ⟨p, rfl⟩ := compacts
        exact accounted.discarded (r.broker.toStore.compact_removes p)
      by_cases clears : ∃ p, op = .clear p
      · obtain ⟨p, rfl⟩ := clears
        exact accounted.discarded (r.broker.toStore.clear_removes p)
      push Not at deletes retains compacts clears
      obtain ⟨fresh, added, grows⟩ := r.broker.step_grows enc op deletes retains compacts clears
      have quiet : discards r.broker op = 0 := by
        cases op <;> first | rfl | simp at deletes retains compacts clears
      have same : r.step enc (.broker op) = { r with broker := r.broker.step enc op } := by
        rw [MaintenanceRun.step, quiet]
        rfl
      rw [same]
      exact accounted.grows grows
  | applyRetention now =>
      refine accounted.maintained fun s t inside => ?_
      exact Topic.eachPartition_held (fun p s => s.applyRetention_removes (now p) p) accounted.distinct
        inside 0 s
  | compactTopics =>
      refine accounted.maintained fun s t inside => ?_
      unfold Topic.compact
      split
      · rfl
      · exact Topic.eachPartition_held (fun p s => s.compact_removes p) accounted.distinct inside 0 s

/-- **Every message that came in is held by a topic, was reported as removed, or was discarded
on request, in every run.** -/
theorem run_accounted (enc : Encoding) {b : Broker} (start : b.Start) (ops : List MaintenanceOp) :
    (run (step enc) { broker := b } ops).Accounted :=
  run_preserves (fun _ op accounted => accounted.step enc op) (start_accounted start) ops

/-- Two of three messages have one key; the topic is compacted, and later deleted. -/
def compactedThenDeleted : List MaintenanceOp :=
  [.broker (.createTopic "t" (some { numPartitions := 2, compactionEnabled := true })),
    .broker (.publish 1 1), .broker (.publish 2 2), .broker (.publish 3 0), .compactTopics,
    .applyRetention fun _ => 9, .broker (.deleteTopic "t")]

theorem compactedThenDeleted_accounted :
    let r := run (step PublishRun.digestOfK) { broker := PublishRun.publishStart.broker }
      compactedThenDeleted
    r.Accounted ∧ (r.broker.totalMessagesIn = 3 ∧ r.broker.heldMessages = 0 ∧ r.reported = 1 ∧
      r.discarded = 2) :=
  ⟨run_accounted PublishRun.digestOfK ⟨rfl, rfl, fun _ => rfl, fun _ => rfl, rfl⟩ compactedThenDeleted,
    by decide +kernel⟩

end MaintenanceRun

end BrokerLite
