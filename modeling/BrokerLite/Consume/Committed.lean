/-
# Consume.Committed -- when a group's committed offset never goes back

A commit writes the committing consumer's position.  So the committed offset
grows as long as whoever holds a partition is at or past it
(`GroupRun.Level.ahead`).  Polling and committing keep that; a rebalance keeps
it too when it opens a position, which starts at the committed offset.  Two
things break it, and `GroupRun.Safe` excludes them:

* a rebalance hands a partition to a consumer that still keeps an older position
  from before another member committed further (`assign` never refreshes a kept
  position);
* a consumer commits a partition that another consumer object holds as well.
-/
import BrokerLite.Consume.GroupRun

namespace BrokerLite

open Theory

set_option autoImplicit false

namespace Objects

/-- Every consumer either is a member and opened positions for all it holds
now, or keeps its positions and has gained nothing. -/
structure Opened (g : ConsumerGroup) (o o' : Objects) : Prop where
  store : o'.toStore = o.toStore
  consumers : ∀ c,
    (c ∈ g.members.values ∧ (o'.consumers c).offsets = Consumer.openPositions o.partitions g.groupId
      (o'.consumers c).assignedPartitions (o.consumers c).offsets) ∨
    ((o'.consumers c).offsets = (o.consumers c).offsets ∧
      ∀ p ∈ (o'.consumers c).assignedPartitions, p ∈ (o.consumers c).assignedPartitions)

theorem Opened.after {g : ConsumerGroup} {o o₁ o₂ : Objects} (first : o.Shrunk o₁)
    (second : o₁.Opened g o₂) : o.Opened g o₂ := by
  refine ⟨second.store.trans first.store, fun c => ?_⟩
  have partitions : o₁.partitions = o.partitions := congrArg Store.partitions first.store
  rcases second.consumers c with ⟨member, opened⟩ | ⟨offsets, held⟩
  · refine .inl ⟨member, ?_⟩
    rw [opened, first.offsets, partitions]
  · exact .inr ⟨offsets.trans (first.offsets c), fun p member => first.held c p (held p member)⟩

end Objects

namespace ConsumerGroup

variable {o : Objects} {g : ConsumerGroup}

/-- The members' configurations carry the group's id. -/
def Grouped (o : Objects) (g : ConsumerGroup) : Prop :=
  ∀ c ∈ g.members.values, (o.consumers c).config.groupId = g.groupId

theorem rebalance_opened (keyed : g.Keyed o) (grouped : g.Grouped o) :
    o.Opened g (rebalance o g).1 ∧ (rebalance o g).2.Grouped (rebalance o g).1 := by
  obtain ⟨groupId, -, members, -⟩ := rebalance_group o g
  rcases Nat.eq_zero_or_pos g.members.length with empty | nonempty
  · rw [rebalance_of_empty o empty]
    exact ⟨⟨rfl, fun c => .inr ⟨rfl, fun _ member => member⟩⟩, grouped⟩
  · obtain ⟨store, held, -, consumers⟩ := rebalance_spec keyed nonempty
    refine ⟨⟨store, fun c => ?_⟩, fun c member => ?_⟩
    · rw [consumers]
      split
      · next member =>
          refine .inl ⟨member, ?_⟩
          simp only [Consumer.assign, grouped c member]
      · exact .inr ⟨rfl, fun _ member => member⟩
    · rw [members] at member
      rw [groupId, consumers, if_pos member]
      exact grouped c member

end ConsumerGroup

namespace GroupRun

/-- What the group has committed in `p`. -/
def committed (r : GroupRun) (p : PartitionRef) : ℤ :=
  (r.objects.partitions p).getCommittedOffset r.group.groupId

def keyOf (r : GroupRun) (p : PartitionRef) : String × ℤ := (r.objects.partitions p).key

def position (r : GroupRun) (c : ConsumerRef) (p : PartitionRef) : ℤ :=
  (r.objects.consumers c).position (r.keyOf p)

/-- No other consumer object holds a partition of `c`. -/
def Sole (r : GroupRun) (c : ConsumerRef) : Prop := ∀ p ∈ r.held c, ∀ d, p ∈ r.held d → d = c

/-- A member that holds a partition in `after` keeps no position for it in `r`
or one at or past the committed offset, and holds no other partition under its
key. -/
def HandedOver (r after : GroupRun) : Prop :=
  ∀ c ∈ after.group.members.values, ∀ p ∈ after.held c,
    (∀ v ∈ (r.objects.consumers c).offsets.get? (r.keyOf p), r.committed p ≤ v) ∧
    ∀ q ∈ after.held c, r.keyOf q = r.keyOf p → q = p

instance (r after : GroupRun) : Decidable (r.HandedOver after) :=
  inferInstanceAs (Decidable (∀ c ∈ after.group.members.values, ∀ p ∈ after.held c,
    (∀ v ∈ (r.objects.consumers c).offsets.get? (r.keyOf p), r.committed p ≤ v) ∧
    ∀ q ∈ after.held c, r.keyOf q = r.keyOf p → q = p))

/-- Appended objects are in no log, rebalances hand over no stale position, and
only a consumer that holds its partitions alone commits. -/
def Safe (r : GroupRun) : GroupOp → Prop
  | .log op => op.Fresh r.objects.toStore
  | .poll c times _ =>
      let consumer := r.objects.consumers c
      consumer.config.autoCommit ∧
        consumer.config.autoCommitInterval ≤ times.checked - consumer.lastCommit → r.Sole c
  | .commit c _ => r.Sole c
  | .close c _ => r.Sole c
  | op => r.HandedOver (r.step op)

structure Level (r : GroupRun) : Prop where
  ordered : r.objects.Ordered
  keyed : r.group.Keyed r.objects
  grouped : r.group.Grouped r.objects
  ahead : ∀ c, ∀ p ∈ r.held c, r.committed p ≤ r.position c p

variable {r : GroupRun}

/-! ## A rebalance -/

/-- A safe hand-over keeps the invariant, and no committed offset changes. -/
theorem Level.opened (level : r.Level) {after : GroupRun}
    (opened : r.objects.Opened after.group after.objects)
    (groupId : after.group.groupId = r.group.groupId) (keyed : after.group.Keyed after.objects)
    (grouped : after.group.Grouped after.objects) (safe : r.HandedOver after) :
    after.Level ∧ ∀ p, r.committed p ≤ after.committed p := by
  have partitions : after.objects.partitions = r.objects.partitions :=
    congrArg Store.partitions opened.store
  have same : ∀ p, after.committed p = r.committed p := by
    intro p
    rw [committed, committed, partitions, groupId]
  refine ⟨⟨opened.store ▸ level.ordered, keyed, grouped, ?_⟩, fun p => le_of_eq (same p).symm⟩
  intro c p assigned
  have key : after.keyOf p = r.keyOf p := by rw [keyOf, keyOf, partitions]
  rw [same, position, key]
  rcases opened.consumers c with ⟨member, offsets⟩ | ⟨offsets, held⟩
  · obtain ⟨kept, alone⟩ := safe c member p assigned
    obtain ⟨v, found⟩ := Consumer.openPositions_isSome (r.objects.consumers c).offsets assigned
    have opens : (after.objects.consumers c).position (r.keyOf p) = v := by
      rw [Consumer.position, offsets]
      exact Dict.getD_of_get? found 0
    rw [opens]
    -- the position was kept, or it opened at the committed offset
    rcases Consumer.openPositions_cases _ found with old | ⟨-, q, member, shared, rfl⟩
    · exact kept v old
    · rw [alone q member shared, groupId]
      exact le_refl _
  · rw [Consumer.position, offsets]
    exact level.ahead c p (held p assigned)

theorem Level.rebalanced (level : r.Level) {o : Objects} {g : ConsumerGroup}
    (shrunk : r.objects.Shrunk o) (groupId : g.groupId = r.group.groupId) (keyed : g.Keyed o)
    (grouped : g.Grouped o) (safe : r.HandedOver (of (g.rebalance o))) :
    (of (g.rebalance o)).Level ∧ ∀ p, r.committed p ≤ (of (g.rebalance o)).committed p := by
  obtain ⟨opened, grouped'⟩ := ConsumerGroup.rebalance_opened keyed grouped
  obtain ⟨sameId, -, members, -⟩ := ConsumerGroup.rebalance_group o g
  have opened : r.objects.Opened (g.rebalance o).2 (g.rebalance o).1 := by
    refine ⟨(opened.after shrunk).store, ?_⟩
    rw [sameId, members]
    exact (opened.after shrunk).consumers
  exact level.opened opened (sameId.trans groupId)
    (ConsumerGroup.rebalance_shared keyed).keyed grouped' safe

/-! ## A poll, a commit -/

/-- A consumer that moves its positions forward moves no position back. -/
theorem position_le_update {c : ConsumerRef} {consumer : Consumer} {t : Store}
    (logs : r.objects.SameLogs t)
    (raised : ∀ key, (r.objects.consumers c).position key ≤ consumer.position key) (d : ConsumerRef)
    (p : PartitionRef) : r.position d p ≤
      position { r with objects := ⟨t, Function.update r.objects.consumers c consumer⟩ } d p := by
  have key : keyOf { r with objects := ⟨t, Function.update r.objects.consumers c consumer⟩ } p =
      r.keyOf p := logs.key p
  rw [position, position, key]
  by_cases here : d = c
  · subst here
    simpa using raised (r.keyOf p)
  · simp [here]

/-- One consumer moves its positions forward, and perhaps commits them. -/
theorem Level.moved (level : r.Level) {c : ConsumerRef} {consumer : Consumer} {t : Store}
    (id : consumer.consumerId = (r.objects.consumers c).consumerId)
    (config : consumer.config = (r.objects.consumers c).config)
    (assigned : consumer.assignedPartitions = r.held c)
    (raised : ∀ key, (r.objects.consumers c).position key ≤ consumer.position key)
    (store : t = r.objects.toStore ∨ (r.Sole c ∧ t = Consumer.commitPartitions
      (r.objects.consumers c).config.groupId consumer.offsets (r.held c) r.objects.toStore)) :
    let after : GroupRun :=
      { r with objects := ⟨t, Function.update r.objects.consumers c consumer⟩ }
    after.Level ∧ ∀ p, r.committed p ≤ after.committed p := by
  intro after
  have logs : r.objects.toStore.SameLogs t := by
    rcases store with rfl | ⟨-, rfl⟩
    · exact .refl _
    · exact Consumer.commitPartitions_sameLogs ..
  have same : r.objects.SameAssignment after.objects :=
    Objects.sameAssignment_update rfl id assigned
  have forward : ∀ d p, r.position d p ≤ after.position d p := position_le_update logs raised
  have rises : ∀ p, r.committed p ≤ after.committed p ∧
      ∀ d, p ∈ r.held d → after.committed p ≤ after.position d p := by
    intro p
    rcases store with rfl | ⟨sole, rfl⟩
    · exact ⟨le_refl _, fun d member => le_trans (level.ahead d p member) (forward d p)⟩
    · have key : after.keyOf p = r.keyOf p := logs.key p
      have written : after.committed p =
          if p ∈ r.held c ∧ r.group.groupId = (r.objects.consumers c).config.groupId then
            consumer.position (r.keyOf p)
          else r.committed p := Consumer.commitPartitions_getCommittedOffset ..
      rw [written]
      split
      · next mine =>
          refine ⟨le_trans (level.ahead c p mine.1) (raised _), fun d member => ?_⟩
          rw [sole p mine.1 d member, position, key]
          simp [after]
      · exact ⟨le_refl _, fun d member => le_trans (level.ahead d p member) (forward d p)⟩
  refine ⟨⟨level.ordered.congr logs, level.keyed.congr same.idOf, fun d member => ?_,
    fun d p member => ?_⟩, fun p => (rises p).1⟩
  · rw [← level.grouped d member]
    by_cases here : d = c
    · subst here
      simp [after, config]
    · simp [after, here]
  · have member : p ∈ (after.objects.consumers d).assignedPartitions := member
    rw [same.assigned] at member
    exact (rises p).2 d member

theorem Level.log (level : r.Level) {op : LogOp} (fresh : op.Fresh r.objects.toStore) :
    (r.step (.log op)).Level ∧ ∀ p, r.committed p ≤ (r.step (.log op)).committed p := by
  have same : ∀ p, (r.step (.log op)).committed p = r.committed p := by
    intro p
    show ((r.objects.toStore.applyOp op).partitions p).committedOffsets.getD _ 0 = _
    rw [Store.applyOp_committed]
    rfl
  refine ⟨⟨level.ordered.applyOp fresh, level.keyed, level.grouped, fun c p member => ?_⟩,
    fun p => le_of_eq (same p).symm⟩
  rw [same, position, keyOf]
  show _ ≤ (r.objects.consumers c).position ((r.objects.toStore.applyOp op).partitions p).key
  rw [Store.applyOp_key]
  exact level.ahead c p member

theorem Level.poll (level : r.Level) {c : ConsumerRef} {times : PollTimes} {maxMessages : Option ℤ}
    (safe : r.Safe (.poll c times maxMessages)) :
    (r.step (.poll c times maxMessages)).Level ∧
      ∀ p, r.committed p ≤ (r.step (.poll c times maxMessages)).committed p := by
  obtain ⟨-, offsets, assigned, config, id, store⟩ :=
    Consumer.poll_cases times r.objects.toStore (r.objects.consumers c) maxMessages
  refine level.moved id config assigned (fun key => ?_) ?_
  · rw [Consumer.position, Consumer.position, offsets]
    exact Consumer.readPartitions_mono level.ordered
      (le_trans zero_le_one (Consumer.one_le_perPartition ..)) _ _ key
  · refine store.imp_right fun ⟨due, written⟩ => ⟨safe due, ?_⟩
    rw [offsets]
    exact written

/-! ## The invariant -/

theorem Level.join (level : r.Level) {c : ConsumerRef} (safe : r.Safe (.join c)) :
    (r.step (.join c)).Level ∧ ∀ p, r.committed p ≤ (r.step (.join c)).committed p := by
  refine level.rebalanced (r.objects.shrunk_modify c rfl rfl fun _ member => member) rfl
    (level.keyed.joined c) (fun d member => ?_) safe
  · rw [Objects.modifyConsumer_consumers]
    split
    · rfl
    · next other =>
        rcases Dict.mem_values_set member with new | old
        · exact absurd new other
        · exact level.grouped d old

theorem Level.leave (level : r.Level) {consumerId : String} (safe : r.Safe (.leave consumerId)) :
    (r.step (.leave consumerId)).Level ∧
      ∀ p, r.committed p ≤ (r.step (.leave consumerId)).committed p := by
  have safe : r.HandedOver (r.step (.leave consumerId)) := safe
  rcases ConsumerGroup.leave_cases r.objects r.group consumerId with left | ⟨c, -, left⟩
  · rw [GroupRun.step, left]
    exact ⟨level, fun _ => le_refl _⟩
  · rw [GroupRun.step, left] at safe ⊢
    refine level.rebalanced (r.objects.shrunk_revoke c) rfl
      ((level.keyed.erased consumerId).congr (r.objects.shrunk_revoke c).idOf) (fun d member => ?_) safe
    have grouped := level.grouped d (Dict.mem_values_erase member)
    rw [Objects.revoke, Objects.modifyConsumer_consumers]
    split
    · next same => exact same ▸ grouped
    · exact grouped

theorem Level.removeDeadMembers (level : r.Level) {now : String → Timestamp}
    (safe : r.Safe (.removeDeadMembers now)) :
    (r.step (.removeDeadMembers now)).Level ∧
      ∀ p, r.committed p ≤ (r.step (.removeDeadMembers now)).committed p := by
  have safe : r.HandedOver (r.step (.removeDeadMembers now)) := safe
  rcases ConsumerGroup.removeDeadMembers_cases now r.objects r.group with removed | removed
  · rw [GroupRun.step, removed]
    exact ⟨level, fun _ => le_refl _⟩
  · rw [GroupRun.step, removed] at safe ⊢
    obtain ⟨shrunk, groupId, -, config, members, -⟩ := ConsumerGroup.popDead_spec
      (r.group.deadMembers now r.objects) r.objects r.group
    refine level.rebalanced shrunk groupId (level.keyed.popDead _) (fun c member => ?_) safe
    rw [config, groupId]
    exact level.grouped c (members c member)

theorem Level.step (level : r.Level) {op : GroupOp} (safe : r.Safe op) :
    (r.step op).Level ∧ ∀ p, r.committed p ≤ (r.step op).committed p := by
  cases op with
  | join c => exact level.join safe
  | leave consumerId => exact level.leave safe
  | subscribe topicName partitions =>
      exact level.rebalanced (.refl _) rfl level.keyed level.grouped safe
  | unsubscribe topicName => exact level.rebalanced (.refl _) rfl level.keyed level.grouped safe
  | removeDeadMembers now => exact level.removeDeadMembers safe
  | poll c times maxMessages => exact level.poll safe
  | commit c now => exact level.moved rfl rfl rfl (fun _ => le_refl _) (.inr ⟨safe, rfl⟩)
  | close c now => exact level.moved rfl rfl rfl (fun _ => le_refl _) (.inr ⟨safe, rfl⟩)
  | log op => exact level.log safe

/-! ## Over whole runs -/

/-- New partitions, a group without members, and no consumer holding anything. -/
structure Start (r : GroupRun) : Prop where
  store : r.objects.New
  members : r.group.members = .empty
  held : ∀ c, r.held c = []

theorem Start.level (start : r.Start) : r.Level where
  ordered := start.store.ordered
  keyed := (shared_of_new start.members).keyed
  grouped c member := by
    rw [start.members] at member
    cases member
  ahead c p member := by
    rw [start.held] at member
    cases member

theorem step_groupId (r : GroupRun) (op : GroupOp) : (r.step op).group.groupId = r.group.groupId := by
  cases op with
  | join c => exact (ConsumerGroup.rebalance_group ..).1
  | leave consumerId =>
      rcases ConsumerGroup.leave_cases r.objects r.group consumerId with left | ⟨c, -, left⟩
      · rw [GroupRun.step, left]; rfl
      · rw [GroupRun.step, left]; exact (ConsumerGroup.rebalance_group ..).1
  | subscribe topicName partitions => exact (ConsumerGroup.rebalance_group ..).1
  | unsubscribe topicName => exact (ConsumerGroup.rebalance_group ..).1
  | removeDeadMembers now =>
      rcases ConsumerGroup.removeDeadMembers_cases now r.objects r.group with removed | removed
      · rw [GroupRun.step, removed]; rfl
      · rw [GroupRun.step, removed]
        exact (ConsumerGroup.rebalance_group ..).1.trans (ConsumerGroup.popDead_spec ..).2.1
  | _ => rfl

/-- **Committed offsets never go back in a safe run.** -/
theorem committed_mono (start : r.Start) {ops : List GroupOp} (safe : Guarded step Safe r ops) :
    ∀ before after, ops = before ++ after → ∀ p,
      (run step r before).group.groupId = r.group.groupId ∧
      (run step r before).committed p ≤ (run step r ops).committed p := by
  rintro before after rfl p
  have preserved : ∀ r op, Level r → r.Safe op → (r.step op).Level :=
    fun _ _ level safe => (level.step safe).1
  have raised : ∀ r op, Level r → r.Safe op → r.committed p ≤ (r.step op).committed p :=
    fun _ _ level safe => (level.step safe).2 p
  have named : ∀ s op, s.group.groupId = r.group.groupId → (step s op).group.groupId = r.group.groupId :=
    fun s op same => (step_groupId s op).trans same
  obtain ⟨first, rest⟩ := (guarded_append r before after).mp safe
  rw [run_append]
  exact ⟨run_preserves named rfl before,
    run_mono (fun r => r.committed p) preserved raised
      (run_invariant preserved start.level first) rest⟩

/-- A group that is to work on partition 0, and consumers named after themselves. -/
def handoverStart : GroupRun :=
  ⟨⟨Store.keyedStart, fun c => { consumerId := toString c }⟩, { groupId := "g" }⟩

theorem handoverStart_start : handoverStart.Start := ⟨Store.keyedStart_new, rfl, fun _ => rfl⟩

/-- Consumer 0 reads one record and commits it; then consumer 1 takes the
partition over, reads on and commits. -/
def handoverOps : List GroupOp :=
  [.log (.append 0 0 0), .log (.append 0 0 1), .subscribe "t" [0], .join 0,
    .poll 0 ⟨1, 1, 1⟩ (some 1), .commit 0 1, .leave "0", .join 1, .poll 1 ⟨2, 2, 2⟩ (some 1),
    .commit 1 2]

theorem handoverOps_safe : Guarded step Safe handoverStart handoverOps := by
  have empty : ∀ m, Store.keyedStart.Unstored m := fun _ _ => List.not_mem_nil
  have second : (Store.keyedStart.applyOp (.append 0 0 0)).Unstored 1 :=
    (empty 1).applyOp (by decide)
  have first_alone : (run step handoverStart (handoverOps.take 5)).Sole 0 := by
    intro p _ d other
    match d with
    | 0 => rfl
    | d + 1 => cases other
  have second_alone : (run step handoverStart (handoverOps.take 9)).Sole 1 := by
    intro p _ d other
    match d with
    | 0 => cases other
    | 1 => rfl
    | d + 2 => cases other
  have handed : ∀ k ∈ [2, 3, 6, 7], HandedOver (run step handoverStart (handoverOps.take k))
      (run step handoverStart (handoverOps.take (k + 1))) := by
    decide +kernel
  have not_due : ∀ now : Timestamp, now < 5 → ¬ (true = true ∧ (5 : Timestamp) ≤ now - 0) :=
    fun now early due => absurd due.2 (by simpa using early)
  exact ⟨empty 0, second, handed 2 (by decide), handed 3 (by decide),
    fun due => absurd due (not_due 1 (by norm_num)), first_alone, handed 6 (by decide),
    handed 7 (by decide), fun due => absurd due (not_due 2 (by norm_num)), second_alone, trivial⟩

theorem handoverOps_committed_mono :
    (run step handoverStart (handoverOps.take 6)).group.groupId = handoverStart.group.groupId ∧
      (run step handoverStart (handoverOps.take 6)).committed 0 ≤
        (run step handoverStart handoverOps).committed 0 :=
  committed_mono handoverStart_start handoverOps_safe (handoverOps.take 6) (handoverOps.drop 6) rfl 0

/-- Then the partition returns to consumer 0, which still keeps position 1 and
commits it: the group's committed offset goes from 2 back to 1. -/
theorem returned_partition_commits_back :
    let taken := run step handoverStart handoverOps
    let returned := run step taken [.leave "1", .join 0, .commit 0 3]
    taken.group.allPartitions = [0] ∧ taken.committed 0 = 2 ∧ returned.committed 0 = 1 := by
  decide +kernel

end GroupRun

end BrokerLite
