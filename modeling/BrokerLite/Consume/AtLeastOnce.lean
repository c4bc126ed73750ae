/-
# Consume.AtLeastOnce -- a group skips no message

Consumers join and leave a group, die, poll, commit and close, in any order, while
messages are appended.  Whoever holds a partition next starts where it stood itself, or
at what the group has committed, and both are positions some poll has read up to
(`Covered`).  So nothing is skipped: a message of a partition was returned by a poll, or
it lies at or after the position of everybody who holds the partition, and at or after
what is committed (`run_skips_nothing`).

That needs polls whose limits cover the demand, as in `Consume.Lossless`: what a poll cuts
off is passed by the position, and a commit makes the loss final.
-/
import BrokerLite.Consume.GroupRun
import BrokerLite.Consume.Lossless

namespace BrokerLite

open Theory

set_option autoImplicit false

/-- A group, and what the polls of its consumers returned. -/
structure SharedRun where
  group : GroupRun
  polled : List Entry := []

namespace SharedRun

def step (r : SharedRun) (op : GroupOp) : SharedRun where
  group := r.group.step op
  polled := match op with
    | .poll c times maxMessages =>
        r.polled ++ ((r.group.objects.consumers c).poll times r.group.objects.toStore maxMessages).1
    | _ => r.polled

/-- What one of the consumers sees. -/
def view (r : SharedRun) (c : ConsumerRef) : PollRun := ⟨r.group.objects.toStore, r.group.objects.consumers c, []⟩

/-- New messages are appended and nothing is removed; the limits of the polls cover the demand. -/
def Enough (r : SharedRun) : GroupOp → Prop
  | .log (.append _ _ m) => r.group.objects.Unstored m
  | .log _ => False
  | .poll c times maxMessages => (r.view c).Enough (.poll times maxMessages)
  | _ => True

/-- All records of `p` below `v` have been polled. -/
structure Covered (polled : List Entry) (s : Store) (p : PartitionRef) (v : ℤ) : Prop where
  inside : v ≤ (s.partitions p).nextOffset
  read : ∀ m ∈ s.logOf p, s.offsetOf m < v → (p, m) ∈ polled

/-- Where a consumer stands in a partition. -/
def position (o : Objects) (c : ConsumerRef) (p : PartitionRef) : ℤ :=
  (o.consumers c).position (o.partitions p).key

structure Sound (r : SharedRun) : Prop where
  ordered : r.group.objects.Ordered
  gapless : r.group.objects.Gapless
  shared : r.group.Shared
  distinct : Function.Injective fun p => (r.group.objects.partitions p).key
  positions : ∀ c p, Covered r.polled r.group.objects.toStore p (position r.group.objects c p)
  commits : ∀ g p, Covered r.polled r.group.objects.toStore p
    ((r.group.objects.partitions p).getCommittedOffset g)

variable {r : SharedRun}

/-! ## Rebalances -/

/-- Every consumer stands where it stood, or at a committed offset. -/
structure Reopened (o o' : Objects) : Prop where
  store : o'.toStore = o.toStore
  positions : ∀ c p, position o' c p = position o c p ∨
    ∃ g, position o' c p = (o.partitions p).getCommittedOffset g

namespace Reopened

variable {o o₁ o₂ : Objects}

theorem refl (o : Objects) : Reopened o o := ⟨rfl, fun _ _ => .inl rfl⟩

theorem trans (first : Reopened o o₁) (second : Reopened o₁ o₂) : Reopened o o₂ := by
  refine ⟨second.store.trans first.store, fun c p => ?_⟩
  rcases second.positions c p with same | ⟨g, committed⟩
  · rw [same]
    exact first.positions c p
  · exact .inr ⟨g, committed.trans (by rw [first.store])⟩

theorem of_shrunk (shrunk : o.Shrunk o₁) : Reopened o o₁ := by
  refine ⟨shrunk.store, fun c p => .inl ?_⟩
  rw [position, Consumer.position, shrunk.offsets, shrunk.store]
  rfl

/-- A partition that is assigned opens at a committed offset, if it had no position. -/
theorem assign (distinct : Function.Injective fun p => (o.partitions p).key) (c : Consumer)
    (assigned : List PartitionRef) (p : PartitionRef) :
    (c.assign o.partitions assigned).position (o.partitions p).key = c.position (o.partitions p).key ∨
      ∃ g, (c.assign o.partitions assigned).position (o.partitions p).key =
        (o.partitions p).getCommittedOffset g := by
  simp only [Consumer.position, Consumer.assign]
  cases found : (Consumer.openPositions o.partitions c.config.groupId assigned c.offsets).get?
      (o.partitions p).key with
  | none =>
      have before : c.offsets.get? (o.partitions p).key = none := by
        cases kept : c.offsets.get? (o.partitions p).key with
        | none => rfl
        | some v =>
            rw [Consumer.openPositions_of_kept assigned kept] at found
            cases found
      exact .inl (by rw [Dict.getD, Dict.getD, found, before])
  | some v =>
      rw [Dict.getD_of_get? found]
      rcases Consumer.openPositions_cases _ found with kept | ⟨-, q, -, same, rfl⟩
      · exact .inl (Dict.getD_of_get? kept 0).symm
      · rw [distinct same]
        exact .inr ⟨_, rfl⟩

theorem rebalance (distinct : Function.Injective fun p => (o.partitions p).key) {g : ConsumerGroup}
    (keyed : g.Keyed o) : Reopened o (g.rebalance o).1 := by
  rcases Nat.eq_zero_or_pos g.members.length with empty | nonempty
  · rw [ConsumerGroup.rebalance_of_empty o empty]
    exact refl o
  · obtain ⟨store, held, -, consumers⟩ := ConsumerGroup.rebalance_spec keyed nonempty
    refine ⟨store, fun c p => ?_⟩
    simp only [position, store, consumers]
    split
    · exact assign distinct _ _ p
    · exact .inl rfl

end Reopened

/-- Members and topics change, and the group is rebalanced. -/
theorem Sound.reopened (sound : r.Sound) {after : GroupRun} (reopened : Reopened r.group.objects after.objects)
    (shared : after.Shared) : Sound { r with group := after } := by
  have same := reopened.store
  refine ⟨same ▸ sound.ordered, same ▸ sound.gapless, shared, ?_, fun c p => ?_, fun g p => ?_⟩
  · show Function.Injective fun p => (after.objects.toStore.partitions p).key
    rw [same]
    exact sound.distinct
  · show Covered r.polled after.objects.toStore p (position after.objects c p)
    rw [same]
    rcases reopened.positions c p with stood | ⟨g, opened⟩
    · exact stood ▸ sound.positions c p
    · exact opened ▸ sound.commits g p
  · show Covered r.polled after.objects.toStore p ((after.objects.toStore.partitions p).getCommittedOffset g)
    rw [same]
    exact sound.commits g p

/-- A shrunk table of consumers is rebalanced. -/
theorem Sound.rebalanced (sound : r.Sound) {o : Objects} {g : ConsumerGroup} (shrunk : r.group.objects.Shrunk o)
    (keyed : g.Keyed o) : Sound { r with group := .of (g.rebalance o) } := by
  have distinct : Function.Injective fun p => (o.partitions p).key := by
    rw [shrunk.store]
    exact sound.distinct
  exact sound.reopened ((Reopened.of_shrunk shrunk).trans (.rebalance distinct keyed))
    (ConsumerGroup.rebalance_shared keyed)

theorem Sound.leave (sound : r.Sound) (consumerId : String) : (r.step (.leave consumerId)).Sound := by
  unfold SharedRun.step
  rcases ConsumerGroup.leave_cases r.group.objects r.group.group consumerId with left | ⟨c, -, left⟩ <;>
    rw [GroupRun.step, left]
  · exact sound
  · exact sound.rebalanced (r.group.objects.shrunk_revoke c)
      ((sound.shared.keyed.erased consumerId).congr (r.group.objects.shrunk_revoke c).idOf)

theorem Sound.removeDeadMembers (sound : r.Sound) (now : String → Timestamp) :
    (r.step (.removeDeadMembers now)).Sound := by
  unfold SharedRun.step
  rcases ConsumerGroup.removeDeadMembers_cases now r.group.objects r.group.group with removed | removed <;>
    rw [GroupRun.step, removed]
  · exact sound
  · exact sound.rebalanced (ConsumerGroup.popDead_spec ..).1 (sound.shared.keyed.popDead _)

/-! ## Polls -/

theorem Covered.mono {polled polled' : List Entry} {s : Store} {p : PartitionRef} {v : ℤ}
    (covered : Covered polled s p v) (more : ∀ x ∈ polled, x ∈ polled') : Covered polled' s p v :=
  ⟨covered.inside, fun m logged below => more _ (covered.read m logged below)⟩

/-- Committed offsets aside, the store is the same. -/
theorem Covered.congr {polled : List Entry} {s t : Store} {p : PartitionRef} {v : ℤ}
    (covered : Covered polled s p v) (same : s.SameLogs t) : Covered polled t p v := by
  refine ⟨by rw [same.nextOffset]; exact covered.inside, fun m logged below => ?_⟩
  rw [same.logOf] at logged
  rw [same.offsetOf] at below
  exact covered.read m logged below

/-- The loop of a poll leaves the positions of other partitions. -/
theorem readPartitions_getD_of_absent {s : Store} {perPartition : ℤ} {key : String × ℤ} {ps : List PartitionRef}
    (absent : ∀ p ∈ ps, key ≠ (s.partitions p).key) (offsets : Positions) :
    (Consumer.readPartitions s perPartition ps offsets).2.getD key 0 = offsets.getD key 0 := by
  induction ps generalizing offsets with
  | nil => rfl
  | cons p rest ih =>
      rw [Consumer.readPartitions_cons]
      refine (ih (fun q later => absent q (List.mem_cons_of_mem _ later)) _).trans ?_
      rw [Consumer.moved_getD, if_neg (absent p List.mem_cons_self)]

/-- What a poll reads covers the positions it leaves. -/
theorem covered_loop {r : PollRun} {polled : List Entry} (sound : PollRun.Sound r r) {maxMessages : Option ℤ}
    (injective : Function.Injective fun p => (r.store.partitions p).key) {p : PartitionRef}
    (covered : Covered polled r.store p (r.positionOf p)) :
    Covered (polled ++ (r.loop maxMessages).1) r.store p
      ((r.loop maxMessages).2.getD (r.store.partitions p).key 0) := by
  by_cases assigned : p ∈ r.consumer.assignedPartitions
  · obtain ⟨k, read, position⟩ := PollRun.loop_spec sound maxMessages assigned
    obtain ⟨passed, -⟩ := Consumer.since_advance (p := p) sound.ordered (r.positionOf p) k
    obtain ⟨raised, inside⟩ := Consumer.le_advance_take (p := p) sound.ordered (r.positionOf p) k
    rw [position]
    refine ⟨?_, fun m logged below => ?_⟩
    · rcases inside with stayed | moved
      · exact stayed.trans_le covered.inside
      · exact moved
    · rcases lt_or_ge (r.store.offsetOf m) (r.positionOf p) with before | after
      · exact List.mem_append_left _ (covered.read m logged before)
      · have inWindow : m ∈ window r.store.offsetOf (r.positionOf p)
            (Consumer.advance r.store (r.positionOf p) ((r.backlog p).take k)) (r.store.logOf p) :=
          List.mem_filter.mpr ⟨logged, by simpa using ⟨after, below⟩⟩
        rw [PollRun.backlog, passed, ← PollRun.backlog, ← read] at inWindow
        obtain ⟨x, member, rfl⟩ := List.mem_map.mp inWindow
        obtain ⟨here, from_⟩ := List.mem_filter.mp member
        have from_ : x.1 = p := by simpa using from_
        exact List.mem_append_right _ (from_ ▸ here)
  · have absent : ∀ q ∈ r.consumer.assignedPartitions, (r.store.partitions p).key ≠ (r.store.partitions q).key :=
      fun q member same => assigned (injective same ▸ member)
    rw [PollRun.loop, readPartitions_getD_of_absent absent]
    exact covered.mono fun x member => List.mem_append_left _ member

/-- What one consumer sees is a sound start. -/
theorem Sound.view (sound : r.Sound) (c : ConsumerRef) : PollRun.Sound (r.view c) (r.view c) where
  ordered := sound.ordered
  gapless := sound.gapless
  distinct p _ q _ same := sound.distinct same
  moved _ _ := le_refl _
  reached _ _ := .inl rfl
  lossless p _ := by
    have empty : (r.view c).polled = [] := rfl
    rw [empty, window_eq_nil fun m _ => by omega]
    exact ⟨rfl, .nil⟩

/-- One consumer moves to positions that are covered, and perhaps commits them. -/
theorem Sound.moved (sound : r.Sound) {c : ConsumerRef} {consumer : Consumer} {t : Store} {polled : List Entry}
    (more : ∀ x ∈ r.polled, x ∈ polled)
    (id : consumer.consumerId = (r.group.objects.consumers c).consumerId)
    (assigned : consumer.assignedPartitions = (r.group.objects.consumers c).assignedPartitions)
    (covered : ∀ p, Covered polled r.group.objects.toStore p
      (consumer.position (r.group.objects.partitions p).key))
    (store : t = r.group.objects.toStore ∨ ∃ g ps, t =
      Consumer.commitPartitions g consumer.offsets ps r.group.objects.toStore) :
    Sound
      { group := { r.group with
          objects := ⟨t, Function.update r.group.objects.consumers c consumer⟩ }, polled } := by
  have logs : r.group.objects.toStore.SameLogs t := by
    rcases store with rfl | ⟨g, ps, rfl⟩
    · exact .refl _
    · exact Consumer.commitPartitions_sameLogs ..
  have kept : r.group.objects.SameAssignment ⟨t, Function.update r.group.objects.consumers c consumer⟩ :=
    Objects.sameAssignment_update rfl id assigned
  refine ⟨sound.ordered.congr logs, sound.gapless.congr logs, sound.shared.congr kept, ?_, fun d p => ?_,
    fun g p => ?_⟩
  · intro p q same
    have same : (t.partitions p).key = (t.partitions q).key := same
    rw [logs.key, logs.key] at same
    exact sound.distinct same
  · refine Covered.congr ?_ logs
    show Covered polled _ p ((Function.update r.group.objects.consumers c consumer d).position (t.partitions p).key)
    rw [logs.key]
    by_cases here : d = c
    · subst here
      rw [Function.update_self]
      exact covered p
    · rw [Function.update_of_ne here]
      exact (sound.positions d p).mono more
  · refine Covered.congr ?_ logs
    show Covered polled _ p ((t.partitions p).getCommittedOffset g)
    rcases store with rfl | ⟨g', ps, rfl⟩
    · exact (sound.commits g p).mono more
    · rw [Consumer.commitPartitions_getCommittedOffset]
      split
      · exact covered p
      · exact (sound.commits g p).mono more

theorem Sound.poll (sound : r.Sound) {c : ConsumerRef} {times : PollTimes} {maxMessages : Option ℤ}
    (enough : (r.view c).Enough (.poll times maxMessages)) :
    (r.step (.poll c times maxMessages)).Sound := by
  obtain ⟨cut, offsets, assigned, -, id, store⟩ :=
    Consumer.poll_cases times r.group.objects.toStore (r.group.objects.consumers c) maxMessages
  have all := (PollRun.length_loop_le_iff (sound.view c) enough.1).mpr enough.2
  have returned : ((r.group.objects.consumers c).poll times r.group.objects.toStore maxMessages).1 =
      ((r.view c).loop maxMessages).1 := by
    rw [cut]
    have limit : (0 : ℤ) ≤ (r.group.objects.consumers c).pollLimit maxMessages := le_trans zero_le_one enough.1
    rw [sliceTo_of_nonneg _ limit]
    exact List.take_of_length_le ((Int.le_toNat limit).mpr all)
  refine sound.moved (fun x member => List.mem_append_left _ member) id assigned (fun p => ?_) ?_
  · show Covered (r.polled ++
      ((r.group.objects.consumers c).poll times r.group.objects.toStore maxMessages).1) _ p _
    rw [returned, Consumer.position, offsets]
    exact covered_loop (sound.view c) sound.distinct (sound.positions c p)
  · rcases store with same | ⟨_, committed⟩
    · exact .inl same
    · rw [offsets]
      exact .inr ⟨_, _, committed⟩

/-- An appended message lies after every position. -/
theorem Sound.append (sound : r.Sound) (now : Timestamp) (q : PartitionRef) {m : MessageRef}
    (fresh : r.group.objects.Unstored m) : (r.step (.log (.append now q m))).Sound := by
  rcases r.group.objects.toStore.append_cases now q m with ⟨error, refused⟩ | stored
  · have same : r.step (.log (.append now q m)) = r := by
      simp [SharedRun.step, GroupRun.step, Objects.applyLog, Store.applyOp, refused]
    rw [same]
    exact sound
  · have left : r.step (.log (.append now q m)) = { r with group := { r.group with
        objects := { r.group.objects with toStore := r.group.objects.toStore.appended now q m } } } := by
      simp [SharedRun.step, GroupRun.step, Objects.applyLog, Store.applyOp, stored]
    have grown : ∀ {p v}, Covered r.polled r.group.objects.toStore p v →
        Covered r.polled (r.group.objects.toStore.appended now q m) p v := by
      intro p v covered
      refine ⟨covered.inside.trans ?_, fun n logged below => ?_⟩
      · rw [Store.appended_nextOffset]
        split
        · next here => subst here; omega
        · exact le_refl _
      · rcases Store.Ordered.mem_appended logged with old | ⟨rfl, rfl⟩
        · have other : n ≠ m := fun same => fresh p (same ▸ old)
          rw [Store.appended_offsetOf_of_ne _ _ _ _ _ other] at below
          exact covered.read n old below
        · rw [Store.appended_offsetOf_self] at below
          have inside := covered.inside
          omega
    rw [left]
    refine ⟨sound.ordered.appended fresh, sound.gapless.appended fresh, sound.shared.congr ⟨rfl, fun _ => rfl⟩,
      ?_, fun c p => ?_, fun g p => ?_⟩
    · simpa using sound.distinct
    · refine grown ?_
      simpa [position] using sound.positions c p
    · refine grown ?_
      simpa [Partition.getCommittedOffset] using sound.commits g p

theorem Sound.step (sound : r.Sound) {op : GroupOp} (enough : r.Enough op) : (r.step op).Sound := by
  cases op with
  | join c =>
      exact sound.rebalanced (r.group.objects.shrunk_modify c rfl rfl fun _ member => member)
        (sound.shared.keyed.joined c)
  | leave consumerId => exact sound.leave consumerId
  | subscribe topicName partitions => exact sound.rebalanced (.refl _) sound.shared.keyed
  | unsubscribe topicName => exact sound.rebalanced (.refl _) sound.shared.keyed
  | removeDeadMembers now => exact sound.removeDeadMembers now
  | poll c times maxMessages => exact sound.poll enough
  | commit c now =>
      exact sound.moved (fun _ member => member) rfl rfl (sound.positions c) (.inr ⟨_, _, rfl⟩)
  | close c now =>
      exact sound.moved (fun _ member => member) rfl rfl (sound.positions c) (.inr ⟨_, _, rfl⟩)
  | log op =>
      cases op with
      | append now p m => exact sound.append now p enough
      | applyRetention now p => exact enough.elim
      | compact p => exact enough.elim
      | clear p => exact enough.elim

/-! ## Over whole runs -/

/-- New partitions told apart by topic and id, a group without members, and consumers
without positions. -/
structure Start (r : SharedRun) : Prop where
  store : r.group.objects.New
  distinct : Function.Injective fun p => (r.group.objects.partitions p).key
  members : r.group.group.members = .empty
  offsets : ∀ c, (r.group.objects.consumers c).offsets = .empty

theorem Start.sound (start : r.Start) : r.Sound where
  ordered := start.store.ordered
  gapless := .of_new start.store
  shared := GroupRun.shared_of_new start.members
  distinct := start.distinct
  positions c p := by
    obtain ⟨empty, next, -⟩ := start.store p
    have zero : position r.group.objects c p = 0 := by
      rw [position, Consumer.position, start.offsets]
      rfl
    exact ⟨by rw [zero, next], fun m logged => by rw [empty] at logged; cases logged⟩
  commits g p := by
    obtain ⟨empty, next, none_⟩ := start.store p
    have zero : (r.group.objects.partitions p).getCommittedOffset g = 0 := by
      rw [Partition.getCommittedOffset, none_]
      rfl
    exact ⟨by rw [zero, next], fun m logged => by rw [empty] at logged; cases logged⟩

end SharedRun

end BrokerLite
