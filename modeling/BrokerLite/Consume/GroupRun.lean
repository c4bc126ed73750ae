/-
# Consume.GroupRun -- runs of one consumer group, and exact assignment

The state is the objects and one group; the operations are the group's own
(`join`, `leave`, `subscribe`, `unsubscribe`, `remove_dead_members` at any clock
readings) and what consumers and logs do in between.

`GroupRun.Shared` is the invariant of the assignment: the members are registered
under their ids, and as soon as there is a member they divide all subscribed
partitions evenly.  A change of members or topics ends in a rebalance, which
establishes it; everything else leaves assignments alone.
-/
import BrokerLite.Consume.Group
import BrokerLite.Consume.Poll

namespace BrokerLite

open Theory

set_option autoImplicit false

namespace Objects

def applyLog (o : Objects) (op : LogOp) : Objects := { o with toStore := o.toStore.applyOp op }

def poll (o : Objects) (c : ConsumerRef) (times : PollTimes) (maxMessages : Option ℤ) : Objects :=
  let done := (o.consumers c).poll times o.toStore maxMessages
  { toStore := done.2.1, consumers := Function.update o.consumers c done.2.2 }

def commit (o : Objects) (c : ConsumerRef) (now : Timestamp) : Objects :=
  let done := (o.consumers c).commit now o.toStore
  { toStore := done.2.1, consumers := Function.update o.consumers c done.2.2 }

def close (o : Objects) (c : ConsumerRef) (now : Timestamp) : Objects :=
  let done := (o.consumers c).close now o.toStore
  { toStore := done.1, consumers := Function.update o.consumers c done.2 }

/-- Ids and assignments are those of `o`. -/
structure SameAssignment (o o' : Objects) : Prop where
  idOf : o'.idOf = o.idOf
  assigned : ∀ c, (o'.consumers c).assignedPartitions = (o.consumers c).assignedPartitions

/-- Stores, ids and positions are those of `o`, and nobody has gained a partition. -/
structure Shrunk (o o' : Objects) : Prop where
  store : o'.toStore = o.toStore
  idOf : o'.idOf = o.idOf
  offsets : ∀ c, (o'.consumers c).offsets = (o.consumers c).offsets
  held : ∀ c, ∀ p ∈ (o'.consumers c).assignedPartitions, p ∈ (o.consumers c).assignedPartitions

theorem Shrunk.refl (o : Objects) : o.Shrunk o := ⟨rfl, rfl, fun _ => rfl, fun _ _ member => member⟩

theorem Shrunk.trans {o o₁ o₂ : Objects} (first : o.Shrunk o₁) (second : o₁.Shrunk o₂) : o.Shrunk o₂ :=
  ⟨second.store.trans first.store, second.idOf.trans first.idOf,
    fun c => (second.offsets c).trans (first.offsets c),
    fun c p member => first.held c p (second.held c p member)⟩

theorem shrunk_modify (o : Objects) (c : ConsumerRef) {f : Consumer → Consumer}
    (id : (f (o.consumers c)).consumerId = (o.consumers c).consumerId)
    (offsets : (f (o.consumers c)).offsets = (o.consumers c).offsets)
    (held : ∀ p ∈ (f (o.consumers c)).assignedPartitions, p ∈ (o.consumers c).assignedPartitions) :
    o.Shrunk (o.modifyConsumer c f) := by
  refine ⟨rfl, funext fun d => ?_, fun d => ?_, fun d p member => ?_⟩
  · rw [idOf, idOf, modifyConsumer_consumers]
    split
    · next same => rw [same, id]
    · rfl
  · rw [modifyConsumer_consumers]
    split
    · next same => rw [same, offsets]
    · rfl
  · rw [modifyConsumer_consumers] at member
    split at member
    · next same => exact same ▸ held p member
    · exact member

theorem shrunk_revoke (o : Objects) (c : ConsumerRef) : o.Shrunk (o.revoke c) :=
  o.shrunk_modify c rfl rfl nofun

theorem revoke_held (o : Objects) (c : ConsumerRef) :
    ((o.revoke c).consumers c).assignedPartitions = [] := by
  simp [revoke, modifyConsumer, Consumer.revoke]

theorem sameAssignment_update {o o' : Objects} {c : ConsumerRef} {consumer : Consumer}
    (consumers : o'.consumers = Function.update o.consumers c consumer)
    (id : consumer.consumerId = (o.consumers c).consumerId)
    (assigned : consumer.assignedPartitions = (o.consumers c).assignedPartitions) :
    o.SameAssignment o' := by
  constructor
  · funext d
    by_cases same : d = c
    · subst same
      rw [idOf, consumers, Function.update_self, id, idOf]
    · rw [idOf, consumers, Function.update_of_ne same, idOf]
  · intro d
    by_cases same : d = c
    · subst same
      rw [consumers, Function.update_self, assigned]
    · rw [consumers, Function.update_of_ne same]

theorem poll_sameAssignment (o : Objects) (c : ConsumerRef) (times : PollTimes)
    (maxMessages : Option ℤ) : o.SameAssignment (o.poll c times maxMessages) := by
  obtain ⟨-, -, assigned, -, id, -⟩ :=
    Consumer.poll_cases times o.toStore (o.consumers c) maxMessages
  exact sameAssignment_update rfl id assigned

end Objects

structure GroupRun where
  objects : Objects
  group : ConsumerGroup

inductive GroupOp where
  | join (c : ConsumerRef)
  | leave (consumerId : String)
  | subscribe (topicName : String) (partitions : List PartitionRef)
  | unsubscribe (topicName : String)
  | removeDeadMembers (now : String → Timestamp)
  | poll (c : ConsumerRef) (times : PollTimes) (maxMessages : Option ℤ)
  | commit (c : ConsumerRef) (now : Timestamp)
  | close (c : ConsumerRef) (now : Timestamp)
  | log (op : LogOp)

namespace GroupRun

def of (changed : Objects × ConsumerGroup) : GroupRun := ⟨changed.1, changed.2⟩

def step (r : GroupRun) : GroupOp → GroupRun
  | .join c => of (r.group.join r.objects c)
  | .leave consumerId => of (r.group.leave r.objects consumerId).2
  | .subscribe topicName partitions => of (r.group.subscribe r.objects topicName partitions)
  | .unsubscribe topicName => of (r.group.unsubscribe r.objects topicName)
  | .removeDeadMembers now => of (r.group.removeDeadMembers now r.objects).2
  | .poll c times maxMessages => { r with objects := r.objects.poll c times maxMessages }
  | .commit c now => { r with objects := r.objects.commit c now }
  | .close c now => { r with objects := r.objects.close c now }
  | .log op => { r with objects := r.objects.applyLog op }

def held (r : GroupRun) (c : ConsumerRef) : List PartitionRef :=
  (r.objects.consumers c).assignedPartitions

structure Shared (r : GroupRun) : Prop where
  keyed : r.group.Keyed r.objects
  divided : 0 < r.group.members.length → Divided r.group.members.values r.held r.group.allPartitions

end GroupRun

/-! ## What a group operation rebalances -/

namespace ConsumerGroup

variable {o : Objects} {g : ConsumerGroup}

theorem Keyed.congr {o' : Objects} (keyed : g.Keyed o) (same : o'.idOf = o.idOf) : g.Keyed o' := by
  intro id c found
  rw [same]
  exact keyed id c found

theorem Keyed.joined (keyed : g.Keyed o) (c : ConsumerRef) :
    ({ g with members := g.members.set (o.idOf c) c } : ConsumerGroup).Keyed
      (o.modifyConsumer c fun consumer =>
        { consumer with config := { consumer.config with groupId := g.groupId } }) := by
  intro id d found
  rw [(o.shrunk_modify c rfl rfl fun _ member => member).idOf]
  rcases Dict.get?_set_eq_some_iff.mp found with ⟨here, rfl⟩ | ⟨-, before⟩
  · exact here.symm
  · exact keyed id d before

theorem Keyed.erased (keyed : g.Keyed o) (consumerId : String) :
    ({ g with members := g.members.erase consumerId } : ConsumerGroup).Keyed o := by
  intro id c found
  exact keyed id c (Dict.get?_erase_eq_some_iff.mp found).2

theorem Keyed.popDead (keyed : g.Keyed o) (dead : List String) :
    (popDead dead o g).2.Keyed (popDead dead o g).1 := by
  induction dead generalizing o g with
  | nil => exact keyed
  | cons consumerId rest ih =>
      rw [ConsumerGroup.popDead]
      split
      · exact ih keyed
      · next c _ => exact ih ((keyed.erased consumerId).congr (o.shrunk_revoke c).idOf)

/-- Popping the dead: some members go, and those that go hold nothing. -/
theorem popDead_spec (dead : List String) (o : Objects) (g : ConsumerGroup) :
    o.Shrunk (popDead dead o g).1 ∧ (popDead dead o g).2.groupId = g.groupId ∧
      (popDead dead o g).2.subscribedTopics = g.subscribedTopics ∧
      (∀ c, ((popDead dead o g).1.consumers c).config = (o.consumers c).config) ∧
      (∀ c ∈ (popDead dead o g).2.members.values, c ∈ g.members.values) ∧
      ∀ c ∈ g.members.values, c ∉ (popDead dead o g).2.members.values →
        ((popDead dead o g).1.consumers c).assignedPartitions = [] := by
  induction dead generalizing o g with
  | nil =>
      exact ⟨.refl o, rfl, rfl, fun _ => rfl, fun _ member => member,
        fun _ before after => absurd before after⟩
  | cons consumerId rest ih =>
      rw [popDead]
      split
      · exact ih o g
      · next c found =>
          obtain ⟨shrunk, groupId, subscribed, config, members, left⟩ :=
            ih (o.revoke c) { g with members := g.members.erase consumerId }
          refine ⟨(o.shrunk_revoke c).trans shrunk, groupId, subscribed, fun d => ?_,
            fun d member => Dict.mem_values_erase (members d member), fun d before after => ?_⟩
          · rw [config, Objects.revoke, Objects.modifyConsumer_consumers]
            split
            · next same => rw [same]; rfl
            · rfl
          · by_cases stays : d ∈ (g.members.erase consumerId).values
            · exact left d stays after
            · have popped := Dict.get?_of_not_mem_erase before stays
              rw [found, Option.some.injEq] at popped
              subst popped
              refine List.eq_nil_iff_forall_not_mem.mpr fun p member => ?_
              have kept := shrunk.held c p member
              rw [o.revoke_held c] at kept
              cases kept

theorem rebalance_idOf (keyed : g.Keyed o) : (rebalance o g).1.idOf = o.idOf := by
  rcases Nat.eq_zero_or_pos g.members.length with empty | nonempty
  · rw [rebalance_of_empty o empty]
  · obtain ⟨-, held, -, consumers⟩ := rebalance_spec keyed nonempty
    funext c
    rw [Objects.idOf, consumers]
    split <;> rfl

theorem rebalance_store (keyed : g.Keyed o) : (rebalance o g).1.toStore = o.toStore := by
  rcases Nat.eq_zero_or_pos g.members.length with empty | nonempty
  · rw [rebalance_of_empty o empty]
  · exact (rebalance_spec keyed nonempty).1

/-- What a rebalance hands out depends on the members, their ids, the strategy
and the partitions alone. -/
theorem rebalance_assigned_congr {o' : Objects} {g' : ConsumerGroup} (keyed : g.Keyed o)
    (ids : o'.idOf = o.idOf) (strategy : g'.strategy = g.strategy) (members : g'.members = g.members)
    (all : g'.allPartitions = g.allPartitions) {c : ConsumerRef} (member : c ∈ g.members.values) :
    ((rebalance o' g').1.consumers c).assignedPartitions =
      ((rebalance o g).1.consumers c).assignedPartitions := by
  have nonempty : g.members.length ≠ 0 := by
    have := List.length_pos_of_mem member
    rw [Dict.length_values] at this
    omega
  have nodup := keyed.ids_nodup.of_map
  simp only [rebalance, members, all, strategy, if_neg nonempty]
  by_cases nothing : g.allPartitions = []
  · simp only [if_pos nothing, revokeAll_consumers, if_pos member, Consumer.revoke]
  · have same : (revokeAll g.members.values o').idOf = (revokeAll g.members.values o).idOf := by
      funext d
      have id : (o'.consumers d).consumerId = (o.consumers d).consumerId := congrFun ids d
      simp only [Objects.idOf, revokeAll_consumers]
      split
      · exact id
      · exact id
    obtain ⟨held, here, there⟩ := distribute_congr same g.strategy g.allPartitions nodup
    simp only [if_neg nothing, here, there, assignEach_consumers _ _ _ nodup, if_pos member,
      Consumer.assign]

/-- Where a member stands in a partition it was handed: where it stood before, or
else at what the group it is configured for has committed there. -/
theorem rebalance_position (keyed : g.Keyed o) {c : ConsumerRef} (member : c ∈ g.members.values)
    {p : PartitionRef} (handed : p ∈ ((rebalance o g).1.consumers c).assignedPartitions)
    (alone : ∀ q ∈ g.allPartitions, (o.partitions q).key = (o.partitions p).key → q = p) :
    ((rebalance o g).1.consumers c).offsets.get? (o.partitions p).key =
      some (((o.consumers c).offsets.get? (o.partitions p).key).getD
        ((o.partitions p).getCommittedOffset (o.consumers c).config.groupId)) := by
  have nonempty : 0 < g.members.length := by
    rw [← Dict.length_values]
    exact List.length_pos_of_mem member
  obtain ⟨-, held, divided, consumers⟩ := rebalance_spec keyed nonempty
  rw [consumers, if_pos member] at handed ⊢
  have handed : p ∈ held c := handed
  show (Consumer.openPositions o.partitions _ (held c) _).get? _ = _
  cases kept : (o.consumers c).offsets.get? (o.partitions p).key with
  | some v => exact Consumer.openPositions_of_kept (held c) kept
  | none =>
      obtain ⟨v, found⟩ := Consumer.openPositions_isSome (o.consumers c).offsets handed
      rcases Consumer.openPositions_cases _ found with old | ⟨-, q, listed, key, opened⟩
      · rw [kept] at old
        cases old
      · have same : q = p := alone q (divided.mem_iff.mpr ⟨c, member, listed⟩) key
        rw [found, opened, same]
        rfl

theorem rebalance_of_not_member (keyed : g.Keyed o) {c : ConsumerRef} (other : c ∉ g.members.values) :
    (rebalance o g).1.consumers c = o.consumers c := by
  rcases Nat.eq_zero_or_pos g.members.length with empty | nonempty
  · rw [rebalance_of_empty o empty]
  · obtain ⟨-, held, -, consumers⟩ := rebalance_spec keyed nonempty
    rw [consumers, if_neg other]

theorem Keyed.rebalanced (keyed : g.Keyed o) : (rebalance o g).2.Keyed (rebalance o g).1 := by
  intro id c found
  rw [(rebalance_group o g).2.2.1] at found
  rw [rebalance_idOf keyed]
  exact keyed id c found

/-- A member is registered under its id. -/
theorem Keyed.member_iff (keyed : g.Keyed o) {c : ConsumerRef} :
    c ∈ g.members.values ↔ g.members.get? (o.idOf c) = some c := by
  constructor
  · intro member
    obtain ⟨id, entry⟩ := Dict.mem_values.mp member
    have found := Dict.get?_eq_some_iff.mpr entry
    rwa [keyed id c found]
  · intro found
    exact Dict.mem_values.mpr ⟨_, Dict.get?_eq_some_iff.mp found⟩

/-- Where a consumer that joins stands in a partition it was handed. -/
theorem join_position (keyed : g.Keyed o) (c : ConsumerRef) {p : PartitionRef}
    (handed : p ∈ ((g.join o c).1.consumers c).assignedPartitions)
    (alone : ∀ q ∈ g.allPartitions, (o.partitions q).key = (o.partitions p).key → q = p) :
    ((g.join o c).1.consumers c).offsets.get? (o.partitions p).key =
      some (((o.consumers c).offsets.get? (o.partitions p).key).getD
        ((o.partitions p).getCommittedOffset g.groupId)) := by
  have member : c ∈ (g.members.set (o.idOf c) c).values :=
    Dict.mem_values.mpr ⟨_, Dict.mem_set.mpr (.inl rfl)⟩
  have stood := rebalance_position (keyed.joined c) member handed alone
  rw [Objects.modifyConsumer_consumers, if_pos rfl] at stood
  exact stood

/-- Where a consumer stands in a partition it was handed when the group rebalanced
and the consumer then joined it: where it stood before, or else at a committed
offset, that of the group it was configured for if it was a member already. -/
theorem rebalance_join_position (keyed : g.Keyed o) (c : ConsumerRef) {p : PartitionRef}
    (handed : p ∈ (((rebalance o g).2.join (rebalance o g).1 c).1.consumers c).assignedPartitions)
    (alone : ∀ q ∈ g.allPartitions, (o.partitions q).key = (o.partitions p).key → q = p) :
    (((rebalance o g).2.join (rebalance o g).1 c).1.consumers c).offsets.get? (o.partitions p).key =
      some (((o.consumers c).offsets.get? (o.partitions p).key).getD
        ((o.partitions p).getCommittedOffset
          (if g.members.get? (o.idOf c) = some c then (o.consumers c).config.groupId else g.groupId))) := by
  obtain ⟨groupId, strategy, members, topics⟩ := rebalance_group o g
  have ids : (rebalance o g).1.idOf = o.idOf := rebalance_idOf keyed
  have store : (rebalance o g).1.toStore = o.toStore := rebalance_store keyed
  have partitions : (rebalance o g).1.partitions = o.partitions := congrArg Store.partitions store
  have stood := join_position keyed.rebalanced c handed
  simp only [partitions, allPartitions, topics, groupId] at stood
  rw [stood alone]
  by_cases member : g.members.get? (o.idOf c) = some c
  · have same : (rebalance o g).2.members.set ((rebalance o g).1.idOf c) c = g.members := by
      rw [members, ids, Dict.set_of_get? member]
    have ids₂ := (Objects.shrunk_modify (rebalance o g).1 c (f := fun consumer =>
      { consumer with config := { consumer.config with groupId := (rebalance o g).2.groupId } })
        rfl rfl fun _ held => held).idOf.trans ids
    have again : (((rebalance o g).2.join (rebalance o g).1 c).1.consumers c).assignedPartitions =
        ((rebalance o g).1.consumers c).assignedPartitions := by
      refine rebalance_assigned_congr keyed ids₂ ?_ same ?_ (keyed.member_iff.mpr member)
      · exact strategy
      · simp only [allPartitions, topics]
    have before : p ∈ ((rebalance o g).1.consumers c).assignedPartitions := again ▸ handed
    rw [rebalance_position keyed (keyed.member_iff.mpr member) before alone, if_pos member]
    rfl
  · have other : c ∉ g.members.values := fun listed => member (keyed.member_iff.mp listed)
    rw [rebalance_of_not_member keyed other, if_neg member]

/-- **A rebalance establishes the even division.** -/
theorem rebalance_shared (keyed : g.Keyed o) : (GroupRun.of (rebalance o g)).Shared := by
  obtain ⟨-, -, members, subscribed⟩ := rebalance_group o g
  have all : (rebalance o g).2.allPartitions = g.allPartitions := by
    rw [allPartitions, allPartitions, subscribed]
  constructor
  · intro id c found
    have found : (rebalance o g).2.members.get? id = some c := found
    rw [members] at found
    show (rebalance o g).1.idOf c = id
    rw [rebalance_idOf keyed]
    exact keyed id c found
  · show 0 < (rebalance o g).2.members.length →
      Divided (rebalance o g).2.members.values _ (rebalance o g).2.allPartitions
    rw [members, all]
    intro nonempty
    obtain ⟨-, held, divided, consumers⟩ := rebalance_spec keyed nonempty
    have handed : ∀ c ∈ g.members.values, (GroupRun.of (rebalance o g)).held c = held c := by
      intro c member
      show ((rebalance o g).1.consumers c).assignedPartitions = _
      rw [consumers, if_pos member]
      rfl
    constructor
    · rw [List.flatMap_congr handed]
      exact divided.all
    · intro a first b second
      rw [handed a first, handed b second]
      exact divided.even a first b second

end ConsumerGroup

/-! ## The invariant -/

namespace GroupRun

variable {r : GroupRun}

theorem Shared.congr {o : Objects} (shared : r.Shared) (same : r.objects.SameAssignment o) :
    ({ r with objects := o } : GroupRun).Shared := by
  refine ⟨shared.keyed.congr same.idOf, fun nonempty => ?_⟩
  have held : ({ r with objects := o } : GroupRun).held = r.held := funext same.assigned
  rw [held]
  exact shared.divided nonempty

theorem Shared.step (shared : r.Shared) (op : GroupOp) : (r.step op).Shared := by
  cases op with
  | join c => exact ConsumerGroup.rebalance_shared (shared.keyed.joined c)
  | leave consumerId =>
      rcases ConsumerGroup.leave_cases r.objects r.group consumerId with left | ⟨c, -, left⟩
      · rw [GroupRun.step, left]
        exact shared
      · rw [GroupRun.step, left]
        exact ConsumerGroup.rebalance_shared
          ((shared.keyed.erased consumerId).congr (r.objects.shrunk_revoke c).idOf)
  | subscribe topicName partitions => exact ConsumerGroup.rebalance_shared shared.keyed
  | unsubscribe topicName => exact ConsumerGroup.rebalance_shared shared.keyed
  | removeDeadMembers now =>
      rcases ConsumerGroup.removeDeadMembers_cases now r.objects r.group with removed | removed
      · rw [GroupRun.step, removed]
        exact shared
      · rw [GroupRun.step, removed]
        exact ConsumerGroup.rebalance_shared (shared.keyed.popDead _)
  | poll c times maxMessages => exact shared.congr (Objects.poll_sameAssignment ..)
  | commit c now => exact shared.congr (Objects.sameAssignment_update rfl rfl rfl)
  | close c now => exact shared.congr (Objects.sameAssignment_update rfl rfl rfl)
  | log op => exact shared.congr ⟨rfl, fun _ => rfl⟩

theorem shared_of_new (fresh : r.group.members = .empty) : r.Shared := by
  constructor
  · intro id c found
    rw [fresh] at found
    cases found
  · intro nonempty
    rw [fresh] at nonempty
    cases nonempty

/-- **Exact, balanced assignment.**  In every state a new group reaches, with at
least one member and no partition subscribed twice: every subscribed partition
is assigned to exactly one member, no member has another one or one twice, and
the sizes of two assignments differ by at most one. -/
theorem run_assigns_exactly (fresh : r.group.members = .empty) (ops : List GroupOp)
    (once : (run step r ops).group.allPartitions.Nodup)
    (nonempty : 0 < (run step r ops).group.members.length) :
    let after := run step r ops
    let members := after.group.members.values
    (∀ p ∈ after.group.allPartitions, ∃! c, c ∈ members ∧ p ∈ after.held c) ∧
    (∀ c ∈ members, (after.held c).Nodup ∧ ∀ p ∈ after.held c, p ∈ after.group.allPartitions) ∧
    (∀ c ∈ members, ∀ d ∈ members, (after.held c).length ≤ (after.held d).length + 1) := by
  intro after members
  have preserved : ∀ r op, Shared r → Shared (r.step op) := fun _ op shared => shared.step op
  have shared : after.Shared := run_preserves preserved (shared_of_new fresh) ops
  have divided := shared.divided nonempty
  refine ⟨fun p member => divided.exists_unique once member, fun c member => ⟨?_, ?_⟩, divided.even⟩
  · exact divided.nodup once member
  · exact fun p assigned => divided.mem_iff.mpr ⟨c, member, assigned⟩

/-- Consumers 0, 1, 2 named after themselves; 2 is closed, so it counts as dead. -/
def threeConsumers : Objects where
  toStore := Store.keyedStart
  consumers c := { consumerId := toString c, active := c ≠ 2 }

def roundRobinOps : List GroupOp :=
  [.join 2, .subscribe "t" [0, 1, 2], .join 0, .join 1, .removeDeadMembers (fun _ => 1),
    .subscribe "u" [3, 4], .leave "0", .join 0]

def roundRobinStart : GroupRun := ⟨threeConsumers, { groupId := "g", strategy := .roundRobin }⟩

theorem roundRobinOps_assigns_exactly :
    let after := run step roundRobinStart roundRobinOps
    let members := after.group.members.values
    (∀ p ∈ after.group.allPartitions, ∃! c, c ∈ members ∧ p ∈ after.held c) ∧
    (∀ c ∈ members, (after.held c).Nodup ∧ ∀ p ∈ after.held c, p ∈ after.group.allPartitions) ∧
    (∀ c ∈ members, ∀ d ∈ members, (after.held c).length ≤ (after.held d).length + 1) :=
  run_assigns_exactly rfl roundRobinOps (by decide +kernel) (by decide +kernel)

end GroupRun

end BrokerLite
