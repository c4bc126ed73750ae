/-
# Broker.Ownership -- one owner per partition in a group

Runs of subscribing, leaving (also on a group object the broker has dropped),
deleting groups and topics, and removing dead consumers.  `under` remembers the
group id each consumer object was subscribed with.

`Owned` is the invariant: whoever holds a partition is a member of a live group
that is subscribed to it, and no two members of a live group hold the same one.
Every change of a group is a rebalance after some consumers were revoked, so one
lemma (`Owned.put`) carries it.  Two paths of the program take a consumer out of
the group without revoking it; `OwnerRun.Clean` excludes them where they matter:

* `join` under an id in use replaces the other object, which may hold something;
* `delete_consumer_group` drops a group that still has members and partitions.
-/
import BrokerLite.Broker.Broker
import BrokerLite.Consume.GroupRun

namespace BrokerLite

open Theory

set_option autoImplicit false

namespace Broker

variable {b : Broker} {under : ConsumerRef → Option String}

def held (b : Broker) (c : ConsumerRef) : List PartitionRef := (b.consumers c).assignedPartitions

/-- The broker knows group object `G` under `groupId`. -/
def Live (b : Broker) (groupId : String) (G : GroupRef) : Prop :=
  b.consumerGroups.get? groupId = some G

def membersOf (b : Broker) (G : GroupRef) : List ConsumerRef := (b.groups G).members.values

def partitionsOf (b : Broker) (G : GroupRef) : List PartitionRef := (b.groups G).allPartitions

structure Owned (b : Broker) (under : ConsumerRef → Option String) : Prop where
  keyed : ∀ G, (b.groups G).Keyed b.toObjects
  born : ∀ groupId G, b.Live groupId G → G < b.nextGroup
  distinct : ∀ groupId groupId' G, b.Live groupId G → b.Live groupId' G → groupId = groupId'
  member : ∀ groupId G, b.Live groupId G → ∀ c ∈ b.membersOf G, under c = some groupId
  /-- A group the broker does not know rebalances nothing. -/
  dormant : ∀ G, (∀ groupId, ¬ b.Live groupId G) → b.membersOf G = [] ∨ b.partitionsOf G = []
  once : ∀ groupId G, b.Live groupId G → (b.partitionsOf G).Nodup
  holder : ∀ c, ∀ p ∈ b.held c,
    ∃ groupId G, b.Live groupId G ∧ c ∈ b.membersOf G ∧ p ∈ b.partitionsOf G
  apart : ∀ groupId G, b.Live groupId G → ∀ c ∈ b.membersOf G, ∀ d ∈ b.membersOf G,
    ∀ p ∈ b.held c, p ∈ b.held d → c = d

/-- What a rebalance leaves with each consumer: a member what the group is
subscribed to, apart from the other members, and anybody else what it had. -/
theorem rebalance_held {o : Objects} {g : ConsumerGroup} (keyed : g.Keyed o) :
    (∀ c ∈ g.members.values, ∀ p ∈ ((g.rebalance o).1.consumers c).assignedPartitions,
      p ∈ g.allPartitions) ∧
    (g.allPartitions.Nodup → ∀ c ∈ g.members.values, ∀ d ∈ g.members.values,
      ∀ p ∈ ((g.rebalance o).1.consumers c).assignedPartitions,
        p ∈ ((g.rebalance o).1.consumers d).assignedPartitions → c = d) ∧
    ∀ c, c ∉ g.members.values → (g.rebalance o).1.consumers c = o.consumers c := by
  have others : ∀ c, c ∉ g.members.values → (g.rebalance o).1.consumers c = o.consumers c :=
    fun _ other => ConsumerGroup.rebalance_of_not_member keyed other
  rcases Nat.eq_zero_or_pos g.members.length with empty | nonempty
  · have none_ : g.members.values = [] := List.length_eq_zero_iff.mp (by rwa [Dict.length_values])
    rw [ConsumerGroup.rebalance_of_empty o empty, none_]
    exact ⟨nofun, fun _ => nofun, fun c _ => rfl⟩
  · obtain ⟨-, held, divided, consumers⟩ := ConsumerGroup.rebalance_spec keyed nonempty
    have assigned : ∀ c ∈ g.members.values,
        ((g.rebalance o).1.consumers c).assignedPartitions = held c := by
      intro c member
      rw [consumers, if_pos member]
      rfl
    refine ⟨fun c member p here => ?_, fun once c first d second p left right => ?_, others⟩
    · rw [assigned c member] at here
      exact divided.mem_iff.mpr ⟨c, member, here⟩
    · rw [assigned c first] at left
      rw [assigned d second] at right
      exact divided.holder_unique once first second left right

section Put

variable {G G' : GroupRef} {o : Objects} {g : ConsumerGroup}

theorem membersOf_put_self : (b.putGroup G (g.rebalance o)).membersOf G = g.members.values := by
  simp [membersOf, (ConsumerGroup.rebalance_group o g).2.2.1]

theorem partitionsOf_put_self :
    (b.putGroup G (g.rebalance o)).partitionsOf G = g.allPartitions := by
  simp [partitionsOf, ConsumerGroup.allPartitions, (ConsumerGroup.rebalance_group o g).2.2.2]

theorem membersOf_put_of_ne (other : G' ≠ G) :
    (b.putGroup G (g.rebalance o)).membersOf G' = b.membersOf G' := by
  rw [membersOf, putGroup_groups_of_ne _ _ other, membersOf]

theorem partitionsOf_put_of_ne (other : G' ≠ G) :
    (b.putGroup G (g.rebalance o)).partitionsOf G' = b.partitionsOf G' := by
  rw [partitionsOf, putGroup_groups_of_ne _ _ other, partitionsOf]

/-- What a consumer holds when group `G` has become `g`: a member has a partition of the group,
which is a live one, since a dropped group hands out nothing; others have what was left. -/
theorem held_put (keyed : g.Keyed o)
    (dormant : (∀ groupId, ¬ b.Live groupId G) → g.members.values = [] ∨ g.allPartitions = [])
    {c : ConsumerRef} {p : PartitionRef} (given : p ∈ (b.putGroup G (g.rebalance o)).held c) :
    (c ∈ g.members.values ∧ p ∈ g.allPartitions ∧ ∃ groupId, b.Live groupId G) ∨
      (c ∉ g.members.values ∧ p ∈ (o.consumers c).assignedPartitions) := by
  obtain ⟨handed, -, others⟩ := rebalance_held keyed
  by_cases mine : c ∈ g.members.values
  · have assigned := handed c mine p given
    refine .inl ⟨mine, assigned, ?_⟩
    by_contra none_
    rcases dormant (fun groupId live => none_ ⟨groupId, live⟩) with empty | empty
    · rw [empty] at mine
      cases mine
    · rw [empty] at assigned
      cases assigned
  · have given : p ∈ ((g.rebalance o).1.consumers c).assignedPartitions := given
    rw [others c mine] at given
    exact .inr ⟨mine, given⟩

/-- Whoever holds a partition after the rebalance is a member of a live group that
is subscribed to it. -/
theorem Owned.put_holder (owned : Owned b under) (shrunk : b.Shrunk o)
    (left : ∀ c ∈ b.membersOf G, c ∉ g.members.values → (o.consumers c).assignedPartitions = [])
    (keyed : g.Keyed o)
    (dormant : (∀ groupId, ¬ b.Live groupId G) → g.members.values = [] ∨ g.allPartitions = [])
    {c : ConsumerRef} {p : PartitionRef} (given : p ∈ (b.putGroup G (g.rebalance o)).held c) :
    ∃ groupId G', b.Live groupId G' ∧ c ∈ (b.putGroup G (g.rebalance o)).membersOf G' ∧
      p ∈ (b.putGroup G (g.rebalance o)).partitionsOf G' := by
  rcases held_put keyed dormant given with ⟨mine, handed, groupId, live⟩ | ⟨other, before⟩
  · exact ⟨groupId, G, live, membersOf_put_self ▸ mine, partitionsOf_put_self ▸ handed⟩
  · obtain ⟨groupId, G', live, joined, subscribed⟩ := owned.holder c p (shrunk.held c p before)
    by_cases same : G' = G
    · subst same
      rw [left c joined other] at before
      cases before
    · exact ⟨groupId, G', live, (membersOf_put_of_ne same).symm ▸ joined,
        (partitionsOf_put_of_ne same).symm ▸ subscribed⟩

/-- The members of another live group hold nothing that they did not hold before. -/
theorem Owned.put_others (owned : Owned b under) (shrunk : b.Shrunk o)
    (keyed : g.Keyed o)
    (member : ∀ groupId, b.Live groupId G → ∀ c ∈ g.members.values, under c = some groupId)
    (dormant : (∀ groupId, ¬ b.Live groupId G) → g.members.values = [] ∨ g.allPartitions = [])
    {groupId : String} (live : b.Live groupId G') (other : G' ≠ G) {c : ConsumerRef}
    (joined : c ∈ b.membersOf G') {p : PartitionRef}
    (given : p ∈ (b.putGroup G (g.rebalance o)).held c) : p ∈ b.held c := by
  rcases held_put keyed dormant given with ⟨mine, -, groupId', live'⟩ | ⟨-, kept⟩
  · -- one group id for one consumer, so both groups are the live one
    have ids_ : some groupId' = some groupId :=
      (member groupId' live' c mine).symm.trans (owned.member groupId G' live c joined)
    cases ids_
    exact absurd (Option.some.inj (live.symm.trans live')) other
  · exact shrunk.held c p kept

/-- **One change of one group.**  Group `G` becomes `g`, after consumers may have
lost partitions, and is rebalanced. -/
theorem Owned.put (owned : Owned b under) (shrunk : b.Shrunk o)
    (left : ∀ c ∈ b.membersOf G, c ∉ g.members.values → (o.consumers c).assignedPartitions = [])
    (keyed : g.Keyed o)
    (member : ∀ groupId, b.Live groupId G → ∀ c ∈ g.members.values, under c = some groupId)
    (dormant : (∀ groupId, ¬ b.Live groupId G) → g.members.values = [] ∨ g.allPartitions = [])
    (once : ∀ groupId, b.Live groupId G → g.allPartitions.Nodup) :
    Owned (b.putGroup G (g.rebalance o)) under := by
  have same_ids : (b.putGroup G (g.rebalance o)).idOf = b.idOf :=
    (ConsumerGroup.rebalance_idOf keyed).trans shrunk.idOf
  refine ⟨fun G' => ?_, owned.born, owned.distinct, fun groupId G' live => ?_, fun G' none_ => ?_,
    fun groupId G' live => ?_, fun c p given => owned.put_holder shrunk left keyed dormant given,
    fun groupId G' live => ?_⟩
  · by_cases same : G' = G
    · subst same
      intro id c found
      simp only [putGroup_groups_self, (ConsumerGroup.rebalance_group o g).2.2.1] at found
      rw [same_ids, ← shrunk.idOf]
      exact keyed id c found
    · rw [putGroup_groups_of_ne _ _ same]
      exact (owned.keyed G').congr same_ids
  · by_cases same : G' = G
    · subst same
      rw [membersOf_put_self]
      exact member groupId live
    · rw [membersOf_put_of_ne same]
      exact owned.member groupId G' live
  · by_cases same : G' = G
    · subst same
      rw [membersOf_put_self, partitionsOf_put_self]
      exact dormant none_
    · rw [membersOf_put_of_ne same, partitionsOf_put_of_ne same]
      exact owned.dormant G' none_
  · by_cases same : G' = G
    · subst same
      rw [partitionsOf_put_self]
      exact once groupId live
    · rw [partitionsOf_put_of_ne same]
      exact owned.once groupId G' live
  · by_cases same : G' = G
    · subst same
      rw [membersOf_put_self]
      exact (rebalance_held keyed).2.1 (once groupId live)
    · rw [membersOf_put_of_ne same]
      intro c first d second p left_ right_
      apply owned.apart groupId G' live c first d second p
      · exact owned.put_others shrunk keyed member dormant live same first left_
      · exact owned.put_others shrunk keyed member dormant live same second right_

end Put

/-! ## What the groups are subscribed to -/

/-- The topics have distinct partition objects, all of them created. -/
structure Registered (b : Broker) : Prop where
  nodup : ∀ name t, b.topics.get? name = some t → t.partitions.Nodup
  created : ∀ name t, b.topics.get? name = some t → ∀ p ∈ t.partitions, p < b.nextPartition
  disjoint : ∀ name t name' t', b.topics.get? name = some t → b.topics.get? name' = some t' →
    name ≠ name' → List.Disjoint t.partitions t'.partitions

/-- What group `g` is subscribed to under a name is that topic, as it is now. -/
def Current (topics : Dict String Topic) (g : ConsumerGroup) : Prop :=
  ∀ name ps, g.subscribedTopics.get? name = some ps →
    ∃ t, topics.get? name = some t ∧ t.partitions = ps

theorem Registered.once (registered : b.Registered) {g : ConsumerGroup} (current : Current b.topics g) :
    g.allPartitions.Nodup := by
  have entries : ∀ e ∈ g.subscribedTopics.entries, ∃ t, b.topics.get? e.1 = some t ∧
      t.partitions = e.2 := fun e member => current e.1 e.2 (Dict.get?_eq_some_iff.mpr member)
  rw [ConsumerGroup.allPartitions, Dict.values, List.nodup_flatten]
  constructor
  · intro ps member
    obtain ⟨e, listed, rfl⟩ := List.mem_map.mp member
    obtain ⟨t, found, same⟩ := entries e listed
    exact same ▸ registered.nodup e.1 t found
  · rw [List.pairwise_map]
    have names := List.pairwise_map.mp g.subscribedTopics.nodup
    refine names.imp_of_mem fun {e e'} listed listed' other => ?_
    obtain ⟨t, found, same⟩ := entries e listed
    obtain ⟨t', found', same'⟩ := entries e' listed'
    rw [← same, ← same']
    exact registered.disjoint e.1 t e'.1 t' found found' other

/-- Topics, groups and owners of one broker in order. -/
structure Orderly (b : Broker) (under : ConsumerRef → Option String) : Prop where
  owned : Owned b under
  registered : b.Registered
  current : ∀ groupId G, b.Live groupId G → Current b.topics (b.groups G)

theorem Current.rebalanced {topics : Dict String Topic} {g : ConsumerGroup} (current : Current topics g)
    (o : Objects) : Current topics (g.rebalance o).2 := by
  intro name ps found
  rw [(ConsumerGroup.rebalance_group o g).2.2.2] at found
  exact current name ps found

/-- `Owned.put` for a change that keeps every subscription current. -/
theorem Orderly.put (orderly : Orderly b under) {G : GroupRef} {o : Objects} {g : ConsumerGroup}
    (shrunk : b.Shrunk o)
    (left : ∀ c ∈ b.membersOf G, c ∉ g.members.values → (o.consumers c).assignedPartitions = [])
    (keyed : g.Keyed o)
    (member : ∀ groupId, b.Live groupId G → ∀ c ∈ g.members.values, under c = some groupId)
    (dormant : (∀ groupId, ¬ b.Live groupId G) → g.members.values = [] ∨ g.allPartitions = [])
    (current : ∀ groupId, b.Live groupId G → Current b.topics g) :
    Orderly (b.putGroup G (g.rebalance o)) under := by
  refine ⟨orderly.owned.put shrunk left keyed member dormant
    fun groupId live => orderly.registered.once (current groupId live),
    ⟨orderly.registered.nodup, orderly.registered.created, orderly.registered.disjoint⟩, ?_⟩
  intro groupId G' live
  by_cases same : G' = G
  · subst same
    simp only [putGroup_groups_self]
    exact (current groupId live).rebalanced o
  · simp only [putGroup_groups_of_ne _ _ same]
    exact orderly.current groupId G' live

/-! ## The operations -/

theorem Orderly.leave (orderly : Orderly b under) (G : GroupRef) (consumerId : String) :
    Orderly (b.leave G consumerId).2 under := by
  rcases ConsumerGroup.leave_cases b.toObjects (b.groups G) consumerId with left | ⟨c, found, left⟩
  · have same : (b.leave G consumerId).2 = b := by simp [Broker.leave, left, putGroup]
    rw [same]
    exact orderly
  · rw [Broker.leave, left]
    have shrunk := b.shrunk_revoke c
    refine orderly.put shrunk (fun d before after => ?_)
      (((orderly.owned.keyed G).erased consumerId).congr shrunk.idOf)
      (fun groupId live d member =>
        orderly.owned.member groupId G live d (Dict.mem_values_erase member))
      (fun none_ => ?_) (fun groupId live => orderly.current groupId G live)
    · have popped := Dict.get?_of_not_mem_erase before after
      rw [found, Option.some.injEq] at popped
      exact popped ▸ b.revoke_held c
    · refine (orderly.owned.dormant G none_).imp_left fun empty => ?_
      refine List.eq_nil_iff_forall_not_mem.mpr fun d member => ?_
      have before : d ∈ b.membersOf G := Dict.mem_values_erase member
      rw [empty] at before
      cases before

theorem Orderly.removeDead (orderly : Orderly b under) (G : GroupRef) (now : String → Timestamp) :
    Orderly (b.putGroup G ((b.groups G).removeDeadMembers now b.toObjects).2) under := by
  rcases ConsumerGroup.removeDeadMembers_cases now b.toObjects (b.groups G) with removed | removed
  · have same : b.putGroup G ((b.groups G).removeDeadMembers now b.toObjects).2 = b := by
      simp [removed, putGroup]
    rw [same]
    exact orderly
  · rw [removed]
    obtain ⟨shrunk, -, subscribed, -, members, left⟩ := ConsumerGroup.popDead_spec
      ((b.groups G).deadMembers now b.toObjects) b.toObjects (b.groups G)
    refine orderly.put shrunk left ((orderly.owned.keyed G).popDead _)
      (fun groupId live c member => orderly.owned.member groupId G live c (members c member))
      (fun none_ => ?_) (fun groupId live name ps found => ?_)
    · rw [ConsumerGroup.allPartitions, subscribed]
      refine (orderly.owned.dormant G none_).imp_left fun empty => ?_
      refine List.eq_nil_iff_forall_not_mem.mpr fun c member => ?_
      have before : c ∈ b.membersOf G := members c member
      rw [empty] at before
      cases before
    · rw [subscribed] at found
      exact orderly.current groupId G live name ps found

theorem Orderly.removeDeadFrom (orderly : Orderly b under) (now : String → String → Timestamp)
    (entries : List (String × GroupRef)) (results : Dict String (List String)) :
    Orderly (removeDeadFrom now entries results b).2 under := by
  induction entries generalizing b results with
  | nil => exact orderly
  | cons e rest ih => exact ih (orderly.removeDead e.2 (now e.1)) _

theorem Orderly.deleteConsumerGroup (orderly : Orderly b under) {groupId : String}
    (empty : ∀ G, b.Live groupId G → b.membersOf G = [] ∨ b.partitionsOf G = []) :
    Orderly (b.deleteConsumerGroup groupId).2 under := by
  have before : ∀ {id G}, (b.deleteConsumerGroup groupId).2.Live id G → b.Live id G :=
    fun live => (Dict.get?_erase_eq_some_iff.mp live).2
  have after : ∀ {id G}, b.Live id G → id ≠ groupId → (b.deleteConsumerGroup groupId).2.Live id G :=
    fun live other => (Dict.get?_erase_of_ne _ other).trans live
  have owned := orderly.owned
  refine ⟨⟨owned.keyed, fun id G live => owned.born id G (before live),
    fun id id' G live live' => owned.distinct id id' G (before live) (before live'),
    fun id G live => owned.member id G (before live), fun G none_ => ?_,
    fun id G live => owned.once id G (before live), fun c p given => ?_,
    fun id G live => owned.apart id G (before live)⟩,
    ⟨orderly.registered.nodup, orderly.registered.created, orderly.registered.disjoint⟩,
    fun id G live => orderly.current id G (before live)⟩
  · by_cases deleted : b.Live groupId G
    · exact empty G deleted
    · refine owned.dormant G fun id live => none_ id (after live ?_)
      rintro rfl
      exact deleted live
  · obtain ⟨id, G, live, member, subscribed⟩ := owned.holder c p given
    refine ⟨id, G, after live ?_, member, subscribed⟩
    rintro rfl
    rcases empty G live with none_ | none_
    · rw [none_] at member
      cases member
    · rw [none_] at subscribed
      cases subscribed

/-- While a deleted topic's groups unsubscribe one after another, only those
still to come may have a subscription that is not current. -/
theorem unsubscribeAll_orderly {name : String} (groups : List GroupRef) (owned : Owned b under)
    (registered : b.Registered)
    (current : ∀ groupId G, b.Live groupId G → ∀ other ps,
      (b.groups G).subscribedTopics.get? other = some ps →
        (∃ t, b.topics.get? other = some t ∧ t.partitions = ps) ∨ (other = name ∧ G ∈ groups)) :
    Orderly (unsubscribeAll name groups b) under := by
  induction groups generalizing b with
  | nil =>
      refine ⟨owned, registered, fun groupId G live other ps found => ?_⟩
      rcases current groupId G live other ps found with here | ⟨-, member⟩
      · exact here
      · cases member
  | cons G rest ih =>
      let g : ConsumerGroup :=
        { b.groups G with subscribedTopics := (b.groups G).subscribedTopics.erase name }
      have fewer : g.allPartitions.Sublist (b.partitionsOf G) :=
        ((b.groups G).subscribedTopics.values_erase_sublist name).flatten
      refine ih (b := b.putGroup G (g.rebalance b.toObjects)) ?_ ?_ ?_
      · refine owned.put (.refl _) (fun c before after => absurd before after) (owned.keyed G)
          (owned.member · G) (fun none_ => (owned.dormant G none_).imp_right fun empty => ?_)
          (fun groupId live => (owned.once groupId G live).sublist fewer)
        rw [empty] at fewer
        exact List.sublist_nil.mp fewer
      · exact ⟨registered.nodup, registered.created, registered.disjoint⟩
      · intro groupId G' live other ps found
        by_cases same : G' = G
        · subst same
          simp only [putGroup_groups_self,
            (ConsumerGroup.rebalance_group b.toObjects g).2.2.2] at found
          obtain ⟨kept, found⟩ := Dict.get?_erase_eq_some_iff.mp found
          exact .inl ((current groupId G' live other ps found).resolve_right fun gone =>
            kept gone.1)
        · simp only [putGroup_groups_of_ne _ _ same] at found
          refine (current groupId G' live other ps found).imp_right fun there => ?_
          exact ⟨there.1, (List.mem_cons.mp there.2).resolve_left same⟩

theorem Orderly.deleteTopic (orderly : Orderly b under) (name : String) :
    Orderly (b.deleteTopic name).2 under := by
  unfold Broker.deleteTopic
  split
  · exact orderly
  · have kept : ∀ {other t}, (b.topics.erase name).get? other = some t → b.topics.get? other = some t :=
      fun found => (Dict.get?_erase_eq_some_iff.mp found).2
    have registered := orderly.registered
    refine unsubscribeAll_orderly _
      ⟨orderly.owned.keyed, orderly.owned.born, orderly.owned.distinct, orderly.owned.member,
        orderly.owned.dormant, orderly.owned.once, orderly.owned.holder, orderly.owned.apart⟩
      ⟨fun other t found => registered.nodup other t (kept found),
        fun other t found => registered.created other t (kept found),
        fun other t other' t' found found' =>
          registered.disjoint other t other' t' (kept found) (kept found')⟩
      fun groupId G live other ps found => ?_
    obtain ⟨t, listed, same⟩ := orderly.current groupId G live other ps found
    by_cases gone : other = name
    · exact .inr ⟨gone, Dict.mem_values.mpr ⟨groupId, Dict.get?_eq_some_iff.mp live⟩⟩
    · exact .inl ⟨t, (Dict.get?_erase_of_ne _ gone).trans listed, same⟩

/-- A new topic has partitions of its own. -/
theorem Orderly.newTopic (orderly : Orderly b under) {name : String} (config : TopicConfig)
    (absent : b.topics.contains name = false) :
    Orderly { (b.newTopic name config).2 with
      topics := b.topics.set name (b.newTopic name config).1 } under := by
  have fresh : ∀ p ∈ (b.newTopic name config).1.partitions,
      b.nextPartition ≤ p ∧ p < b.nextPartition + config.numPartitions.toNat := fun p member => by
    simpa [Broker.newTopic] using member
  have owned := orderly.owned
  have registered := orderly.registered
  have old_or_new : ∀ {other t}, (b.topics.set name (b.newTopic name config).1).get? other = some t →
      (other = name ∧ t = (b.newTopic name config).1) ∨ b.topics.get? other = some t := by
    intro other t found
    exact (Dict.get?_set_eq_some_iff.mp found).imp_right And.right
  have separate : ∀ other t, b.topics.get? other = some t →
      List.Disjoint t.partitions (b.newTopic name config).1.partitions :=
    fun other t found p old new =>
      absurd (registered.created other t found p old) (Nat.not_lt.mpr (fresh p new).1)
  refine ⟨⟨owned.keyed, owned.born, owned.distinct, owned.member, owned.dormant, owned.once,
    owned.holder, owned.apart⟩, ⟨fun other t found => ?_, fun other t found p member => ?_,
    fun other t other' t' found found' apart => ?_⟩, fun groupId G live other ps found => ?_⟩
  · rcases old_or_new found with ⟨-, rfl⟩ | old
    · exact List.nodup_range'
    · exact registered.nodup other t old
  · show p < b.nextPartition + config.numPartitions.toNat
    rcases old_or_new found with ⟨-, rfl⟩ | old
    · exact (fresh p member).2
    · exact lt_of_lt_of_le (registered.created other t old p member) (Nat.le_add_right ..)
  · rcases old_or_new found with ⟨rfl, rfl⟩ | old <;>
      rcases old_or_new found' with ⟨rfl, rfl⟩ | old'
    · exact absurd rfl apart
    · exact (separate other' t' old').symm
    · exact separate other t old
    · exact registered.disjoint other t other' t' old old' apart
  · obtain ⟨t, listed, same⟩ := orderly.current groupId G live other ps found
    have other_name : other ≠ name := by
      rintro rfl
      rw [Dict.contains, listed] at absent
      cases absent
    exact ⟨t, (Dict.get?_set_of_ne _ other_name _).trans listed, same⟩

theorem Orderly.createTopic (orderly : Orderly b under) (name : String) (config : Option TopicConfig) :
    Orderly (b.createTopic name config).2 under ∧
      ∀ t, (b.createTopic name config).1 = .ok t →
        (b.createTopic name config).2.topics.get? name = some t := by
  unfold Broker.createTopic
  split
  · exact ⟨orderly, fun t made => by cases made⟩
  · next absent =>
      split
      · exact ⟨orderly, fun t made => by cases made⟩
      · refine ⟨orderly.newTopic _ (by simpa using absent), fun t made => ?_⟩
        cases made
        exact Dict.get?_set_self ..

theorem Orderly.topicFor (orderly : Orderly b under) (name : String) :
    Orderly (b.topicFor name).2 under ∧
      ∀ t, (b.topicFor name).1 = .ok t → (b.topicFor name).2.topics.get? name = some t := by
  unfold Broker.topicFor
  split
  · next t found =>
      refine ⟨orderly, fun u same => ?_⟩
      cases same
      exact found
  · exact orderly.createTopic name none

/-- Who is known after a group was created under an id that nobody had. -/
theorem live_newGroup_iff (born : ∀ id G, b.Live id G → G < b.nextGroup) {groupId : String}
    (absent : b.consumerGroups.get? groupId = none) {id : String} {G : GroupRef} :
    (b.consumerGroups.set groupId b.nextGroup).get? id = some G ↔
      (id = groupId ∧ G = b.nextGroup) ∨ (b.Live id G ∧ G ≠ b.nextGroup) := by
  constructor
  · intro live
    rcases Dict.get?_set_eq_some_iff.mp live with here | ⟨-, before⟩
    · exact .inl here
    · exact .inr ⟨before, ne_of_lt (born id G before)⟩
  · rintro (⟨rfl, rfl⟩ | ⟨live, -⟩)
    · exact Dict.get?_set_self ..
    · have other : id ≠ groupId := by
        rintro rfl
        cases absent.symm.trans live
      exact (Dict.get?_set_of_ne _ other _).trans live

/-- A live group is the new one, without members and topics, or was live before. -/
theorem newGroup_live_cases (owned : Owned b under) {groupId : String}
    (absent : b.consumerGroups.get? groupId = none) (strategy : AssignmentStrategy) {id : String}
    {G : GroupRef} (live : (b.consumerGroups.set groupId b.nextGroup).get? id = some G) :
    (id = groupId ∧ G = b.nextGroup ∧
      Function.update b.groups b.nextGroup { groupId, strategy } G = { groupId, strategy }) ∨
    (b.Live id G ∧ G ≠ b.nextGroup ∧
      Function.update b.groups b.nextGroup { groupId, strategy } G = b.groups G) := by
  rcases (live_newGroup_iff owned.born absent).mp live with ⟨same, rfl⟩ | ⟨old, other⟩
  · exact .inl ⟨same, rfl, Function.update_self ..⟩
  · exact .inr ⟨old, other, Function.update_of_ne other ..⟩

/-- A new group has no members and no topics. -/
theorem Owned.newGroup (owned : Owned b under) {groupId : String}
    (absent : b.consumerGroups.get? groupId = none) (strategy : AssignmentStrategy) :
    Owned { b with
      consumerGroups := b.consumerGroups.set groupId b.nextGroup
      groups := Function.update b.groups b.nextGroup { groupId, strategy }
      nextGroup := b.nextGroup + 1 } under := by
  have live_cases : ∀ {id G}, (b.consumerGroups.set groupId b.nextGroup).get? id = some G → _ :=
    newGroup_live_cases owned absent strategy
  have stays : ∀ {id G}, b.Live id G →
      (b.consumerGroups.set groupId b.nextGroup).get? id = some G ∧ G ≠ b.nextGroup := by
    intro id G live
    have old := ne_of_lt (owned.born id G live)
    exact ⟨(live_newGroup_iff owned.born absent).mpr (.inr ⟨live, old⟩), old⟩
  have kept : ∀ {G}, G ≠ b.nextGroup →
      Function.update b.groups b.nextGroup { groupId, strategy } G = b.groups G :=
    fun other => Function.update_of_ne other ..
  refine ⟨fun G => ?_, fun id G live => ?_, fun id id' G live live' => ?_, fun id G live => ?_,
    fun G none_ => ?_, fun id G live => ?_, fun c p given => ?_, fun id G live => ?_⟩
  · by_cases new : G = b.nextGroup
    · subst new
      simp only [Function.update_self]
      exact fun id c found => by cases found
    · simp only [kept new]
      exact owned.keyed G
  · rcases live_cases live with ⟨-, rfl, -⟩ | ⟨old, -⟩
    · exact Nat.lt_succ_self _
    · exact Nat.lt_succ_of_lt (owned.born id G old)
  · rcases live_cases live with ⟨rfl, new, -⟩ | ⟨old, other, -⟩ <;>
      rcases live_cases live' with ⟨rfl, new', -⟩ | ⟨old', other', -⟩
    · rfl
    · exact absurd new other'
    · exact absurd new' other
    · exact owned.distinct id id' G old old'
  · rcases live_cases live with ⟨-, -, empty⟩ | ⟨old, -, same⟩
    · simp only [membersOf, empty]
      exact nofun
    · simp only [membersOf, same]
      exact owned.member id G old
  · have other : G ≠ b.nextGroup := by
      rintro rfl
      exact none_ groupId (Dict.get?_set_self ..)
    simp only [membersOf, partitionsOf, kept other]
    exact owned.dormant G fun id live => none_ id (stays live).1
  · rcases live_cases live with ⟨-, -, empty⟩ | ⟨old, -, same⟩
    · simp only [partitionsOf, empty]
      exact List.nodup_nil
    · simp only [partitionsOf, same]
      exact owned.once id G old
  · obtain ⟨id, G, live, member, subscribed⟩ := owned.holder c p given
    obtain ⟨after, other⟩ := stays live
    refine ⟨id, G, after, ?_, ?_⟩
    · simpa only [membersOf, kept other] using member
    · simpa only [partitionsOf, kept other] using subscribed
  · rcases live_cases live with ⟨-, -, empty⟩ | ⟨old, -, same⟩
    · simp only [membersOf, empty]
      exact nofun
    · simp only [membersOf, same]
      exact owned.apart id G old

theorem Orderly.newGroup (orderly : Orderly b under) {groupId : String}
    (absent : b.consumerGroups.get? groupId = none) (strategy : AssignmentStrategy) :
    Orderly { b with
      consumerGroups := b.consumerGroups.set groupId b.nextGroup
      groups := Function.update b.groups b.nextGroup { groupId, strategy }
      nextGroup := b.nextGroup + 1 } under := by
  have registered := orderly.registered
  refine ⟨orderly.owned.newGroup absent strategy,
    ⟨registered.nodup, registered.created, registered.disjoint⟩, fun id G live => ?_⟩
  rcases newGroup_live_cases orderly.owned absent strategy live with ⟨-, -, empty⟩ | ⟨old, -, same⟩
  · simp only [empty]
    exact fun name ps found => by cases found
  · simp only [same]
    exact orderly.current id G old

theorem Orderly.createConsumerGroup (orderly : Orderly b under) (groupId : String)
    (strategy : AssignmentStrategy) :
    Orderly (b.createConsumerGroup groupId strategy).2 under ∧
      (b.createConsumerGroup groupId strategy).2.Live groupId
        (b.createConsumerGroup groupId strategy).1 ∧
      (b.createConsumerGroup groupId strategy).2.topics = b.topics := by
  unfold Broker.createConsumerGroup
  split
  · next G found => exact ⟨orderly, found, rfl⟩
  · next absent => exact ⟨orderly.newGroup absent strategy, Dict.get?_set_self .., rfl⟩

/-- A topic may change its counter and its subscribers. -/
theorem Orderly.retopic (orderly : Orderly b under) {name : String} {t t' : Topic}
    (found : b.topics.get? name = some t) (same : t'.partitions = t.partitions) :
    Orderly { b with topics := b.topics.set name t' } under := by
  have before : ∀ {other u}, (b.topics.set name t').get? other = some u →
      ∃ u', b.topics.get? other = some u' ∧ u.partitions = u'.partitions := by
    intro other u here
    rcases Dict.get?_set_eq_some_iff.mp here with ⟨same_name, rfl⟩ | ⟨-, before⟩
    · exact ⟨t, same_name ▸ found, same⟩
    · exact ⟨u, before, rfl⟩
  have owned := orderly.owned
  have registered := orderly.registered
  refine ⟨⟨owned.keyed, owned.born, owned.distinct, owned.member, owned.dormant, owned.once,
    owned.holder, owned.apart⟩, ⟨fun other u here => ?_, fun other u here => ?_,
    fun other u other' u' here here' => ?_⟩, fun groupId G live other ps subscribed => ?_⟩
  · obtain ⟨u', listed, partitions⟩ := before here
    exact partitions ▸ registered.nodup other u' listed
  · obtain ⟨u', listed, partitions⟩ := before here
    exact partitions ▸ registered.created other u' listed
  · obtain ⟨v, listed, partitions⟩ := before here
    obtain ⟨v', listed', partitions'⟩ := before here'
    rw [partitions, partitions']
    exact registered.disjoint other v other' v' listed listed'
  · obtain ⟨u, listed, partitions⟩ := orderly.current groupId G live other ps subscribed
    by_cases here : other = name
    · subst here
      rw [found] at listed
      cases listed
      exact ⟨t', Dict.get?_set_self .., same.trans partitions⟩
    · exact ⟨u, (Dict.get?_set_of_ne _ here _).trans listed, partitions⟩

/-- Up to the join, a subscription keeps the invariant and leaves the group live. -/
theorem Orderly.openSubscription (orderly : Orderly b under) (groupId topicName : String) :
    Orderly (b.openSubscription groupId topicName).2 under ∧
      ∀ G, (b.openSubscription groupId topicName).1 = .ok G →
        (b.openSubscription groupId topicName).2.Live groupId G := by
  obtain ⟨orderly₁, found₁⟩ := orderly.topicFor topicName
  unfold Broker.openSubscription
  rcases created : b.topicFor topicName with ⟨raised | t, b₁⟩ <;> rw [created] at orderly₁ found₁
  · exact ⟨orderly₁, nofun⟩
  · obtain ⟨orderly₂, live, topics⟩ := orderly₁.createConsumerGroup groupId .range
    dsimp only
    generalize b₁.createConsumerGroup groupId .range = made at orderly₂ live topics
    have found : made.2.topics.get? topicName = some t := topics ▸ found₁ t rfl
    have orderly₃ : Orderly (made.2.putGroup made.1
        ((made.2.groups made.1).subscribe made.2.toObjects topicName t.partitions)) under := by
      refine orderly₂.put (.refl _) (fun c before after => absurd before after)
        (orderly₂.owned.keyed made.1) (orderly₂.owned.member · made.1)
        (fun none_ => absurd live (none_ groupId)) fun id here name ps subscribed => ?_
      rcases Dict.get?_set_eq_some_iff.mp subscribed with ⟨rfl, rfl⟩ | ⟨-, before⟩
      · exact ⟨t, found, rfl⟩
      · exact orderly₂.current id made.1 here name ps before
    refine ⟨?_, fun G same => ?_⟩
    · exact orderly₃.retopic found rfl
    · cases same
      exact live

/-- A consumer of this group joins; whoever it replaces holds nothing. -/
theorem Orderly.join (orderly : Orderly b under) {groupId : String} {G : GroupRef}
    (live : b.Live groupId G) {c : ConsumerRef} (own : under c = none ∨ under c = some groupId)
    (replaced : ∀ d, d ≠ c → (b.groups G).members.get? (b.idOf c) = some d → b.held d = []) :
    Orderly (b.putGroup G ((b.groups G).join b.toObjects c))
      (Function.update under c (some groupId)) := by
  have shrunk : b.Shrunk (b.modifyConsumer c fun consumer =>
      { consumer with config := { consumer.config with groupId := (b.groups G).groupId } }) :=
    b.shrunk_modify c rfl rfl fun _ member => member
  have owned := orderly.owned
  have under_mono : ∀ {d id}, under d = some id →
      Function.update under c (some groupId) d = some id := by
    intro d id same
    by_cases here : d = c
    · subst here
      rcases own with none_ | own
      · exact absurd (none_.symm.trans same) nofun
      · rw [Function.update_self, ← own, same]
    · rwa [Function.update_of_ne here]
  have orderly' : Orderly b (Function.update under c (some groupId)) :=
    ⟨⟨owned.keyed, owned.born, owned.distinct,
      fun id G live d member => under_mono (owned.member id G live d member), owned.dormant,
      owned.once, owned.holder, owned.apart⟩, orderly.registered, orderly.current⟩
  refine orderly'.put shrunk (fun d before after => ?_) ((owned.keyed G).joined c)
    (fun id here d member => ?_) (fun none_ => absurd live (none_ groupId))
    fun id here => orderly.current id G here
  · have held : b.held d = [] := by
      refine replaced d ?_ (Dict.get?_of_not_mem_set before after)
      rintro rfl
      exact after (Dict.mem_values.mpr ⟨b.idOf d, Dict.mem_set.mpr (.inl rfl)⟩)
    refine List.eq_nil_iff_forall_not_mem.mpr fun p member => ?_
    have before : p ∈ b.held d := shrunk.held d p member
    rw [held] at before
    cases before
  · have same := owned.distinct id groupId G here live
    subst same
    rcases Dict.mem_values_set member with rfl | old
    · exact Function.update_self ..
    · exact under_mono (owned.member id G here d old)

end Broker

/-! ## Over whole runs -/

structure OwnerRun where
  broker : Broker
  /-- The group id each consumer object was subscribed with. -/
  under : ConsumerRef → Option String := fun _ => none

inductive OwnerOp where
  | subscribe (groupId topicName : String) (c : ConsumerRef)
  | leave (G : GroupRef) (consumerId : String)
  | deleteConsumerGroup (groupId : String)
  | deleteTopic (name : String)
  | removeDeadConsumers (now : String → String → Timestamp)
  | createTopic (name : String) (config : Option TopicConfig)
  | createConsumerGroup (groupId : String) (strategy : AssignmentStrategy)

namespace OwnerRun

def step (r : OwnerRun) : OwnerOp → OwnerRun
  | .subscribe groupId topicName c =>
      let done := r.broker.subscribe groupId topicName c
      { broker := done.2
        under := match done.1 with
          | .ok _ => Function.update r.under c (some groupId)
          | .error _ => r.under }
  | .leave G consumerId => { r with broker := (r.broker.leave G consumerId).2 }
  | .deleteConsumerGroup groupId => { r with broker := (r.broker.deleteConsumerGroup groupId).2 }
  | .deleteTopic name => { r with broker := (r.broker.deleteTopic name).2 }
  | .removeDeadConsumers now => { r with broker := (r.broker.removeDeadConsumers now).2 }
  | .createTopic name config => { r with broker := (r.broker.createTopic name config).2 }
  | .createConsumerGroup groupId strategy =>
      { r with broker := (r.broker.createConsumerGroup groupId strategy).2 }

/-- The consumer that is about to join replaces no other object that holds
something. -/
def JoinsFreely (c : ConsumerRef) : Except Raised GroupRef × Broker → Prop
  | (.error _, _) => True
  | (.ok G, opened) =>
      ∀ d ∈ (opened.groups G).members.get? (opened.idOf c), d ≠ c → opened.held d = []

instance (c : ConsumerRef) : ∀ opened, Decidable (JoinsFreely c opened)
  | (.error _, _) => isTrue trivial
  | (.ok G, opened) => inferInstanceAs (Decidable
      (∀ d ∈ (opened.groups G).members.get? (opened.idOf c), d ≠ c → opened.held d = []))

/-- Each object is used with one group id.  A join replaces no other object that
holds something, and a deleted group has no members or no partitions. -/
def Clean (r : OwnerRun) : OwnerOp → Prop
  | .subscribe groupId topicName c =>
      (r.under c = none ∨ r.under c = some groupId) ∧
      JoinsFreely c (r.broker.openSubscription groupId topicName)
  | .deleteConsumerGroup groupId => ∀ G ∈ r.broker.consumerGroups.get? groupId,
      r.broker.membersOf G = [] ∨ r.broker.partitionsOf G = []
  | _ => True

/-- No two objects subscribed under one group id hold the same partition. -/
def Exclusive (r : OwnerRun) : Prop :=
  ∀ groupId p c d, r.under c = some groupId → r.under d = some groupId →
    p ∈ r.broker.held c → p ∈ r.broker.held d → c = d

/-- A new broker, no group objects, and consumers that hold nothing. -/
structure Start (r : OwnerRun) : Prop where
  topics : r.broker.topics = .empty
  consumerGroups : r.broker.consumerGroups = .empty
  groups : ∀ G, (r.broker.groups G).members = .empty
  held : ∀ c, r.broker.held c = []

variable {r : OwnerRun}

theorem Start.orderly (start : r.Start) : r.broker.Orderly r.under := by
  have none_live : ∀ groupId G, ¬ r.broker.Live groupId G := fun groupId G live => by
    rw [Broker.Live, start.consumerGroups] at live
    cases live
  have no_topic : ∀ name t, r.broker.topics.get? name ≠ some t := fun name t found => by
    rw [start.topics] at found
    cases found
  refine ⟨⟨fun G id c found => ?_, fun id G live => absurd live (none_live id G),
    fun id id' G live => absurd live (none_live id G), fun id G live => absurd live (none_live id G),
    fun G _ => .inl ?_, fun id G live => absurd live (none_live id G), fun c p given => ?_,
    fun id G live => absurd live (none_live id G)⟩,
    ⟨fun name t found => absurd found (no_topic name t),
      fun name t found => absurd found (no_topic name t),
      fun name t _ _ found => absurd found (no_topic name t)⟩,
    fun id G live => absurd live (none_live id G)⟩
  · rw [start.groups] at found
    cases found
  · rw [Broker.membersOf, start.groups]
    rfl
  · rw [start.held] at given
    cases given

theorem orderly_step (orderly : r.broker.Orderly r.under) {op : OwnerOp} (clean : r.Clean op) :
    (r.step op).broker.Orderly (r.step op).under := by
  cases op with
  | subscribe groupId topicName c =>
      obtain ⟨own, replaced⟩ := clean
      obtain ⟨orderly₁, live₁⟩ := orderly.openSubscription groupId topicName
      simp only [step, Broker.subscribe]
      rcases opened : r.broker.openSubscription groupId topicName with ⟨raised | G, b₁⟩ <;>
        rw [opened] at orderly₁ live₁ replaced
      · exact orderly₁
      · exact orderly₁.join (live₁ G rfl) own fun d other found => replaced d found other
  | leave G consumerId => exact orderly.leave G consumerId
  | deleteConsumerGroup groupId => exact orderly.deleteConsumerGroup clean
  | deleteTopic name => exact orderly.deleteTopic name
  | removeDeadConsumers now => exact orderly.removeDeadFrom now _ _
  | createTopic name config => exact (orderly.createTopic name config).1
  | createConsumerGroup groupId strategy => exact (orderly.createConsumerGroup groupId strategy).1

theorem exclusive_of_orderly (orderly : r.broker.Orderly r.under) : r.Exclusive := by
  intro groupId p c d one other left right
  have owned := orderly.owned
  obtain ⟨id, G, live, joined, -⟩ := owned.holder c p left
  obtain ⟨id', G', live', joined', -⟩ := owned.holder d p right
  have first := (owned.member id G live c joined).symm.trans one
  have second := (owned.member id' G' live' d joined').symm.trans other
  cases first
  cases second
  have same : G = G' := Option.some.inj (live.symm.trans live')
  subst same
  exact owned.apart groupId G live c joined d joined' p left right

/-- **One owner per partition in every clean run.** -/
theorem clean_run_exclusive (start : r.Start) {ops : List OwnerOp} (clean : Guarded step Clean r ops) :
    ∀ before after, ops = before ++ after → (run step r before).Exclusive := by
  rintro before after rfl
  have preserved : ∀ r op, (broker r).Orderly (under r) → r.Clean op →
      (r.step op).broker.Orderly (r.step op).under := fun _ _ orderly clean => orderly_step orderly clean
  exact exclusive_of_orderly
    (run_invariant preserved start.orderly ((guarded_append r before after).mp clean).1)

instance (r : OwnerRun) : ∀ op, Decidable (r.Clean op)
  | .subscribe groupId topicName c =>
      inferInstanceAs (Decidable ((r.under c = none ∨ r.under c = some groupId) ∧
        JoinsFreely c (r.broker.openSubscription groupId topicName)))
  | .deleteConsumerGroup groupId =>
      inferInstanceAs (Decidable (∀ G ∈ r.broker.consumerGroups.get? groupId,
        r.broker.membersOf G = [] ∨ r.broker.partitionsOf G = []))
  | .leave _ _ => isTrue trivial
  | .deleteTopic _ => isTrue trivial
  | .removeDeadConsumers _ => isTrue trivial
  | .createTopic _ _ => isTrue trivial
  | .createConsumerGroup _ _ => isTrue trivial

/-- Consumers 0 and 1 have one id between them. -/
def sharedIdStart : OwnerRun where
  broker :=
    { toStore := Store.keyedStart
      consumers := fun c => { consumerId := if c < 2 then "a" else "b" }
      groups := fun _ => { groupId := "" } }

theorem sharedIdStart_start : sharedIdStart.Start := ⟨rfl, rfl, fun _ => rfl, fun _ => rfl⟩

/-- Consumer 1 takes over the id of consumer 0 after that one has left; the group
is deleted once its topic is gone, and created again. -/
def reusedIdOps : List OwnerOp :=
  [.subscribe "g" "t" 0, .subscribe "g" "t" 2, .leave 0 "a", .subscribe "g" "t" 1,
    .deleteTopic "t", .deleteConsumerGroup "g", .subscribe "g" "t" 2,
    .removeDeadConsumers fun _ _ => 1]

theorem reusedIdOps_exclusive : (run step sharedIdStart reusedIdOps).Exclusive :=
  clean_run_exclusive sharedIdStart_start (by decide +kernel) reusedIdOps [] rfl

/-- A consumer that joins under the id of a member does not revoke that member,
and deleting a group revokes nobody: either way two objects of the group hold
partition 0. -/
theorem unrevoked_owner_remains :
    ¬ (run step sharedIdStart [.subscribe "g" "t" 0, .subscribe "g" "t" 1]).Exclusive ∧
    ¬ (run step sharedIdStart
      [.subscribe "g" "t" 0, .deleteConsumerGroup "g", .subscribe "g" "t" 2]).Exclusive := by
  constructor
  · intro exclusive
    have same : (0 : ConsumerRef) = 1 := exclusive "g" 0 0 1 (by decide +kernel) (by decide +kernel)
      (by decide +kernel) (by decide +kernel)
    cases same
  · intro exclusive
    have same : (0 : ConsumerRef) = 2 := exclusive "g" 0 0 2 (by decide +kernel) (by decide +kernel)
      (by decide +kernel) (by decide +kernel)
    cases same

end OwnerRun

end BrokerLite
