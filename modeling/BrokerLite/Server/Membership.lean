/-
# Server.Membership -- who is a member while connections come and go

The server's connections share one broker.  A JOIN_GROUP makes a consumer, lets
it join and keeps it as the connection's own; a LEAVE_GROUP takes the
connection's consumer out of the group the request names; and when the
connection ends, its consumer is closed.

`Follows` says that the members of the groups are the consumers that open
connections have.  None of the three requests always keeps it, and
`run_follows_iff` says when they do.  The members by group and id, and the
connections' consumers, are two tables that ought to match (`Theory.Matching`):
a join or a leave changes a place in each, the end of a connection one in the
second only.
-/
import BrokerLite.Broker.Atomicity
import BrokerLite.Server.Session
import BrokerLite.Theory.Matching

namespace BrokerLite

open Theory

set_option autoImplicit false

namespace Broker

/-- The member of a group under a consumer id. -/
def memberUnder (b : Broker) (place : String × String) : Option ConsumerRef :=
  (b.consumerGroups.get? place.1).bind fun G => (b.groups G).members.get? place.2

/-- The topic does not exist and must not be created. -/
def Rejects (b : Broker) (topicName : String) : Prop :=
  b.topics.get? topicName = none ∧ 0 < b.config.maxTopics ∧ b.config.maxTopics ≤ b.topics.length

variable {b : Broker}

theorem memberUnder_eq_some_iff {groupId consumerId : String} {c : ConsumerRef} :
    b.memberUnder (groupId, consumerId) = some c ↔
      ∃ G, b.Live groupId G ∧ (b.groups G).members.get? consumerId = some c :=
  Option.bind_eq_some_iff

theorem Arranged.mem_iff (arranged : b.Arranged) {groupId : String} {c : ConsumerRef} :
    (∃ G, b.Live groupId G ∧ c ∈ b.membersOf G) ↔ b.memberUnder (groupId, b.idOf c) = some c := by
  rw [memberUnder_eq_some_iff]
  refine exists_congr fun G => and_congr_right fun live => ?_
  constructor
  · intro member
    obtain ⟨id, entry⟩ := Dict.mem_values.mp member
    have found := Dict.get?_eq_some_iff.mpr entry
    rwa [arranged.keyed G id c found]
  · intro found
    exact Dict.mem_values.mpr ⟨_, Dict.get?_eq_some_iff.mp found⟩

/-- A member stands under its own id. -/
theorem Arranged.idOf_member (arranged : b.Arranged) {place : String × String} {c : ConsumerRef}
    (member : b.memberUnder place = some c) : place.2 = b.idOf c := by
  obtain ⟨G, -, found⟩ := memberUnder_eq_some_iff.mp member
  exact (arranged.keyed G _ c found).symm

/-! ## What joining and leaving do to the members -/

/-- A change of one live group changes the members under its id. -/
theorem Arranged.memberUnder_put (arranged : b.Arranged) {groupId : String} {G : GroupRef}
    (live : b.Live groupId G) (done : Objects × ConsumerGroup) (place : String × String) :
    (b.putGroup G done).memberUnder place =
      if place.1 = groupId then done.2.members.get? place.2 else b.memberUnder place := by
  obtain ⟨id, consumerId⟩ := place
  have live : b.consumerGroups.get? groupId = some G := live
  by_cases here : id = groupId
  · subst here
    simp [memberUnder, putGroup, live]
  · rw [if_neg here]
    simp only [memberUnder, putGroup]
    cases found : b.consumerGroups.get? id with
    | none => rfl
    | some G' =>
        have other : G' ≠ G := by
          rintro rfl
          exact here (arranged.live_unique found live)
        simp [other]

/-- The same, where only the place of one id changes. -/
theorem Arranged.memberUnder_put_update (arranged : b.Arranged) {groupId consumerId : String}
    {G : GroupRef} (live : b.Live groupId G) {done : Objects × ConsumerGroup}
    {new : Option ConsumerRef}
    (members : ∀ id, done.2.members.get? id =
      if id = consumerId then new else (b.groups G).members.get? id) :
    (b.putGroup G done).memberUnder = Function.update b.memberUnder (groupId, consumerId) new := by
  funext ⟨id, id'⟩
  rw [arranged.memberUnder_put live, Function.update_apply, members]
  have old : b.memberUnder (groupId, id') = (b.groups G).members.get? id' := by
    have live : b.consumerGroups.get? groupId = some G := live
    simp [memberUnder, live]
  by_cases here : id = groupId
  · subst here
    by_cases there : id' = consumerId <;> simp [there, old]
  · simp [here]

theorem Arranged.memberUnder_put_same (arranged : b.Arranged) {groupId : String} {G : GroupRef}
    (live : b.Live groupId G) {done : Objects × ConsumerGroup}
    (members : done.2.members = (b.groups G).members) :
    (b.putGroup G done).memberUnder = b.memberUnder := by
  have live' : b.consumerGroups.get? groupId = some G := live
  funext ⟨id, consumerId⟩
  rw [arranged.memberUnder_put live, members]
  split
  · next here => simp [memberUnder, show id = groupId from here, live']
  · rfl

/-- A group that is only now created has no members. -/
theorem Arranged.memberUnder_createConsumerGroup (arranged : b.Arranged) (groupId : String)
    (strategy : AssignmentStrategy) :
    (b.createConsumerGroup groupId strategy).2.memberUnder = b.memberUnder := by
  cases found : b.consumerGroups.get? groupId with
  | some G => simp only [Broker.createConsumerGroup, found]
  | none =>
      simp only [Broker.createConsumerGroup, found]
      funext ⟨id, consumerId⟩
      simp only [memberUnder, Dict.get?_set]
      split
      · next here =>
          rw [here, found]
          simp
      · cases listed : b.consumerGroups.get? id with
        | none => rfl
        | some G =>
            have old : G ≠ b.nextGroup := ne_of_lt (arranged.live id G listed).1
            simp [old]

theorem leave_members (b : Broker) (G : GroupRef) (consumerId id : String) :
    (((b.groups G).leave b.toObjects consumerId).2.2.members).get? id =
      if id = consumerId then none else (b.groups G).members.get? id := by
  rcases ConsumerGroup.leave_cases b.toObjects (b.groups G) consumerId with left | ⟨c, -, left⟩
  · have absent : (b.groups G).members.get? consumerId = none := by
      cases found : (b.groups G).members.get? consumerId with
      | none => rfl
      | some c => simp [ConsumerGroup.leave, found] at left
    rw [left]
    split
    · next here => rw [here, absent]
    · rfl
  · rw [left]
    simp only [(ConsumerGroup.rebalance_group ..).2.2.1, Dict.get?_erase]

theorem leave_kept (b : Broker) (G : GroupRef) (consumerId : String) {G' : GroupRef} {id : String}
    {c : ConsumerRef} (found : ((b.leave G consumerId).2.groups G').members.get? id = some c) :
    (b.groups G').members.get? id = some c := by
  by_cases here : G' = G
  · subst here
    simp only [Broker.leave, putGroup_groups_self, leave_members] at found
    split at found
    · cases found
    · exact found
  · simpa only [Broker.leave, putGroup_groups_of_ne _ _ here] using found

theorem Arranged.memberUnder_leave (arranged : b.Arranged) {groupId : String} {G : GroupRef}
    (live : b.Live groupId G) (consumerId : String) :
    (b.leave G consumerId).2.memberUnder =
      Function.update b.memberUnder (groupId, consumerId) none :=
  arranged.memberUnder_put_update live (b.leave_members G consumerId)

/-- Whether there is, or will be, a topic. -/
theorem topicFor_rejects (b : Broker) (name : String) :
    (b.Rejects name ∧ b.topicFor name = (.error (.valueError (.maximumTopics b.config.maxTopics)), b)) ∨
      ¬ b.Rejects name ∧ ∃ t b₁, b.topicFor name = (.ok t, b₁) := by
  cases found : b.topics.get? name with
  | some t =>
      refine .inr ⟨fun rejects => ?_, t, b, by simp [topicFor, found]⟩
      cases found.symm.trans rejects.1
  | none =>
      by_cases full : 0 < b.config.maxTopics ∧ b.config.maxTopics ≤ b.topics.length
      · exact .inl ⟨⟨found, full⟩, topicFor_full found full⟩
      · obtain ⟨t, b₁, created, -⟩ := topicFor_created found (by omega)
        exact .inr ⟨fun rejects => full rejects.2, t, b₁, created⟩

theorem createConsumerGroup_kept (b : Broker) (groupId : String) (strategy : AssignmentStrategy)
    {G : GroupRef} {id : String} {c : ConsumerRef}
    (found : ((b.createConsumerGroup groupId strategy).2.groups G).members.get? id = some c) :
    (b.groups G).members.get? id = some c := by
  unfold createConsumerGroup at found
  split at found
  · exact found
  · by_cases new : G = b.nextGroup
    · subst new
      simp at found
    · simpa only [Function.update_of_ne new] using found

/-- Up to the point where the consumer joins, nobody becomes a member or stops being one. -/
theorem Arranged.openSubscription_members (arranged : b.Arranged) (groupId : String)
    {topicName : String} {t : Topic} {b₁ : Broker} (created : b.topicFor topicName = (.ok t, b₁)) :
    ∃ G b', b.openSubscription groupId topicName = (.ok G, b') ∧ b'.Live groupId G ∧
      b'.idOf = b.idOf ∧
      (∀ G' id d, (b'.groups G').members.get? id = some d → (b.groups G').members.get? id = some d) ∧
      b'.memberUnder = b.memberUnder := by
  rcases b.openSubscription_cases groupId topicName with ⟨raised, b₁', failed, -⟩ |
    ⟨t', b₁', G, b₂, created', made, opened⟩
  · cases created.symm.trans failed
  cases created.symm.trans created'
  have arranged₁ := arranged.topicFor topicName
  obtain ⟨consumers, groups, consumerGroups⟩ := topicFor_kept created
  rw [created] at arranged₁
  have arranged₁ : b₁.Arranged := arranged₁
  have arranged₂ := arranged₁.createConsumerGroup groupId .range
  have kept : ∀ {G id c}, _ → (b₁.groups G).members.get? id = some c :=
    b₁.createConsumerGroup_kept groupId .range
  have members := arranged₁.memberUnder_createConsumerGroup groupId .range
  obtain ⟨live, objects, -⟩ := b₁.createConsumerGroup_live groupId .range
  rw [made] at arranged₂ kept members live objects
  dsimp only at arranged₂ kept members live objects
  have keyed : (b₂.subscribed G topicName t.partitions).Keyed b₂.toObjects := arranged₂.keyed G
  have rebalanced := ConsumerGroup.rebalance_group b₂.toObjects (b₂.subscribed G topicName t.partitions)
  refine ⟨G, _, opened, live, ?_, fun G' id d found => ?_, ?_⟩
  · refine (ConsumerGroup.rebalance_idOf keyed).trans ?_
    funext d
    simp only [Objects.idOf, objects, consumers]
  · rw [← groups]
    apply kept
    by_cases here : G' = G
    · subst here
      simp only [putGroup_groups_self, rebalanced.2.2.1] at found
      exact found
    · simpa [putGroup_groups_of_ne _ _ here] using found
  · refine (arranged₂.memberUnder_put_same live rebalanced.2.2.1).trans (members.trans ?_)
    funext place
    simp only [memberUnder, groups, consumerGroups]

/-- **What a subscription does to the members.**  It raises, and nothing changed
about groups and consumers, exactly when the broker rejects the topic; otherwise
the consumer stands under its id, in place of who stood there. -/
theorem Arranged.subscribe_members (arranged : b.Arranged) (groupId topicName : String)
    (c : ConsumerRef) :
    (b.Rejects topicName ∧ ∃ e, b.subscribe groupId topicName c = (.error (.valueError e), b)) ∨
    ¬ b.Rejects topicName ∧ ∃ G b', b.subscribe groupId topicName c = (.ok G, b') ∧
      b'.idOf = b.idOf ∧
      (∀ G' id d, (b'.groups G').members.get? id = some d →
        d = c ∨ (b.groups G').members.get? id = some d) ∧
      b'.memberUnder = Function.update b.memberUnder (groupId, b.idOf c) (some c) := by
  rcases b.topicFor_rejects topicName with ⟨rejects, failed⟩ | ⟨accepts, t, b₁, created⟩
  · refine .inl ⟨rejects, .maximumTopics b.config.maxTopics, ?_⟩
    simp only [Broker.subscribe, Broker.openSubscription, failed]
  · obtain ⟨G, b', opened, live, ids, kept, members⟩ :=
      arranged.openSubscription_members groupId created
    have arranged' := arranged.openSubscription groupId topicName
    rw [opened] at arranged'
    have arranged' : b'.Arranged := arranged'
    have id : b'.idOf c = b.idOf c := congrFun ids c
    have joined : ∀ id', (((b'.groups G).join b'.toObjects c).2.members).get? id' =
        if id' = b.idOf c then some c else (b'.groups G).members.get? id' := by
      intro id'
      rw [ConsumerGroup.join, (ConsumerGroup.rebalance_group ..).2.2.1, Dict.get?_set, id]
    have outcome : b.subscribe groupId topicName c =
        (.ok G, b'.putGroup G ((b'.groups G).join b'.toObjects c)) := by
      simp only [Broker.subscribe, opened]
    refine .inr ⟨accepts, G, _, outcome, ?_, fun G' id' d found => ?_, ?_⟩
    · have joinedIds := ConsumerGroup.rebalance_idOf ((arranged'.keyed G).joined c)
      exact joinedIds.trans ((b'.shrunk_modify c rfl rfl fun _ member => member).idOf.trans ids)
    · by_cases here : G' = G
      · subst here
        simp only [putGroup_groups_self, joined] at found
        split at found
        · exact .inl (Option.some.inj found).symm
        · exact .inr (kept _ _ _ found)
      · simp only [putGroup_groups_of_ne _ _ here] at found
        exact .inr (kept _ _ _ found)
    · rw [arranged'.memberUnder_put_update live joined, members]

/-! ## A new consumer, and the end of one -/

/-- A new consumer object concerns no group, as long as nobody is a member by its reference. -/
theorem Arranged.newConsumer (arranged : b.Arranged) (c : ConsumerRef) (consumer : Consumer)
    (unknown : ∀ G id, (b.groups G).members.get? id ≠ some c) :
    (b.withObjects (b.modifyConsumer c fun _ => consumer)).Arranged := by
  have keys : b.SameKeys (b.withObjects (b.modifyConsumer c fun _ => consumer)) :=
    .refl b rfl fun _ => rfl
  refine ⟨fun G id d found => ?_, arranged.live, fun name t found => ?_,
    fun G name ps found => (arranged.subscribed G name ps found).mono keys⟩
  · have other : d ≠ c := fun same => unknown G id (same ▸ found)
    have kept := arranged.keyed G id d found
    rw [Objects.idOf] at kept ⊢
    rwa [Broker.withObjects, Objects.modifyConsumer_consumers, if_neg other]
  · obtain ⟨named, partitions⟩ := arranged.topics name t found
    exact ⟨named, partitions.mono keys⟩

end Broker

namespace Session

variable {σ : Type}

/-- `_cleanup`, up to the connection's socket and entry. -/
def cleanup (now : Timestamp) (s : Session σ) : Session σ :=
  match s.consumer with
  | some c => { s with broker := s.broker.withObjects (s.broker.toObjects.close c now) }
  | none => s

end Session

/-- A server with its open connections. -/
structure ServerRun (σ : Type) where
  broker : Broker
  queues : Queues
  middleware : σ
  /-- The handlers of the open connections, with the consumer that each has. -/
  handlers : ℕ → Option (Option ConsumerRef) := fun _ => none
  nextConsumer : ConsumerRef := 0
  /-- The group that a consumer last joined; the program keeps no such table. -/
  lastJoined : ConsumerRef → Option String := fun _ => none

inductive ServerOp where
  | connect (i : ℕ)
  | joinGroup (i : ℕ) (at_ : Circumstances) (groupId topic : String) (consumerId : Option String)
  /-- Where the id cannot be a dict key the connection ends, at a clock reading. -/
  | leaveGroup (i : ℕ) (groupId : Value) (now : Timestamp)
  | disconnect (i : ℕ) (now : Timestamp)

namespace ServerRun

variable {σ : Type}

def session (r : ServerRun σ) (consumer : Option ConsumerRef) : Session σ where
  broker := r.broker
  queues := r.queues
  middleware := r.middleware
  consumer := consumer

/-- The server after what a handler did. -/
def after (r : ServerRun σ) (i : ℕ) (s : Session σ) : ServerRun σ :=
  { r with
    broker := s.broker
    queues := s.queues
    middleware := s.middleware
    handlers := Function.update r.handlers i (some s.consumer) }

/-- The server after a connection has ended. -/
def ended (r : ServerRun σ) (i : ℕ) (consumer : Option ConsumerRef) (now : Timestamp) : ServerRun σ :=
  let left := r.after i ((r.session consumer).cleanup now)
  { left with handlers := Function.update left.handlers i none }

/-- A connection that is not open sends nothing and does not end; one that is open
is not opened. -/
def step (server : Server σ) (r : ServerRun σ) : ServerOp → ServerRun σ
  | .connect i =>
      match r.handlers i with
      | some _ => r
      | none => { r with handlers := Function.update r.handlers i (some none) }
  | .joinGroup i at_ groupId topic consumerId =>
      match r.handlers i with
      | none => r
      | some consumer =>
          let c := r.nextConsumer
          let done := (r.session consumer).handleJoinGroup server { at_ with consumer := c } groupId topic
            consumerId
          { r.after i done.session with
            nextConsumer := c + 1
            lastJoined :=
              if done.session.consumer = some c then Function.update r.lastJoined c (some groupId)
              else r.lastJoined }
  | .leaveGroup i groupId now =>
      match r.handlers i with
      | none => r
      | some consumer =>
          if groupId.hashable then r.after i ((r.session consumer).handleLeaveGroup groupId).session
          else r.ended i consumer now
  | .disconnect i now =>
      match r.handlers i with
      | none => r
      | some consumer => r.ended i consumer now

/-- The current `_consumer` of an open connection. -/
def current (r : ServerRun σ) (i : ℕ) : Option ConsumerRef := (r.handlers i).join

/-- The consumer is a member of the broker's group of that id. -/
def IsMember (r : ServerRun σ) (groupId : String) (c : ConsumerRef) : Prop :=
  ∃ G, r.broker.Live groupId G ∧ c ∈ r.broker.membersOf G

/-- The members are the consumers of the open connections, each of the one group it
last joined. -/
structure Follows (r : ServerRun σ) : Prop where
  members : ∀ c, (∃ groupId, r.IsMember groupId c) ↔ ∃ i, r.current i = some c
  lastJoined : ∀ i c, r.current i = some c →
    ∀ groupId, r.IsMember groupId c ↔ r.lastJoined c = some groupId

/-- What keeps members and connections in step: a consumer joins in the place of
the connection's own, if anybody's; it leaves the group it is in; and it has left
when the connection ends. -/
def InStep (r : ServerRun σ) : ServerOp → Prop
  | .connect _ => True
  | .joinGroup i at_ groupId topic consumerId =>
      r.handlers i = none ∨ r.broker.Rejects topic ∨
        r.broker.memberUnder (groupId, (Session.newConsumer at_ consumerId).consumerId) = r.current i
  | .leaveGroup i groupId _ =>
      if groupId.hashable then
        ∀ c, r.current i = some c → ∀ G, Session.lookup r.broker.consumerGroups groupId = some G →
          (r.broker.groups G).members.get? (r.broker.idOf c) = some c
      else r.current i = none
  | .disconnect i _ => r.current i = none

/-- What holds in every run. -/
structure Tracked (r : ServerRun σ) : Prop where
  arranged : r.broker.Arranged
  known : ∀ G id c, (r.broker.groups G).members.get? id = some c → c < r.nextConsumer
  seated : ∀ i c, r.current i = some c → c < r.nextConsumer
  unrepeated : Unrepeated r.current
  joined : ∀ place c, r.broker.memberUnder place = some c → r.lastJoined c = some place.1

/-- A broker that runs have arranged (`Broker.run_arranged`), without members, and no
connection. -/
structure Start (r : ServerRun σ) : Prop where
  arranged : r.broker.Arranged
  members : ∀ G, (r.broker.groups G).members = .empty
  handlers : ∀ i, r.handlers i = none

variable {r : ServerRun σ}

theorem Start.tracked (start : r.Start) : r.Tracked := by
  have nobody : ∀ i c, r.current i ≠ some c := by
    intro i c
    simp [current, start.handlers]
  refine ⟨start.arranged, fun G id c found => ?_, fun i c here => absurd here (nobody i c),
    fun i _ c here => absurd here (nobody i c), fun place c member => ?_⟩
  · rw [start.members] at found
    cases found
  · obtain ⟨G, -, found⟩ := Broker.memberUnder_eq_some_iff.mp member
    rw [start.members] at found
    cases found

namespace Tracked

/-- A consumer stands in one place. -/
theorem once (tracked : r.Tracked) : Unrepeated r.broker.memberUnder := by
  intro place place' c here there
  apply Prod.ext
  · exact Option.some.inj ((tracked.joined place c here).symm.trans (tracked.joined place' c there))
  · exact (tracked.arranged.idOf_member here).trans (tracked.arranged.idOf_member there).symm

theorem isMember_iff (tracked : r.Tracked) {groupId : String} {c : ConsumerRef} :
    r.IsMember groupId c ↔ r.broker.memberUnder (groupId, r.broker.idOf c) = some c :=
  tracked.arranged.mem_iff

theorem exists_isMember_iff (tracked : r.Tracked) {c : ConsumerRef} :
    (∃ groupId, r.IsMember groupId c) ↔ ∃ place, r.broker.memberUnder place = some c := by
  simp only [tracked.isMember_iff]
  constructor
  · rintro ⟨groupId, member⟩
    exact ⟨_, member⟩
  · rintro ⟨⟨groupId, id⟩, member⟩
    obtain rfl : id = r.broker.idOf c := tracked.arranged.idOf_member member
    exact ⟨groupId, member⟩

/-- Membership follows the connections when the two tables match. -/
theorem follows_iff (tracked : r.Tracked) : r.Follows ↔ Matching r.broker.memberUnder r.current := by
  constructor
  · intro follows c
    rw [← tracked.exists_isMember_iff]
    exact follows.members c
  · intro matching
    refine ⟨fun c => tracked.exists_isMember_iff.trans (matching c), fun i c here groupId => ?_⟩
    rw [tracked.isMember_iff]
    constructor
    · exact fun member => tracked.joined _ c member
    · intro last
      obtain ⟨⟨groupId', id⟩, member⟩ := (matching c).mpr ⟨i, here⟩
      obtain rfl : id = r.broker.idOf c := tracked.arranged.idOf_member member
      obtain rfl : groupId = groupId' :=
        Option.some.inj (last.symm.trans (tracked.joined _ c member))
      exact member

/-- The next consumer object is nobody's yet. -/
theorem fresh (tracked : r.Tracked) (place : String × String) :
    r.broker.memberUnder place ≠ some r.nextConsumer := by
  intro member
  obtain ⟨G, -, found⟩ := Broker.memberUnder_eq_some_iff.mp member
  exact lt_irrefl _ (tracked.known G _ _ found)

/-- Members and connections may only lose consumers. -/
theorem shrink (tracked : r.Tracked) {r' : ServerRun σ} (arranged : r'.broker.Arranged)
    (known : ∀ G id c, (r'.broker.groups G).members.get? id = some c →
      (r.broker.groups G).members.get? id = some c)
    (next : r.nextConsumer ≤ r'.nextConsumer) (last : r'.lastJoined = r.lastJoined)
    (members : ∀ place c, r'.broker.memberUnder place = some c → r.broker.memberUnder place = some c)
    (current : ∀ i c, r'.current i = some c → r.current i = some c) : r'.Tracked where
  arranged := arranged
  known G id c found := lt_of_lt_of_le (tracked.known G id c (known G id c found)) next
  seated i c here := lt_of_lt_of_le (tracked.seated i c (current i c here)) next
  unrepeated i j c here there := tracked.unrepeated (current i c here) (current j c there)
  joined place c member := by
    rw [last]
    exact tracked.joined place c (members place c member)

end Tracked

/-! ## What a step does to the two tables -/

theorem current_update (handlers : ℕ → Option (Option ConsumerRef)) (i : ℕ)
    (handler : Option (Option ConsumerRef)) :
    (fun j => (Function.update handlers i handler j).join) =
      Function.update (fun j => (handlers j).join) i handler.join :=
  Function.comp_update Option.join handlers i handler

@[simp] theorem current_after (r : ServerRun σ) (i : ℕ) (s : Session σ) :
    (r.after i s).current = Function.update r.current i s.consumer :=
  current_update r.handlers i (some s.consumer)

/-- The effect of a step on the members and the connections' consumers, and when the
two stay in step. -/
inductive Effect (r r' : ServerRun σ) (inStep : Prop) : Prop where
  /-- Neither changes. -/
  | idle (members : r'.broker.memberUnder = r.broker.memberUnder) (current : r'.current = r.current)
      (always : inStep)
  /-- A connection ends. -/
  | ends (i : ℕ) (members : r'.broker.memberUnder = r.broker.memberUnder)
      (current : r'.current = Function.update r.current i none)
      (iff : inStep ↔ r.current i = none)
  /-- A new consumer, or none, takes a place in both. -/
  | moves (place : String × String) (i : ℕ) (new : Option ConsumerRef)
      (members : r'.broker.memberUnder = Function.update r.broker.memberUnder place new)
      (current : r'.current = Function.update r.current i new)
      (fresh : ∀ c, new = some c → ∀ place, r.broker.memberUnder place ≠ some c)
      (iff : inStep ↔ r.broker.memberUnder place = r.current i)

variable (server : Server σ)

theorem Tracked.connect (tracked : r.Tracked) (i : ℕ) :
    (r.step server (.connect i)).Tracked ∧
      Effect r (r.step server (.connect i)) (r.InStep (.connect i)) := by
  cases found : r.handlers i with
  | some consumer =>
      simp only [step, found]
      exact ⟨tracked, .idle rfl rfl trivial⟩
  | none =>
      simp only [step, found]
      let r' : ServerRun σ := { r with handlers := Function.update r.handlers i (some none) }
      have none_ : none = r.current i := by simp [current, found]
      have same : r'.current = r.current := by
        refine (current_update r.handlers i (some none)).trans ?_
        exact (congrArg (Function.update r.current i) none_).trans (Function.update_eq_self i r.current)
      refine ⟨tracked.shrink tracked.arranged (fun _ _ _ found => found) (le_refl _) rfl
        (fun _ _ member => member) fun j c here => ?_, .idle rfl same trivial⟩
      have here : r'.current j = some c := here
      rwa [same] at here

/-- A handler that keeps its consumer. -/
theorem current_after_same {i : ℕ} {consumer : Option ConsumerRef}
    (found : r.handlers i = some consumer) {s : Session σ} (same : s.consumer = consumer) :
    (r.after i s).current = r.current := by
  have here : r.current i = s.consumer := by simp [current, found, same]
  rw [current_after, ← here, Function.update_eq_self]

/-- What `handleLeaveGroup` leaves: nothing has happened, or its consumer has left. -/
theorem leaveGroup_cases (r : ServerRun σ) (consumer : Option ConsumerRef) (groupId : Value) :
    ((consumer = none ∨ Session.lookup r.broker.consumerGroups groupId = none) ∧
      ((r.session consumer).handleLeaveGroup groupId).session = r.session consumer) ∨
    ∃ name G c, r.broker.Live name G ∧ Session.lookup r.broker.consumerGroups groupId = some G ∧
      consumer = some c ∧ ((r.session consumer).handleLeaveGroup groupId).session =
        { r.session none with broker := (r.broker.leave G (r.broker.idOf c)).2 } := by
  cases known : Session.lookup r.broker.consumerGroups groupId with
  | none =>
      refine .inl ⟨.inr rfl, ?_⟩
      simp [Session.handleLeaveGroup, session, known, Session.sendResponse]
  | some G =>
      cases consumer with
      | none =>
          refine .inl ⟨.inl rfl, ?_⟩
          simp [Session.handleLeaveGroup, session, known, Session.sendResponse]
      | some c =>
          obtain ⟨name, live⟩ : ∃ name, r.broker.Live name G := by
            cases groupId with
            | str name => exact ⟨name, known⟩
            | _ => cases known
          refine .inr ⟨name, G, c, live, rfl, rfl, ?_⟩
          simp [Session.handleLeaveGroup, session, known, Session.sendResponse]

theorem Tracked.disconnect (tracked : r.Tracked) (i : ℕ) (now : Timestamp) :
    (r.step server (.disconnect i now)).Tracked ∧
      Effect r (r.step server (.disconnect i now)) (r.InStep (.disconnect i now)) := by
  cases found : r.handlers i with
  | none =>
      simp only [ServerRun.step, found]
      exact ⟨tracked, .idle rfl rfl (by simp [InStep, current, found])⟩
  | some consumer =>
      simp only [ServerRun.step, found]
      let s := (r.session consumer).cleanup now
      let left : ServerRun σ := { r.after i s with handlers := Function.update (r.after i s).handlers i none }
      have current : left.current = Function.update r.current i none := by
        refine (current_update (r.after i s).handlers i none).trans ?_
        refine (congrArg (Function.update · i none) (r.current_after i s)).trans ?_
        exact Function.update_idem ..
      have groups : s.broker.groups = r.broker.groups := by
        cases consumer <;> rfl
      have members : s.broker.memberUnder = r.broker.memberUnder := by
        cases consumer <;> rfl
      have arranged : s.broker.Arranged := by
        cases consumer with
        | none => exact tracked.arranged
        | some c => exact tracked.arranged.step (.total fun _ => 0) (.close c now)
      refine ⟨tracked.shrink arranged (fun G id c found => ?_) (le_refl _) rfl
        (fun place c member => ?_) fun j c here => ?_, .ends i members current Iff.rfl⟩
      · exact groups ▸ found
      · exact members ▸ member
      · exact of_update_none ((congrFun current j).symm.trans here)

theorem Tracked.leaveGroup (tracked : r.Tracked) (i : ℕ) (groupId : Value) (now : Timestamp) :
    (r.step server (.leaveGroup i groupId now)).Tracked ∧
      Effect r (r.step server (.leaveGroup i groupId now)) (r.InStep (.leaveGroup i groupId now)) := by
  by_cases hashable : groupId.hashable = true
  case neg =>
    -- the connection ends
    have same : r.step server (.leaveGroup i groupId now) = r.step server (.disconnect i now) := by
      simp only [ServerRun.step, if_neg hashable]
    rw [same, InStep, if_neg hashable]
    exact tracked.disconnect server i now
  rw [InStep, if_pos hashable]
  cases found : r.handlers i with
  | none =>
      simp only [ServerRun.step, found]
      have nobody : r.current i = none := by simp [current, found]
      refine ⟨tracked, .idle rfl rfl fun c here => ?_⟩
      cases nobody.symm.trans here
  | some consumer =>
      simp only [ServerRun.step, found, if_pos hashable]
      have own : r.current i = consumer := by simp [current, found]
      rcases r.leaveGroup_cases consumer groupId with ⟨nothing, outcome⟩ |
        ⟨name, G, c, live, known, rfl, outcome⟩ <;> rw [outcome]
      · have same := current_after_same (r := r) (s := r.session consumer) found rfl
        refine ⟨tracked.shrink tracked.arranged (fun _ _ _ found => found) (le_refl _) rfl
          (fun _ _ member => member) fun j c here => ?_, .idle rfl same fun c here G known => ?_⟩
        · rwa [same] at here
        · rcases nothing with none_ | none_
          · cases (own.trans none_).symm.trans here
          · cases none_.symm.trans known
      · let s : Session σ := { r.session none with broker := (r.broker.leave G (r.broker.idOf c)).2 }
        have members := tracked.arranged.memberUnder_leave live (r.broker.idOf c)
        have current : (r.after i s).current = Function.update r.current i none := r.current_after i s
        refine ⟨tracked.shrink (tracked.arranged.leave G _)
          (fun _ _ _ found => r.broker.leave_kept G _ found) (le_refl _) rfl (fun place d member => ?_)
          fun j d here => ?_, .moves (name, r.broker.idOf c) i none members current nofun ?_⟩
        · exact of_update_none ((congrFun members place).symm.trans member)
        · exact of_update_none ((congrFun current j).symm.trans here)
        · have place : r.broker.memberUnder (name, r.broker.idOf c) =
              (r.broker.groups G).members.get? (r.broker.idOf c) := by
            have live : r.broker.consumerGroups.get? name = some G := live
            simp [Broker.memberUnder, live]
          rw [place]
          constructor
          · exact fun inStep => (inStep c own G known).trans own.symm
          · intro inPlace d here G' known'
            obtain rfl : c = d := Option.some.inj (own.symm.trans here)
            cases known.symm.trans known'
            exact inPlace.trans own

/-- What `handleJoinGroup` leaves: its consumer has joined, or the topic was rejected. -/
theorem Tracked.joinGroup_cases (tracked : r.Tracked) (consumer : Option ConsumerRef)
    (at_ : Circumstances) (groupId topic : String) (consumerId : Option String)
    (new : at_.consumer = r.nextConsumer) :
    ∃ broker : Broker, broker.Arranged ∧
      ((r.broker.Rejects topic ∧ broker.groups = r.broker.groups ∧
          broker.memberUnder = r.broker.memberUnder ∧
          ((r.session consumer).handleJoinGroup server at_ groupId topic consumerId).session =
            { r.session consumer with broker }) ∨
        ¬ r.broker.Rejects topic ∧
          (∀ G id c, (broker.groups G).members.get? id = some c →
            c = r.nextConsumer ∨ (r.broker.groups G).members.get? id = some c) ∧
          broker.memberUnder = Function.update r.broker.memberUnder
            (groupId, (Session.newConsumer at_ consumerId).consumerId) (some r.nextConsumer) ∧
          ((r.session consumer).handleJoinGroup server at_ groupId topic consumerId).session =
            { r.session (some r.nextConsumer) with broker }) := by
  let b := r.broker.withObjects
    (r.broker.modifyConsumer r.nextConsumer fun _ => Session.newConsumer at_ consumerId)
  have arranged : b.Arranged := tracked.arranged.newConsumer r.nextConsumer _
    fun G id found => lt_irrefl _ (tracked.known G id _ found)
  have id : b.idOf r.nextConsumer = (Session.newConsumer at_ consumerId).consumerId := by
    simp [b, Broker.withObjects, Objects.idOf, Objects.modifyConsumer]
  have after := (arranged.subscribe groupId topic r.nextConsumer)
  rcases arranged.subscribe_members groupId topic r.nextConsumer with ⟨rejects, e, outcome⟩ |
    ⟨accepts, G, b', outcome, ids, known, members⟩
  · refine ⟨b, arranged, .inl ⟨rejects, rfl, rfl, ?_⟩⟩
    have outcome : Broker.subscribe (r.broker.withObjects (r.broker.modifyConsumer r.nextConsumer
        fun _ => Session.newConsumer at_ consumerId)) groupId topic r.nextConsumer =
          (.error (.valueError e), b) := outcome
    simp [Session.handleJoinGroup, new, session, outcome, Session.caught, Session.sendError,
      Session.sendResponse]
  · rw [outcome] at after
    refine ⟨b', after, .inr ⟨accepts, known, ?_, ?_⟩⟩
    · rw [members, id]
      rfl
    · have outcome : Broker.subscribe (r.broker.withObjects (r.broker.modifyConsumer r.nextConsumer
          fun _ => Session.newConsumer at_ consumerId)) groupId topic r.nextConsumer = (.ok G, b') :=
        outcome
      simp [Session.handleJoinGroup, new, session, outcome, Session.sendResponse]

/-- The next consumer enters one place among the members, and one connection. -/
theorem Tracked.enter (tracked : r.Tracked) {r' : ServerRun σ} {place : String × String} {i : ℕ}
    (arranged : r'.broker.Arranged)
    (known : ∀ G id c, (r'.broker.groups G).members.get? id = some c →
      c = r.nextConsumer ∨ (r.broker.groups G).members.get? id = some c)
    (next : r'.nextConsumer = r.nextConsumer + 1)
    (last : r'.lastJoined = Function.update r.lastJoined r.nextConsumer (some place.1))
    (members : r'.broker.memberUnder =
      Function.update r.broker.memberUnder place (some r.nextConsumer))
    (current : r'.current = Function.update r.current i (some r.nextConsumer)) : r'.Tracked where
  arranged := arranged
  known G id c found := by
    rw [next]
    rcases known G id c found with rfl | old
    · exact Nat.lt_succ_self _
    · exact Nat.lt_succ_of_lt (tracked.known G id c old)
  seated j c here := by
    rw [current, Function.update_apply] at here
    rw [next]
    split at here
    · cases here
      exact Nat.lt_succ_self _
    · exact Nat.lt_succ_of_lt (tracked.seated j c here)
  unrepeated := by
    rw [current]
    apply tracked.unrepeated.update i
    intro c new j here
    cases new
    exact lt_irrefl _ (tracked.seated j _ here)
  joined other c member := by
    rw [members, Function.update_apply] at member
    rw [last]
    split at member
    · next here =>
        cases member
        simp [here]
    · have old : c ≠ r.nextConsumer := by
        rintro rfl
        exact tracked.fresh other member
      simpa [Function.update_of_ne old] using tracked.joined other c member

theorem Tracked.joinGroup (tracked : r.Tracked) (i : ℕ) (at_ : Circumstances) (groupId topic : String)
    (consumerId : Option String) :
    (r.step server (.joinGroup i at_ groupId topic consumerId)).Tracked ∧
      Effect r (r.step server (.joinGroup i at_ groupId topic consumerId))
        (r.InStep (.joinGroup i at_ groupId topic consumerId)) := by
  cases found : r.handlers i with
  | none =>
      simp only [ServerRun.step, found]
      exact ⟨tracked, .idle rfl rfl (.inl found)⟩
  | some consumer =>
      simp only [ServerRun.step, found]
      have own : r.current i = consumer := by simp [current, found]
      obtain ⟨broker, arranged, ⟨rejects, groups, members, outcome⟩ | ⟨accepts, known, members, outcome⟩⟩ :=
        tracked.joinGroup_cases server consumer { at_ with consumer := r.nextConsumer } groupId topic
          consumerId rfl
      · have notNew : ¬ (r.session consumer).consumer = some r.nextConsumer := fun same =>
          lt_irrefl _ (tracked.seated i _ (own.trans same))
        rw [outcome, if_neg notNew]
        have same := current_after_same (r := r) (s := { r.session consumer with broker }) found rfl
        refine ⟨tracked.shrink arranged (fun G id c found => groups ▸ found) (Nat.le_succ _) rfl
          (fun place c member => members ▸ member) fun j c here => ?_,
          .idle members same (.inr (.inl rejects))⟩
        exact (congrFun same j).symm.trans here
      · have isNew : (r.session (some r.nextConsumer)).consumer = some r.nextConsumer := rfl
        rw [outcome, if_pos isNew]
        have current := r.current_after i { r.session (some r.nextConsumer) with broker }
        refine ⟨tracked.enter arranged known rfl rfl members current,
          .moves _ i _ members current (fun c new place member => ?_) ?_⟩
        · cases new
          exact tracked.fresh place member
        · constructor
          · rintro (closed | rejects | inPlace)
            · cases found.symm.trans closed
            · exact absurd rejects accepts
            · exact inPlace
          · exact fun inPlace => .inr (.inr inPlace)

theorem Tracked.step (tracked : r.Tracked) (op : ServerOp) :
    (r.step server op).Tracked ∧ Effect r (r.step server op) (r.InStep op) := by
  cases op with
  | connect i => exact tracked.connect server i
  | joinGroup i at_ groupId topic consumerId => exact tracked.joinGroup server i at_ groupId topic consumerId
  | leaveGroup i groupId now => exact tracked.leaveGroup server i groupId now
  | disconnect i now => exact tracked.disconnect server i now

theorem Tracked.step_follows_iff (tracked : r.Tracked) (follows : r.Follows) (op : ServerOp) :
    (r.step server op).Follows ↔ r.InStep op := by
  obtain ⟨tracked', effect⟩ := tracked.step server op
  have matching := tracked.follows_iff.mp follows
  rw [tracked'.follows_iff]
  cases effect with
  | idle members current always =>
      rw [members, current]
      exact iff_of_true matching always
  | ends i members current iff =>
      rw [members, current, iff]
      exact matching.clear_iff tracked.unrepeated i
  | moves place i new members current fresh iff =>
      rw [members, current, iff]
      exact matching.update_iff tracked.once tracked.unrepeated place i fresh

/-- **Membership follows the connections**, in every state of a run, exactly when
every request and every end of a connection is in step. -/
theorem run_follows_iff (start : r.Start) (ops : List ServerOp) :
    (∀ before, before <+: ops → (run (step server) r before).Follows) ↔
      Guarded (step server) InStep r ops := by
  have preserved : ∀ (r : ServerRun σ) op, r.Tracked → (r.step server op).Tracked :=
    fun _ op tracked => (tracked.step server op).1
  refine forall_prefix_iff_guarded preserved
    (fun _ op tracked follows => tracked.step_follows_iff server follows op) start.tracked ?_
  rw [start.tracked.follows_iff]
  refine fun c => iff_of_false ?_ ?_
  · rintro ⟨place, member⟩
    obtain ⟨G, -, found⟩ := Broker.memberUnder_eq_some_iff.mp member
    rw [start.members] at found
    cases found
  · rintro ⟨i, here⟩
    simp [current, start.handlers] at here

/-! ## A connection that ends while its consumer is a member -/

/-- The connection that a step is about. -/
def connectionOf : ServerOp → ℕ
  | .connect i => i
  | .joinGroup i .. => i
  | .leaveGroup i _ _ => i
  | .disconnect i _ => i

/-- The other connections' handlers are as they were. -/
theorem step_handlers_other (r : ServerRun σ) {op : ServerOp} {i : ℕ} (other : i ≠ connectionOf op) :
    (r.step server op).handlers i = r.handlers i := by
  cases op with
  | leaveGroup j groupId now =>
      simp only [step, connectionOf] at other ⊢
      split
      · rfl
      · split <;> simp [after, ended, other]
  | _ =>
      simp only [step, connectionOf] at other ⊢
      split <;> simp [after, ended, other]

theorem run_handlers_other (r : ServerRun σ) {ops : List ServerOp} {i : ℕ}
    (other : ∀ op ∈ ops, i ≠ connectionOf op) : (run (step server) r ops).handlers i = r.handlers i := by
  induction ops generalizing r with
  | nil => rfl
  | cons op rest ih =>
      refine (ih _ fun op later => other op (List.mem_cons_of_mem _ later)).trans ?_
      exact r.step_handlers_other server (other op List.mem_cons_self)

/-- A new broker, and a server that understands nothing else. -/
def abandonedStart : ServerRun Unit where
  broker := PublishRun.publishStart.broker
  queues := { messages := PublishRun.publishStart.broker.messages }
  middleware := ()

def quietServer : Server Unit where
  loads _ := .error .jsonDecodeError
  dumps _ _ := []
  repr _ := ""
  describe _ := ""
  encoding := PublishRun.digestOfK
  pipeline := []
  circumstances n :=
    { now := n, requeueAt := n, message := n, messageId := "m", consumer := n, consumerUuid := "c" }

/-- A client joins and is gone. -/
def abandonedOps : List ServerOp :=
  [.connect 0, .joinGroup 0 (quietServer.circumstances 0) "g" "t" (some "a"), .disconnect 0 1]

theorem abandonedOps_follows_iff :
    (∀ before, before <+: abandonedOps → (run (step quietServer) abandonedStart before).Follows) ↔
      Guarded (step quietServer) InStep abandonedStart abandonedOps :=
  run_follows_iff quietServer
    ⟨Broker.Start.arranged ⟨rfl, rfl, fun _ => rfl, fun _ => rfl, rfl⟩, fun _ => rfl, fun _ => rfl⟩
    abandonedOps

/-- No connection is open, and the group's member has all partitions. -/
theorem abandonedOps_leave_member :
    let r := run (step quietServer) abandonedStart abandonedOps
    ¬ r.Follows ∧ (∀ i, r.handlers i = none) ∧ r.IsMember "g" 0 ∧
      (r.broker.consumers 0).assignedPartitions = [0, 1, 2, 3] := by
  let r := run (step quietServer) abandonedStart abandonedOps
  have closed : ∀ i, r.handlers i = none := by
    intro i
    by_cases here : i = 0
    · subst here
      decide +kernel
    · refine run_handlers_other quietServer abandonedStart fun op member => ?_
      have own : ∀ op ∈ abandonedOps, connectionOf op = 0 := by simp [abandonedOps, connectionOf]
      rwa [own op member]
  have live : r.broker.consumerGroups.get? "g" = some 0 := by decide +kernel
  have joined : 0 ∈ (r.broker.groups 0).members.values := by decide +kernel
  have member : r.IsMember "g" 0 := ⟨0, live, joined⟩
  refine ⟨fun follows => ?_, closed, member, by decide +kernel⟩
  obtain ⟨i, here⟩ := (follows.members 0).mp ⟨"g", member⟩
  rw [current, closed i] at here
  cases here

end ServerRun

end BrokerLite
