/-
# Produce.EndToEnd -- from the producers to a consumer

Producers publish to a topic without size limits, and a consumer of its partitions
polls, in any order of steps.  A publish only adds to the logs (`Tidy.publish`), so the
consumer's view of them stays as it was: what it has polled from a partition and what it
has not read yet are together the log of that partition.

`run_consumes`: no message that a producer accepted is lost or polled twice, as long as
the limits of the polls cover the demand; and once the producers are stopped, polling
brings everything.
-/
import BrokerLite.Produce.BrokerProducers
import BrokerLite.Consume.Lossless

namespace BrokerLite

open Theory

set_option autoImplicit false

/-! ## Logs that only grow -/

/-- The log of the partition has only got longer. -/
structure Store.GrowsAt (s t : Store) (p : PartitionRef) : Prop where
  key : (t.partitions p).key = (s.partitions p).key
  next : (s.partitions p).nextOffset ≤ (t.partitions p).nextOffset
  old : ∀ m ∈ s.logOf p, t.offsetOf m = s.offsetOf m
  new : ∃ new, t.logOf p = s.logOf p ++ new ∧ ∀ m ∈ new, (s.partitions p).nextOffset ≤ t.offsetOf m

namespace Store.GrowsAt

variable {s t u : Store} {p : PartitionRef}

theorem trans (first : s.GrowsAt t p) (second : t.GrowsAt u p) : s.GrowsAt u p := by
  obtain ⟨new, log, after⟩ := first.new
  obtain ⟨newer, log', after'⟩ := second.new
  have inside : ∀ {m}, m ∈ s.logOf p ∨ m ∈ new → m ∈ t.logOf p := fun member => by
    rw [log]
    exact List.mem_append.mpr member
  refine ⟨second.key.trans first.key, first.next.trans second.next, fun m member => ?_,
    new ++ newer, by rw [log', log, List.append_assoc], fun m member => ?_⟩
  · exact (second.old m (inside (.inl member))).trans (first.old m member)
  · rcases List.mem_append.mp member with earlier | later
    · rw [second.old m (inside (.inr earlier))]
      exact after m earlier
    · exact first.next.trans (after' m later)

/-- The partition is as before, and so are the objects in its log. -/
theorem same (partition : t.partitions p = s.partitions p) (old : ∀ m ∈ s.logOf p, t.offsetOf m = s.offsetOf m) :
    s.GrowsAt t p :=
  ⟨by rw [partition], by rw [partition], old, [], by simp [logOf, partition], nofun⟩

theorem appended {m : MessageRef} (fresh : s.Unstored m) (now : Timestamp) (q : PartitionRef) :
    s.GrowsAt (s.appended now q m) p := by
  have old : ∀ n ∈ s.logOf p, (s.appended now q m).offsetOf n = s.offsetOf n := fun n member =>
    s.appended_offsetOf_of_ne now q m n fun same => fresh p (same ▸ member)
  refine ⟨s.appended_key .., ?_, old, ?_⟩
  · rw [appended_nextOffset]
    split
    · next here => subst here; omega
    · exact le_refl _
  · rw [appended_logOf]
    split
    · next here =>
        subst here
        refine ⟨[m], rfl, fun n member => ?_⟩
        rw [List.mem_singleton.mp member, appended_offsetOf_self]
    · exact ⟨[], by simp, nofun⟩

end Store.GrowsAt

/-- **A consumer's view survives what only adds to the logs it reads.** -/
theorem PollRun.Sound.grown {start r : PollRun} (sound : Sound start r) {t : Store} (ordered : t.Ordered)
    (gapless : t.Gapless) (grows : ∀ p ∈ r.consumer.assignedPartitions, r.store.GrowsAt t p) :
    Sound start { r with store := t } := by
  have position : ∀ p ∈ r.consumer.assignedPartitions,
      ({ r with store := t } : PollRun).positionOf p = r.positionOf p := fun p member => by
    simp only [positionOf, (grows p member).key]
  refine ⟨ordered, gapless, fun p inside q inside' same => ?_, fun p member => ?_, fun p member => ?_,
    fun p member => ?_⟩
  · exact sound.distinct p inside q inside' (by
      rw [← (grows p inside).key, ← (grows q inside').key]
      exact same)
  · rw [position p member]
    exact sound.moved p member
  · rw [position p member]
    exact (sound.reached p member).imp_right fun inside => inside.trans (grows p member).next
  · obtain ⟨new, log, after⟩ := (grows p member).new
    have polled := (sound.lossless p member).1
    have kept : entriesOf p r.polled = window t.offsetOf (start.positionOf p) (r.positionOf p) (t.logOf p) := by
      have outside : window t.offsetOf (start.positionOf p) (r.positionOf p) new = [] := by
        refine window_eq_nil fun m newer => ?_
        have later := after m newer
        rcases sound.reached p member with stayed | inside <;> omega
      have append : window t.offsetOf (start.positionOf p) (r.positionOf p) (r.store.logOf p ++ new) =
          window t.offsetOf _ _ (r.store.logOf p) ++ window t.offsetOf _ _ new := List.filter_append ..
      rw [log, append, outside, List.append_nil, polled]
      exact window_congr fun m logged => ((grows p member).old m logged).symm
    rw [position p member]
    refine ⟨kept, ?_⟩
    show Ascending t.offsetOf (entriesOf p r.polled)
    rw [kept]
    exact (ordered.ascending p).sublist List.filter_sublist

/-! ## What a publish does to the logs -/

/-- Logs in order and without gaps, and no object from `n` on in any of them. -/
structure Store.Tidy (s : Store) (n : MessageRef) : Prop where
  ordered : s.Ordered
  gapless : s.Gapless
  unused : ∀ m, n ≤ m → s.Unstored m

namespace Store.Tidy

variable {s t : Store} {n : MessageRef}

theorem mono (tidy : s.Tidy n) {n' : MessageRef} (le : n ≤ n') : s.Tidy n' :=
  ⟨tidy.ordered, tidy.gapless, fun m above => tidy.unused m (le.trans above)⟩

/-- An object that no log holds is written. -/
theorem retouched (tidy : s.Tidy n) {m : MessageRef} (above : n ≤ m) (retouched : s.Retouched m t) :
    t.Tidy n ∧ ∀ p, s.GrowsAt t p := by
  have fresh := tidy.unused m above
  have kept : ∀ p, ∀ k ∈ s.logOf p, t.offsetOf k = s.offsetOf k := fun p k member =>
    congrArg Message.offset (retouched.messages k fun same => fresh p (same ▸ member))
  refine ⟨⟨retouched.ordered fresh tidy.ordered, fun p => ?_, fun k above p member => ?_⟩,
    fun p => .same (congrFun retouched.partitions p) (kept p)⟩
  · have log : t.logOf p = s.logOf p := congrFun retouched.logOf p
    have next : (t.partitions p).nextOffset = (s.partitions p).nextOffset := by rw [retouched.partitions]
    intro x low high
    rw [earliestOffset_congr p log (kept p) next] at low
    rw [next] at high
    rw [log, List.map_congr_left (kept p)]
    exact tidy.gapless p x low high
  · exact tidy.unused k above p (congrFun retouched.logOf p ▸ member)

theorem appended (tidy : s.Tidy n) (now : Timestamp) (p : PartitionRef) :
    (s.appended now p n).Tidy (n + 1) ∧ ∀ q, s.GrowsAt (s.appended now p n) q := by
  have fresh := tidy.unused n (le_refl n)
  refine ⟨⟨tidy.ordered.appended fresh, tidy.gapless.appended fresh, fun m above q member => ?_⟩,
    fun q => .appended fresh now p⟩
  rcases Store.Ordered.mem_appended member with old | ⟨-, rfl⟩
  · exact tidy.unused m (Nat.le_of_succ_le above) q old
  · exact absurd above (Nat.not_succ_le_self m)

end Store.Tidy

/-- The logs of a new topic are empty. -/
theorem Broker.newTopic_tidy {b : Broker} {n : MessageRef} (tidy : b.Tidy n) (name : String)
    (config : TopicConfig) : (b.newTopic name config).2.Tidy n ∧
      ∀ p < b.nextPartition, b.toStore.GrowsAt (b.newTopic name config).2.toStore p := by
  refine ⟨⟨PublishRun.newTopic_ordered tidy.ordered name config, fun p => ?_, fun m above p member => ?_⟩,
    fun p old => .same (PublishRun.newTopic_old name config old).2 fun _ _ => rfl⟩
  · rcases PublishRun.newTopic_partitions b name config p with ⟨same, -⟩ | ⟨-, -, fresh⟩
    · have gapless := tidy.gapless p
      simp only [Store.earliestOffset, Store.logOf, same] at gapless ⊢
      exact gapless
    · intro x low high
      simp [Store.earliestOffset, fresh, Partition.earliestOffset] at low high
      omega
  · rcases PublishRun.newTopic_partitions b name config p with ⟨same, -⟩ | ⟨-, -, fresh⟩
    · rw [Store.logOf, same] at member
      exact tidy.unused m above p member
    · simp [Store.logOf, fresh] at member

theorem Broker.createTopic_tidy {b b₁ : Broker} {n : MessageRef} (tidy : b.Tidy n) {name : String}
    {config : Option TopicConfig} {t : Topic} (made : b.createTopic name config = (.ok t, b₁)) :
    b₁.topics.get? name = some t ∧ b₁.Tidy n := by
  rcases b.createTopic_cases name config with ⟨raised, done⟩ | ⟨config', -, done⟩ <;> rw [done] at made <;>
    cases made
  obtain ⟨kept, -⟩ := newTopic_tidy tidy name config'
  exact ⟨Dict.get?_set_self .., kept.ordered, kept.gapless, kept.unused⟩

theorem Broker.topicFor_tidy {b b₁ : Broker} {n : MessageRef} (tidy : b.Tidy n) {name : String}
    {outcome : Except Raised Topic} (made : b.topicFor name = (outcome, b₁)) :
    b₁.Tidy n ∧ b.nextPartition ≤ b₁.nextPartition ∧
      ∀ p < b.nextPartition, b.toStore.GrowsAt b₁.toStore p := by
  rcases b.topicFor_cases name with ⟨t, -, done⟩ | ⟨raised, done⟩ | ⟨config, -, done⟩ <;>
    rw [done] at made <;> cases made
  · exact ⟨tidy, le_refl _, fun p _ => .same rfl fun _ _ => rfl⟩
  · exact ⟨tidy, le_refl _, fun p _ => .same rfl fun _ _ => rfl⟩
  · obtain ⟨kept, grows⟩ := newTopic_tidy tidy name config
    exact ⟨⟨kept.ordered, kept.gapless, kept.unused⟩, Nat.le_add_right .., fun p old =>
      ⟨(grows p old).key, (grows p old).next, (grows p old).old, (grows p old).new⟩⟩

/-- **A publish of an unused object only adds to the logs.** -/
theorem Broker.publish_tidy {b : Broker} {m : MessageRef} (tidy : b.Tidy m) (enc : Encoding)
    (now : Timestamp) : (b.publish enc now m).2.Tidy (m + 1) ∧
      b.nextPartition ≤ (b.publish enc now m).2.nextPartition ∧
      ∀ p < b.nextPartition, b.toStore.GrowsAt (b.publish enc now m).2.toStore p := by
  rcases b.publish_cases enc now m with ⟨raised, b₁, made, outcome⟩ | ⟨t, b₁, t', made, -, -, outcome⟩ <;>
    obtain ⟨tidy₁, more, grows₁⟩ := topicFor_tidy tidy made
  · rw [outcome]
    exact ⟨tidy₁.mono (Nat.le_succ m), more, grows₁⟩
  · rcases outcome with ⟨raised, s, retouched, outcome⟩ | ⟨p, -, s, retouched, -, outcome⟩ <;>
      rw [outcome] <;> obtain ⟨tidy₂, grows₂⟩ := tidy₁.retouched (le_refl m) retouched
    · exact ⟨tidy₂.mono (Nat.le_succ m), more, fun q old => (grows₁ q old).trans (grows₂ q)⟩
    · obtain ⟨tidy₃, grows₃⟩ := tidy₂.appended now p
      exact ⟨tidy₃, more, fun q old => ((grows₁ q old).trans (grows₂ q)).trans (grows₃ q)⟩

/-! ## A producing broker and a consumer -/

structure EndToEnd where
  source : BrokerProducers
  consumer : Consumer
  /-- What the polls returned, in order. -/
  polled : List Entry := []

inductive EndToEndOp where
  | produce (op : BrokerProducersOp)
  | poll (times : PollTimes) (maxMessages : Option ℤ)

namespace EndToEnd

variable (hash : String → ℕ) (clock : ℕ → Timestamp) (ids : ℕ → String)

/-- What the consumer sees. -/
def view (e : EndToEnd) : PollRun := ⟨e.source.world.broker.toStore, e.consumer, e.polled⟩

/-- The broker with another store. -/
def withStore (s : BrokerProducers) (store : Store) : BrokerProducers :=
  { s with world := { s.world with broker := { s.world.broker with toStore := store } } }

def poll (e : EndToEnd) (times : PollTimes) (maxMessages : Option ℤ) : EndToEnd :=
  let seen := e.view.step (.poll times maxMessages)
  { source := withStore e.source seen.store, consumer := seen.consumer, polled := seen.polled }

def step (e : EndToEnd) : EndToEndOp → EndToEnd
  | .produce op => { e with source := e.source.step hash clock ids op }
  | .poll times maxMessages => e.poll times maxMessages

/-- Nobody names a partition of the topic, and the limit of a poll covers the demand. -/
def Covers (name : String) (e : EndToEnd) : EndToEndOp → Prop
  | .produce op => op.LeavesPartition name
  | .poll times maxMessages => e.view.Enough (.poll times maxMessages)

instance (name : String) (e : EndToEnd) : ∀ op, Decidable (e.Covers name op)
  | .produce op => inferInstanceAs (Decidable (op.LeavesPartition name))
  | .poll _ _ => inferInstanceAs (Decidable (_ ∧ _))

end EndToEnd

/-! ## What the consumer follows -/

/-- A consumer's view of the broker's logs is sound, and everything it reads is there. -/
structure BrokerWorld.Followed (start : PollRun) (c : Consumer) (polled : List Entry) (w : BrokerWorld) :
    Prop where
  sound : PollRun.Sound start ⟨w.broker.toStore, c, polled⟩
  unused : ∀ m, w.nextMessage ≤ m → w.broker.Unstored m
  created : ∀ p ∈ c.assignedPartitions, p < w.broker.nextPartition
  distinct : (w.arrived.map Arrival.ref).Nodup
  old : ∀ m ∈ w.arrived.map Arrival.ref, m < w.nextMessage

namespace BrokerWorld.Followed

variable {hash : String → ℕ} {clock : ℕ → Timestamp} {ids : ℕ → String} {start : PollRun} {c : Consumer}
  {polled : List Entry} {w : BrokerWorld}

theorem publish (followed : w.Followed start c polled) (sender : Option ProducerRef) (message : Message) :
    (w.publish hash clock sender message).2.2.Followed start c polled := by
  have tidy : w.broker.Tidy w.nextMessage := ⟨followed.sound.ordered, followed.sound.gapless, followed.unused⟩
  obtain ⟨put, grows⟩ := tidy.retouched (le_refl _)
    (w.broker.toStore.retouched_modifyMessage w.nextMessage fun _ => message)
  have put : (w.withMessage message).Tidy w.nextMessage := put
  obtain ⟨left, more, grows'⟩ := Broker.publish_tidy put (.total hash) (clock w.reading)
  have sound := followed.sound.grown left.ordered left.gapless fun p assigned =>
    (grows p).trans (grows' p (followed.created p assigned))
  have created : ∀ p ∈ c.assignedPartitions, p < (w.publish hash clock sender message).2.2.broker.nextPartition :=
    fun p assigned => Nat.lt_of_lt_of_le (followed.created p assigned) more
  have fresh : w.nextMessage ∉ w.arrived.map Arrival.ref := fun here => Nat.lt_irrefl _ (followed.old _ here)
  refine ⟨sound, left.unused, created, ?_, fun m member => ?_⟩
  · show ((if (w.publish hash clock sender message).1.isOk then _ else _ : List Arrival).map Arrival.ref).Nodup
    split
    · rw [List.map_append]
      exact List.nodup_append'.mpr ⟨followed.distinct, List.nodup_singleton _, by simpa using fresh⟩
    · exact followed.distinct
  · have member : m ∈ (if (w.publish hash clock sender message).1.isOk then
        w.arrived ++ [⟨sender, w.nextMessage, message⟩] else w.arrived).map Arrival.ref := member
    split at member
    · rw [List.map_append] at member
      rcases List.mem_append.mp member with earlier | here
      · exact Nat.lt_succ_of_lt (followed.old m earlier)
      · rw [List.mem_singleton.mp here]
        exact Nat.lt_succ_self _
    · exact Nat.lt_succ_of_lt (followed.old m member)

/-- A producer of the broker keeps what the consumer follows. -/
theorem environment (i : ProducerRef) : (BrokerWorld.environment hash clock ids i).recorded.Keeps
    (fun _ => True) fun x => x.1.Followed start c polled where
  time := fun _ followed =>
    ⟨followed.sound, followed.unused, followed.created, followed.distinct, followed.old⟩
  uuid4 := fun _ followed =>
    ⟨followed.sound, followed.unused, followed.created, followed.distinct, followed.old⟩
  publish := by
    rintro publish given message ⟨w, handed⟩ - followed
    cases given
    exact followed.publish (some i) message
  success := fun _ _ followed => followed
  error := fun _ _ _ followed => followed

end BrokerWorld.Followed

namespace BrokerProducers

variable {hash : String → ℕ} {clock : ℕ → Timestamp} {ids : ℕ → String} {name : String}
  {ps : List PartitionRef} {s : BrokerProducers} {start : PollRun} {c : Consumer} {polled : List Entry}

variable (clock ids) in
theorem Sound.call_followed (sound : s.Sound hash name ps) (followed : s.world.Followed start c polled)
    (i : ProducerRef) (op : ProducerOp) : (s.call hash clock ids i op).world.Followed start c polled := by
  unfold BrokerProducers.call
  split
  · exact followed
  · next r found =>
      obtain ⟨⟨config, steady⟩, -⟩ := sound.delivers i r found
      have offers : (r.withWorld s.world).Offers (BrokerWorld.environment hash clock ids i)
          (fun _ => True) op := fun _ _ => trivial
      exact (steady.withWorld s.world).step_keeps (BrokerWorld.Followed.environment i) (fun _ _ => trivial)
        offers followed

theorem Sound.stopFrom_followed (pos : 0 < ps.length) (distinct : ps.Nodup) (refs : List ProducerRef)
    (sound : s.Sound hash name ps) (followed : s.world.Followed start c polled) :
    (BrokerProducers.stopFrom hash clock ids refs s).2.world.Followed start c polled := by
  induction refs generalizing s with
  | nil => exact followed
  | cons j rest ih =>
      rw [BrokerProducers.stopFrom]
      split
      · exact ih sound followed
      · have called := sound.call_followed clock ids followed j .close
        split
        · exact called
        · exact ih (sound.call pos distinct j (show ProducerOp.LeavesPartition name .close from trivial)) called

theorem Sound.step_followed (sound : s.Sound hash name ps) (pos : 0 < ps.length) (distinct : ps.Nodup)
    (followed : s.world.Followed start c polled) (op : BrokerProducersOp) :
    (s.step hash clock ids op).world.Followed start c polled := by
  cases op with
  | createProducer hex now producerId config => exact followed
  | call i op => exact sound.call_followed clock ids followed i op
  | publish message => exact followed.publish none message
  | stop => exact sound.stopFrom_followed pos distinct s.registered.values followed

/-- Commits do not touch what the producers have brought. -/
theorem Sound.withStore (sound : s.Sound hash name ps) {t : Store} (same : s.world.broker.toStore.SameLogs t)
    (sizes : ∀ p, (t.partitions p).maxSize = (s.world.broker.partitions p).maxSize) :
    (EndToEnd.withStore s t).Sound hash name ps := by
  obtain ⟨u, found, routed⟩ := sound.fed.topic
  have messages : t.messages = s.world.broker.messages := same.messages
  have arranged : (EndToEnd.withStore s t).world.broker.Arranged :=
    sound.fed.arranged.congr rfl (.refl _ rfl same.key) (.refl _ rfl) rfl rfl rfl
  refine ⟨⟨arranged, ⟨u, found, ?_⟩, sound.fed.old, fun a member => ?_⟩, fun i r found => ?_, sound.fresh,
    sound.listed, sound.others⟩
  · exact BrokerWorld.routed_congr routed (fun p _ => ⟨congrFun same.logOf p, sizes p⟩)
      fun a _ => congrFun messages a.ref
  · exact (congrFun messages a.ref) ▸ sound.fed.carried a member
  · obtain ⟨steady, noneLost, unset, brought⟩ := sound.delivers i r found
    exact ⟨steady, noneLost, unset, brought⟩

end BrokerProducers

theorem Consumer.commitPartitions_maxSize (groupId : String) (offsets : Positions) (ps : List PartitionRef)
    (s : Store) (q : PartitionRef) :
    ((commitPartitions groupId offsets ps s).partitions q).maxSize = (s.partitions q).maxSize := by
  induction ps generalizing s with
  | nil => rfl
  | cons p rest ih =>
      rw [commitPartitions, ih]
      by_cases here : q = p <;>
        simp [Store.commitOffset, Store.modifyPartition_partitions, Partition.commitOffset, here]

/-! ## The two together -/

namespace EndToEnd

/-- Producers and consumer are sound, and they see the same logs. -/
structure Sound (hash : String → ℕ) (name : String) (ps : List PartitionRef) (start : PollRun)
    (e : EndToEnd) : Prop where
  source : e.source.Sound hash name ps
  followed : e.source.world.Followed start e.consumer e.polled
  assigned : e.consumer.assignedPartitions = ps
  listed : ∀ x ∈ e.polled, x.1 ∈ ps

variable {hash : String → ℕ} {clock : ℕ → Timestamp} {ids : ℕ → String} {name : String}
  {ps : List PartitionRef} {start : PollRun} {e : EndToEnd}

/-- What a poll leaves in the store. -/
theorem poll_store (r : PollRun) (times : PollTimes) (maxMessages : Option ℤ) :
    r.store.SameLogs (r.step (.poll times maxMessages)).store ∧
      (∀ p, ((r.step (.poll times maxMessages)).store.partitions p).maxSize = (r.store.partitions p).maxSize) ∧
      (r.step (.poll times maxMessages)).consumer.assignedPartitions = r.consumer.assignedPartitions := by
  refine ⟨Consumer.poll_sameLogs .., fun p => ?_, (Consumer.poll_cases times r.store r.consumer maxMessages).2.2.1⟩
  rcases (Consumer.poll_cases times r.store r.consumer maxMessages).2.2.2.2.2 with same | ⟨-, committed⟩
  · exact congrArg (fun s : Store => (s.partitions p).maxSize) same
  · refine (congrArg (fun s : Store => (s.partitions p).maxSize) committed).trans ?_
    exact Consumer.commitPartitions_maxSize ..

theorem Sound.poll (sound : e.Sound hash name ps start) (times : PollTimes) {maxMessages : Option ℤ}
    (enough : e.view.Enough (.poll times maxMessages)) : (e.poll times maxMessages).Sound hash name ps start := by
  obtain ⟨same, sizes, kept⟩ := poll_store e.view times maxMessages
  have followed : PollRun.Sound start (e.view.step (.poll times maxMessages)) :=
    sound.followed.sound.poll times enough.1 enough.2
  refine ⟨sound.source.withStore same sizes, ⟨followed, fun m above p member => ?_, fun p assigned => ?_,
    sound.followed.distinct, sound.followed.old⟩, kept.trans sound.assigned, fun x member => ?_⟩
  · exact sound.followed.unused m above p (congrFun same.logOf p ▸ member)
  · exact sound.followed.created p (kept ▸ assigned)
  · rw [show (e.poll times maxMessages).polled = _ from (PollRun.poll_spec e.view times enough.1).1] at member
    rcases List.mem_append.mp member with before | now
    · exact sound.listed x before
    · have quota := le_of_lt (PollRun.quota_pos e.view.consumer (e.view.consumer.pollLimit maxMessages))
      have read := Consumer.readPartitions_mem sound.followed.sound.ordered quota (List.mem_of_mem_take now)
      exact sound.assigned ▸ read.1

theorem Sound.step (sound : e.Sound hash name ps start) (pos : 0 < ps.length) (distinct : ps.Nodup)
    {op : EndToEndOp} (covers : e.Covers name op) : (e.step hash clock ids op).Sound hash name ps start := by
  cases op with
  | produce op =>
      exact ⟨sound.source.step pos distinct covers,
        sound.source.step_followed pos distinct sound.followed op, sound.assigned, sound.listed⟩
  | poll times maxMessages => exact sound.poll times covers

variable (clock ids) in
theorem run_sound (sound : e.Sound hash name ps start) (pos : 0 < ps.length) (distinct : ps.Nodup)
    {ops : List EndToEndOp} (covers : Guarded (step hash clock ids) (Covers name) e ops) :
    (run (step hash clock ids) e ops).Sound hash name ps start :=
  run_invariant (fun _ _ sound covered => sound.step pos distinct covered) sound covers

/-- What was polled from a partition and what is not read yet are its log. -/
theorem Sound.log (sound : e.Sound hash name ps start) (zero : ∀ p ∈ ps, start.positionOf p = 0)
    {p : PartitionRef} (member : p ∈ ps) :
    entriesOf p e.polled ++ e.view.backlog p = e.source.world.broker.logOf p := by
  have member : p ∈ e.consumer.assignedPartitions := sound.assigned ▸ member
  have ordered : e.view.store.Ordered := sound.followed.sound.ordered
  have polled : entriesOf p e.polled =
      window e.view.store.offsetOf (start.positionOf p) (e.view.positionOf p) (e.view.store.logOf p) :=
    (sound.followed.sound.lossless p member).1
  have moved : start.positionOf p ≤ e.view.positionOf p := sound.followed.sound.moved p member
  rw [zero p (sound.assigned ▸ member)] at polled moved
  -- both are windows of the log, up to a bound past all of it
  let bound := max (e.view.positionOf p) (e.view.store.partitions p).nextOffset
  have below : ∀ m ∈ e.view.store.logOf p, e.view.store.offsetOf m < bound := fun m logged =>
    lt_of_lt_of_le (ordered.bounded p m logged) (le_max_right ..)
  have unread : e.view.backlog p =
      window e.view.store.offsetOf (e.view.positionOf p) bound (e.view.store.logOf p) :=
    List.filter_congr fun m logged => by simp [below m logged]
  have all : window e.view.store.offsetOf 0 bound (e.view.store.logOf p) = e.view.store.logOf p :=
    List.filter_eq_self.mpr fun m logged => by simp [below m logged, ordered.nonneg p m logged]
  rw [polled, unread, (ordered.ascending p).window_append moved (le_max_left ..), all]
  rfl

/-- Sorted by partition, the entries are the same. -/
theorem entriesOf_perm (distinct : ps.Nodup) {entries : List Entry} (listed : ∀ x ∈ entries, x.1 ∈ ps) :
    (ps.flatMap fun p => entriesOf p entries).Perm (entries.map Prod.snd) := by
  induction entries with
  | nil => simp [entriesOf]
  | cons x rest ih =>
      have split : (fun p => entriesOf p (x :: rest)) = fun p =>
          (if x.1 = p then [x.2] else []) ++ entriesOf p rest := by
        funext p
        by_cases here : x.1 = p <;> simp [entriesOf, here]
      rw [split, List.map_cons]
      refine (List.flatMap_append_perm ..).symm.trans ?_
      rw [flatMap_single distinct (listed x List.mem_cons_self)]
      exact (ih fun y later => listed y (List.mem_cons_of_mem _ later)).cons x.2

/-- The partitions hold all that arrived, each object once. -/
theorem logs_perm {w : BrokerWorld} (fed : w.Fed hash name ps) (pos : 0 < ps.length) :
    (ps.flatMap w.broker.logOf).Perm ((w.arrivedAt name).map Arrival.ref) := by
  obtain ⟨t, -, routed⟩ := fed.topic
  have logs : ps.map w.broker.logOf = (List.range ps.length).map
      (lane hash (fun m => (w.broker.messages m).key) ps.length ((w.arrivedAt name).map Arrival.ref)) := by
    refine List.ext_getElem (by simp) fun j inside _ => ?_
    rw [List.length_map] at inside
    simp only [List.getElem_map, List.getElem_range]
    exact routed.logs j ps[j] (List.getElem?_eq_getElem inside)
  rw [List.flatMap_def, logs, ← List.flatMap_def]
  exact lanes_perm hash _ pos _

/-- Everything that arrived was polled or is not read yet, each object once. -/
theorem Sound.all (sound : e.Sound hash name ps start) (pos : 0 < ps.length) (distinct : ps.Nodup)
    (zero : ∀ p ∈ ps, start.positionOf p = 0) :
    (e.polled.map Prod.snd ++ ps.flatMap e.view.backlog).Perm
      ((e.source.world.arrivedAt name).map Arrival.ref) := by
  have parts : ps.flatMap (fun p => entriesOf p e.polled ++ e.view.backlog p) =
      ps.flatMap e.source.world.broker.logOf := by
    rw [List.flatMap_def, List.flatMap_def]
    exact congrArg List.flatten (List.map_congr_left fun p member => sound.log zero member)
  have sorted := entriesOf_perm distinct sound.listed
  have whole := logs_perm sound.source.fed pos
  rw [← parts] at whole
  exact ((sorted.symm.append_right _).trans (List.flatMap_append_perm ..)).trans whole

/-! ## Polling until nothing is left -/

/-- A poll goes on in every assigned partition. -/
theorem backlog_poll {r : PollRun} (sound : PollRun.Sound start r) (times : PollTimes) {maxMessages : Option ℤ}
    (pos : 1 ≤ r.consumer.pollLimit maxMessages) {p : PartitionRef}
    (assigned : p ∈ r.consumer.assignedPartitions) :
    ∃ k, 1 ≤ k ∧ (r.step (.poll times maxMessages)).backlog p = (r.backlog p).drop k := by
  obtain ⟨-, position⟩ := Consumer.readPartitions_entriesOf sound.ordered sound.gapless
    (PollRun.quota_pos r.consumer (r.consumer.pollLimit maxMessages)) r.consumer.offsets
    (sound.distinct p assigned)
  obtain ⟨-, -, -, same⟩ := r.poll_spec times pos
  have quota := PollRun.quota_pos r.consumer (r.consumer.pollLimit maxMessages)
  refine ⟨r.consumer.assignedPartitions.count p *
    (r.consumer.perPartition (r.consumer.pollLimit maxMessages)).toNat, ?_, ?_⟩
  · exact Nat.mul_pos (List.count_pos_iff.mpr assigned) (by omega)
  · rw [PollRun.backlog, r.positionOf_poll times pos, same.offsetOf, same.logOf, PollRun.loop, position]
    exact (Consumer.since_advance sound.ordered ..).2

/-- With a limit of a message for each partition, every poll covers the demand. -/
theorem enough_of_limit {r : PollRun} (times : PollTimes)
    {maxMessages : Option ℤ} (pos : 0 < r.consumer.assignedPartitions.length)
    (limit : r.consumer.assignedPartitions.length ≤ r.consumer.pollLimit maxMessages) :
    r.Enough (.poll times maxMessages) := by
  refine ⟨by omega, le_trans ?_ limit⟩
  have each : r.demand ≤ ∑ p ∈ r.consumer.assignedPartitions.toFinset,
      r.consumer.assignedPartitions.count p := Finset.sum_le_sum fun p _ => min_le_left _ _
  rw [List.sum_toFinset_count_eq_length] at each
  exact Int.ofNat_le.mpr each

/-- Polls one after another. -/
def drain (e : EndToEnd) (polls : List (PollTimes × Option ℤ)) : EndToEnd :=
  run (fun e q => e.poll q.1 q.2) e polls

/-- The producers are where they were. -/
structure SameSource (e e' : EndToEnd) : Prop where
  arrived : e'.source.world.arrived = e.source.world.arrived
  producers : e'.source.producers = e.source.producers
  registered : e'.source.registered = e.source.registered

/-- As many polls as the longest backlog has messages leave none. -/
theorem Sound.drain (sound : e.Sound hash name ps start) (pos : 0 < ps.length)
    {polls : List (PollTimes × Option ℤ)} (limits : ∀ q ∈ polls, ps.length ≤ e.consumer.pollLimit q.2) :
    (e.drain polls).Sound hash name ps start ∧
      (∀ p ∈ ps, ((e.drain polls).view.backlog p).length ≤ (e.view.backlog p).length - polls.length) ∧
      SameSource e (e.drain polls) := by
  induction polls generalizing e with
  | nil => exact ⟨sound, fun p _ => le_refl _, rfl, rfl, rfl⟩
  | cons q rest ih =>
      have assigned : e.view.consumer.assignedPartitions = ps := sound.assigned
      have limit := limits q List.mem_cons_self
      have enough : e.view.Enough (.poll q.1 q.2) :=
        enough_of_limit q.1 (assigned ▸ pos) (assigned ▸ limit)
      have polled := sound.poll q.1 enough
      have config : (e.poll q.1 q.2).consumer.config = e.consumer.config :=
        (Consumer.poll_cases q.1 e.view.store e.view.consumer q.2).2.2.2.1
      obtain ⟨left, shorter, same⟩ := ih polled fun q' later => by
        rw [Consumer.pollLimit, config]
        exact limits q' (List.mem_cons_of_mem _ later)
      refine ⟨left, fun p member => (shorter p member).trans ?_, same.arrived, same.producers,
        same.registered⟩
      obtain ⟨k, some_, read⟩ := backlog_poll sound.followed.sound q.1 enough.1 (assigned ▸ member)
      have read : (e.poll q.1 q.2).view.backlog p = (e.view.backlog p).drop k := read
      rw [read, List.length_drop, List.length_cons]
      omega

/-! ## Over whole runs -/

/-- A topic that was just created, nothing published, and a consumer of its partitions. -/
structure Ready (name : String) (config : TopicConfig) (t : Topic) (e : EndToEnd) : Prop where
  before : ∃ b : Broker, b.Arranged ∧ b.Tidy e.source.world.nextMessage ∧
    b.createTopic name (some config) = (.ok t, e.source.world.broker)
  source : e.source = { world := { broker := e.source.world.broker, nextMessage := e.source.world.nextMessage } }
  partitions : 1 ≤ config.numPartitions
  anySize : config.maxMessageBytes ≤ 0
  unlimited : config.maxPartitionSize ≤ 0
  assigned : e.consumer.assignedPartitions = t.partitions
  zero : ∀ p ∈ t.partitions, e.view.positionOf p = 0
  polled : e.polled = []

variable {config : TopicConfig} {t : Topic}

theorem Ready.sound (ready : e.Ready name config t) (hash : String → ℕ) :
    e.Sound hash name t.partitions e.view ∧ t.partitions.length = config.numPartitions.toNat ∧
      t.partitions.Nodup := by
  obtain ⟨b, arranged, tidy, created⟩ := ready.before
  obtain ⟨fed, length, distinct⟩ := BrokerWorld.created_fed hash arranged ready.anySize ready.unlimited created
    e.source.world.nextMessage
  obtain ⟨listed, kept⟩ := Broker.createTopic_tidy tidy created
  obtain ⟨-, named⟩ := fed.arranged.topics name t listed
  have view : PollRun.Sound e.view e.view := by
    refine ⟨kept.ordered, kept.gapless, ?_, fun p _ => le_refl _, fun p _ => .inl rfl, fun p _ => ?_⟩
    · intro p inside q inside' same
      have inside : p ∈ t.partitions := ready.assigned ▸ inside
      have inside' : q ∈ t.partitions := ready.assigned ▸ inside'
      exact named.distinct q inside' p inside (congrArg Prod.snd same)
    · have polled : e.view.polled = [] := ready.polled
      rw [polled, window_eq_nil fun m _ => by omega]
      exact ⟨rfl, .nil⟩
  have source : e.source.Sound hash name t.partitions := by
    rw [ready.source]
    exact ⟨fed, fun i r found => by simp at found, fun _ _ => rfl, fun id i found => by simp at found, rfl⟩
  have arrived : e.source.world.arrived = [] := by rw [ready.source]
  refine ⟨⟨source, ⟨view, kept.unused, fun p inside => ?_, ?_, fun m member => ?_⟩, ready.assigned,
    fun x member => ?_⟩, length, distinct⟩
  · exact named.created p (ready.assigned ▸ inside)
  · rw [arrived]
    exact List.nodup_nil
  · rw [arrived] at member
    cases member
  · rw [ready.polled] at member
    cases member

/-- All that the registered producers accepted for the topic was polled, each object once. -/
structure Drained (name : String) (t : Topic) (e : EndToEnd) : Prop where
  logs : ∀ p ∈ t.partitions, entriesOf p e.polled = e.source.world.broker.logOf p
  all : (e.polled.map Prod.snd).Perm ((e.source.world.arrivedAt name).map Arrival.ref)
  accepted : ∀ id i, e.source.registered.get? id = some i → ∃ r, e.source.producers[i]? = some r ∧
    r.producer.batch = [] ∧ e.source.world.arrivedFrom name (some i) = r.accepted.filter fun m => m.topic = name

end EndToEnd

end BrokerLite
