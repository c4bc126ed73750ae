/-
# Consume.AtMostOnce -- a consumer is given no record twice

A run of one consumer: its own calls (`assign`, `revoke`, `poll`, `commit`, and
the group change that joining a group makes), the operations on the logs it
reads, and commits by other consumers.  `delivered` is the history of what its
polls returned, each entry by topic, partition id and offset.

`ConsumerRun.Sound` is the invariant: everything delivered lies below the
position kept for its partition.  Reading never goes below the position, also in
logs with compaction holes, so nothing is delivered twice.
-/
import BrokerLite.Consume.Poll

namespace BrokerLite

open Theory

set_option autoImplicit false

structure ConsumerRun where
  store : Store
  consumer : Consumer
  /-- What the polls returned: `((topic, partition id), offset)`. -/
  delivered : List ((String × ℤ) × ℤ) := []

inductive ConsumerOp where
  | log (op : LogOp)
  | assign (partitions : List PartitionRef)
  | revoke
  | poll (times : PollTimes) (maxMessages : Option ℤ)
  | commit (now : Timestamp)
  /-- `ConsumerGroup.join` writes the consumer's group id. -/
  | enterGroup (groupId : String)
  /-- Another consumer commits. -/
  | commitElsewhere (p : PartitionRef) (groupId : String) (offset : ℤ)

namespace ConsumerRun

def step (r : ConsumerRun) : ConsumerOp → ConsumerRun
  | .log op => { r with store := r.store.applyOp op }
  | .assign partitions =>
      { r with consumer := r.consumer.assign r.store.partitions partitions }
  | .revoke => { r with consumer := r.consumer.revoke }
  | .poll times maxMessages =>
      let done := r.consumer.poll times r.store maxMessages
      { store := done.2.1
        consumer := done.2.2
        delivered := r.delivered ++
          done.1.map fun e => ((r.store.partitions e.1).key, r.store.offsetOf e.2) }
  | .commit now =>
      let done := r.consumer.commit now r.store
      { r with store := done.2.1, consumer := done.2.2 }
  | .enterGroup groupId =>
      { r with consumer := { r.consumer with config := { r.consumer.config with groupId } } }
  | .commitElsewhere p groupId offset => { r with store := r.store.commitOffset p groupId offset }

/-- Appended objects are in no log, poll limits are at least one, and what
others commit is not negative. -/
def Admissible (r : ConsumerRun) : ConsumerOp → Prop
  | .log op => op.Fresh r.store
  | .poll _ maxMessages => 1 ≤ r.consumer.pollLimit maxMessages
  | .commitElsewhere _ _ offset => 0 ≤ offset
  | _ => True

structure Sound (r : ConsumerRun) : Prop where
  ordered : r.store.Ordered
  committed : ∀ p g, 0 ≤ (r.store.partitions p).getCommittedOffset g
  kept : ∀ key, 0 ≤ r.consumer.position key
  nodup : r.delivered.Nodup
  passed : ∀ d ∈ r.delivered, d.2 < r.consumer.position d.1

variable {r : ConsumerRun}

/-! ## No step lowers a position -/

theorem assign_position_le (sound : r.Sound) (ps : List PartitionRef) (key : String × ℤ) :
    r.consumer.position key ≤ (r.consumer.assign r.store.partitions ps).position key := by
  unfold Consumer.position Consumer.assign Dict.getD
  cases here : r.consumer.offsets.get? key with
  | some v => simp [Consumer.openPositions_of_kept ps here]
  | none =>
      cases found : (Consumer.openPositions r.store.partitions r.consumer.config.groupId ps
        r.consumer.offsets).get? key with
      | none => simp
      | some v =>
          rcases Consumer.openPositions_cases ps found with kept | ⟨-, p, -, -, rfl⟩
          · rw [here] at kept
            cases kept
          · simpa using sound.committed p _

theorem poll_offsets (r : ConsumerRun) (times : PollTimes) (maxMessages : Option ℤ) :
    (r.consumer.poll times r.store maxMessages).2.2.offsets =
      (Consumer.readPartitions r.store (r.consumer.perPartition (r.consumer.pollLimit maxMessages))
        r.consumer.assignedPartitions r.consumer.offsets).2 :=
  (Consumer.poll_cases times r.store r.consumer maxMessages).2.1

theorem step_position_le (sound : r.Sound) (op : ConsumerOp) (key : String × ℤ) :
    r.consumer.position key ≤ (r.step op).consumer.position key := by
  cases op with
  | assign ps => exact assign_position_le sound ps key
  | poll times maxMessages =>
      show _ ≤ (r.consumer.poll times r.store maxMessages).2.2.offsets.getD key 0
      rw [poll_offsets]
      exact Consumer.readPartitions_mono sound.ordered
        (le_trans zero_le_one (Consumer.one_le_perPartition _ _)) _ _ key
  | _ => exact le_refl _

/-! ## The invariant -/

theorem Sound.commitPartitions (sound : r.Sound) (g : String) (ps : List PartitionRef)
    {offsets : Positions} (nonneg : ∀ key, 0 ≤ offsets.getD key 0) (p : PartitionRef) (h : String) :
    0 ≤ ((Consumer.commitPartitions g offsets ps r.store).partitions p).getCommittedOffset h := by
  rw [Consumer.commitPartitions_getCommittedOffset]
  split
  · exact nonneg _
  · exact sound.committed p h

/-- A poll delivers nothing below a position and nothing twice. -/
theorem Sound.poll (sound : r.Sound) (times : PollTimes) {maxMessages : Option ℤ}
    (limit : 1 ≤ r.consumer.pollLimit maxMessages) : (r.step (.poll times maxMessages)).Sound := by
  have quota : 0 ≤ r.consumer.perPartition (r.consumer.pollLimit maxMessages) :=
    le_trans zero_le_one (Consumer.one_le_perPartition _ _)
  have raised := step_position_le sound (.poll times maxMessages)
  obtain ⟨cut, offsets, -, -, -, store⟩ := Consumer.poll_cases times r.store r.consumer maxMessages
  rw [sliceTo_of_nonneg _ (by omega)] at cut
  generalize reads : Consumer.readPartitions r.store
    (r.consumer.perPartition (r.consumer.pollLimit maxMessages))
    r.consumer.assignedPartitions r.consumer.offsets = loop at cut offsets store
  have read : ∀ {e}, e ∈ loop.1 → r.consumer.position (r.store.partitions e.1).key ≤
      r.store.offsetOf e.2 ∧
      r.store.offsetOf e.2 < loop.2.getD (r.store.partitions e.1).key 0 := by
    intro e member
    rw [← reads] at member ⊢
    exact (Consumer.readPartitions_mem sound.ordered quota member).2.2
  have position : ∀ key, (r.step (.poll times maxMessages)).consumer.position key = loop.2.getD key 0 :=
    fun key => congrArg (fun d => Dict.getD d key 0) offsets
  have nonneg : ∀ key, 0 ≤ loop.2.getD key 0 := fun key =>
    position key ▸ le_trans (sound.kept key) (raised key)
  refine ⟨?_, ?_, fun key => position key ▸ nonneg key, ?_, ?_⟩
  · exact sound.ordered.congr (Consumer.poll_sameLogs ..)
  · show ∀ p g, 0 ≤ ((r.consumer.poll times r.store maxMessages).2.1.partitions p).getCommittedOffset g
    rcases store with same | ⟨-, same⟩ <;> rw [same]
    · exact sound.committed
    · exact sound.commitPartitions _ _ nonneg
  · show (r.delivered ++ (r.consumer.poll times r.store maxMessages).1.map _).Nodup
    rw [cut]
    refine List.nodup_append.mpr ⟨sound.nodup, ?_, ?_⟩
    · have order := Consumer.readPartitions_pairwise sound.ordered quota
        r.consumer.assignedPartitions r.consumer.offsets
      rw [reads] at order
      refine List.pairwise_map.mpr ((order.sublist (List.take_sublist _ _)).imp ?_)
      intro a b growing same
      have later := growing (congrArg Prod.fst same)
      have equal : r.store.offsetOf a.2 = r.store.offsetOf b.2 := congrArg Prod.snd same
      omega
    · rintro d old _ new rfl
      obtain ⟨e, member, rfl⟩ := List.mem_map.mp new
      have low := (read (List.mem_of_mem_take member)).1
      have high : r.store.offsetOf e.2 < r.consumer.position (r.store.partitions e.1).key :=
        sound.passed _ old
      omega
  · intro d member
    rw [position]
    rcases List.mem_append.mp member with old | new
    · exact lt_of_lt_of_le (sound.passed d old) (position d.1 ▸ raised d.1)
    · rw [cut] at new
      obtain ⟨e, taken, rfl⟩ := List.mem_map.mp new
      exact (read (List.mem_of_mem_take taken)).2

theorem Sound.step (sound : r.Sound) {op : ConsumerOp} (admissible : r.Admissible op) :
    (r.step op).Sound := by
  have raised := step_position_le sound op
  cases op with
  | log op =>
      refine ⟨sound.ordered.applyOp admissible, fun p g => ?_, sound.kept, sound.nodup, sound.passed⟩
      show 0 ≤ ((r.store.applyOp op).partitions p).committedOffsets.getD g 0
      rw [Store.applyOp_committed]
      exact sound.committed p g
  | assign ps =>
      exact ⟨sound.ordered, sound.committed, fun key => le_trans (sound.kept key) (raised key),
        sound.nodup, fun d member => lt_of_lt_of_le (sound.passed d member) (raised d.1)⟩
  | poll times maxMessages => exact sound.poll times admissible
  | commit now =>
      exact ⟨sound.ordered.congr (Consumer.commitPartitions_sameLogs ..),
        sound.commitPartitions _ _ sound.kept, sound.kept, sound.nodup, sound.passed⟩
  | commitElsewhere p groupId offset =>
      refine ⟨sound.ordered.congr (r.store.commitOffset_sameLogs ..), fun q g => ?_, sound.kept,
        sound.nodup, sound.passed⟩
      show 0 ≤ ((r.store.commitOffset p groupId offset).partitions q).getCommittedOffset g
      rw [Store.commitOffset_getCommittedOffset]
      split
      · exact admissible
      · exact sound.committed q g
  | revoke => exact ⟨sound.ordered, sound.committed, sound.kept, sound.nodup, sound.passed⟩
  | enterGroup groupId =>
      exact ⟨sound.ordered, sound.committed, sound.kept, sound.nodup, sound.passed⟩

/-! ## Over whole runs -/

/-- New partitions, and a consumer that keeps no position and was given nothing. -/
structure Start (r : ConsumerRun) : Prop where
  store : r.store.New
  offsets : r.consumer.offsets = .empty
  delivered : r.delivered = []

theorem Start.sound (start : r.Start) : r.Sound where
  ordered := start.store.ordered
  committed p g := by simp [Partition.getCommittedOffset, (start.store p).2.2]
  kept key := by simp [Consumer.position, start.offsets]
  nodup := by rw [start.delivered]; exact List.nodup_nil
  passed d member := by rw [start.delivered] at member; cases member

theorem sound_run (sound : r.Sound) {ops : List ConsumerOp}
    (admissible : Guarded step Admissible r ops) : (run step r ops).Sound :=
  run_invariant (fun _ _ sound admitted => sound.step admitted) sound admissible

/-- **At most once.**  Over a whole run no topic, partition and offset is
delivered twice, and no position ever decreases. -/
theorem delivered_at_most_once (start : r.Start) {ops : List ConsumerOp}
    (admissible : Guarded step Admissible r ops) :
    (run step r ops).delivered.Nodup ∧
      ∀ before after, ops = before ++ after → ∀ key,
        (run step r before).consumer.position key ≤ (run step r ops).consumer.position key := by
  refine ⟨(sound_run start.sound admissible).nodup, ?_⟩
  rintro before after rfl key
  obtain ⟨first, rest⟩ := (guarded_append r before after).mp admissible
  rw [run_append]
  have raised := run_mono (fun r : ConsumerRun => r.consumer.position key)
    (fun _ _ sound admitted => Sound.step sound admitted)
    (fun _ op sound _ => step_position_le sound op key) (sound_run start.sound first) rest
  exact raised

/-- A consumer of partition 0 that polls, loses the partition, and polls it
again after a compaction. -/
def revokedOps : List ConsumerOp :=
  [.assign [0], .log (.append 0 0 1), .log (.append 0 0 2), .poll ⟨1, 1, 1⟩ (some 10), .revoke,
    .log (.compact 0), .assign [0], .poll ⟨9, 9, 9⟩ (some 10), .commit 10]

def revokedStart : ConsumerRun where
  store := Store.keyedStart
  consumer := { consumerId := "c" }

theorem revokedOps_delivered_at_most_once :
    (run step revokedStart revokedOps).delivered.Nodup ∧
      ∀ before after, revokedOps = before ++ after → ∀ key,
        (run step revokedStart before).consumer.position key ≤
          (run step revokedStart revokedOps).consumer.position key := by
  refine delivered_at_most_once ⟨Store.keyedStart_new, rfl, rfl⟩ ?_
  have empty : ∀ m, Store.keyedStart.Unstored m := fun _ _ => List.not_mem_nil
  have limit : ∀ c : Consumer, 1 ≤ c.pollLimit (some 10) := by
    simp [Consumer.pollLimit, orDefault]
  have second : (Store.keyedStart.applyOp (.append 0 0 1)).Unstored 2 :=
    (empty 2).applyOp (by decide)
  exact ⟨trivial, empty 1, second, limit _, trivial, trivial, trivial,
    limit _, trivial, trivial⟩

end ConsumerRun

end BrokerLite
