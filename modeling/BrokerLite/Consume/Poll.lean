/-
# Consume.Poll -- what one poll reads

The facts about the loop of `poll` that hold in every store whose logs are
ordered (`Store.Ordered`), whatever has been removed from them:

* it reads a record of an assigned partition, at or after the position the
  consumer had there and before the position it has afterwards
  (`readPartitions_mem`);
* no position decreases (`readPartitions_mono`);
* records read under one key have growing offsets (`readPartitions_pairwise`).

`poll_cases` is what a poll does to the store and the consumer.
-/
import BrokerLite.Consume.Consumer
import BrokerLite.Store.PartitionRead

namespace BrokerLite.Consumer

open Theory

set_option autoImplicit false

variable {s : Store} {perPartition : ℤ}

/-! ## One batch -/

section Batch

variable {p : PartitionRef} (ordered : s.Ordered) (quota : 0 ≤ perPartition) (position : ℤ)

include quota in
theorem read_sublist : (s.read p position perPartition).Sublist (s.logOf p) := by
  rw [Store.read_of_nonneg position quota]
  exact (List.take_sublist _ _).trans (List.drop_sublist _ _)

include ordered quota

theorem read_ascending : Ascending s.offsetOf (s.read p position perPartition) :=
  (ordered.ascending p).sublist (read_sublist quota position)

/-- Nothing older than the position is read, also from a log with holes. -/
theorem le_of_mem_read {m : MessageRef} (member : m ∈ s.read p position perPartition) :
    position ≤ s.offsetOf m := by
  have nonempty : 0 < (s.logOf p).length :=
    List.length_pos_of_mem ((read_sublist quota position).mem member)
  rw [Store.read_of_nonneg position quota, Store.earliestOffset_eq nonempty] at member
  exact (ordered.ascending p).le_of_mem_drop_seek position nonempty (List.mem_of_mem_take member)

theorem lt_advance {m : MessageRef} (member : m ∈ s.read p position perPartition) :
    s.offsetOf m < advance s position (s.read p position perPartition) := by
  have ascending := read_ascending ordered quota position (p := p)
  generalize s.read p position perPartition = batch at member ascending
  have nonempty := List.ne_nil_of_mem member
  rw [← List.dropLast_append_getLast nonempty] at member ascending
  rw [advance, List.getLast?_eq_some_getLast nonempty]
  rcases List.mem_append.mp member with before | last
  · have := (List.pairwise_append.mp ascending).2.2 m before _ (List.mem_singleton_self _)
    show s.offsetOf m < s.offsetOf _ + 1
    omega
  · rw [List.mem_singleton.mp last]
    exact lt_add_one _

theorem le_advance : position ≤ advance s position (s.read p position perPartition) := by
  cases last : (s.read p position perPartition).getLast? with
  | none => simp [advance, last]
  | some m =>
      have member := List.mem_of_getLast? last
      have := le_of_mem_read ordered quota position member
      simp only [advance, last]
      omega

end Batch

/-! ## The loop -/

/-- The positions after `p` was read. -/
def moved (s : Store) (perPartition : ℤ) (p : PartitionRef) (offsets : Positions) : Positions :=
  if s.read p (offsets.getD (s.partitions p).key 0) perPartition = [] then offsets
  else offsets.set (s.partitions p).key (advance s (offsets.getD (s.partitions p).key 0)
    (s.read p (offsets.getD (s.partitions p).key 0) perPartition))

theorem readPartitions_cons (p : PartitionRef) (rest : List PartitionRef) (offsets : Positions) :
    readPartitions s perPartition (p :: rest) offsets =
      let batch := s.read p (offsets.getD (s.partitions p).key 0) perPartition
      let later := readPartitions s perPartition rest (moved s perPartition p offsets)
      (batch.map (fun m => (p, m)) ++ later.1, later.2) := rfl

theorem moved_getD (p : PartitionRef) (offsets : Positions) (key : String × ℤ) :
    (moved s perPartition p offsets).getD key 0 =
      if key = (s.partitions p).key then
        advance s (offsets.getD key 0) (s.read p (offsets.getD key 0) perPartition)
      else offsets.getD key 0 := by
  unfold moved
  by_cases same : key = (s.partitions p).key
  · subst same
    rw [if_pos rfl]
    split
    · next empty => simp [advance, empty]
    · rw [Dict.getD_set_self]
  · rw [if_neg same]
    split
    · rfl
    · rw [Dict.getD_set_of_ne _ same]

variable (ordered : s.Ordered) (quota : 0 ≤ perPartition)

include ordered quota

theorem moved_mono (p : PartitionRef) (offsets : Positions) (key : String × ℤ) :
    offsets.getD key 0 ≤ (moved s perPartition p offsets).getD key 0 := by
  rw [moved_getD]
  split
  · exact le_advance ordered quota _
  · exact le_refl _

theorem readPartitions_mono (ps : List PartitionRef) (offsets : Positions) (key : String × ℤ) :
    offsets.getD key 0 ≤ (readPartitions s perPartition ps offsets).2.getD key 0 := by
  induction ps generalizing offsets with
  | nil => exact le_refl _
  | cons p rest ih => exact le_trans (moved_mono ordered quota p offsets key) (ih _)

theorem readPartitions_mem {ps : List PartitionRef} {offsets : Positions} {e : Entry}
    (member : e ∈ (readPartitions s perPartition ps offsets).1) :
    e.1 ∈ ps ∧ e.2 ∈ s.logOf e.1 ∧ offsets.getD (s.partitions e.1).key 0 ≤ s.offsetOf e.2 ∧
      s.offsetOf e.2 <
        (readPartitions s perPartition ps offsets).2.getD (s.partitions e.1).key 0 := by
  induction ps generalizing offsets with
  | nil => cases member
  | cons p rest ih =>
      rw [readPartitions_cons] at member ⊢
      rcases List.mem_append.mp member with here | later
      · obtain ⟨m, read, rfl⟩ := List.mem_map.mp here
        refine ⟨List.mem_cons_self, (read_sublist quota _).mem read,
          le_of_mem_read ordered quota _ read, ?_⟩
        refine lt_of_lt_of_le ?_ (readPartitions_mono ordered quota rest _ _)
        rw [moved_getD, if_pos rfl]
        exact lt_advance ordered quota _ read
      · obtain ⟨assigned, logged, low, high⟩ := ih later
        exact ⟨List.mem_cons_of_mem _ assigned, logged,
          le_trans (moved_mono ordered quota p offsets _) low, high⟩

/-- Records read under one key come in growing offset order. -/
theorem readPartitions_pairwise (ps : List PartitionRef) (offsets : Positions) :
    (readPartitions s perPartition ps offsets).1.Pairwise fun a b =>
      (s.partitions a.1).key = (s.partitions b.1).key → s.offsetOf a.2 < s.offsetOf b.2 := by
  induction ps generalizing offsets with
  | nil => exact .nil
  | cons p rest ih =>
      rw [readPartitions_cons]
      refine List.pairwise_append.mpr ⟨?_, ih _, ?_⟩
      · refine List.pairwise_map.mpr (List.Pairwise.imp ?_ (read_ascending ordered quota _))
        exact fun lt _ => lt
      · intro a first b later same
        obtain ⟨m, read, rfl⟩ := List.mem_map.mp first
        obtain ⟨-, -, low, -⟩ := readPartitions_mem ordered quota later
        refine lt_of_lt_of_le ?_ low
        rw [← same, moved_getD, if_pos rfl]
        exact lt_advance ordered quota _ read

omit ordered quota

/-! ## The poll -/

theorem one_le_perPartition (c : Consumer) (limit : ℤ) : 1 ≤ c.perPartition limit := le_max_left ..

/-- What `poll` reads and leaves: the loop's entries cut at the limit, the
loop's positions, and the store, with the positions committed if that was due. -/
theorem poll_cases (times : PollTimes) (s : Store) (c : Consumer) (maxMessages : Option ℤ) :
    let limit := c.pollLimit maxMessages
    let loop := readPartitions s (c.perPartition limit) c.assignedPartitions c.offsets
    let after := c.poll times s maxMessages
    after.1 = sliceTo loop.1 limit ∧ after.2.2.offsets = loop.2 ∧
      after.2.2.assignedPartitions = c.assignedPartitions ∧ after.2.2.config = c.config ∧
      after.2.2.consumerId = c.consumerId ∧
      (after.2.1 = s ∨
        (c.config.autoCommit ∧ c.config.autoCommitInterval ≤ times.checked - c.lastCommit) ∧
        after.2.1 = commitPartitions c.config.groupId loop.2 c.assignedPartitions s) := by
  intro limit loop after
  simp only [after, poll]
  split
  · next empty => simp [loop, empty, readPartitions, sliceTo]
  · split
    · next due => exact ⟨rfl, rfl, rfl, rfl, rfl, .inr ⟨due, rfl⟩⟩
    · exact ⟨rfl, rfl, rfl, rfl, rfl, .inl rfl⟩

theorem poll_sameLogs (times : PollTimes) (s : Store) (c : Consumer) (maxMessages : Option ℤ) :
    s.SameLogs (c.poll times s maxMessages).2.1 := by
  obtain ⟨-, -, -, -, -, same | ⟨-, same⟩⟩ := poll_cases times s c maxMessages <;> rw [same]
  · exact .refl s
  · exact commitPartitions_sameLogs ..

end BrokerLite.Consumer
