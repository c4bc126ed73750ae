/-
# Consume.Lossless -- when polling loses nothing

Appends and polls only, so the logs have no gaps.  The loop of `poll` reads from
every assigned partition the next `count * per_partition` records
(`readPartitions_entriesOf`, a partition may be listed more than once) and moves
its position past them.  Then the whole result is cut at the limit, and what is
cut off is lost: the position is already past it.

The cut takes nothing exactly when the loop read at most `limit` messages.
Since every partition is read at least once, that is the condition
`demand ≤ limit`: with fewer partitions than the limit it always holds, and
otherwise it counts the partitions that have something unread.
-/
import BrokerLite.Consume.Poll
import Mathlib.Algebra.Order.BigOperators.Group.Finset
import Mathlib.Algebra.BigOperators.Ring.Finset

namespace BrokerLite

open Theory

set_option autoImplicit false

/-- The messages among the entries that were read from `p`. -/
def entriesOf (p : PartitionRef) (entries : List Entry) : List MessageRef :=
  (entries.filter fun e => e.1 = p).map Prod.snd

@[simp] theorem entriesOf_append (p : PartitionRef) (xs ys : List Entry) :
    entriesOf p (xs ++ ys) = entriesOf p xs ++ entriesOf p ys := by
  simp [entriesOf]

theorem entriesOf_tagged (p q : PartitionRef) (batch : List MessageRef) :
    entriesOf p (batch.map fun m => (q, m)) = if q = p then batch else [] := by
  by_cases same : q = p <;> simp [entriesOf, List.filter_map, Function.comp_def, same]

theorem length_entriesOf (p : PartitionRef) (entries : List Entry) :
    (entriesOf p entries).length = (entries.map Prod.fst).count p := by
  rw [entriesOf, List.length_map, ← List.countP_eq_length_filter, List.count, List.countP_map]
  rfl

/-! ## Positions and windows -/

namespace Consumer

variable {s : Store} {p : PartitionRef}

theorem advance_append (position : ℤ) (xs ys : List MessageRef) :
    advance s (advance s position xs) ys = advance s position (xs ++ ys) := by
  cases last : ys.getLast? with
  | none => simp [advance, List.getLast?_eq_none_iff.mp last]
  | some m => simp [advance, List.getLast?_append, last]

/-- Moving past the next `k` records leaves the records after them. -/
theorem since_advance (ordered : s.Ordered) (position : ℤ) (k : ℕ) :
    window s.offsetOf position
        (advance s position ((since s.offsetOf position (s.logOf p)).take k)) (s.logOf p) =
      (since s.offsetOf position (s.logOf p)).take k ∧
    since s.offsetOf (advance s position ((since s.offsetOf position (s.logOf p)).take k))
        (s.logOf p) =
      (since s.offsetOf position (s.logOf p)).drop k := by
  cases last : ((since s.offsetOf position (s.logOf p)).take k).getLast? with
  | none =>
      have none_ := List.getLast?_eq_none_iff.mp last
      simp only [none_, advance, List.getLast?_nil]
      refine ⟨window_eq_nil fun m _ => by omega, ?_⟩
      have split := List.take_append_drop k (since s.offsetOf position (s.logOf p))
      rwa [none_, List.nil_append, eq_comm] at split
  | some m =>
      rw [advance, last]
      exact (ordered.ascending p).window_take_since position k last

/-- The position does not go back, and if it moves it stays within the log. -/
theorem le_advance_take (ordered : s.Ordered) (position : ℤ) (k : ℕ) :
    let moved := advance s position ((since s.offsetOf position (s.logOf p)).take k)
    position ≤ moved ∧ (moved = position ∨ moved ≤ (s.partitions p).nextOffset) := by
  intro moved
  cases last : ((since s.offsetOf position (s.logOf p)).take k).getLast? with
  | none => simp [moved, advance, last]
  | some m =>
      obtain ⟨logged, low⟩ := List.mem_filter.mp (List.mem_of_mem_take (List.mem_of_getLast? last))
      have low : position ≤ s.offsetOf m := by simpa using low
      have := ordered.bounded p m logged
      simp only [moved, advance, last]
      omega

/-! ## What the loop reads -/

section Loop

variable {perPartition : ℤ} (ordered : s.Ordered) (gapless : s.Gapless) (quota : 0 < perPartition)

include ordered gapless quota

theorem read_eq_take (position : ℤ) : s.read p position perPartition =
    (since s.offsetOf position (s.logOf p)).take perPartition.toNat :=
  gapless.read_eq ordered position quota

/-- **The loop reads a partition's next records**, one quota for every time it
is listed, and moves its position past exactly these. -/
theorem readPartitions_entriesOf {ps : List PartitionRef} (offsets : Positions)
    (distinct : ∀ q ∈ ps, (s.partitions q).key = (s.partitions p).key → q = p) :
    let next := (since s.offsetOf (offsets.getD (s.partitions p).key 0) (s.logOf p)).take
      (ps.count p * perPartition.toNat)
    entriesOf p (readPartitions s perPartition ps offsets).1 = next ∧
      (readPartitions s perPartition ps offsets).2.getD (s.partitions p).key 0 =
        advance s (offsets.getD (s.partitions p).key 0) next := by
  induction ps generalizing offsets with
  | nil => simp [readPartitions, entriesOf, advance]
  | cons q rest ih =>
      obtain ⟨read, position⟩ := ih (moved s perPartition q offsets)
        fun q member => distinct q (List.mem_cons_of_mem _ member)
      simp only [readPartitions_cons, entriesOf_append, entriesOf_tagged, read, position]
      rw [moved_getD]
      by_cases same : q = p
      · subst same
        have after := (since_advance (p := q) ordered (offsets.getD (s.partitions q).key 0)
          perPartition.toNat).2
        rw [if_pos rfl, if_pos rfl, List.count_cons_self, read_eq_take ordered gapless quota, after,
          ← List.take_add, advance_append, ← List.take_add,
          Nat.add_comm perPartition.toNat, ← Nat.succ_mul]
        exact ⟨rfl, rfl⟩
      · have other : (s.partitions p).key ≠ (s.partitions q).key :=
          fun shared => same (distinct q List.mem_cons_self shared.symm)
        rw [if_neg other, if_neg same, List.count_cons_of_ne same]
        exact ⟨rfl, rfl⟩

/-- How many messages the loop reads. -/
theorem length_readPartitions {ps : List PartitionRef} (offsets : Positions)
    (distinct : ∀ p ∈ ps, ∀ q ∈ ps, (s.partitions q).key = (s.partitions p).key → q = p) :
    (readPartitions s perPartition ps offsets).1.length =
      ∑ p ∈ ps.toFinset, min (ps.count p * perPartition.toNat)
        (since s.offsetOf (offsets.getD (s.partitions p).key 0) (s.logOf p)).length := by
  have assigned : ((readPartitions s perPartition ps offsets).1.map Prod.fst).toFinset ⊆
      ps.toFinset := by
    intro p member
    obtain ⟨e, read, rfl⟩ := List.mem_map.mp (List.mem_toFinset.mp member)
    exact List.mem_toFinset.mpr (readPartitions_mem ordered (le_of_lt quota) read).1
  have counted : ∑ p ∈ ps.toFinset,
      ((readPartitions s perPartition ps offsets).1.map Prod.fst).count p =
        ((readPartitions s perPartition ps offsets).1.map Prod.fst).length := by
    rw [← List.sum_toFinset_count_eq_length]
    refine (Finset.sum_subset assigned fun p _ absent => ?_).symm
    exact List.count_eq_zero_of_not_mem fun member => absent (List.mem_toFinset.mpr member)
  calc (readPartitions s perPartition ps offsets).1.length
      = ∑ p ∈ ps.toFinset, ((readPartitions s perPartition ps offsets).1.map Prod.fst).count p := by
        rw [counted, List.length_map]
    _ = _ := Finset.sum_congr rfl fun p member => by
      rw [← length_entriesOf, (readPartitions_entriesOf ordered gapless quota offsets
        (distinct p (List.mem_toFinset.mp member))).1, List.length_take]

end Loop

end Consumer

/-! ## Runs of appends and polls -/

structure PollRun where
  store : Store
  consumer : Consumer
  /-- What the polls returned, in order. -/
  polled : List Entry := []

inductive PollOp where
  | append (now : Timestamp) (p : PartitionRef) (m : MessageRef)
  | poll (times : PollTimes) (maxMessages : Option ℤ)

namespace PollRun

def step (r : PollRun) : PollOp → PollRun
  | .append now p m => { r with store := (r.store.append now p m).2 }
  | .poll times maxMessages =>
      let done := r.consumer.poll times r.store maxMessages
      { store := done.2.1, consumer := done.2.2, polled := r.polled ++ done.1 }

def positionOf (r : PollRun) (p : PartitionRef) : ℤ := r.consumer.position (r.store.partitions p).key

/-- The records of `p` the consumer has not passed. -/
def backlog (r : PollRun) (p : PartitionRef) : List MessageRef :=
  since r.store.offsetOf (r.positionOf p) (r.store.logOf p)

/-- How many messages one poll has to return at least: one for every assigned
partition with something unread, and `k` for a partition listed `k` times. -/
def demand (r : PollRun) : ℕ :=
  ∑ p ∈ r.consumer.assignedPartitions.toFinset,
    min (r.consumer.assignedPartitions.count p) (r.backlog p).length

/-- From every assigned partition the polls returned the records between the
starting and the current position, in offset order. -/
def Lossless (start r : PollRun) : Prop :=
  ∀ p ∈ r.consumer.assignedPartitions,
    entriesOf p r.polled =
      window r.store.offsetOf (start.positionOf p) (r.positionOf p) (r.store.logOf p) ∧
    Ascending r.store.offsetOf (entriesOf p r.polled)

/-- The appended object is in no log; the limit of a poll covers the demand. -/
def Enough (r : PollRun) : PollOp → Prop
  | .append _ _ m => r.store.Unstored m
  | .poll _ maxMessages =>
      1 ≤ r.consumer.pollLimit maxMessages ∧ r.demand ≤ r.consumer.pollLimit maxMessages

/-- New partitions, those assigned told apart by topic and id, and no poll yet. -/
structure Start (r : PollRun) : Prop where
  store : r.store.New
  distinct : ∀ p ∈ r.consumer.assignedPartitions, ∀ q ∈ r.consumer.assignedPartitions,
    (r.store.partitions q).key = (r.store.partitions p).key → q = p
  polled : r.polled = []

structure Sound (start r : PollRun) : Prop where
  ordered : r.store.Ordered
  gapless : r.store.Gapless
  distinct : ∀ p ∈ r.consumer.assignedPartitions, ∀ q ∈ r.consumer.assignedPartitions,
    (r.store.partitions q).key = (r.store.partitions p).key → q = p
  moved : ∀ p ∈ r.consumer.assignedPartitions, start.positionOf p ≤ r.positionOf p
  reached : ∀ p ∈ r.consumer.assignedPartitions, r.positionOf p = start.positionOf p ∨
    r.positionOf p ≤ (r.store.partitions p).nextOffset
  lossless : start.Lossless r

variable {start r : PollRun}

/-! ## One poll -/

/-- What the loop of the next poll reads and the positions it leaves. -/
def loop (r : PollRun) (maxMessages : Option ℤ) : List Entry × Positions :=
  Consumer.readPartitions r.store (r.consumer.perPartition (r.consumer.pollLimit maxMessages))
    r.consumer.assignedPartitions r.consumer.offsets

theorem quota_pos (c : Consumer) (limit : ℤ) : 0 < c.perPartition limit :=
  lt_of_lt_of_le zero_lt_one (Consumer.one_le_perPartition c limit)

/-- With at least as many messages allowed as partitions, all quotas fit. -/
theorem quotas_fit {c : Consumer} {limit : ℤ} (some_ : c.assignedPartitions.length ≤ limit)
    (nonneg : 0 ≤ limit) : c.assignedPartitions.length * c.perPartition limit ≤ limit := by
  rcases Nat.eq_zero_or_pos c.assignedPartitions.length with none_ | pos
  · simpa [none_] using nonneg
  · have quotient : 1 ≤ limit / c.assignedPartitions.length :=
      (Int.le_ediv_iff_mul_le (by omega)).mpr (by omega)
    rw [Consumer.perPartition, max_eq_right quotient]
    exact Int.mul_ediv_self_le (by omega)

/-- **The cut takes nothing iff the limit covers the demand.** -/
theorem length_loop_le_iff (sound : Sound start r) {maxMessages : Option ℤ}
    (pos : 1 ≤ r.consumer.pollLimit maxMessages) :
    (r.loop maxMessages).1.length ≤ r.consumer.pollLimit maxMessages ↔
      r.demand ≤ r.consumer.pollLimit maxMessages := by
  have read := Consumer.length_readPartitions sound.ordered sound.gapless
    (quota_pos r.consumer (r.consumer.pollLimit maxMessages)) r.consumer.offsets sound.distinct
  have listed := List.sum_toFinset_count_eq_length r.consumer.assignedPartitions
  rcases le_or_gt (r.consumer.assignedPartitions.length : ℤ) (r.consumer.pollLimit maxMessages)
    with covers | short
  · have demanded : r.demand ≤ r.consumer.assignedPartitions.length := by
      rw [← listed]
      exact Finset.sum_le_sum fun p _ => min_le_left _ _
    have bounded : (r.loop maxMessages).1.length ≤ r.consumer.assignedPartitions.length *
        (r.consumer.perPartition (r.consumer.pollLimit maxMessages)).toNat := by
      rw [loop, read, ← listed, Finset.sum_mul]
      exact Finset.sum_le_sum fun p _ => min_le_left _ _
    have fits := quotas_fit covers (by omega)
    have nonneg := quota_pos r.consumer (r.consumer.pollLimit maxMessages)
    have bounded : ((r.loop maxMessages).1.length : ℤ) ≤ r.consumer.assignedPartitions.length *
        r.consumer.perPartition (r.consumer.pollLimit maxMessages) := by
      have cast := Int.ofNat_le.mpr bounded
      rwa [Nat.cast_mul, Int.toNat_of_nonneg (le_of_lt nonneg)] at cast
    constructor <;> intro _ <;> omega
  · have quota : r.consumer.perPartition (r.consumer.pollLimit maxMessages) = 1 := by
      rw [Consumer.perPartition, Int.ediv_eq_zero_of_lt (by omega) short]
      rfl
    have same : (r.loop maxMessages).1.length = r.demand := by
      rw [loop, read, quota]
      simp [demand, backlog, positionOf, Consumer.position]
    rw [same]

/-- What one poll returns and where it leaves the positions. -/
theorem poll_spec (r : PollRun) (times : PollTimes) {maxMessages : Option ℤ}
    (pos : 1 ≤ r.consumer.pollLimit maxMessages) :
    let after := r.step (.poll times maxMessages)
    after.polled =
        r.polled ++ (r.loop maxMessages).1.take (r.consumer.pollLimit maxMessages).toNat ∧
      after.consumer.offsets = (r.loop maxMessages).2 ∧
      after.consumer.assignedPartitions = r.consumer.assignedPartitions ∧
      r.store.SameLogs after.store := by
  obtain ⟨cut, offsets, assigned, -⟩ := Consumer.poll_cases times r.store r.consumer maxMessages
  rw [sliceTo_of_nonneg _ (by omega)] at cut
  exact ⟨congrArg (r.polled ++ ·) cut, offsets, assigned, Consumer.poll_sameLogs ..⟩

theorem positionOf_poll (r : PollRun) (times : PollTimes) {maxMessages : Option ℤ}
    (pos : 1 ≤ r.consumer.pollLimit maxMessages) (p : PartitionRef) :
    (r.step (.poll times maxMessages)).positionOf p =
      (r.loop maxMessages).2.getD (r.store.partitions p).key 0 := by
  obtain ⟨-, offsets, -, same⟩ := r.poll_spec times pos
  rw [positionOf, Consumer.position, offsets, same.key]

/-- The loop reads the first records of a partition's backlog and moves the
position past them. -/
theorem loop_spec (sound : Sound start r) (maxMessages : Option ℤ) {p : PartitionRef}
    (assigned : p ∈ r.consumer.assignedPartitions) :
    ∃ k, entriesOf p (r.loop maxMessages).1 = (r.backlog p).take k ∧
      (r.loop maxMessages).2.getD (r.store.partitions p).key 0 =
        Consumer.advance r.store (r.positionOf p) ((r.backlog p).take k) :=
  ⟨_, Consumer.readPartitions_entriesOf sound.ordered sound.gapless (quota_pos ..) _
    (sound.distinct p assigned)⟩

/-- After a poll the records between the starting and the current position are
those returned before and everything the loop read, cut or not. -/
theorem window_poll (sound : Sound start r) (times : PollTimes) {maxMessages : Option ℤ}
    (pos : 1 ≤ r.consumer.pollLimit maxMessages) {p : PartitionRef}
    (assigned : p ∈ r.consumer.assignedPartitions) :
    let after := r.step (.poll times maxMessages)
    window after.store.offsetOf (start.positionOf p) (after.positionOf p) (after.store.logOf p) =
      entriesOf p (r.polled ++ (r.loop maxMessages).1) := by
  intro after
  obtain ⟨-, -, -, same⟩ := r.poll_spec times pos
  obtain ⟨k, read, position⟩ := loop_spec sound maxMessages assigned
  have passed := (Consumer.since_advance (p := p) sound.ordered (r.positionOf p) k).1
  have raised := (Consumer.le_advance_take (p := p) sound.ordered (r.positionOf p) k).1
  rw [same.offsetOf, same.logOf, r.positionOf_poll times pos, position, entriesOf_append,
    (sound.lossless p assigned).1, read, backlog,
    ← (sound.ordered.ascending p).window_append (sound.moved p assigned) raised, passed]

/-- **A poll stays lossless iff the cut took nothing.** -/
theorem lossless_poll_iff (sound : Sound start r) (times : PollTimes) {maxMessages : Option ℤ}
    (pos : 1 ≤ r.consumer.pollLimit maxMessages) :
    start.Lossless (r.step (.poll times maxMessages)) ↔
      (r.loop maxMessages).1.length ≤ r.consumer.pollLimit maxMessages := by
  obtain ⟨polled, -, same_assigned, same⟩ := r.poll_spec times pos
  constructor
  · intro lossless
    by_contra cut
    have inside : (r.consumer.pollLimit maxMessages).toNat < (r.loop maxMessages).1.length := by omega
    have assigned : (r.loop maxMessages).1[(r.consumer.pollLimit maxMessages).toNat].1 ∈
        r.consumer.assignedPartitions :=
      (Consumer.readPartitions_mem sound.ordered (le_of_lt (quota_pos ..))
        (List.getElem_mem inside)).1
    generalize dropped : (r.loop maxMessages).1[(r.consumer.pollLimit maxMessages).toNat] = e
      at assigned
    have returned := (lossless e.1 (same_assigned ▸ assigned)).1
    rw [window_poll sound times pos assigned, polled, entriesOf_append, entriesOf_append] at returned
    have count := congrArg List.length (List.append_cancel_left returned)
    rw [← List.take_append_drop (r.consumer.pollLimit maxMessages).toNat (r.loop maxMessages).1,
      entriesOf_append, List.take_append_drop, List.length_append, List.drop_eq_getElem_cons inside,
      dropped, length_entriesOf e.1 (e :: _), List.map_cons, List.count_cons_self] at count
    omega
  · intro fits p assigned
    rw [same_assigned] at assigned
    rw [window_poll sound times pos assigned, polled, List.take_of_length_le (by omega)]
    refine ⟨rfl, ?_⟩
    rw [← window_poll sound times pos assigned, same.offsetOf, same.logOf]
    exact (sound.ordered.ascending p).sublist List.filter_sublist

/-! ## The invariant -/

theorem Sound.poll (sound : Sound start r) (times : PollTimes) {maxMessages : Option ℤ}
    (pos : 1 ≤ r.consumer.pollLimit maxMessages)
    (covered : r.demand ≤ r.consumer.pollLimit maxMessages) :
    Sound start (r.step (.poll times maxMessages)) := by
  obtain ⟨-, -, assigned, same⟩ := r.poll_spec times pos
  have passed : ∀ p ∈ r.consumer.assignedPartitions,
      r.positionOf p ≤ (r.step (.poll times maxMessages)).positionOf p ∧
      ((r.step (.poll times maxMessages)).positionOf p = r.positionOf p ∨
        (r.step (.poll times maxMessages)).positionOf p ≤ (r.store.partitions p).nextOffset) := by
    intro p member
    obtain ⟨k, -, position⟩ := loop_spec sound maxMessages member
    rw [r.positionOf_poll times pos, position]
    exact Consumer.le_advance_take sound.ordered _ _
  refine ⟨sound.ordered.congr same, sound.gapless.congr same, ?_, ?_, ?_, ?_⟩
  · rw [assigned]
    simpa only [same.key] using sound.distinct
  · rw [assigned]
    exact fun p member => le_trans (sound.moved p member) (passed p member).1
  · rw [assigned]
    intro p member
    rw [same.nextOffset]
    rcases (passed p member).2 with stayed | moved
    · rw [stayed]
      exact sound.reached p member
    · exact .inr moved
  · exact (lossless_poll_iff sound times pos).mpr ((length_loop_le_iff sound pos).mpr covered)

/-- An appended record lies at or after every position that has moved. -/
theorem Sound.append (sound : Sound start r) (now : Timestamp) (p : PartitionRef) {m : MessageRef}
    (fresh : r.store.Unstored m) : Sound start (r.step (.append now p m)) := by
  rcases r.store.append_cases now p m with ⟨error, refused⟩ | stored
  · rw [step, refused]
    exact sound
  · rw [step, stored]
    have kept : ∀ q, ∀ n ∈ r.store.logOf q,
        (r.store.appended now p m).offsetOf n = r.store.offsetOf n := fun q n member =>
      r.store.appended_offsetOf_of_ne now p m n fun same => fresh q (same ▸ member)
    have position : ∀ q, (⟨r.store.appended now p m, r.consumer, r.polled⟩ : PollRun).positionOf q =
        r.positionOf q := fun q => by simp [positionOf]
    refine ⟨sound.ordered.appended fresh, sound.gapless.appended fresh, ?_, ?_, ?_, ?_⟩
    · simpa using sound.distinct
    · simpa only [position] using sound.moved
    · intro q member
      rw [position]
      refine (sound.reached q member).imp_right fun inside => ?_
      simp only [Store.appended_nextOffset]
      split
      · next same => subst same; omega
      · exact inside
    · intro q member
      have grown : window (r.store.appended now p m).offsetOf (start.positionOf q) (r.positionOf q)
          ((r.store.appended now p m).logOf q) = entriesOf q r.polled := by
        rw [(sound.lossless q member).1, Store.appended_logOf]
        split
        · next same =>
            subst same
            have outside := sound.reached q member
            rw [window_append_single _ (by rw [Store.appended_offsetOf_self]; omega)]
            exact window_congr (kept q)
        · exact window_congr (kept q)
      rw [position, grown]
      refine ⟨rfl, ?_⟩
      rw [← grown]
      exact ((sound.ordered.appended fresh).ascending q).sublist List.filter_sublist

theorem Sound.step (sound : Sound start r) {op : PollOp} (enough : r.Enough op) :
    Sound start (r.step op) := by
  cases op with
  | append now p m => exact sound.append now p enough
  | poll times maxMessages => exact sound.poll times enough.1 enough.2

/-! ## Over whole runs -/

theorem Start.sound (start : r.Start) : Sound r r where
  ordered := start.store.ordered
  gapless := .of_new start.store
  distinct := start.distinct
  moved _ _ := le_refl _
  reached _ _ := .inl rfl
  lossless p _ := by
    rw [start.polled, (start.store p).1]
    exact ⟨rfl, .nil⟩

/-- **Polling loses nothing while the limits cover the demand**, and the first
poll whose limit does not cover it loses something. -/
theorem run_lossless (start : r.Start) {ops : List PollOp} (enough : Guarded step Enough r ops) :
    r.Lossless (run step r ops) ∧
    ∀ times maxMessages, 1 ≤ (run step r ops).consumer.pollLimit maxMessages →
      (r.Lossless ((run step r ops).step (.poll times maxMessages)) ↔
        (run step r ops).demand ≤ (run step r ops).consumer.pollLimit maxMessages) := by
  have preserved : ∀ s op, Sound r s → s.Enough op → Sound r (s.step op) :=
    fun _ _ sound enough => sound.step enough
  have sound := run_invariant preserved start.sound enough
  exact ⟨sound.lossless, fun times maxMessages pos =>
    (lossless_poll_iff sound times pos).trans (length_loop_le_iff sound pos)⟩

/-- A consumer of the partitions 0 and 1, both empty. -/
def pairStart : PollRun where
  store := Store.keyedStart
  consumer := ({ consumerId := "c" } : Consumer).assign Store.keyedStart.partitions [0, 1]

theorem pairStart_start : pairStart.Start :=
  ⟨Store.keyedStart_new, by decide, rfl⟩

/-- One message for each of the two partitions. -/
def pairAppends : List PollOp := [.append 0 0 0, .append 0 1 1]

theorem pairAppends_enough : Guarded step Enough pairStart pairAppends := by
  have empty : ∀ m, Store.keyedStart.Unstored m := fun _ _ => List.not_mem_nil
  exact ⟨empty 0, (empty 1).applyOp (by decide : (LogOp.append 0 0 0).stores? ≠ some 1), trivial⟩

/-- The limit of the poll covers both. -/
def pairPolled : List PollOp := pairAppends ++ [.poll ⟨1, 1, 1⟩ (some 2)]

theorem pairPolled_enough : Guarded step Enough pairStart pairPolled :=
  (guarded_append _ _ _).mpr ⟨pairAppends_enough, ⟨by decide +kernel, by decide +kernel⟩, trivial⟩

theorem pairPolled_lossless :
    (run step pairStart pairPolled).polled = [(0, 0), (1, 1)] ∧
    pairStart.Lossless (run step pairStart pairPolled) ∧
    ∀ times maxMessages, 1 ≤ (run step pairStart pairPolled).consumer.pollLimit maxMessages →
      (pairStart.Lossless ((run step pairStart pairPolled).step (.poll times maxMessages)) ↔
        (run step pairStart pairPolled).demand ≤
          (run step pairStart pairPolled).consumer.pollLimit maxMessages) :=
  ⟨by decide +kernel, run_lossless pairStart_start pairPolled_enough⟩

/-- A poll for one message reads both partitions and returns the first record
only; the record of partition 1 is passed, and no later poll returns it. -/
theorem poll_below_demand_loses :
    let r := run step pairStart (pairAppends ++ [.poll ⟨1, 1, 1⟩ (some 1)])
    r.polled = [(0, 0)] ∧ r.positionOf 1 = 1 ∧ r.store.logOf 1 = [1] ∧ r.store.offsetOf 1 = 0 ∧
      ¬ pairStart.Lossless r ∧ (r.step (.poll ⟨2, 2, 2⟩ (some 10))).polled = [(0, 0)] := by
  intro r
  have polled : r.polled = [(0, 0)] := by decide +kernel
  have position : r.positionOf 1 = 1 := by decide +kernel
  have logged : r.store.logOf 1 = [1] := by decide +kernel
  have offset : r.store.offsetOf 1 = 0 := by decide +kernel
  refine ⟨polled, position, logged, offset, fun lossless => ?_, by decide +kernel⟩
  have assigned : 1 ∈ r.consumer.assignedPartitions := by decide +kernel
  have returned := (lossless 1 assigned).1
  rw [polled, position, logged] at returned
  exact absurd returned (by decide +kernel)

end PollRun

end BrokerLite
