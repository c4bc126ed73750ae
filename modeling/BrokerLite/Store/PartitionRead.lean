/-
# Store.PartitionRead -- when a read by position is a read by offset

`Partition.read` and `Partition.readAt` turn an offset into a list position
relative to the first record.  Over any run of appends and removals this module
gives the exact condition under which that is the read the offset asks for:

* a positive count reads right iff no offset from the earliest one up to the
  requested one has been removed, or the requested one is past every record;
* a negative count reads nothing iff the end of the computed slice does not
  become negative inside the log (a negative bound counts from the end);
* `readAt` finds its record iff no smaller offset is missing, and finds nothing
  for a missing offset iff the computed position is outside the log.

A log that nothing was removed from is `Gapless`, and meets the condition for
every positive count (`Gapless.read_eq`).
-/
import BrokerLite.Store.PartitionLog

namespace BrokerLite

open Theory

set_option autoImplicit false

namespace Store

def read (s : Store) (p : PartitionRef) (offset maxMessages : ℤ) : List MessageRef :=
  (s.partitions p).read s.messages offset maxMessages

def readAt (s : Store) (p : PartitionRef) (offset : ℤ) : Option MessageRef :=
  (s.partitions p).readAt s.messages offset

def earliestOffset (s : Store) (p : PartitionRef) : ℤ := (s.partitions p).earliestOffset s.messages

/-- The partition objects as their constructor leaves them. -/
def New (s : Store) : Prop := ∀ p, s.logOf p = [] ∧
  (s.partitions p).nextOffset = 0 ∧ (s.partitions p).committedOffsets = .empty

theorem New.ordered {s : Store} (new : s.New) : s.Ordered :=
  .of_new (fun p => (new p).1) (fun p => (new p).2.1)

/-- What a read by offset returns: the first `maxMessages` records at `offset`
or later. -/
def readSince (s : Store) (p : PartitionRef) (offset maxMessages : ℤ) : List MessageRef :=
  (since s.offsetOf offset (s.logOf p)).take maxMessages.toNat

/-- The condition under which `read` is the read by offset. -/
def ReadInStep (s : Store) (p : PartitionRef) (offset maxMessages : ℤ) : Prop :=
  (0 < maxMessages → (∀ m ∈ s.logOf p, s.offsetOf m < offset) ∨
    NoHole s.offsetOf (s.earliestOffset p) offset (s.logOf p)) ∧
  (maxMessages < 0 → (s.logOf p).length ≤ -maxMessages ∨ s.earliestOffset p - maxMessages ≤ offset)

/-- The condition under which `readAt` finds exactly the record of its offset. -/
def ReadAtInStep (s : Store) (p : PartitionRef) (offset : ℤ) : Prop :=
  (offset ∈ (s.logOf p).map s.offsetOf →
    NoHole s.offsetOf (s.earliestOffset p) offset (s.logOf p)) ∧
  (offset ∉ (s.logOf p).map s.offsetOf →
    offset < s.earliestOffset p ∨ s.earliestOffset p + (s.logOf p).length ≤ offset)

/-! ## The position arithmetic -/

variable {s : Store} {p : PartitionRef}

theorem earliestOffset_eq (nonempty : 0 < (s.logOf p).length) :
    s.earliestOffset p = s.offsetOf (s.logOf p)[0] := by
  unfold earliestOffset Partition.earliestOffset
  cases here : (s.partitions p).log with
  | nil => simp [logOf, here] at nonempty
  | cons first rest => simp [logOf, here, offsetOf]

theorem read_of_empty (empty : s.logOf p = []) (offset maxMessages : ℤ) :
    s.read p offset maxMessages = [] := by
  simp only [logOf] at empty
  simp [read, Partition.read, empty]

theorem read_eq_slice (nonempty : 0 < (s.logOf p).length) (offset maxMessages : ℤ) :
    s.read p offset maxMessages =
      if (s.logOf p).length ≤ seek (s.earliestOffset p) offset then []
      else slice (s.logOf p) (seek (s.earliestOffset p) offset)
        (min (seek (s.earliestOffset p) offset + maxMessages) (s.logOf p).length) := by
  have base := earliestOffset_eq nonempty
  unfold read Partition.read
  cases here : (s.partitions p).log with
  | nil => simp [logOf, here] at nonempty
  | cons first rest =>
      have first_ : (s.messages first).offset = s.earliestOffset p := by simp [base, logOf, here, offsetOf]
      have start : (if offset - s.earliestOffset p < 0 then 0 else offset - s.earliestOffset p) =
          (seek (s.earliestOffset p) offset : ℤ) := by unfold seek; split <;> omega
      simp only [first_, start, logOf, here]
      norm_cast

/-- A count that is not negative reads a window from the computed position. -/
theorem read_of_nonneg (offset : ℤ) {maxMessages : ℤ} (nonneg : 0 ≤ maxMessages) :
    s.read p offset maxMessages =
      ((s.logOf p).drop (seek (s.earliestOffset p) offset)).take maxMessages.toNat := by
  rcases Nat.eq_zero_or_pos (s.logOf p).length with empty | nonempty
  · have none_ := List.length_eq_zero_iff.mp empty
    rw [read_of_empty none_, none_]
    simp
  · rw [read_eq_slice nonempty]
    split
    · next outside => rw [List.drop_eq_nil_of_le outside, List.take_nil]
    · next inside =>
        rw [slice_of_nonneg _ (by omega) (by omega), Int.toNat_natCast,
          List.take_eq_take_iff, List.length_drop]
        omega

/-- A negative count reads nothing unless the slice end wraps around. -/
theorem read_of_neg_iff (offset : ℤ) {maxMessages : ℤ} (neg : maxMessages < 0) :
    s.read p offset maxMessages = [] ↔
      (s.logOf p).length ≤ -maxMessages ∨ s.earliestOffset p - maxMessages ≤ offset := by
  rcases Nat.eq_zero_or_pos (s.logOf p).length with empty | nonempty
  · rw [read_of_empty (List.length_eq_zero_iff.mp empty)]
    simp only [true_iff]
    omega
  · rw [read_eq_slice nonempty]
    have reach : (seek (s.earliestOffset p) offset : ℤ) = max (offset - s.earliestOffset p) 0 := by
      unfold seek; omega
    split
    · simp only [true_iff]
      omega
    · next inside =>
        rw [min_eq_left (by omega), slice, List.drop_eq_nil_iff, List.length_take,
          sliceBound_of_nonneg _ (by omega : (0 : ℤ) ≤ seek (s.earliestOffset p) offset)]
        rcases lt_or_ge (seek (s.earliestOffset p) offset + maxMessages) 0 with wraps | stays
        · rw [sliceBound_of_neg _ (by omega)]
          omega
        · rw [sliceBound_of_nonneg _ (by omega)]
          omega

theorem readAt_of_empty (empty : s.logOf p = []) (offset : ℤ) : s.readAt p offset = none := by
  simp only [logOf] at empty
  simp [readAt, Partition.readAt, empty]

theorem readAt_eq (nonempty : 0 < (s.logOf p).length) (offset : ℤ) :
    s.readAt p offset = if offset < s.earliestOffset p then none
      else (s.logOf p)[seek (s.earliestOffset p) offset]? := by
  have base := earliestOffset_eq nonempty
  unfold readAt Partition.readAt
  cases here : (s.partitions p).log with
  | nil => simp [logOf, here] at nonempty
  | cons first rest =>
      have first_ : (s.messages first).offset = s.earliestOffset p := by simp [base, logOf, here, offsetOf]
      simp only [first_, logOf, here, seek]
      split
      · next inside => rw [if_neg (by omega)]
      · next outside =>
          split
          · rfl
          · rw [List.getElem?_eq_none (by omega)]

/-! ## Position against offset -/

/-- Two windows of a list without repeats agree iff they start together. -/
theorem window_eq_iff {α : Type} {l : List α} (nodup : l.Nodup) {a b k : ℕ} (le : a ≤ b)
    (bound : a ≤ l.length) (some_ : 0 < k) :
    (l.drop b).take k = (l.drop a).take k ↔ a = min b l.length := by
  constructor
  · intro same
    rcases Nat.lt_or_ge b l.length with inside | outside
    · have first := congrArg (·[0]?) same
      simp only [List.getElem?_take_of_lt some_, List.getElem?_drop, Nat.add_zero,
        List.getElem?_eq_getElem inside, List.getElem?_eq_getElem (lt_of_le_of_lt le inside),
        Option.some.injEq] at first
      have := (nodup.getElem_inj_iff).mp first
      omega
    · rw [List.drop_eq_nil_of_le outside, List.take_nil] at same
      have length := congrArg List.length same
      simp only [List.length_nil, List.length_take, List.length_drop] at length
      omega
  · rintro rfl
    rcases Nat.le_total b l.length with inside | outside
    · rw [Nat.min_eq_left inside]
    · rw [Nat.min_eq_right outside, List.drop_eq_nil_of_le outside, List.drop_length]

/-- **When `read` is the read by offset.** -/
theorem read_eq_readSince_iff (ordered : s.Ordered) (offset maxMessages : ℤ) :
    s.read p offset maxMessages = s.readSince p offset maxMessages ↔
      s.ReadInStep p offset maxMessages := by
  have ascending := ordered.ascending p
  unfold ReadInStep readSince
  rw [ascending.since_eq_drop]
  rcases lt_trichotomy maxMessages 0 with neg | zero | pos
  · rw [Int.toNat_of_nonpos (le_of_lt neg), List.take_zero, read_of_neg_iff offset neg]
    simp [neg, not_lt.mpr (le_of_lt neg)]
  · subst zero
    simp [read_of_nonneg offset (le_refl 0)]
  · rw [read_of_nonneg offset (le_of_lt pos)]
    simp only [pos, not_lt.mpr (le_of_lt pos), forall_const, false_implies, and_true]
    rcases Nat.eq_zero_or_pos (s.logOf p).length with empty | nonempty
    · simp [List.length_eq_zero_iff.mp empty]
    · rw [earliestOffset_eq nonempty, window_eq_iff ascending.nodup
        (ascending.below_le_seek offset nonempty) (below_le_length ..) (by omega)]
      exact ascending.below_eq_seek_iff offset nonempty

/-- No record is older than the first. -/
theorem Ordered.earliestOffset_le (ordered : s.Ordered) {m : MessageRef} (member : m ∈ s.logOf p) :
    s.earliestOffset p ≤ s.offsetOf m := by
  have nonempty := List.length_pos_of_mem member
  rw [earliestOffset_eq nonempty]
  obtain ⟨i, bound, rfl⟩ := List.getElem_of_mem member
  have := (ordered.ascending p).head_add_le nonempty bound
  omega

section ReadAt

variable (ordered : s.Ordered) (nonempty : 0 < (s.logOf p).length) {offset : ℤ}

include ordered nonempty

theorem inStep_of_readAt
    (found_iff : ∀ m, s.readAt p offset = some m ↔ m ∈ s.logOf p ∧ s.offsetOf m = offset) :
    s.ReadAtInStep p offset := by
  have ascending := ordered.ascending p
  have base := earliestOffset_eq nonempty
  rw [readAt_eq nonempty, base] at found_iff
  rw [ReadAtInStep, base]
  refine ⟨fun present => ?_, fun missing => ?_⟩
  · obtain ⟨m, member, at_⟩ := List.mem_map.mp present
    have found := (found_iff m).mpr ⟨member, at_⟩
    have young := ordered.earliestOffset_le member
    rw [if_neg (by omega), ascending.getElem?_eq_some_iff at_] at found
    exact ascending.noHole_of_below_eq_seek offset nonempty found.2.symm
  · by_contra inside
    have bound : seek (s.offsetOf (s.logOf p)[0]) offset < (s.logOf p).length := by
      unfold seek; omega
    have found := (found_iff _).mp (by rw [if_neg (by omega), List.getElem?_eq_getElem bound])
    exact missing (List.mem_map.mpr ⟨_, found⟩)

theorem readAt_of_inStep (inStep : s.ReadAtInStep p offset) (m : MessageRef) :
    s.readAt p offset = some m ↔ m ∈ s.logOf p ∧ s.offsetOf m = offset := by
  have ascending := ordered.ascending p
  have base := earliestOffset_eq nonempty
  have reach := ascending.below_le_seek offset nonempty
  rw [ReadAtInStep, base] at inStep
  rw [readAt_eq nonempty, base]
  obtain ⟨complete, outside⟩ := inStep
  have placed : offset ∈ (s.logOf p).map s.offsetOf →
      seek (s.offsetOf (s.logOf p)[0]) offset = below s.offsetOf offset (s.logOf p) :=
    fun present => le_antisymm (complete present).seek_le_below reach
  constructor
  · intro found
    by_cases present : offset ∈ (s.logOf p).map s.offsetOf
    · obtain ⟨n, member, at_⟩ := List.mem_map.mp present
      have young := ordered.earliestOffset_le member
      have same := (ascending.getElem?_eq_some_iff at_).mpr ⟨member, placed present⟩
      rw [if_neg (by omega), same, Option.some.injEq] at found
      exact found ▸ ⟨member, at_⟩
    · rcases outside present with old | past
      · rw [if_pos old] at found
        cases found
      · rw [if_neg (by omega), List.getElem?_eq_none (by unfold seek; omega)] at found
        cases found
  · rintro ⟨member, at_⟩
    have young := ordered.earliestOffset_le member
    rw [if_neg (by omega), ascending.getElem?_eq_some_iff at_]
    exact ⟨member, placed (List.mem_map.mpr ⟨m, member, at_⟩)⟩

end ReadAt

/-- **When `readAt` finds exactly the record of its offset.** -/
theorem readAt_exact_iff (ordered : s.Ordered) (offset : ℤ) :
    (∀ m, s.readAt p offset = some m ↔ m ∈ s.logOf p ∧ s.offsetOf m = offset) ↔
      s.ReadAtInStep p offset := by
  rcases Nat.eq_zero_or_pos (s.logOf p).length with empty | nonempty
  · have none_ := List.length_eq_zero_iff.mp empty
    have earliest : s.earliestOffset p = (s.partitions p).nextOffset := by
      simp only [logOf] at none_
      simp [earliestOffset, Partition.earliestOffset, none_]
    simp [ReadAtInStep, readAt_of_empty none_, none_]
    omega
  · exact ⟨inStep_of_readAt ordered nonempty, fun inStep => readAt_of_inStep ordered nonempty inStep⟩

/-! ## Logs nothing was removed from -/

/-- No offset from the first record's up to the next one is missing. -/
def Gapless (s : Store) : Prop :=
  ∀ p, NoHole s.offsetOf (s.earliestOffset p) (s.partitions p).nextOffset (s.logOf p)

theorem earliestOffset_congr {t : Store} (p : PartitionRef) (log : t.logOf p = s.logOf p)
    (offsets : ∀ m ∈ s.logOf p, t.offsetOf m = s.offsetOf m)
    (next : (t.partitions p).nextOffset = (s.partitions p).nextOffset) :
    t.earliestOffset p = s.earliestOffset p := by
  simp only [logOf, offsetOf, earliestOffset, Partition.earliestOffset] at *
  rw [log]
  cases here : (s.partitions p).log with
  | nil => exact next
  | cons first rest => exact offsets first (by simp [here])

namespace Gapless

theorem of_new (new : s.New) : s.Gapless := by
  intro p x low high
  have empty := (new p).1
  simp only [logOf] at empty
  simp only [earliestOffset, Partition.earliestOffset, empty] at low
  omega

theorem congr {t : Store} (gapless : s.Gapless) (same : s.SameLogs t) : t.Gapless := by
  intro p
  rw [earliestOffset_congr p (congrFun same.logOf p) (fun m _ => congrFun same.offsetOf m)
    (same.nextOffset p), same.offsetOf, same.nextOffset, same.logOf]
  exact gapless p

theorem appended (gapless : s.Gapless) {now : Timestamp} {q : PartitionRef} {m : MessageRef}
    (fresh : s.Unstored m) : (s.appended now q m).Gapless := by
  have kept : ∀ {p n}, n ∈ s.logOf p → (s.appended now q m).offsetOf n = s.offsetOf n :=
    fun member => s.appended_offsetOf_of_ne now q m _ fun same => fresh _ (same ▸ member)
  intro p x low high
  by_cases other : p = q
  · subst other
    rw [appended_nextOffset, if_pos rfl] at high
    rw [appended_logOf, if_pos rfl, List.map_append, List.mem_append]
    by_cases last : x = (s.partitions p).nextOffset
    · exact .inr (by simp [last])
    · left
      rw [List.map_congr_left fun n member => kept member]
      refine gapless p x (le_trans (le_of_eq ?_) low) (by omega)
      cases here : (s.partitions p).log with
      | nil =>
          have first : (s.appended now p m).earliestOffset p = (s.partitions p).nextOffset := by
            simp [earliestOffset, Partition.earliestOffset, Store.appended, here]
          omega
      | cons first rest =>
          have member : first ∈ s.logOf p := by simp [logOf, here]
          have same := kept member
          simp only [offsetOf] at same
          simp [earliestOffset, Partition.earliestOffset, here, ← same, Store.appended]
  · have log : (s.appended now q m).logOf p = s.logOf p := by rw [appended_logOf, if_neg other]
    have next : ((s.appended now q m).partitions p).nextOffset = (s.partitions p).nextOffset := by
      rw [appended_nextOffset, if_neg other]
    rw [earliestOffset_congr p log (fun n member => kept member) next] at low
    rw [next] at high
    rw [log, List.map_congr_left fun n member => kept member]
    exact gapless p x low high

/-- From a log without a gap every positive count is read by offset. -/
theorem read_eq (gapless : s.Gapless) (ordered : s.Ordered) (offset : ℤ) {maxMessages : ℤ}
    (pos : 0 < maxMessages) : s.read p offset maxMessages = s.readSince p offset maxMessages := by
  refine (read_eq_readSince_iff ordered offset maxMessages).mpr ⟨fun _ => ?_, fun neg => by omega⟩
  rcases Int.le_total offset (s.partitions p).nextOffset with inside | past
  · exact .inr fun x low high => gapless p x low (lt_of_lt_of_le high inside)
  · exact .inl fun m member => lt_of_lt_of_le (ordered.bounded p m member) past

end Gapless

/-! ## Over whole runs -/

/-- **Partition reads are by offset exactly under these conditions**, in every
state that appends of unstored objects and removals reach. -/
theorem run_reads_by_offset_iff {s₀ : Store} (new : s₀.New) {ops : List LogOp}
    (fresh : Guarded applyOp (fun s op => op.Fresh s) s₀ ops) (p : PartitionRef)
    (offset maxMessages : ℤ) :
    let s := run applyOp s₀ ops
    (s.read p offset maxMessages = s.readSince p offset maxMessages ↔
      s.ReadInStep p offset maxMessages) ∧
    ((∀ m, s.readAt p offset = some m ↔ m ∈ s.logOf p ∧ s.offsetOf m = offset) ↔
      s.ReadAtInStep p offset) := by
  have ordered := new.ordered.run fresh
  exact ⟨read_eq_readSince_iff ordered offset maxMessages, readAt_exact_iff ordered offset⟩

/-- New partitions, and messages of which all but the first share a key. -/
def keyedStart : Store where
  messages m := { topic := "t", value := [], id := toString m, key := if m = 0 then none else some "k" }
  partitions p := { topic := "t", partitionId := p }

theorem keyedStart_new : keyedStart.New := fun _ => ⟨rfl, rfl, rfl⟩

/-- Three appends, then a compaction that takes the middle record out. -/
def compactedOps : List LogOp := [.append 0 0 0, .append 0 0 1, .append 0 0 2, .compact 0]

theorem compactedOps_fresh : Guarded applyOp (fun s op => op.Fresh s) keyedStart compactedOps :=
  LogOp.fresh_of_distinct (by decide) fun _ _ _ => List.not_mem_nil

theorem compacted_reads_by_offset_iff :
    let s := run applyOp keyedStart compactedOps
    (s.read 0 1 5 = s.readSince 0 1 5 ↔ s.ReadInStep 0 1 5) ∧
    ((∀ m, s.readAt 0 1 = some m ↔ m ∈ s.logOf 0 ∧ s.offsetOf m = 1) ↔ s.ReadAtInStep 0 1) :=
  run_reads_by_offset_iff keyedStart_new compactedOps_fresh 0 1 5

/-- After the compaction the log holds offsets 0 and 2.  Reading from offset 2
finds nothing, `readAt` misses the record at 2 and answers 1 with it, and a
negative count reads the first record. -/
theorem compacted_reads_by_position :
    let s := run applyOp keyedStart compactedOps
    Guarded applyOp (fun s op => op.Fresh s) keyedStart compactedOps ∧
    (s.read 0 2 10 = [] ∧ s.readSince 0 2 10 = [2]) ∧
    (s.readAt 0 2 = none ∧ 2 ∈ s.logOf 0 ∧ s.offsetOf 2 = 2) ∧ s.readAt 0 1 = some 2 ∧
    (s.read 0 0 (-1) = [0] ∧ s.readSince 0 0 (-1) = []) :=
  ⟨compactedOps_fresh, by decide⟩

end Store

end BrokerLite
