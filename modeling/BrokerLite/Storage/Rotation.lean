/-
# Storage.Rotation -- how large a segment gets

A full segment is closed by the next append, so that an appended segment is over its size
by its last entry at most.  Compaction writes all the entries it keeps to one
segment, without a look at its size.

`run_bounded_iff`: the segments stay within their size in the runs whose compactions
leave no more than one segment holds.
-/
import BrokerLite.Storage.Retention

namespace BrokerLite

open Theory

set_option autoImplicit false

/-- The size that a segment counts for the entries. -/
def bytesOfEntries (entries : List LogEntry) : ℕ := (entries.map fun e => e.value.length + 64).sum

@[simp] theorem bytesOfEntries_nil : bytesOfEntries [] = 0 := rfl

@[simp] theorem bytesOfEntries_append (front back : List LogEntry) :
    bytesOfEntries (front ++ back) = bytesOfEntries front + bytesOfEntries back := by
  simp [bytesOfEntries]

theorem bytesOfEntries_singleton (e : LogEntry) : bytesOfEntries [e] = e.value.length + 64 := by
  simp [bytesOfEntries]

/-- The size depends on the records only. -/
theorem bytesOfEntries_congr {entries entries' : List LogEntry}
    (same : entries.map LogEntry.record = entries'.map LogEntry.record) :
    bytesOfEntries entries = bytesOfEntries entries' := by
  have sizes := congrArg (List.map fun r : Option String × List UInt8 => r.2.length + 64) same
  rw [List.map_map, List.map_map] at sizes
  exact congrArg List.sum sizes

namespace LogSegment

/-- The segment counts the size of its entries, against the given bound. -/
structure Sized (maxBytes : ℤ) (s : LogSegment) : Prop where
  maxBytes : s.maxBytes = maxBytes
  sizeBytes : s.sizeBytes = bytesOfEntries s.entries

/-- Without its last entry the segment is smaller than the bound. -/
def Within (maxBytes : ℤ) (s : LogSegment) : Prop := bytesOfEntries s.entries.dropLast < maxBytes

variable {maxBytes : ℤ} {s : LogSegment}

theorem Sized.append (sized : s.Sized maxBytes) (now : Timestamp) (key : Option String)
    (value : List UInt8) : (s.append now key value).2.Sized maxBytes where
  maxBytes := sized.maxBytes
  sizeBytes := by
    simp [LogSegment.append, sized.sizeBytes, bytesOfEntries_singleton]

/-- A segment that is not full is within the bound with one entry more. -/
theorem Sized.within_append (sized : s.Sized maxBytes) (room : s.isFull = false) (now : Timestamp)
    (key : Option String) (value : List UInt8) : (s.append now key value).2.Within maxBytes := by
  have size := of_decide_eq_false room
  rw [sized.maxBytes, sized.sizeBytes] at size
  simp only [Within, LogSegment.append, List.dropLast_concat]
  omega

end LogSegment

namespace WriteAheadLog

/-- The sizes of the segments are what they count, no segment is larger than the bound by more than its
last entry, and all but the last are full. -/
structure Bounded (w : WriteAheadLog) : Prop where
  sizes : ∀ s ∈ w.segments, s.sizeBytes = bytesOfEntries s.entries
  within : ∀ s ∈ w.segments, (bytesOfEntries s.entries.dropLast : ℤ) < w.segmentMaxBytes
  full : ∀ s ∈ w.closed, s.isFull = true

/-- What holds in every state, however large the segments are. -/
structure Accounted (w : WriteAheadLog) : Prop where
  sized : ∀ s ∈ w.segments, s.Sized w.segmentMaxBytes
  full : ∀ s ∈ w.closed, s.isFull = true

variable {w : WriteAheadLog}

theorem Accounted.bounded_iff (accounted : w.Accounted) :
    w.Bounded ↔ ∀ s ∈ w.segments, s.Within w.segmentMaxBytes :=
  ⟨fun bounded => bounded.within,
    fun within => ⟨fun s member => (accounted.sized s member).sizeBytes, within, accounted.full⟩⟩

/-! ## The operations -/

/-- Behind a rotation the active segment has room, and nothing has changed but that a full
segment is closed. -/
theorem Accounted.rotate (accounted : w.Accounted) (positive : 1 ≤ w.segmentMaxBytes) :
    w.rotate.Accounted ∧ w.rotate.segmentMaxBytes = w.segmentMaxBytes ∧
      w.rotate.activeSegment.isFull = false ∧ ∀ s ∈ w.rotate.closed, s ∈ w.segments := by
  unfold WriteAheadLog.rotate
  split
  · next full =>
      let new : LogSegment :=
        { baseOffset := w.activeSegment.nextOffset, maxBytes := w.segmentMaxBytes }
      refine ⟨⟨?_, ?_⟩, rfl, ?_, ?_⟩
      · show ∀ s ∈ w.segments ++ [new], s.Sized w.segmentMaxBytes
        intro s member
        rcases List.mem_append.mp member with old | last
        · exact accounted.sized s old
        · rw [List.mem_singleton.mp last]
          exact ⟨rfl, rfl⟩
      · show ∀ s ∈ (w.segments ++ [new]).dropLast, s.isFull = true
        rw [List.dropLast_concat, w.segments_eq]
        intro s member
        rcases List.mem_append.mp member with old | last
        · exact accounted.full s old
        · rw [List.mem_singleton.mp last]
          exact full
      · show ((w.segments ++ [new]).getLast _).isFull = false
        rw [List.getLast_append_singleton]
        exact decide_eq_false (by show ¬ w.segmentMaxBytes ≤ (0 : ℕ); omega)
      · show ∀ s ∈ (w.segments ++ [new]).dropLast, s ∈ w.segments
        rw [List.dropLast_concat]
        exact fun s member => member
  · next room => exact ⟨accounted, rfl, by simpa using room, fun s => List.mem_of_mem_dropLast⟩

theorem Accounted.append (accounted : w.Accounted) (positive : 1 ≤ w.segmentMaxBytes)
    (now : Timestamp) (key : Option String) (value : List UInt8) :
    (w.append now key value).2.Accounted ∧
      (w.append now key value).2.segmentMaxBytes = w.segmentMaxBytes ∧
      ((∀ s ∈ w.segments, s.Within w.segmentMaxBytes) →
        ∀ s ∈ (w.append now key value).2.segments, s.Within w.segmentMaxBytes) := by
  obtain ⟨rotated, same, room, old⟩ := accounted.rotate positive
  have active := rotated.sized _ (List.getLast_mem w.rotate.nonempty)
  let grown := (w.rotate.activeSegment.append now key value).2
  have segments : (w.append now key value).2.segments = w.rotate.closed ++ [grown] := rfl
  refine ⟨⟨?_, ?_⟩, same, ?_⟩
  · rw [segments]
    intro s member
    rcases List.mem_append.mp member with before | last
    · exact rotated.sized s (List.mem_of_mem_dropLast before)
    · rw [List.mem_singleton.mp last]
      exact active.append now key value
  · intro s member
    rw [closed, segments, List.dropLast_concat] at member
    exact rotated.full s member
  · rw [segments]
    intro within s member
    rcases List.mem_append.mp member with before | last
    · exact within s (old s before)
    · rw [List.mem_singleton.mp last, ← same]
      exact active.within_append room now key value

theorem Accounted.applyRetention (accounted : w.Accounted) (now : Timestamp) :
    (w.applyRetention now).2.Accounted ∧
      (w.applyRetention now).2.segmentMaxBytes = w.segmentMaxBytes ∧
      ∀ s ∈ (w.applyRetention now).2.segments, s ∈ w.segments := by
  have same : (w.applyRetention now).2.segmentMaxBytes = w.segmentMaxBytes := by
    unfold WriteAheadLog.applyRetention
    split <;> rfl
  have suffix := applyRetention_segments now w
  refine ⟨⟨?_, ?_⟩, same, fun s member => suffix.subset member⟩
  · rw [same]
    exact fun s member => accounted.sized s (suffix.subset member)
  · intro s member
    apply accounted.full
    obtain ⟨gone, split⟩ := suffix
    rw [closed, ← split, List.dropLast_append_of_ne_nil (w.applyRetention now).2.nonempty]
    exact List.mem_append_right gone member

/-- Writing entries to a segment keeps its account. -/
theorem foldl_append_sized (now : ℕ → Timestamp) (kept : List LogEntry) (n : ℕ) {maxBytes : ℤ}
    {s : LogSegment} (sized : s.Sized maxBytes) :
    ((kept.zipIdx n).foldl (fun segment e => (segment.append (now e.2) e.1.key e.1.value).2)
      s).Sized maxBytes := by
  induction kept generalizing s n with
  | nil => exact sized
  | cons e rest ih => exact ih (n + 1) (sized.append (now n) e.key e.value)

theorem compact_accounted (now : ℕ → Timestamp) (w : WriteAheadLog) :
    (w.compact now).2.Accounted where
  sized := by
    intro s member
    rw [(w.compact_eq now).2, List.mem_singleton] at member
    rw [member]
    exact foldl_append_sized now _ 0 ⟨rfl, rfl⟩
  full := by
    intro s member
    rw [closed, (w.compact_eq now).2] at member
    cases member

/-- The segment that compaction leaves is within the bound exactly if what it keeps is. -/
theorem compact_within_iff (now : ℕ → Timestamp) (w : WriteAheadLog) :
    (∀ s ∈ (w.compact now).2.segments, s.Within w.segmentMaxBytes) ↔
      bytesOfEntries (latest LogEntry.key w.entries).dropLast < w.segmentMaxBytes := by
  have records := rebuilt_records now w.segmentMaxBytes (latest LogEntry.key w.entries)
  have size : bytesOfEntries (rebuilt now w.segmentMaxBytes (latest LogEntry.key w.entries)).entries.dropLast =
      bytesOfEntries (latest LogEntry.key w.entries).dropLast := by
    apply bytesOfEntries_congr
    rw [List.map_dropLast, records, List.map_dropLast]
  rw [(w.compact_eq now).2, ← size]
  simp [LogSegment.Within]

end WriteAheadLog

/-! ## Runs -/

namespace LogRun

open WriteAheadLog

/-- Nothing is asked of the operation but of a compaction, that the entries without a later one of
their key, but for the last of them, are smaller than a segment. -/
def CompactsWithin (r : LogRun) : WriteAheadOp → Prop
  | .compact _ =>
      bytesOfEntries (latest LogEntry.key r.log.entries).dropLast < r.log.segmentMaxBytes
  | _ => True

instance (r : LogRun) : DecidablePred r.CompactsWithin
  | .compact _ => inferInstanceAs (Decidable (_ < r.log.segmentMaxBytes))
  | .append .. => isTrue trivial
  | .applyRetention _ => isTrue trivial

variable {r : LogRun}

theorem step_accounted (accounted : r.log.Accounted) (positive : 1 ≤ r.log.segmentMaxBytes)
    (op : WriteAheadOp) : (r.step op).log.Accounted ∧
      (r.step op).log.segmentMaxBytes = r.log.segmentMaxBytes := by
  cases op with
  | append now key value =>
      obtain ⟨after, same, -⟩ := accounted.append positive now key value
      exact ⟨after, same⟩
  | applyRetention now =>
      obtain ⟨after, same, -⟩ := accounted.applyRetention now
      exact ⟨after, same⟩
  | compact now => exact ⟨compact_accounted now r.log, rfl⟩

/-- **One step**: only a compaction can leave a segment that is too large. -/
theorem step_bounded_iff (accounted : r.log.Accounted) (positive : 1 ≤ r.log.segmentMaxBytes)
    (bounded : r.log.Bounded) (op : WriteAheadOp) : (r.step op).log.Bounded ↔ r.CompactsWithin op := by
  obtain ⟨after, same⟩ := step_accounted accounted positive op
  have within := accounted.bounded_iff.mp bounded
  rw [after.bounded_iff, same]
  cases op with
  | append now key value =>
      exact iff_of_true ((accounted.append positive now key value).2.2 within) trivial
  | applyRetention now =>
      refine iff_of_true (fun s member => within s ?_) trivial
      exact (accounted.applyRetention now).2.2 s member
  | compact now => exact compact_within_iff now r.log

/-- **When rotation bounds the size of a segment.**  In every state of a run it does, exactly if
every compaction leaves entries that, but for the last, are smaller than a segment. -/
theorem run_bounded_iff {segmentMaxBytes : ℤ} (positive : 1 ≤ segmentMaxBytes) (retentionMs : ℤ)
    (ops : List WriteAheadOp) :
    (∀ before, before <+: ops → (run step (start segmentMaxBytes retentionMs) before).log.Bounded) ↔
      Guarded step CompactsWithin (start segmentMaxBytes retentionMs) ops := by
  have preserved : ∀ (r : LogRun) op, r.log.Accounted ∧ 1 ≤ r.log.segmentMaxBytes →
      (r.step op).log.Accounted ∧ 1 ≤ (r.step op).log.segmentMaxBytes := by
    intro r op ⟨accounted, positive⟩
    obtain ⟨after, same⟩ := step_accounted accounted positive op
    exact ⟨after, same.symm ▸ positive⟩
  have empty : (start segmentMaxBytes retentionMs).log.Accounted := by
    constructor
    · intro s member
      rw [List.mem_singleton.mp member]
      exact ⟨rfl, rfl⟩
    · intro s member
      cases member
  have bounded : (start segmentMaxBytes retentionMs).log.Bounded := by
    rw [empty.bounded_iff]
    intro s member
    rw [List.mem_singleton.mp member]
    show ((0 : ℕ) : ℤ) < segmentMaxBytes
    omega
  exact forall_prefix_iff_guarded preserved
    (fun r op both bounded => step_bounded_iff both.1 both.2 bounded op) ⟨empty, positive⟩ bounded

/-- Four entries in two segments, and a compaction. -/
def rotatingOps (key : Option String) : List WriteAheadOp :=
  [.append 0 key [1], .append 0 key [2], .append 0 key [3], .append 0 key [4], .compact fun _ => 0]

/-- Under one key a single entry is left. -/
theorem rotatingOps_bounded_iff :
    (∀ before, before <+: rotatingOps (some "a") → (run step (start 100 0) before).log.Bounded) ↔
      Guarded step CompactsWithin (start 100 0) (rotatingOps (some "a")) :=
  run_bounded_iff (by decide) 0 (rotatingOps (some "a"))

/-- Without keys the four entries are left, in one segment. -/
theorem rotatingOps_exceed :
    ¬ ∀ before, before <+: rotatingOps none → (run step (start 100 0) before).log.Bounded := by
  intro bounded
  have within := (bounded (rotatingOps none) (List.prefix_refl _)).within
  revert within
  decide +kernel

end LogRun

end BrokerLite
