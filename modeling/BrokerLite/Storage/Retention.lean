/-
# Storage.Retention -- what retention removes from the log

`apply_retention` drops closed segments from the front for as long as the first
entry of each is older than the cutoff (`expire_eq`).  With a clock that does not
go back the entries of a log are in the order of their times (`Timely`), so that
of all segments it drops only the last one can hold an entry that has not expired.

`run_keepsUnexpired_iff` says in which states of a run nothing is removed too
early: if no closed segment holds both an expired entry and one that is not.
-/
import BrokerLite.Storage.LogRun
import Mathlib.Data.List.TakeWhile

namespace BrokerLite

open Theory

set_option autoImplicit false

/-- A read of one entry from the base needs no numbers. -/
theorem LogSegment.read_one (s : LogSegment) : s.read s.baseOffset 1 = s.entries.take 1 := by
  unfold read
  cases entries : s.entries with
  | nil => simp
  | cons e rest =>
      simp only [reduceCtorEq, if_false, Int.sub_self, Int.lt_irrefl, Int.zero_add]
      rw [if_neg (by simp), slice_of_nonneg _ (Int.le_refl 0) (by simp)]
      simp

namespace WriteAheadLog

/-- The segments but the active one. -/
def closed (w : WriteAheadLog) : List LogSegment := w.segments.dropLast

/-- Entries with a time before it have expired at `now`. -/
def cutoff (now : Timestamp) (w : WriteAheadLog) : Timestamp := now - w.retentionMs / 1000

/-- The segment has a first entry, and that one is older than the cutoff. -/
def Stale (cutoff : Timestamp) (s : LogSegment) : Bool :=
  s.entries.head?.any fun e => e.timestamp < cutoff

theorem segments_eq (w : WriteAheadLog) : w.segments = w.closed ++ [w.activeSegment] :=
  (List.dropLast_append_getLast w.nonempty).symm

/-- The loop drops the stale segments in front, but not the last one. -/
theorem expire_eq (cutoff : Timestamp) (front : List LogSegment) (last : LogSegment) :
    expire cutoff (front ++ [last]) =
      (((front.takeWhile (Stale cutoff)).map LogSegment.count).sum,
        front.dropWhile (Stale cutoff) ++ [last]) := by
  induction front with
  | nil => rfl
  | cons s rest ih =>
      obtain ⟨next, later, split⟩ : ∃ next later, rest ++ [last] = next :: later :=
        List.exists_cons_of_ne_nil (by simp)
      rw [List.cons_append, split, expire, LogSegment.read_one, ← split]
      cases entries : s.entries with
      | nil => simp [Stale, entries]
      | cons e others =>
          by_cases stale : e.timestamp < cutoff
          · simp [Stale, entries, stale, ih]
          · simp [Stale, entries, stale]

variable {w : WriteAheadLog}

theorem applyRetention_eq (now : Timestamp) (positive : 0 < w.retentionMs) :
    (w.applyRetention now).1 =
        ((w.closed.takeWhile (Stale (w.cutoff now))).map LogSegment.count).sum ∧
      (w.applyRetention now).2.segments =
        w.closed.dropWhile (Stale (w.cutoff now)) ++ [w.activeSegment] := by
  have loop := expire_eq (w.cutoff now) w.closed w.activeSegment
  rw [← segments_eq] at loop
  unfold applyRetention
  rw [if_neg (by omega)]
  exact Prod.mk.inj loop

/-- The entries that retention removes. -/
def dropped (now : Timestamp) (w : WriteAheadLog) : List LogEntry :=
  (w.closed.takeWhile (Stale (w.cutoff now))).flatMap LogSegment.entries

/-- The log is what retention removes and, behind it, what it leaves. -/
theorem dropped_append (now : Timestamp) (positive : 0 < w.retentionMs) :
    w.entries = w.dropped now ++ (w.applyRetention now).2.entries := by
  rw [dropped, entries, entries, (applyRetention_eq now positive).2, ← List.flatMap_append,
    ← List.append_assoc, List.takeWhile_append_dropWhile, ← segments_eq]

/-- Retention removes no entry that has not expired; what remains is the end of the log, with the
active segment; and the number returned is the number of entries removed. -/
structure KeepsUnexpired (now : Timestamp) (w : WriteAheadLog) : Prop where
  unexpired : ∀ e ∈ w.entries, w.cutoff now ≤ e.timestamp → e ∈ (w.applyRetention now).2.entries
  segments : (w.applyRetention now).2.segments <:+ w.segments
  suffix : (w.applyRetention now).2.entries <:+ w.entries
  active : (w.applyRetention now).2.activeSegment = w.activeSegment
  removed : (w.applyRetention now).1 + (w.applyRetention now).2.entries.length = w.entries.length

/-- No closed segment holds both an expired entry and one that has not expired; nothing is asked
of a log whose first segment is empty, where retention stops at once. -/
def WholeSegments (cutoff : Timestamp) (w : WriteAheadLog) : Prop :=
  (w.segments.head w.nonempty).entries ≠ [] →
    ∀ s ∈ w.closed, ∀ d ∈ s.entries, ∀ e ∈ s.entries, d.timestamp < cutoff → e.timestamp < cutoff

instance (cutoff : Timestamp) (w : WriteAheadLog) : Decidable (w.WholeSegments cutoff) :=
  inferInstanceAs (Decidable (_ → ∀ s ∈ w.closed, ∀ d ∈ s.entries, ∀ e ∈ s.entries, _ → _))

/-- Only the first segment may be without entries, and the entries are in the order of
their times. -/
structure Timely (w : WriteAheadLog) : Prop where
  filled : ∀ s ∈ w.segments.tail, s.entries ≠ []
  ascending : w.entries.Pairwise fun d e => d.timestamp ≤ e.timestamp

theorem keepsUnexpired_iff_dropped (dense : w.Dense) (now : Timestamp) (positive : 0 < w.retentionMs) :
    w.KeepsUnexpired now ↔ ∀ e ∈ w.dropped now, e.timestamp < w.cutoff now := by
  have split := dropped_append (w := w) now positive
  have apart := dense.numbered.ascending
  rw [split] at apart
  constructor
  · intro kept e gone
    by_contra late
    have member : e ∈ w.entries := split ▸ List.mem_append_left _ gone
    have left := kept.unexpired e member (not_lt.mp late)
    exact lt_irrefl _ ((List.pairwise_append.mp apart).2.2 e gone e left)
  · intro expired
    obtain ⟨-, -, suffix⟩ := applyRetention_spec now dense
    have count : (w.applyRetention now).1 = (w.dropped now).length := by
      rw [(applyRetention_eq now positive).1, dropped, List.length_flatMap]
      rfl
    refine ⟨fun e member late => ?_, ?_, suffix, (active_applyRetention now w).1, ?_⟩
    · rw [split] at member
      rcases List.mem_append.mp member with gone | left
      · exact absurd (expired e gone) (not_lt.mpr late)
      · exact left
    · obtain ⟨gone, all⟩ := List.dropWhile_suffix (l := w.closed) (Stale (w.cutoff now))
      rw [(applyRetention_eq now positive).2]
      exact ⟨gone, by rw [← List.append_assoc, all, ← segments_eq]⟩
    · rw [count, ← List.length_append, ← split]

theorem stale_iff {cutoff : Timestamp} {s : LogSegment} :
    Stale cutoff s = true ↔ ∃ first, s.entries.head? = some first ∧ first.timestamp < cutoff := by
  unfold Stale
  cases head : s.entries.head? <;> simp

/-- With the entries in the order of their times, everything up to a segment with an expired
entry is stale. -/
theorem Timely.stale_of_expired (timely : w.Timely) {cutoff : Timestamp}
    (first : (w.segments.head w.nonempty).entries ≠ []) {front back : List LogSegment} {s : LogSegment}
    (split : w.closed = front ++ s :: back) {d : LogEntry} (member : d ∈ s.entries)
    (expired : d.timestamp < cutoff) : ∀ t ∈ front ++ [s], Stale cutoff t = true := by
  have all : w.segments = front ++ (s :: back ++ [w.activeSegment]) := by
    rw [w.segments_eq, split, List.append_assoc]
  have ascending := timely.ascending
  rw [entries, all, List.flatMap_append, List.cons_append, List.flatMap_cons] at ascending
  obtain ⟨-, later, across⟩ := List.pairwise_append.mp ascending
  have within := (List.pairwise_append.mp later).1
  intro t here
  have inLog : t ∈ w.segments := by
    rw [all]
    rcases List.mem_append.mp here with before | last
    · exact List.mem_append_left _ before
    · simp [List.mem_singleton.mp last]
  have some_ : t.entries ≠ [] := by
    rw [← List.cons_head_tail w.nonempty] at inLog
    rcases List.mem_cons.mp inLog with rfl | later
    · exact first
    · exact timely.filled t later
  obtain ⟨e, others, entries⟩ := List.exists_cons_of_ne_nil some_
  refine stale_iff.mpr ⟨e, by rw [entries, List.head?_cons], lt_of_le_of_lt ?_ expired⟩
  rcases List.mem_append.mp here with before | last
  · exact across e (List.mem_flatMap.mpr ⟨t, before, by simp [entries]⟩) d (by simp [member])
  · rw [List.mem_singleton.mp last] at entries
    rw [entries] at within member
    rcases List.mem_cons.mp member with rfl | behind
    · exact le_refl _
    · exact List.rel_of_pairwise_cons within behind

/-- **What retention removes has expired, if no closed segment is partly expired.** -/
theorem Timely.dropped_expired_iff (timely : w.Timely) (now : Timestamp) :
    (∀ e ∈ w.dropped now, e.timestamp < w.cutoff now) ↔ w.WholeSegments (w.cutoff now) := by
  constructor
  · intro expired first s member d here e also old
    obtain ⟨front, back, split⟩ := List.append_of_mem member
    have stale := timely.stale_of_expired first split here old
    apply expired e
    rw [dropped, split, List.append_cons, List.takeWhile_append_of_pos stale, List.flatMap_append,
      List.flatMap_append]
    simp [also]
  · intro whole e gone
    obtain ⟨s, taken, member⟩ := List.mem_flatMap.mp gone
    obtain ⟨first, head, old⟩ := stale_iff.mp (List.mem_takeWhile_imp taken)
    have front : (w.segments.head w.nonempty).entries ≠ [] := by
      cases closed : w.closed with
      | nil => simp [closed] at taken
      | cons c rest =>
          have stale : Stale (w.cutoff now) c = true := by
            by_contra fresh
            rw [closed, List.takeWhile_cons_of_neg (by simpa using fresh)] at taken
            cases taken
          obtain ⟨first, head, -⟩ := stale_iff.mp stale
          simp only [w.segments_eq, closed, List.cons_append, List.head_cons]
          exact List.ne_nil_of_mem (List.mem_of_head? head)
    exact whole front s ((List.takeWhile_prefix _).subset taken) first (List.mem_of_head? head) e member
      old

/-! ## The order of times -/

theorem mem_tail_append {l : List LogSegment} {s x : LogSegment} (member : s ∈ (l ++ [x]).tail) :
    s = x ∨ s ∈ l.tail := by
  cases l with
  | nil => cases member
  | cons t rest => simpa [or_comm] using member

theorem append_filled (now : Timestamp) (key : Option String) (value : List UInt8)
    (filled : ∀ s ∈ w.segments.tail, s.entries ≠ []) :
    ∀ s ∈ (w.append now key value).2.segments.tail, s.entries ≠ [] := by
  intro s member
  rcases mem_tail_append member with rfl | before
  · simp [LogSegment.append]
  · apply filled
    unfold rotate at before
    split at before
    · simpa using before
    · rw [List.tail_dropLast] at before
      exact List.mem_of_mem_dropLast before

theorem applyRetention_segments (now : Timestamp) (w : WriteAheadLog) :
    (w.applyRetention now).2.segments <:+ w.segments := by
  unfold applyRetention
  split
  · exact List.suffix_refl _
  · exact expire_suffix _ w.segments

theorem applyRetention_filled (now : Timestamp) (filled : ∀ s ∈ w.segments.tail, s.entries ≠ []) :
    ∀ s ∈ (w.applyRetention now).2.segments.tail, s.entries ≠ [] := by
  obtain ⟨gone, split⟩ := applyRetention_segments now w
  intro s member
  apply filled
  rw [← split]
  cases gone with
  | nil => exact member
  | cons t rest => exact List.mem_append_right rest (List.mem_of_mem_tail member)

theorem foldl_append_timestamps (now : ℕ → Timestamp) (kept : List LogEntry) (n : ℕ) (s : LogSegment) :
    ((kept.zipIdx n).foldl (fun segment e => (segment.append (now e.2) e.1.key e.1.value).2)
      s).entries.map LogEntry.timestamp =
        s.entries.map LogEntry.timestamp ++ (List.range' n kept.length).map now := by
  induction kept generalizing s n with
  | nil => simp
  | cons e rest ih =>
      rw [List.zipIdx_cons, List.foldl_cons, ih, List.length_cons, List.range'_succ]
      simp [LogSegment.append]

/-- Compaction gives every entry it keeps a new time. -/
theorem compact_timestamps (now : ℕ → Timestamp) (w : WriteAheadLog) :
    (w.compact now).2.entries.map LogEntry.timestamp =
      (List.range (latest LogEntry.key w.entries).length).map now := by
  rw [entries, (w.compact_eq now).2, List.flatMap_singleton, List.range_eq_range']
  exact foldl_append_timestamps now _ 0 _

end WriteAheadLog

/-! ## Runs with a clock -/

namespace LogRun

open WriteAheadLog

/-- The readings of the clock, in order. -/
def readings (r : LogRun) : WriteAheadOp → List Timestamp
  | .append now _ _ => [now]
  | .applyRetention now => if r.log.retentionMs ≤ 0 then [] else [now]
  | .compact now => (List.range (latest LogEntry.key r.log.entries).length).map now

/-- The readings of the clock over a run. -/
def clock : LogRun → List WriteAheadOp → List Timestamp
  | _, [] => []
  | r, op :: ops => r.readings op ++ clock (r.step op) ops

/-- The log is timely, and nothing in it is later than what the clock reads from now on. -/
structure Timed (w : WriteAheadLog) (later : List Timestamp) : Prop where
  timely : w.Timely
  before : ∀ e ∈ w.entries, ∀ t ∈ later, e.timestamp ≤ t

variable {r : LogRun} {later : List Timestamp}

theorem timed_step (dense : r.log.Dense) (op : WriteAheadOp)
    (ticking : (r.readings op ++ later).Pairwise (· ≤ ·)) (timed : Timed r.log (r.readings op ++ later)) :
    Timed (r.step op).log later := by
  obtain ⟨first, rest, across⟩ := List.pairwise_append.mp ticking
  have before : ∀ e ∈ r.log.entries, ∀ t ∈ later, e.timestamp ≤ t :=
    fun e member t late => timed.before e member t (List.mem_append_right _ late)
  cases op with
  | append now key value =>
      have entries := (WriteAheadLog.append_spec now dense key value).2.2.2
      have now_later : ∀ t ∈ later, now ≤ t := across now (by simp [readings])
      have stored : ∀ e ∈ r.log.entries, e.timestamp ≤ now :=
        fun e member => timed.before e member now (by simp [readings])
      refine ⟨⟨append_filled now key value timed.timely.filled, ?_⟩, ?_⟩
      · show (r.log.append now key value).2.entries.Pairwise _
        rw [entries]
        refine List.pairwise_append.mpr ⟨timed.timely.ascending, List.pairwise_singleton _ _, ?_⟩
        intro e member d last
        rw [List.mem_singleton.mp last]
        exact stored e member
      · show ∀ e ∈ (r.log.append now key value).2.entries, _
        rw [entries]
        intro e member t late
        rcases List.mem_append.mp member with old | last
        · exact before e old t late
        · rw [List.mem_singleton.mp last]
          exact now_later t late
  | applyRetention now =>
      have suffix := (WriteAheadLog.applyRetention_spec now dense).2.2
      refine ⟨⟨applyRetention_filled now timed.timely.filled, ?_⟩, ?_⟩
      · exact timed.timely.ascending.sublist suffix.sublist
      · exact fun e member => before e (suffix.subset member)
  | compact now =>
      have times := WriteAheadLog.compact_timestamps now r.log
      have segments := (r.log.compact_eq now).2
      refine ⟨⟨?_, ?_⟩, ?_⟩
      · show ∀ s ∈ (r.log.compact now).2.segments.tail, _
        simp [segments]
      · show (r.log.compact now).2.entries.Pairwise _
        rw [← List.pairwise_map (f := LogEntry.timestamp) (R := (· ≤ ·)), times]
        exact first
      · show ∀ e ∈ (r.log.compact now).2.entries, _
        intro e member t late
        have read : e.timestamp ∈ (r.log.compact now).2.entries.map LogEntry.timestamp :=
          List.mem_map_of_mem member
        rw [times] at read
        exact across _ read t late

/-- A run with a clock that does not go back leaves a timely log. -/
theorem timed_run (dense : r.log.Dense) {ops : List WriteAheadOp}
    (ticking : (r.clock ops ++ later).Pairwise (· ≤ ·)) (timed : Timed r.log (r.clock ops ++ later)) :
    Timed (run step r ops).log later := by
  induction ops generalizing r with
  | nil => exact timed
  | cons op ops ih =>
      rw [clock, List.append_assoc] at ticking timed
      exact ih (step_dense dense op) (List.pairwise_append.mp ticking).2.1
        (timed_step dense op ticking timed)

theorem step_retentionMs (r : LogRun) (op : WriteAheadOp) :
    (r.step op).log.retentionMs = r.log.retentionMs := by
  cases op with
  | append now key value =>
      show r.log.rotate.retentionMs = _
      unfold rotate
      split <;> rfl
  | applyRetention now =>
      show (r.log.applyRetention now).2.retentionMs = _
      unfold applyRetention
      split <;> rfl
  | compact now => rfl

theorem run_retentionMs (segmentMaxBytes retentionMs : ℤ) (ops : List WriteAheadOp) :
    (run step (start segmentMaxBytes retentionMs) ops).log.retentionMs = retentionMs := by
  have preserved : ∀ (r : LogRun) op, r.log.retentionMs = retentionMs →
      (r.step op).log.retentionMs = retentionMs := fun r op same => (step_retentionMs r op).trans same
  exact run_preserves preserved rfl ops

/-- **When retention keeps what has not expired.**  After any run with a clock that does not go
back it does, exactly if no closed segment of the log holds both an expired entry and one that has
not expired. -/
theorem run_keepsUnexpired_iff (segmentMaxBytes : ℤ) {retentionMs : ℤ} (positive : 0 < retentionMs)
    {ops : List WriteAheadOp} {now : Timestamp}
    (ticking : ((start segmentMaxBytes retentionMs).clock ops ++ [now]).Pairwise (· ≤ ·)) :
    let log := (run step (start segmentMaxBytes retentionMs) ops).log
    log.KeepsUnexpired now ↔ log.WholeSegments (now - retentionMs / 1000) := by
  intro log
  have same : log.retentionMs = retentionMs := run_retentionMs segmentMaxBytes retentionMs ops
  have empty : Timed (start segmentMaxBytes retentionMs).log
      ((start segmentMaxBytes retentionMs).clock ops ++ [now]) :=
    ⟨⟨by simp [start, WriteAheadLog.new],
      by simp [start, WriteAheadLog.new, WriteAheadLog.entries]⟩,
      by simp [start, WriteAheadLog.new, WriteAheadLog.entries]⟩
  have timed : Timed log [now] :=
    timed_run (WriteAheadLog.new_dense segmentMaxBytes retentionMs) ticking empty
  have dense : log.Dense := run_dense segmentMaxBytes retentionMs ops
  rw [keepsUnexpired_iff_dropped dense now (same.symm ▸ positive), timed.timely.dropped_expired_iff,
    cutoff, same]

/-- Two entries to a segment; the first one at 0, the others from 5 on. -/
def agingOps : List WriteAheadOp :=
  [.append 0 none [1], .append 5 none [2], .append 5 none [3]]

/-- Six seconds after the second entry its whole segment has expired. -/
theorem agingOps_keepsUnexpired_iff :
    let log := (run step (start 100 2000) agingOps).log
    log.KeepsUnexpired 11 ↔ log.WholeSegments (11 - (2000 : ℤ) / 1000) :=
  run_keepsUnexpired_iff 100 (by decide) (by decide +kernel)

/-- One second after the second entry it goes with the first one. -/
theorem agingOps_lose_unexpired : ¬ (run step (start 100 2000) agingOps).log.KeepsUnexpired 6 := by
  intro kept
  have left := kept.unexpired { offset := 1, timestamp := 5, key := none, value := [2] }
    (by decide +kernel) (by decide +kernel)
  revert left
  decide +kernel

end LogRun

end BrokerLite
