/-
# Storage.LogRun -- runs of the write-ahead log

A run appends, applies retention and compacts, in any order and at any clock
readings.  `LogRun` keeps beside the log what every append returned and the
latest offset after every operation.

Reads equal reads of the flat log in every run (`run_read`).  Offsets are stable
(`Stable`) as long as compaction removes entries at the front only: a compaction
that removes an entry behind one it keeps numbers the later ones again
(`run_stable_iff`).
-/
import BrokerLite.Storage.WriteAheadLog

namespace BrokerLite

open Theory

set_option autoImplicit false

inductive WriteAheadOp where
  | append (now : Timestamp) (key : Option String) (value : List UInt8)
  | applyRetention (now : Timestamp)
  | compact (now : ℕ → Timestamp)

/-- An append that returned `offset`. -/
structure Appended where
  offset : ℤ
  key : Option String
  value : List UInt8
  deriving DecidableEq

structure LogRun where
  log : WriteAheadLog
  appended : List Appended := []
  latestOffsets : List ℤ := []

namespace LogRun

def step (r : LogRun) : WriteAheadOp → LogRun
  | .append now key value =>
      let done := r.log.append now key value
      { log := done.2
        appended := r.appended ++ [{ offset := done.1, key, value }]
        latestOffsets := r.latestOffsets ++ [done.2.latestOffset] }
  | .applyRetention now =>
      let log := (r.log.applyRetention now).2
      { r with log, latestOffsets := r.latestOffsets ++ [log.latestOffset] }
  | .compact now =>
      let log := (r.log.compact now).2
      { r with log, latestOffsets := r.latestOffsets ++ [log.latestOffset] }

/-- A new log, with its latest offset noted. -/
def start (segmentMaxBytes retentionMs : ℤ) : LogRun where
  log := .new segmentMaxBytes retentionMs
  latestOffsets := [0]

/-! ## Reads -/

theorem step_dense {r : LogRun} (dense : r.log.Dense) (op : WriteAheadOp) : (r.step op).log.Dense := by
  cases op with
  | append now key value => exact (WriteAheadLog.append_spec now dense key value).2.1
  | applyRetention now => exact (WriteAheadLog.applyRetention_spec now dense).1
  | compact now => exact (WriteAheadLog.compact_spec now r.log).1

theorem run_dense (segmentMaxBytes retentionMs : ℤ) (ops : List WriteAheadOp) :
    (run step (start segmentMaxBytes retentionMs) ops).log.Dense :=
  have preserved : ∀ (r : LogRun) op, r.log.Dense → (r.step op).log.Dense :=
    fun _ op dense => step_dense dense op
  run_preserves preserved (WriteAheadLog.new_dense segmentMaxBytes retentionMs) ops

/-- **Segmented reads equal a flat log.**  In every run a read gives the first
entries with an offset from `offset` on, at most `maxEntries`, and the entries of
all segments are numbered without a gap up to the latest offset. -/
theorem run_read (segmentMaxBytes retentionMs : ℤ) (ops : List WriteAheadOp) (offset maxEntries : ℤ) :
    let log := (run step (start segmentMaxBytes retentionMs) ops).log
    log.read offset maxEntries =
        (log.entries.filter fun e => offset ≤ e.offset).take (max 0 maxEntries).toNat ∧
      (log.entries.Pairwise fun d e => d.offset < e.offset) ∧
      ∀ first, log.entries.head? = some first →
        log.entries.map LogEntry.offset =
            (List.range log.entries.length).map (fun (i : ℕ) => first.offset + i) ∧
          first.offset + log.entries.length = log.latestOffset := by
  intro log
  have dense : log.Dense := run_dense segmentMaxBytes retentionMs ops
  refine ⟨?_, dense.numbered.ascending, fun first found => ?_⟩
  · have budget : (max 0 maxEntries).toNat = maxEntries.toNat := by omega
    rw [budget]
    exact WriteAheadLog.read_eq_flat dense offset maxEntries
  · have base := dense.numbered.at_position (List.head?_eq_getElem? ▸ found)
    have start : first.offset = log.latestOffset - log.entries.length := by simpa using base
    rw [start]
    exact ⟨dense.numbered.map_eq_range, by omega⟩

/-! ## What holds in every run -/

/-- An active segment without entries is the first one. -/
structure Sound (r : LogRun) : Prop where
  dense : r.log.Dense
  fresh : r.log.activeSegment.entries = [] → r.log.latestOffset = 0
  noted : r.latestOffsets.getLast? = some r.log.latestOffset

theorem start_sound (segmentMaxBytes retentionMs : ℤ) :
    (start segmentMaxBytes retentionMs).Sound :=
  ⟨WriteAheadLog.new_dense segmentMaxBytes retentionMs, fun _ => rfl, rfl⟩

theorem Sound.step {r : LogRun} (sound : r.Sound) (op : WriteAheadOp) : (r.step op).Sound := by
  refine ⟨step_dense sound.dense op, ?_, ?_⟩
  · cases op with
    | append now key value =>
        intro empty
        exact absurd empty (WriteAheadLog.active_append_ne_nil now r.log key value)
    | applyRetention now =>
        obtain ⟨active, latest⟩ := WriteAheadLog.active_applyRetention now r.log
        intro empty
        exact latest.trans (sound.fresh (active ▸ empty))
    | compact now =>
        intro empty
        exact WriteAheadLog.compact_of_empty now empty
  · cases op <;> exact List.getLast?_concat

theorem run_sound (segmentMaxBytes retentionMs : ℤ) (ops : List WriteAheadOp) :
    (run step (start segmentMaxBytes retentionMs) ops).Sound :=
  have preserved : ∀ (r : LogRun) op, r.Sound → (r.step op).Sound := fun _ op sound => sound.step op
  run_preserves preserved (start_sound segmentMaxBytes retentionMs) ops

/-! ## Stable offsets -/

/-- What a consumer that resumes from an offset relies on. -/
structure Stable (r : LogRun) : Prop where
  ascending : r.appended.Pairwise fun a b => a.offset < b.offset
  monotone : r.latestOffsets.Pairwise (· ≤ ·)
  reads : ∀ offset maxEntries, ∀ e ∈ r.log.read offset maxEntries,
    ∃ a ∈ r.appended, a.offset = e.offset ∧ a.key = e.key ∧ a.value = e.value

/-- Nothing is asked of the operation but of a compaction, that the entries it removes
stand before every entry it keeps. -/
def CompactsFront (r : LogRun) : WriteAheadOp → Prop
  | .compact _ => SupersededFirst LogEntry.key r.log.entries
  | _ => True

/-- The stable states, with what the steps need: every number is behind the latest offset,
and every entry is one that was appended. -/
structure Tracked (r : LogRun) : Prop where
  sound : r.Sound
  ascending : r.appended.Pairwise fun a b => a.offset < b.offset
  below : ∀ a ∈ r.appended, a.offset < r.log.latestOffset
  monotone : r.latestOffsets.Pairwise (· ≤ ·)
  reached : ∀ o ∈ r.latestOffsets, o ≤ r.log.latestOffset
  stored : ∀ e ∈ r.log.entries, ∃ a ∈ r.appended, a.offset = e.offset ∧ (a.key, a.value) = e.record

theorem Tracked.stable {r : LogRun} (tracked : r.Tracked) : r.Stable := by
  refine ⟨tracked.ascending, tracked.monotone, fun offset maxEntries e member => ?_⟩
  rw [WriteAheadLog.read_eq_flat tracked.sound.dense] at member
  obtain ⟨a, known, offset, record⟩ :=
    tracked.stored e (List.mem_of_mem_filter (List.mem_of_mem_take member))
  exact ⟨a, known, offset, Prod.mk.inj record⟩

/-- A step that keeps what was appended and does not lower the latest offset. -/
theorem Tracked.keep {r : LogRun} (tracked : r.Tracked) {log : WriteAheadLog}
    (sound : Sound { r with log, latestOffsets := r.latestOffsets ++ [log.latestOffset] })
    (latest : r.log.latestOffset ≤ log.latestOffset)
    (kept : ∀ e ∈ log.entries, ∃ d ∈ r.log.entries, d.offset = e.offset ∧ d.record = e.record) :
    Tracked { r with log, latestOffsets := r.latestOffsets ++ [log.latestOffset] } := by
  have reached : ∀ o ∈ r.latestOffsets, o ≤ log.latestOffset :=
    fun o member => le_trans (tracked.reached o member) latest
  refine ⟨sound, tracked.ascending, ?_, ?_, ?_, fun e member => ?_⟩
  · exact fun a known => lt_of_lt_of_le (tracked.below a known) latest
  · exact List.pairwise_append.mpr ⟨tracked.monotone, List.pairwise_singleton _ _,
      fun o member _ last => List.mem_singleton.mp last ▸ reached o member⟩
  · intro o member
    rcases List.mem_append.mp member with before | last
    · exact reached o before
    · exact le_of_eq (List.mem_singleton.mp last)
  · obtain ⟨d, before, offset, record⟩ := kept e member
    obtain ⟨a, known, offset', record'⟩ := tracked.stored d before
    exact ⟨a, known, offset'.trans offset, record'.trans record⟩

/-- An append is numbered above everything before it. -/
theorem Tracked.append {r : LogRun} (tracked : r.Tracked) (now : Timestamp) (key : Option String)
    (value : List UInt8) : (r.step (.append now key value)).Tracked := by
  have sound := tracked.sound.step (.append now key value)
  have dense := tracked.sound.dense
  obtain ⟨offset, -, latest, entries⟩ := WriteAheadLog.append_spec now dense key value
  let added : Appended := { offset := (r.log.append now key value).1, key, value }
  have new : added.offset = r.log.latestOffset := offset
  refine ⟨sound, ?_, ?_, ?_, ?_, ?_⟩
  · show (r.appended ++ [added]).Pairwise _
    refine List.pairwise_append.mpr ⟨tracked.ascending, List.pairwise_singleton _ _, ?_⟩
    intro a known b last
    rw [List.mem_singleton.mp last, new]
    exact tracked.below a known
  · intro a known
    show a.offset < (r.log.append now key value).2.latestOffset
    rw [latest]
    rcases List.mem_append.mp known with before | last
    · have below := tracked.below a before
      omega
    · rw [List.mem_singleton.mp last]
      show added.offset < _
      omega
  · show (r.latestOffsets ++ [(r.log.append now key value).2.latestOffset]).Pairwise _
    refine List.pairwise_append.mpr ⟨tracked.monotone, List.pairwise_singleton _ _, ?_⟩
    intro o member _ last
    have reached := tracked.reached o member
    rw [List.mem_singleton.mp last, latest]
    omega
  · intro o member
    show o ≤ (r.log.append now key value).2.latestOffset
    rcases List.mem_append.mp member with before | last
    · have reached := tracked.reached o before
      omega
    · exact le_of_eq (List.mem_singleton.mp last)
  · intro e member
    rw [show (r.step (.append now key value)).log.entries = _ from entries] at member
    rcases List.mem_append.mp member with before | last
    · obtain ⟨a, known, same⟩ := tracked.stored e before
      exact ⟨a, List.mem_append_left _ known, same⟩
    · refine ⟨added, List.mem_append_right _ (List.mem_singleton.mpr rfl), ?_, ?_⟩ <;>
        rw [List.mem_singleton.mp last]
      · exact new
      · rfl

theorem Tracked.step {r : LogRun} (tracked : r.Tracked) {op : WriteAheadOp} (front : r.CompactsFront op) :
    (r.step op).Tracked := by
  have sound := tracked.sound.step op
  have dense := tracked.sound.dense
  cases op with
  | append now key value => exact tracked.append now key value
  | applyRetention now =>
      obtain ⟨-, latest, suffix⟩ := WriteAheadLog.applyRetention_spec now dense
      exact tracked.keep sound (le_of_eq latest.symm)
        fun e member => ⟨e, suffix.subset member, rfl, rfl⟩
  | compact now =>
      have fresh : r.log.entries = [] → r.log.latestOffset = 0 := fun empty =>
        tracked.sound.fresh (WriteAheadLog.active_of_empty empty)
      exact tracked.keep sound ((WriteAheadLog.compact_latestOffset now dense fresh).mpr front)
        fun e member => WriteAheadLog.compact_keeps now dense front member

/-- **Offsets are stable in the runs whose compactions remove entries at the front only.** -/
theorem run_stable_iff (segmentMaxBytes retentionMs : ℤ) (ops : List WriteAheadOp) :
    (∀ before, before <+: ops → (run step (start segmentMaxBytes retentionMs) before).Stable) ↔
      Guarded step CompactsFront (start segmentMaxBytes retentionMs) ops := by
  constructor
  · intro stable
    refine guarded_iff_split.mpr fun before op after split => ?_
    have sound := run_sound segmentMaxBytes retentionMs before
    cases op with
    | append => trivial
    | applyRetention => trivial
    | compact now =>
        -- The compaction's latest offset is the last one noted, the one before it the last but one.
        have later := (stable (before ++ [.compact now]) ⟨after, by simp [split]⟩).monotone
        rw [run_append] at later
        have fresh := fun empty => sound.fresh (WriteAheadLog.active_of_empty empty)
        exact (WriteAheadLog.compact_latestOffset now sound.dense fresh).mp
          ((List.pairwise_append.mp later).2.2 _ (List.mem_of_getLast? sound.noted) _
            (List.mem_singleton.mpr rfl))
  · intro guarded before early
    have start : Tracked (start segmentMaxBytes retentionMs) :=
      ⟨start_sound segmentMaxBytes retentionMs, List.Pairwise.nil, by simp [LogRun.start],
        List.pairwise_singleton _ _, by simp [LogRun.start]; rfl,
        by simp [LogRun.start, WriteAheadLog.new, WriteAheadLog.entries]⟩
    have preserved : ∀ (r : LogRun) op, r.Tracked → r.CompactsFront op → (r.step op).Tracked :=
      fun _ _ tracked front => tracked.step front
    exact (run_invariant preserved start (guarded.of_prefix early)).stable

/-- Appends under the keys `a`, `b` and `b`, then a compaction: the last entry moves to offset 1. -/
def holeOps : List WriteAheadOp :=
  [.append 0 (some "a") [1], .append 0 (some "b") [2], .append 0 (some "b") [3], .compact fun _ => 0]

theorem holeOps_unstable :
    ¬ ∀ before, before <+: holeOps → (run step (start 1000 0) before).Stable := by
  intro stable
  have monotone := (stable holeOps (List.prefix_refl _)).monotone
  have offsets : (run step (start 1000 0) holeOps).latestOffsets = [0, 1, 2, 3, 2] := by decide
  rw [offsets] at monotone
  exact absurd monotone (by decide)

end LogRun

end BrokerLite
