/-
# Storage.WriteAheadLog -- the segmented log

A `WriteAheadLog` is a list of segments, oldest first, and never empty; only the
last one is written to, and a full one is closed by the next append.  Retention
drops whole segments at the front, compaction rebuilds the log as one segment.

`Chained` is the invariant: each segment is numbered without a gap from its base,
which is where the segment before it ends.  A read then gives what a flat log
would (`read_eq_flat`).
-/
import BrokerLite.Store.Message
import BrokerLite.Theory.Compaction
import BrokerLite.Theory.Numbered
import BrokerLite.Theory.Run
import BrokerLite.Theory.Slice

namespace BrokerLite

open Theory

set_option autoImplicit false

structure LogEntry where
  offset : ℤ
  timestamp : Timestamp
  key : Option String
  value : List UInt8
  deriving DecidableEq

/-- What the caller gave. -/
def LogEntry.record (e : LogEntry) : Option String × List UInt8 := (e.key, e.value)

/-! ## Segments -/

structure LogSegment where
  baseOffset : ℤ
  maxBytes : ℤ := 64 * 1024 * 1024
  entries : List LogEntry := []
  sizeBytes : ℕ := 0

namespace LogSegment

def nextOffset (s : LogSegment) : ℤ :=
  match s.entries.getLast? with
  | none => s.baseOffset
  | some e => e.offset + 1

def count (s : LogSegment) : ℕ := s.entries.length

def isFull (s : LogSegment) : Bool := s.maxBytes ≤ s.sizeBytes

def append (now : Timestamp) (s : LogSegment) (key : Option String) (value : List UInt8) :
    ℤ × LogSegment :=
  let offset := s.nextOffset
  (offset, { s with
    entries := s.entries ++ [{ offset, timestamp := now, key, value }]
    sizeBytes := s.sizeBytes + (value.length + 64) })

def read (s : LogSegment) (offset maxEntries : ℤ) : List LogEntry :=
  if s.entries = [] then []
  else
    let startIdx := offset - s.baseOffset
    let startIdx := if startIdx < 0 then 0 else startIdx
    if s.entries.length ≤ startIdx then []
    else
      let endIdx := min (startIdx + maxEntries) s.entries.length
      slice s.entries startIdx endIdx

end LogSegment

/-! ## The log -/

structure WriteAheadLog where
  segmentMaxBytes : ℤ := 64 * 1024 * 1024
  retentionMs : ℤ := 0
  segments : List LogSegment
  nonempty : segments ≠ []
  totalAppended : ℕ := 0

namespace WriteAheadLog

/-- The constructor, without a data directory. -/
def new (segmentMaxBytes retentionMs : ℤ) : WriteAheadLog where
  segmentMaxBytes := segmentMaxBytes
  retentionMs := retentionMs
  segments := [{ baseOffset := 0, maxBytes := segmentMaxBytes }]
  nonempty := List.cons_ne_nil _ _

def activeSegment (w : WriteAheadLog) : LogSegment := w.segments.getLast w.nonempty

/-- All entries, oldest first. -/
def entries (w : WriteAheadLog) : List LogEntry := w.segments.flatMap LogSegment.entries

/-- A new segment behind the active one if that is full. -/
def rotate (w : WriteAheadLog) : WriteAheadLog :=
  if w.activeSegment.isFull then
    { w with
      segments := w.segments ++
        [{ baseOffset := w.activeSegment.nextOffset, maxBytes := w.segmentMaxBytes }]
      nonempty := by simp }
  else w

/-- `append` behind the rotation. -/
def appendActive (now : Timestamp) (w : WriteAheadLog) (key : Option String) (value : List UInt8) :
    ℤ × WriteAheadLog :=
  let done := w.activeSegment.append now key value
  (done.1, { w with
    segments := w.segments.dropLast ++ [done.2]
    nonempty := by simp
    totalAppended := w.totalAppended + 1 })

def append (now : Timestamp) (w : WriteAheadLog) (key : Option String) (value : List UInt8) :
    ℤ × WriteAheadLog :=
  w.rotate.appendActive now key value

/-- The loop of `read` over the segments, with the offset and the entries that remain to be read. -/
def readFrom : List LogSegment → ℤ → ℤ → List LogEntry
  | [], _, _ => []
  | segment :: rest, offset, remaining =>
      if remaining ≤ 0 then []
      else if segment.nextOffset ≤ offset then readFrom rest offset remaining
      else
        let entries := segment.read offset remaining
        let offset :=
          match entries.getLast? with
          | none => offset
          | some e => e.offset + 1
        entries ++ readFrom rest offset (remaining - entries.length)

def read (w : WriteAheadLog) (offset maxEntries : ℤ) : List LogEntry :=
  readFrom w.segments offset maxEntries

def latestOffset (w : WriteAheadLog) : ℤ := w.activeSegment.nextOffset

/-- The loop of `apply_retention`: the number of entries removed, and the segments left. -/
def expire (cutoff : Timestamp) : List LogSegment → ℕ × List LogSegment
  | segment :: next :: rest =>
      match segment.read segment.baseOffset 1 with
      | first :: _ =>
          if first.timestamp < cutoff then
            let done := expire cutoff (next :: rest)
            (segment.count + done.1, done.2)
          else (0, segment :: next :: rest)
      | [] => (0, segment :: next :: rest)
  | segments => (0, segments)

theorem expire_suffix (cutoff : Timestamp) (segments : List LogSegment) :
    (expire cutoff segments).2 <:+ segments := by
  fun_induction expire cutoff segments with
  | case1 segment next rest first _ _ _ _ ih => exact ih.trans (List.suffix_cons segment _)
  | case2 => exact List.suffix_refl _
  | case3 => exact List.suffix_refl _
  | case4 => exact List.suffix_refl _

theorem expire_ne_nil (cutoff : Timestamp) {segments : List LogSegment} (nonempty : segments ≠ []) :
    (expire cutoff segments).2 ≠ [] := by
  fun_induction expire cutoff segments with
  | case1 segment next rest first _ _ _ _ ih => exact ih (List.cons_ne_nil _ _)
  | case2 => exact List.cons_ne_nil _ _
  | case3 => exact List.cons_ne_nil _ _
  | case4 => exact nonempty

def applyRetention (now : Timestamp) (w : WriteAheadLog) : ℕ × WriteAheadLog :=
  if w.retentionMs ≤ 0 then (0, w)
  else
    let done := expire (now - w.retentionMs / 1000) w.segments
    (done.1, { w with segments := done.2, nonempty := expire_ne_nil _ w.nonempty })

/-- The segment that `compact` writes the entries it keeps to. -/
def rebuilt (now : ℕ → Timestamp) (maxBytes : ℤ) (kept : List LogEntry) : LogSegment :=
  let baseOffset :=
    match kept with
    | [] => 0
    | first :: _ => first.offset
  kept.zipIdx.foldl (fun segment e => (segment.append (now e.2) e.1.key e.1.value).2)
    { baseOffset, maxBytes }

/-- `compact`; `now` gives the clock readings of the appends that rebuild the log, in order. -/
def compact (now : ℕ → Timestamp) (w : WriteAheadLog) : ℕ × WriteAheadLog :=
  let allEntries := w.segments.flatMap fun segment => segment.read segment.baseOffset segment.count
  let kept := compacted LogEntry.key allEntries
  (allEntries.length - kept.length,
    { w with segments := [rebuilt now w.segmentMaxBytes kept], nonempty := List.cons_ne_nil _ _ })

end WriteAheadLog

/-! ## Segments numbered from their base -/

namespace LogSegment

/-- The entries are numbered from the base. -/
def Numbered (s : LogSegment) : Prop := Theory.Numbered LogEntry.offset s.baseOffset s.entries

theorem nextOffset_eq {s : LogSegment} (numbered : s.Numbered) :
    s.nextOffset = s.baseOffset + s.entries.length := by
  unfold nextOffset
  split
  · next none =>
      rw [List.getLast?_eq_none_iff.mp none]
      simp
  · next e found => exact Theory.Numbered.last numbered found

theorem append_spec (now : Timestamp) {s : LogSegment} (numbered : s.Numbered) (key : Option String)
    (value : List UInt8) :
    (s.append now key value).1 = s.nextOffset ∧
    (s.append now key value).2.baseOffset = s.baseOffset ∧
    (s.append now key value).2.entries =
      s.entries ++ [{ offset := s.nextOffset, timestamp := now, key, value }] ∧
    (s.append now key value).2.Numbered := by
  refine ⟨rfl, rfl, rfl, ?_⟩
  show Theory.Numbered LogEntry.offset s.baseOffset (s.entries ++ [_])
  rw [numbered_append]
  exact ⟨numbered, nextOffset_eq numbered, trivial⟩

/-- A read of a positive number of entries is a window behind the offset. -/
theorem read_eq {s : LogSegment} (numbered : s.Numbered) (offset : ℤ) {k : ℤ} (positive : 0 < k) :
    s.read offset k = (since LogEntry.offset offset s.entries).take k.toNat := by
  rw [Theory.Numbered.since_eq_drop numbered]
  unfold read
  split
  · next empty => simp [empty]
  · dsimp only
    have start : (if offset - s.baseOffset < 0 then 0 else offset - s.baseOffset) =
        ((offset - s.baseOffset).toNat : ℤ) := by
      split <;> omega
    rw [start]
    generalize (offset - s.baseOffset).toNat = i
    split
    · next beyond => rw [List.drop_eq_nil_of_le (by omega), List.take_nil]
    · next inside =>
        rw [slice_of_nonneg _ (by omega) (by omega), Int.toNat_natCast]
        rcases Int.le_total (i + k) s.entries.length with short | long
        · rw [Int.min_eq_left short]
          congr 1
          omega
        · rw [Int.min_eq_right long, List.take_of_length_le (by simp),
            List.take_of_length_le (by simp; omega)]

/-- A read of all entries from the base needs no numbers. -/
theorem read_all (s : LogSegment) : s.read s.baseOffset s.count = s.entries := by
  unfold read count
  split
  · next empty => exact empty.symm
  · next nonempty =>
      have some_ := List.length_pos_iff.mpr nonempty
      simp only [Int.sub_self, Int.lt_irrefl, if_false, Int.zero_add, Int.min_self]
      rw [if_neg (by omega), slice_of_nonneg _ (Int.le_refl 0) (by omega)]
      simp

end LogSegment

/-! ## Segments one behind the other -/

/-- The first segment starts at the base, every other one where the one before it ends. -/
def Chained : ℤ → List LogSegment → Prop
  | _, [] => True
  | base, segment :: rest =>
      segment.baseOffset = base ∧ segment.Numbered ∧ Chained (base + segment.entries.length) rest

theorem chained_append (base : ℤ) (front back : List LogSegment) :
    Chained base (front ++ back) ↔
      Chained base front ∧ Chained (base + (front.flatMap LogSegment.entries).length) back := by
  induction front generalizing base with
  | nil => simp [Chained]
  | cons segment rest ih =>
      rw [List.cons_append, Chained, Chained, ih, List.flatMap_cons, List.length_append, and_assoc,
        and_assoc]
      push_cast
      rw [add_assoc]

namespace Chained

variable {base : ℤ} {segments : List LogSegment}

/-- Together the segments are one numbered log. -/
theorem numbered (chained : Chained base segments) :
    Numbered LogEntry.offset base (segments.flatMap LogSegment.entries) := by
  induction segments generalizing base with
  | nil => trivial
  | cons segment rest ih =>
      rw [List.flatMap_cons, numbered_append]
      exact ⟨chained.1 ▸ chained.2.1, ih chained.2.2⟩

theorem of_suffix (chained : Chained base segments) {back : List LogSegment}
    (suffix : back <:+ segments) : ∃ base', Chained base' back := by
  obtain ⟨front, rfl⟩ := suffix
  exact ⟨_, ((chained_append base front back).mp chained).2⟩

theorem getLast (chained : Chained base segments) (nonempty : segments ≠ []) :
    (segments.getLast nonempty).Numbered ∧ (segments.getLast nonempty).nextOffset =
      base + (segments.flatMap LogSegment.entries).length := by
  obtain ⟨front, last, rfl⟩ := List.eq_nil_or_concat' segments |>.resolve_left nonempty
  have back := ((chained_append base front [last]).mp chained).2
  simp only [List.getLast_append_singleton, List.flatMap_append, List.length_append]
  refine ⟨back.2.1, ?_⟩
  rw [LogSegment.nextOffset_eq back.2.1, back.1]
  simp [add_assoc]

/-- **A read across segments is a window of the flat log.** -/
theorem readFrom_eq (chained : Chained base segments) (offset remaining : ℤ) :
    WriteAheadLog.readFrom segments offset remaining =
      (since LogEntry.offset offset (segments.flatMap LogSegment.entries)).take remaining.toNat := by
  induction segments generalizing base offset remaining with
  | nil => simp [WriteAheadLog.readFrom, since]
  | cons segment rest ih =>
      obtain ⟨atBase, numbered, later⟩ := chained
      have split : since LogEntry.offset offset (segment.entries ++ rest.flatMap LogSegment.entries) =
          since LogEntry.offset offset segment.entries ++
            since LogEntry.offset offset (rest.flatMap LogSegment.entries) := List.filter_append ..
      have nextOffset := LogSegment.nextOffset_eq numbered
      rw [WriteAheadLog.readFrom, List.flatMap_cons, split]
      split_ifs with done passed
      · rw [Int.toNat_of_nonpos done, List.take_zero]
      · rw [Theory.Numbered.since_eq_nil numbered (nextOffset ▸ passed), List.nil_append, ih later]
      · -- The segment's part of the window is read; what follows starts behind both offsets.
        rw [LogSegment.read_eq numbered offset (by omega)]
        have rest_eq : ∀ o, o ≤ base + segment.entries.length →
            since LogEntry.offset o (rest.flatMap LogSegment.entries) =
              rest.flatMap LogSegment.entries := fun o early => later.numbered.since_eq_self early
        generalize read : (since LogEntry.offset offset segment.entries).take remaining.toNat = entries
        have early : (match entries.getLast? with | none => offset | some e => e.offset + 1) ≤
            base + segment.entries.length := by
          split
          · omega
          · next e last =>
              have member : e ∈ segment.entries := List.mem_of_mem_filter
                (List.mem_of_mem_take (read ▸ List.mem_of_getLast? last))
              have bounds := Theory.Numbered.bounds numbered member
              omega
        dsimp only
        rw [ih later, rest_eq _ early, rest_eq offset (by omega), List.take_append, read]
        congr 2
        rw [← read, List.length_take]
        omega

end Chained

namespace WriteAheadLog

/-- The segments are one numbered log. -/
def Dense (w : WriteAheadLog) : Prop := ∃ base, Chained base w.segments

theorem new_dense (segmentMaxBytes retentionMs : ℤ) : (new segmentMaxBytes retentionMs).Dense :=
  ⟨0, rfl, trivial, trivial⟩

theorem Dense.numbered {w : WriteAheadLog} (dense : w.Dense) :
    Numbered LogEntry.offset (w.latestOffset - w.entries.length) w.entries := by
  obtain ⟨base, chained⟩ := dense
  have last := (chained.getLast w.nonempty).2
  have start : w.latestOffset - w.entries.length = base := by
    rw [latestOffset, activeSegment, last, entries]
    omega
  rw [start]
  exact chained.numbered

/-! ## What the operations do -/

theorem rotate_spec {w : WriteAheadLog} (dense : w.Dense) :
    w.rotate.Dense ∧ w.rotate.entries = w.entries ∧ w.rotate.latestOffset = w.latestOffset := by
  unfold rotate
  split
  · obtain ⟨base, chained⟩ := dense
    have last := (chained.getLast w.nonempty).2
    refine ⟨⟨base, (chained_append base _ _).mpr ⟨chained, last, trivial, trivial⟩⟩, ?_, ?_⟩
    · simp [entries]
    · simp [latestOffset, activeSegment, LogSegment.nextOffset]
  · exact ⟨dense, rfl, rfl⟩

theorem appendActive_spec (now : Timestamp) {w : WriteAheadLog} (dense : w.Dense)
    (key : Option String) (value : List UInt8) :
    (w.appendActive now key value).1 = w.latestOffset ∧
    (w.appendActive now key value).2.Dense ∧
    (w.appendActive now key value).2.latestOffset = w.latestOffset + 1 ∧
    (w.appendActive now key value).2.entries =
      w.entries ++ [{ offset := w.latestOffset, timestamp := now, key, value }] := by
  obtain ⟨base, chained⟩ := dense
  obtain ⟨front, last, split⟩ := List.eq_nil_or_concat' w.segments |>.resolve_left w.nonempty
  have active : w.activeSegment = last := by simp [activeSegment, split]
  have latest : w.latestOffset = last.nextOffset := by rw [latestOffset, active]
  have segments : (w.appendActive now key value).2.segments =
      front ++ [(last.append now key value).2] := by
    simp [appendActive, active, split]
  rw [split, chained_append] at chained
  obtain ⟨chained, atEnd, numbered, -⟩ := chained
  obtain ⟨offset, sameBase, grown, stays⟩ := last.append_spec now numbered key value
  refine ⟨by rw [latest, ← offset, ← active]; rfl, ⟨base, ?_⟩, ?_, ?_⟩
  · rw [segments, chained_append]
    exact ⟨chained, sameBase.trans atEnd, stays, trivial⟩
  · have size : (last.append now key value).2.entries.length = last.entries.length + 1 := by
      simp [grown]
    have next : (w.appendActive now key value).2.latestOffset =
        (last.append now key value).2.nextOffset := by
      simp [latestOffset, activeSegment, segments]
    rw [next, LogSegment.nextOffset_eq stays, sameBase, size, latest,
      LogSegment.nextOffset_eq numbered]
    push_cast
    omega
  · simp [entries, segments, split, grown, latest]

/-- **`append` returns the latest offset and adds one entry under it.** -/
theorem append_spec (now : Timestamp) {w : WriteAheadLog} (dense : w.Dense) (key : Option String)
    (value : List UInt8) :
    (w.append now key value).1 = w.latestOffset ∧
    (w.append now key value).2.Dense ∧
    (w.append now key value).2.latestOffset = w.latestOffset + 1 ∧
    (w.append now key value).2.entries =
      w.entries ++ [{ offset := w.latestOffset, timestamp := now, key, value }] := by
  obtain ⟨rotated, same, latest⟩ := rotate_spec dense
  rw [← same, ← latest]
  exact appendActive_spec now rotated key value

theorem applyRetention_spec (now : Timestamp) {w : WriteAheadLog} (dense : w.Dense) :
    (w.applyRetention now).2.Dense ∧ (w.applyRetention now).2.latestOffset = w.latestOffset ∧
      (w.applyRetention now).2.entries <:+ w.entries := by
  unfold applyRetention
  split
  · exact ⟨dense, rfl, List.suffix_refl _⟩
  · have suffix := expire_suffix (now - w.retentionMs / 1000) w.segments
    have left := expire_ne_nil (now - w.retentionMs / 1000) w.nonempty
    obtain ⟨base, chained⟩ := dense
    refine ⟨chained.of_suffix suffix, ?_, ?_⟩
    · simp only [latestOffset, activeSegment]
      rw [suffix.getLast left]
    · obtain ⟨front, split⟩ := suffix
      exact ⟨front.flatMap LogSegment.entries, by rw [entries, entries, ← List.flatMap_append, split]⟩

/-- Writing entries to a segment numbers them on. -/
theorem foldl_append_spec (now : ℕ → Timestamp) (kept : List LogEntry) (n : ℕ) {s : LogSegment}
    (numbered : s.Numbered) {t : LogSegment} (done : (kept.zipIdx n).foldl
      (fun segment e => (segment.append (now e.2) e.1.key e.1.value).2) s = t) :
    t.Numbered ∧ t.baseOffset = s.baseOffset := by
  induction kept generalizing s n with
  | nil =>
      subst done
      exact ⟨numbered, rfl⟩
  | cons e rest ih =>
      obtain ⟨-, base, grown, stays⟩ := s.append_spec (now n) numbered e.key e.value
      obtain ⟨numbered, sameBase⟩ := ih (n + 1) stays done
      exact ⟨numbered, sameBase.trans base⟩

theorem foldl_append_records (now : ℕ → Timestamp) (kept : List LogEntry) (n : ℕ) (s : LogSegment) :
    ((kept.zipIdx n).foldl (fun segment e => (segment.append (now e.2) e.1.key e.1.value).2)
      s).entries.map LogEntry.record = s.entries.map LogEntry.record ++ kept.map LogEntry.record := by
  induction kept generalizing s n with
  | nil => simp
  | cons e rest ih =>
      rw [List.zipIdx_cons, List.foldl_cons, ih]
      simp [LogSegment.append, LogEntry.record]

theorem rebuilt_spec (now : ℕ → Timestamp) (maxBytes : ℤ) (kept : List LogEntry) :
    (rebuilt now maxBytes kept).Numbered ∧
    (rebuilt now maxBytes kept).baseOffset = kept.head?.elim 0 LogEntry.offset := by
  cases kept with
  | nil => exact ⟨trivial, rfl⟩
  | cons first rest =>
      exact foldl_append_spec now (first :: rest) 0
        (show LogSegment.Numbered { baseOffset := first.offset, maxBytes } from trivial) rfl

theorem rebuilt_records (now : ℕ → Timestamp) (maxBytes : ℤ) (kept : List LogEntry) :
    (rebuilt now maxBytes kept).entries.map LogEntry.record = kept.map LogEntry.record :=
  foldl_append_records now kept 0 _

theorem allEntries_eq (w : WriteAheadLog) :
    (w.segments.flatMap fun segment => segment.read segment.baseOffset segment.count) =
      w.entries := by
  simp only [LogSegment.read_all, entries]

/-- Compaction, of any segments. -/
theorem compact_eq (now : ℕ → Timestamp) (w : WriteAheadLog) :
    (w.compact now).1 = w.entries.length - (latest LogEntry.key w.entries).length ∧
    (w.compact now).2.segments =
      [rebuilt now w.segmentMaxBytes (latest LogEntry.key w.entries)] := by
  rw [← compacted_eq_latest, ← allEntries_eq w]
  exact ⟨rfl, rfl⟩

theorem compact_records (now : ℕ → Timestamp) (w : WriteAheadLog) :
    (w.compact now).2.entries.map LogEntry.record =
      (latest LogEntry.key w.entries).map LogEntry.record := by
  rw [entries, (w.compact_eq now).2, List.flatMap_singleton, rebuilt_records]

/-- **What `compact` leaves**: the latest entry of every key, numbered again without
a gap from the first one's number. -/
theorem compact_spec (now : ℕ → Timestamp) (w : WriteAheadLog) :
    (w.compact now).2.Dense ∧
    (w.compact now).2.entries.map LogEntry.record =
      (latest LogEntry.key w.entries).map LogEntry.record ∧
    (w.compact now).2.latestOffset =
      (latest LogEntry.key w.entries).head?.elim 0 LogEntry.offset +
        (latest LogEntry.key w.entries).length := by
  obtain ⟨-, segments⟩ := w.compact_eq now
  obtain ⟨numbered, base⟩ := rebuilt_spec now w.segmentMaxBytes (latest LogEntry.key w.entries)
  have dense : (w.compact now).2.Dense := by
    rw [Dense, segments]
    exact ⟨_, rfl, numbered, trivial⟩
  refine ⟨dense, w.compact_records now, ?_⟩
  · have size := congrArg List.length
      (rebuilt_records now w.segmentMaxBytes (latest LogEntry.key w.entries))
    rw [List.length_map, List.length_map] at size
    rw [← base, ← size, ← LogSegment.nextOffset_eq numbered]
    simp [latestOffset, activeSegment, segments]

/-! ## The active segment -/

theorem active_append_ne_nil (now : Timestamp) (w : WriteAheadLog) (key : Option String)
    (value : List UInt8) : (w.append now key value).2.activeSegment.entries ≠ [] := by
  simp [append, appendActive, activeSegment, LogSegment.append]

theorem active_of_empty {w : WriteAheadLog} (empty : w.entries = []) :
    w.activeSegment.entries = [] :=
  List.flatMap_eq_nil_iff.mp empty _ (List.getLast_mem w.nonempty)

/-- Retention keeps the active segment. -/
theorem active_applyRetention (now : Timestamp) (w : WriteAheadLog) :
    (w.applyRetention now).2.activeSegment = w.activeSegment ∧
      (w.applyRetention now).2.latestOffset = w.latestOffset := by
  have active : (w.applyRetention now).2.activeSegment = w.activeSegment := by
    unfold applyRetention
    split
    · rfl
    · exact (expire_suffix (now - w.retentionMs / 1000) w.segments).getLast
        (expire_ne_nil _ w.nonempty)
  exact ⟨active, congrArg LogSegment.nextOffset active⟩

/-- A compacted log without entries starts again at 0. -/
theorem compact_of_empty (now : ℕ → Timestamp) {w : WriteAheadLog}
    (empty : (w.compact now).2.activeSegment.entries = []) : (w.compact now).2.latestOffset = 0 := by
  obtain ⟨-, records, latest⟩ := compact_spec now w
  have none : (w.compact now).2.entries = [] := by
    simpa [compact, entries, activeSegment] using empty
  have gone : Theory.latest LogEntry.key w.entries = [] := by
    rw [none] at records
    exact List.map_eq_nil_iff.mp records.symm
  rw [latest, gone]
  rfl

/-- The first entry that compaction keeps, in the log before it. -/
theorem latest_head {w : WriteAheadLog} (dense : w.Dense) (nonempty : w.entries ≠ []) :
    (Theory.latest LogEntry.key w.entries).head?.elim 0 LogEntry.offset =
      w.latestOffset - w.entries.length + leading LogEntry.key w.entries := by
  cases found : (Theory.latest LogEntry.key w.entries).head? with
  | none => exact absurd (latest_eq_nil_iff.mp (List.head?_eq_none_iff.mp found)) nonempty
  | some first =>
      rw [head?_latest, List.head?_drop] at found
      exact dense.numbered.at_position found

/-- **A compaction keeps the latest offset when the entries that go stand first**, and
lowers it otherwise.  A log without entries has the latest offset 0. -/
theorem compact_latestOffset (now : ℕ → Timestamp) {w : WriteAheadLog} (dense : w.Dense)
    (fresh : w.entries = [] → w.latestOffset = 0) :
    w.latestOffset ≤ (w.compact now).2.latestOffset ↔ SupersededFirst LogEntry.key w.entries := by
  rw [(compact_spec now w).2.2]
  by_cases empty : w.entries = []
  · rw [fresh empty, empty]
    exact iff_of_true (Int.le_refl _) trivial
  · rw [latest_head dense empty, ← latest_eq_drop_iff]
    have sub := latest_sublist_drop LogEntry.key w.entries
    have front := leading_le LogEntry.key w.entries
    have left : (w.entries.drop (leading LogEntry.key w.entries)).length =
        w.entries.length - leading LogEntry.key w.entries := List.length_drop ..
    constructor
    · intro kept
      exact sub.eq_of_length_le (by omega)
    · intro same
      rw [same]
      omega

/-- Entries that go only at the front leave every other entry its offset. -/
theorem compact_keeps (now : ℕ → Timestamp) {w : WriteAheadLog} (dense : w.Dense)
    (front : SupersededFirst LogEntry.key w.entries) {e : LogEntry}
    (member : e ∈ (w.compact now).2.entries) :
    ∃ d ∈ w.entries, d.offset = e.offset ∧ d.record = e.record := by
  obtain ⟨dense', records, latest⟩ := compact_spec now w
  obtain ⟨i, found⟩ := List.mem_iff_getElem?.mp member
  have number := dense'.numbered.at_position found
  have size := congrArg List.length records
  rw [List.length_map, List.length_map] at size
  have recordAt := congrArg (·[i]?) records
  simp only [List.getElem?_map, found, latest_eq_drop_iff.mpr front, Option.map_some] at recordAt
  cases kept : (w.entries.drop (leading LogEntry.key w.entries))[i]? with
  | none => simp [kept] at recordAt
  | some d =>
      rw [kept, Option.map_some, Option.some.injEq] at recordAt
      rw [List.getElem?_drop] at kept
      have nonempty : w.entries ≠ [] := List.ne_nil_of_mem (List.mem_of_getElem? kept)
      have original := dense.numbered.at_position kept
      have first := latest_head dense nonempty
      refine ⟨d, List.mem_of_getElem? kept, ?_, recordAt.symm⟩
      push_cast at original
      omega

/-- **A read is a window of the flat log.** -/
theorem read_eq_flat {w : WriteAheadLog} (dense : w.Dense) (offset maxEntries : ℤ) :
    w.read offset maxEntries =
      (since LogEntry.offset offset w.entries).take maxEntries.toNat := by
  obtain ⟨base, chained⟩ := dense
  exact chained.readFrom_eq offset maxEntries

end WriteAheadLog

end BrokerLite
