/-
# Storage.Reopening -- the logs on one directory

A write-ahead log with a data directory keeps a database there.  Committed offsets
are rows of it; the entries stay in the memory of the object.  A run appends, saves
offsets, closes the log and opens a new one on the same directory, any number of times:
a new log finds the database that the ones before it left, and no entries (`recovers_iff`).
So the openings of a run all recover what was there exactly when none of them comes after
an append (`run_recovers_iff`).
-/
import BrokerLite.Storage.LogRun
import BrokerLite.Theory.Dict

namespace BrokerLite

open Theory

set_option autoImplicit false

/-- The primary key of the table `offsets`: group, topic and partition. -/
abbrev OffsetKey := String × String × ℤ

/-- The table `offsets` of the database file: committed offset and time. -/
abbrev OffsetTable := Dict OffsetKey (ℤ × Timestamp)

/-- A log with a data directory. -/
structure DurableLog where
  log : WriteAheadLog
  /-- The connection is open. -/
  connected : Bool := true
  offsets : OffsetTable

namespace DurableLog

/-- The constructor, on a directory whose database holds `offsets`. -/
def new (segmentMaxBytes retentionMs : ℤ) (offsets : OffsetTable) : DurableLog where
  log := .new segmentMaxBytes retentionMs
  offsets := offsets

def append (now : Timestamp) (d : DurableLog) (key : Option String) (value : List UInt8) :
    ℤ × DurableLog :=
  let done := d.log.append now key value
  (done.1, { d with log := done.2 })

def read (d : DurableLog) (offset maxEntries : ℤ) : List LogEntry := d.log.read offset maxEntries

def latestOffset (d : DurableLog) : ℤ := d.log.latestOffset

def saveOffset (now : Timestamp) (d : DurableLog) (key : OffsetKey) (offset : ℤ) : DurableLog :=
  if d.connected then { d with offsets := d.offsets.set key (offset, now) } else d

def loadOffset (d : DurableLog) (key : OffsetKey) : Option ℤ :=
  if d.connected then (d.offsets.get? key).map Prod.fst else none

def close (d : DurableLog) : DurableLog := { d with connected := false }

end DurableLog

inductive DurableOp where
  | append (now : Timestamp) (key : Option String) (value : List UInt8)
  | saveOffset (now : Timestamp) (key : OffsetKey) (offset : ℤ)
  | close
  /-- A new log on the same directory. -/
  | reopen (segmentMaxBytes retentionMs : ℤ)

structure DurableRun where
  durable : DurableLog
  /-- For every key saved, the offset and the latest offset of the log at that time. -/
  saved : Dict OffsetKey (ℤ × ℤ) := .empty

namespace DurableRun

/-- The log that is opened on the directory next. -/
def next (r : DurableRun) (segmentMaxBytes retentionMs : ℤ) : DurableLog :=
  .new segmentMaxBytes retentionMs r.durable.offsets

def step (r : DurableRun) : DurableOp → DurableRun
  | .append now key value => { r with durable := (r.durable.append now key value).2 }
  | .saveOffset now key offset =>
      { durable := r.durable.saveOffset now key offset
        saved := if r.durable.connected then r.saved.set key (offset, r.durable.latestOffset)
          else r.saved }
  | .close => { r with durable := r.durable.close }
  | .reopen segmentMaxBytes retentionMs => { r with durable := r.next segmentMaxBytes retentionMs }

/-- A log on a new directory. -/
def start (segmentMaxBytes retentionMs : ℤ) : DurableRun where
  durable := .new segmentMaxBytes retentionMs .empty

/-- What a log `next`, opened on the directory of the run, takes over. -/
structure Recovers (r : DurableRun) (next : DurableLog) : Prop where
  entries : ∀ offset maxEntries, (next.read offset maxEntries).map (fun e => (e.offset, e.key, e.value)) =
    (r.durable.read offset maxEntries).map fun e => (e.offset, e.key, e.value)
  committed : ∀ key offset, next.loadOffset key = some offset →
    ∀ latest, r.saved.get? key = some (offset, latest) → offset ≤ latest → offset ≤ next.latestOffset

/-- No row holds a positive offset that was within the log when it was saved. -/
def NoneWithin (r : DurableRun) : Prop :=
  ∀ key offset latest, r.saved.get? key = some (offset, latest) → 0 < offset → latest < offset

/-- Where the operation opens a log, that one recovers what was there. -/
def RecoversAt (r : DurableRun) : DurableOp → Prop
  | .reopen segmentMaxBytes retentionMs => r.Recovers (r.next segmentMaxBytes retentionMs)
  | _ => True

def Appends : DurableOp → Prop
  | .append .. => True
  | _ => False

def Reopens : DurableOp → Prop
  | .reopen .. => True
  | _ => False

/-! ## What a run leaves -/

/-- Entries and latest offset count the appends, and the rows are what was saved. -/
structure Traced (r : DurableRun) : Prop where
  dense : r.durable.log.Dense
  entries : r.durable.log.entries.length = r.durable.log.totalAppended
  latest : r.durable.latestOffset = r.durable.log.totalAppended
  rows : ∀ key, (r.durable.offsets.get? key).map Prod.fst = (r.saved.get? key).map Prod.fst

/-- A new log, whatever the rows of its database. -/
theorem traced_new (segmentMaxBytes retentionMs : ℤ) {offsets : OffsetTable}
    {saved : Dict OffsetKey (ℤ × ℤ)}
    (rows : ∀ key, (offsets.get? key).map Prod.fst = (saved.get? key).map Prod.fst) :
    Traced ⟨.new segmentMaxBytes retentionMs offsets, saved⟩ where
  dense := WriteAheadLog.new_dense segmentMaxBytes retentionMs
  entries := rfl
  latest := rfl
  rows := rows

theorem start_traced (segmentMaxBytes retentionMs : ℤ) : (start segmentMaxBytes retentionMs).Traced :=
  traced_new segmentMaxBytes retentionMs fun _ => rfl

@[simp] theorem saveOffset_log (now : Timestamp) (d : DurableLog) (key : OffsetKey) (offset : ℤ) :
    (d.saveOffset now key offset).log = d.log := by
  unfold DurableLog.saveOffset
  split <;> rfl

theorem append_totalAppended (now : Timestamp) (w : WriteAheadLog) (key : Option String)
    (value : List UInt8) : (w.append now key value).2.totalAppended = w.totalAppended + 1 := by
  have rotated : w.rotate.totalAppended = w.totalAppended := by
    unfold WriteAheadLog.rotate
    split <;> rfl
  rw [← rotated]
  rfl

theorem Traced.step {r : DurableRun} (traced : r.Traced) (op : DurableOp) : (r.step op).Traced := by
  cases op with
  | append now key value =>
      obtain ⟨-, dense, latest, entries⟩ := WriteAheadLog.append_spec now traced.dense key value
      have total := append_totalAppended now r.durable.log key value
      refine ⟨dense, ?_, ?_, traced.rows⟩
      · show (r.durable.log.append now key value).2.entries.length =
          (r.durable.log.append now key value).2.totalAppended
        rw [entries, total, List.length_append, traced.entries]
        rfl
      · show (r.durable.log.append now key value).2.latestOffset =
          ((r.durable.log.append now key value).2.totalAppended : ℤ)
        rw [latest, total, show r.durable.log.latestOffset = r.durable.log.totalAppended from traced.latest]
        rfl
  | saveOffset now key offset =>
      have same : (r.durable.saveOffset now key offset).log = r.durable.log := saveOffset_log ..
      refine ⟨same ▸ traced.dense, same ▸ traced.entries, ?_, fun key' => ?_⟩
      · show (r.durable.saveOffset now key offset).log.latestOffset =
          ((r.durable.saveOffset now key offset).log.totalAppended : ℤ)
        rw [same]
        exact traced.latest
      · simp only [DurableRun.step, DurableLog.saveOffset]
        split
        · simp only [Dict.get?_set]
          split
          · rfl
          · exact traced.rows key'
        · exact traced.rows key'
  | close => exact ⟨traced.dense, traced.entries, traced.latest, traced.rows⟩
  | reopen segmentMaxBytes retentionMs => exact traced_new segmentMaxBytes retentionMs traced.rows

theorem run_traced (segmentMaxBytes retentionMs : ℤ) (ops : List DurableOp) :
    (run step (start segmentMaxBytes retentionMs) ops).Traced :=
  have preserved : ∀ (r : DurableRun) op, r.Traced → (r.step op).Traced := fun _ op traced => traced.step op
  run_preserves preserved (start_traced segmentMaxBytes retentionMs) ops

theorem new_read (segmentMaxBytes retentionMs : ℤ) (offsets : OffsetTable) (offset maxEntries : ℤ) :
    (DurableLog.new segmentMaxBytes retentionMs offsets).read offset maxEntries = [] := by
  show (WriteAheadLog.new segmentMaxBytes retentionMs).read offset maxEntries = []
  rw [WriteAheadLog.read_eq_flat (WriteAheadLog.new_dense segmentMaxBytes retentionMs)]
  simp [WriteAheadLog.new, WriteAheadLog.entries, since]

/-- **A new log recovers what was there exactly when nothing was.**  The log before it
appended nothing, and no log on the directory saved a row for an offset above 0 that it had
reached. -/
theorem Traced.recovers_iff {r : DurableRun} (traced : r.Traced) (segmentMaxBytes retentionMs : ℤ) :
    r.Recovers (r.next segmentMaxBytes retentionMs) ↔
      r.durable.log.totalAppended = 0 ∧ r.NoneWithin := by
  constructor
  · intro recovers
    constructor
    · by_contra appended
      rw [← traced.entries] at appended
      obtain ⟨first, rest, entries⟩ := List.exists_cons_of_length_pos (Nat.pos_of_ne_zero appended)
      have found : first ∈ r.durable.read first.offset 1 := by
        show first ∈ r.durable.log.read _ _
        rw [WriteAheadLog.read_eq_flat traced.dense, entries]
        simp [since]
      have read := recovers.entries first.offset 1
      rw [next, new_read, List.map_nil] at read
      rw [List.map_eq_nil_iff.mp read.symm] at found
      cases found
    · intro key offset latest found positive
      by_contra within
      have row := traced.rows key
      rw [found] at row
      have above := recovers.committed key offset row latest found (not_lt.mp within)
      exact absurd positive (not_lt.mpr above)
  · rintro ⟨nothing, none_⟩
    refine ⟨fun offset maxEntries => ?_, fun key offset _ latest found reached => ?_⟩
    · have empty : r.durable.log.entries = [] := List.length_eq_zero_iff.mp (traced.entries.trans nothing)
      have before : r.durable.read offset maxEntries = [] := by
        show r.durable.log.read _ _ = []
        rw [WriteAheadLog.read_eq_flat traced.dense, empty]
        simp [since]
      rw [next, new_read, before]
    · by_contra above
      exact absurd reached (not_le.mpr (none_ key offset latest found (not_le.mp above)))

/-! ## All openings of a run -/

/-- No log on the directory has appended anything. -/
structure Blank (r : DurableRun) : Prop extends r.Traced where
  nothing : r.durable.log.totalAppended = 0
  saved : ∀ key offset latest, r.saved.get? key = some (offset, latest) → latest = 0

theorem start_blank (segmentMaxBytes retentionMs : ℤ) : (start segmentMaxBytes retentionMs).Blank where
  toTraced := start_traced segmentMaxBytes retentionMs
  nothing := rfl
  saved key offset latest found := by simp [start] at found

theorem Blank.recovers {r : DurableRun} (blank : r.Blank) (op : DurableOp) : r.RecoversAt op := by
  cases op with
  | reopen segmentMaxBytes retentionMs =>
      refine (blank.recovers_iff segmentMaxBytes retentionMs).mpr ⟨blank.nothing, ?_⟩
      intro key offset latest found positive
      rwa [blank.saved key offset latest found]
  | append => trivial
  | saveOffset => trivial
  | close => trivial

theorem Blank.step {r : DurableRun} (blank : r.Blank) {op : DurableOp} (nothing : ¬ Appends op) :
    (r.step op).Blank := by
  refine ⟨blank.toTraced.step op, ?_, ?_⟩
  · cases op with
    | append => exact absurd trivial nothing
    | saveOffset now key offset =>
        show (r.durable.saveOffset now key offset).log.totalAppended = 0
        rw [saveOffset_log]
        exact blank.nothing
    | close => exact blank.nothing
    | reopen => rfl
  · cases op with
    | append => exact absurd trivial nothing
    | saveOffset now key offset =>
        intro key' offset' latest found
        simp only [DurableRun.step] at found
        split at found
        · rcases Dict.get?_set_eq_some_iff.mp found with ⟨-, same⟩ | ⟨-, before⟩
          · have zero := blank.latest
            rw [blank.nothing] at zero
            exact (congrArg Prod.snd same).trans zero
          · exact blank.saved key' offset' latest before
        · exact blank.saved key' offset' latest found
    | close => exact blank.saved
    | reopen => exact blank.saved

/-- The log that is open has appended something. -/
structure Filled (r : DurableRun) : Prop extends r.Traced where
  something : r.durable.log.totalAppended ≠ 0

theorem Traced.append {r : DurableRun} (traced : r.Traced) {op : DurableOp} (appends : Appends op) :
    (r.step op).Filled := by
  refine ⟨traced.step op, ?_⟩
  cases op with
  | append now key value =>
      show (r.durable.log.append now key value).2.totalAppended ≠ 0
      rw [append_totalAppended]
      exact Nat.succ_ne_zero _
  | saveOffset => exact appends.elim
  | close => exact appends.elim
  | reopen => exact appends.elim

/-- As long as no new log is opened. -/
theorem Filled.step {r : DurableRun} (filled : r.Filled) {op : DurableOp} (stays : ¬ Reopens op) :
    (r.step op).Filled := by
  refine ⟨filled.toTraced.step op, ?_⟩
  cases op with
  | append now key value =>
      have fills : (r.step (.append now key value)).Filled := filled.toTraced.append trivial
      exact fills.something
  | saveOffset now key offset =>
      show (r.durable.saveOffset now key offset).log.totalAppended ≠ 0
      rw [saveOffset_log]
      exact filled.something
  | close => exact filled.something
  | reopen => exact absurd trivial stays

theorem Filled.recovers_iff {r : DurableRun} (filled : r.Filled) (op : DurableOp) :
    r.RecoversAt op ↔ ¬ Reopens op := by
  cases op with
  | reopen segmentMaxBytes retentionMs =>
      refine iff_of_false (fun recovers => ?_) (not_not_intro trivial)
      exact filled.something ((filled.toTraced.recovers_iff segmentMaxBytes retentionMs).mp recovers).1
  | append => exact iff_of_true trivial id
  | saveOffset => exact iff_of_true trivial id
  | close => exact iff_of_true trivial id

/-- What a log appended is lost with the next opening. -/
theorem Filled.run {r : DurableRun} (filled : r.Filled) (ops : List DurableOp) :
    Guarded DurableRun.step RecoversAt r ops ↔ ∀ op ∈ ops, ¬ Reopens op := by
  induction ops generalizing r with
  | nil => simp
  | cons op rest ih =>
      rw [guarded_cons, filled.recovers_iff, List.forall_mem_cons]
      exact and_congr_right fun stays => ih (filled.step stays)

theorem Blank.run {r : DurableRun} (blank : r.Blank) (ops : List DurableOp) :
    Guarded DurableRun.step RecoversAt r ops ↔
      ops.Pairwise fun earlier later => Appends earlier → ¬ Reopens later := by
  induction ops generalizing r with
  | nil => simp
  | cons op rest ih =>
      rw [guarded_cons, List.pairwise_cons, and_iff_right (blank.recovers op)]
      by_cases appends : Appends op
      · rw [(blank.toTraced.append appends).run rest]
        refine ⟨fun never => ⟨fun later member _ => never later member, ?_⟩,
          fun both later member => both.1 later member appends⟩
        exact List.pairwise_of_forall_mem_list fun _ _ later member _ => never later member
      · rw [ih (blank.step appends)]
        exact (and_iff_right fun _ _ appends' => absurd appends' appends).symm

/-- **The openings of a run.**  A log opened on the directory recovers what was there exactly
when the log before it appended nothing and no row holds a positive offset that was within
the log when it was saved.  Every log that a run opens does exactly when none of them is
opened after an append. -/
theorem run_recovers_iff (segmentMaxBytes retentionMs : ℤ) (ops : List DurableOp) :
    let r := run step (start segmentMaxBytes retentionMs) ops
    (∀ segmentMaxBytes' retentionMs', r.Recovers (r.next segmentMaxBytes' retentionMs') ↔
      r.durable.log.totalAppended = 0 ∧ r.NoneWithin) ∧
    (Guarded step RecoversAt (start segmentMaxBytes retentionMs) ops ↔
      ops.Pairwise fun earlier later => Appends earlier → ¬ Reopens later) :=
  ⟨(run_traced segmentMaxBytes retentionMs ops).recovers_iff,
    (start_blank segmentMaxBytes retentionMs).run ops⟩

/-- One entry, an offset behind it, and the end. -/
def oneEntry : List DurableOp := [.append 0 (some "k") [1], .saveOffset 0 ("g", "t", 0) 1, .close]

/-- The new log has no entry, and starts below the committed offset. -/
theorem oneEntry_lost :
    let r := run step (start 1000 0) oneEntry
    let next := r.next 1000 0
    ¬ r.Recovers next ∧ (r.durable.read 0 10).length = 1 ∧ next.read 0 10 = [] ∧
      r.saved.get? ("g", "t", 0) = some (1, 1) ∧ next.loadOffset ("g", "t", 0) = some 1 ∧
      next.latestOffset = 0 := by
  refine ⟨fun recovers => ?_, by decide +kernel, by decide +kernel, by decide +kernel, by decide +kernel,
    by decide +kernel⟩
  have entries := congrArg List.length (recovers.entries 0 10)
  exact absurd entries (by decide +kernel)

end DurableRun

end BrokerLite
