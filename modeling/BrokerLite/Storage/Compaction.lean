/-
# Storage.Compaction -- compaction in both stores

A partition compacts the list of its message objects, a write-ahead log gathers the
entries of its segments and rebuilds them as one.  Both keep `latest` of what they
hold, by key, so `Theory.Compaction` says what is left, that compacting again
changes nothing, and that it may be done at any time.
-/
import BrokerLite.Storage.LogRun
import BrokerLite.Store.PartitionRead

namespace BrokerLite

open Theory

set_option autoImplicit false

namespace Partition

theorem latestByKey_eq (messages : MessageTable) (log : List MessageRef) :
    Partition.latestByKey messages log = Theory.latestByKey (fun m => (messages m).key) log := by
  refine congrArg (fun pass => log.zipIdx.foldl pass (Dict.empty : Dict String ℕ)) ?_
  funext positions e
  simp only [noteKey]
  cases (messages e.1).key <;> rfl

/-- The two passes over a partition are those of `compacted`. -/
theorem compact_eq (messages : MessageTable) (p : Partition) :
    p.compact messages = (p.log.length - (latest (fun m => (messages m).key) p.log).length,
      { p with log := latest (fun m => (messages m).key) p.log }) := by
  simp only [compact, latestByKey_eq, ← compacted_eq_latest, compacted, List.length_map]
  generalize Theory.latestByKey (fun m => (messages m).key) p.log = positions
  rw [List.filter_congr (q := keeps (fun m => (messages m).key) positions)]
  intro e _
  simp only [keeps]
  cases (messages e.1).key <;> rfl

end Partition

namespace Store

def keyOf (s : Store) (m : MessageRef) : Option String := (s.messages m).key

/-- What the caller gave, as a write-ahead log holds it. -/
def recordOf (s : Store) (m : MessageRef) : Option String × List UInt8 :=
  ((s.messages m).key, (s.messages m).value)

def withLog (s : Store) (p : PartitionRef) (log : List MessageRef) : Store :=
  s.modifyPartition p fun partition => { partition with log }

/-- The appends of the messages to `p`, each at its clock reading. -/
def appends (p : PartitionRef) (ms : List (Timestamp × MessageRef)) : List LogOp :=
  ms.map fun e => .append e.1 p e.2

/-- The partition takes `n` more messages. -/
def HasRoomFor (s : Store) (p : PartitionRef) (n : ℕ) : Prop :=
  (s.partitions p).maxSize ≤ 0 ∨ (s.logOf p).length + n ≤ (s.partitions p).maxSize

variable {s : Store} {p : PartitionRef}

@[simp] theorem withLog_logOf (s : Store) (p : PartitionRef) (log : List MessageRef) :
    (s.withLog p log).logOf p = log := by
  simp [withLog, logOf, modifyPartition_partitions]

@[simp] theorem withLog_keyOf (s : Store) (p : PartitionRef) (log : List MessageRef) :
    (s.withLog p log).keyOf = s.keyOf := rfl

theorem withLog_withLog (s : Store) (p : PartitionRef) (before after : List MessageRef) :
    (s.withLog p before).withLog p after = s.withLog p after := by
  simp [withLog, modifyPartition]

/-- **A partition keeps the latest message of every key.** -/
theorem compact_eq (s : Store) (p : PartitionRef) :
    s.compact p = ((s.logOf p).length - (latest s.keyOf (s.logOf p)).length,
      s.withLog p (latest s.keyOf (s.logOf p))) := by
  simp only [compact, Partition.compact_eq]
  rfl

/-- Compacting a compacted partition removes nothing. -/
theorem compact_compact (s : Store) (p : PartitionRef) :
    (s.compact p).2.compact p = (0, (s.compact p).2) := by
  simp only [compact_eq, withLog_logOf, withLog_keyOf, latest_latest, withLog_withLog, Nat.sub_self]

/-! ## Appending to a compacted partition -/

theorem appended_withLog (s : Store) (now : Timestamp) (p : PartitionRef) (m : MessageRef)
    (log : List MessageRef) :
    (s.withLog p log).appended now p m = (s.appended now p m).withLog p (log ++ [m]) := by
  simp [appended, withLog, modifyPartition]

theorem appended_keyOf (s : Store) (now : Timestamp) (p : PartitionRef) (m : MessageRef) :
    (s.appended now p m).keyOf = s.keyOf := by
  funext n
  by_cases here : n = m
  · subst here
    simp [appended, keyOf]
  · simp [appended, keyOf, here]

/-- With room, an append stores the message, also after records were dropped. -/
theorem HasRoomFor.append {n : ℕ} (room : s.HasRoomFor p (n + 1)) (now : Timestamp) (m : MessageRef) :
    s.applyOp (.append now p m) = s.appended now p m ∧ (s.appended now p m).HasRoomFor p n := by
  have notFull : (s.partitions p).isFull = false := by
    simp only [HasRoomFor, logOf] at room
    simp only [Partition.isFull, decide_eq_false_iff_not]
    omega
  refine ⟨by rw [applyOp, s.append_of_room now p m notFull], ?_⟩
  have size : ((s.appended now p m).partitions p).maxSize = (s.partitions p).maxSize := by
    simp [appended]
  simp only [HasRoomFor, size, appended_logOf, if_pos, List.length_append, List.length_singleton] at room ⊢
  omega

theorem HasRoomFor.withLog {n : ℕ} (room : s.HasRoomFor p n) {log : List MessageRef}
    (shorter : log.length ≤ (s.logOf p).length) : (s.withLog p log).HasRoomFor p n := by
  have size : ((s.withLog p log).partitions p).maxSize = (s.partitions p).maxSize := by
    simp [Store.withLog, modifyPartition_partitions]
  simp only [HasRoomFor, size, withLog_logOf] at room ⊢
  omega

theorem run_appends (ms : List (Timestamp × MessageRef)) (room : s.HasRoomFor p ms.length) :
    (run applyOp s (appends p ms)).logOf p = s.logOf p ++ ms.map Prod.snd ∧
      (run applyOp s (appends p ms)).keyOf = s.keyOf := by
  induction ms generalizing s with
  | nil => simp [appends]
  | cons e rest ih =>
      obtain ⟨stored, later⟩ := room.append e.1 e.2
      obtain ⟨log, keys⟩ := ih later
      rw [appends, List.map_cons, run_cons, stored]
      refine ⟨log.trans ?_, keys.trans (s.appended_keyOf ..)⟩
      rw [appended_logOf, if_pos rfl]
      simp

/-- Appends go on behind whatever log is left. -/
theorem run_appends_withLog (ms : List (Timestamp × MessageRef)) (room : s.HasRoomFor p ms.length)
    {log : List MessageRef} (shorter : log.length ≤ (s.logOf p).length) :
    run applyOp (s.withLog p log) (appends p ms) =
      (run applyOp s (appends p ms)).withLog p (log ++ ms.map Prod.snd) := by
  induction ms generalizing s log with
  | nil => simp [appends]
  | cons e rest ih =>
      obtain ⟨stored, later⟩ := room.append e.1 e.2
      obtain ⟨stored', -⟩ := (room.withLog shorter).append e.1 e.2
      have longer : (log ++ [e.2]).length ≤ ((s.appended e.1 p e.2).logOf p).length := by
        rw [appended_logOf, if_pos rfl]
        simpa using shorter
      have tail := ih later longer
      simp only [appends, List.map_cons, run_cons] at tail ⊢
      rw [stored, stored', appended_withLog, tail, List.append_assoc, List.singleton_append]

/-- **Compaction may be done at any time.**  Compacting, appending and compacting again
leaves the store that appending and compacting once leaves. -/
theorem compact_appends_compact (ms : List (Timestamp × MessageRef)) (room : s.HasRoomFor p ms.length) :
    ((run applyOp (s.compact p).2 (appends p ms)).compact p).2 =
      ((run applyOp s (appends p ms)).compact p).2 := by
  obtain ⟨log, keys⟩ := run_appends ms room
  have shorter := (latest_sublist s.keyOf (s.logOf p)).length_le
  rw [compact_eq s, run_appends_withLog ms room shorter, compact_eq, compact_eq, withLog_logOf,
    withLog_keyOf, withLog_withLog, keys, log, latest_append_latest]

end Store

namespace WriteAheadLog

/-- The appends of keys and values, each at its clock reading. -/
def appendAll (w : WriteAheadLog) (es : List (Timestamp × Option String × List UInt8)) : WriteAheadLog :=
  es.foldl (fun w e => (w.append e.1 e.2.1 e.2.2).2) w

theorem append_records (now : Timestamp) (w : WriteAheadLog) (key : Option String) (value : List UInt8) :
    (w.append now key value).2.entries.map LogEntry.record =
      w.entries.map LogEntry.record ++ [(key, value)] := by
  have active : ∀ w : WriteAheadLog, (w.appendActive now key value).2.entries.map LogEntry.record =
      w.entries.map LogEntry.record ++ [(key, value)] := by
    intro w
    obtain ⟨front, last, split⟩ := List.eq_nil_or_concat' w.segments |>.resolve_left w.nonempty
    simp [appendActive, activeSegment, entries, split, LogSegment.append, LogEntry.record]
  have rotated : w.rotate.entries = w.entries := by
    unfold rotate
    split
    · simp [entries]
    · rfl
  rw [append, active, rotated]

theorem appendAll_records (w : WriteAheadLog) (es : List (Timestamp × Option String × List UInt8)) :
    (w.appendAll es).entries.map LogEntry.record = w.entries.map LogEntry.record ++ es.map Prod.snd := by
  induction es generalizing w with
  | nil => simp [appendAll]
  | cons e rest ih =>
      have tail := ih (w.append e.1 e.2.1 e.2.2).2
      rw [append_records, List.append_assoc, List.singleton_append] at tail
      exact tail

/-- What is left, by keys and values alone. -/
theorem compact_records_eq (now : ℕ → Timestamp) (w : WriteAheadLog) :
    (w.compact now).2.entries.map LogEntry.record = latest Prod.fst (w.entries.map LogEntry.record) := by
  rw [compact_records, latest_map]
  rfl

theorem compact_appendAll_compact (w : WriteAheadLog) (es : List (Timestamp × Option String × List UInt8))
    (now later : ℕ → Timestamp) :
    (((w.compact now).2.appendAll es).compact later).2.entries.map LogEntry.record =
      ((w.appendAll es).compact later).2.entries.map LogEntry.record := by
  rw [compact_records_eq, compact_records_eq, appendAll_records, appendAll_records, compact_records_eq,
    latest_append_latest]

end WriteAheadLog

/-! ## The two stores -/

namespace Store

variable {s : Store} {p : PartitionRef}

/-- **Both stores compact alike.** -/
theorem compact_agrees {w : WriteAheadLog}
    (same : w.entries.map LogEntry.record = (s.logOf p).map s.recordOf) (now : ℕ → Timestamp) :
    (w.compact now).2.entries.map LogEntry.record = ((s.compact p).2.logOf p).map s.recordOf ∧
      (w.compact now).1 = (s.compact p).1 := by
  have left : (latest LogEntry.key w.entries).map LogEntry.record =
      (latest s.keyOf (s.logOf p)).map s.recordOf := by
    have byEntry := latest_map Prod.fst LogEntry.record w.entries
    have byMessage := latest_map Prod.fst s.recordOf (s.logOf p)
    rw [same] at byEntry
    exact byEntry.symm.trans byMessage
  have before := congrArg List.length same
  have after := congrArg List.length left
  simp only [List.length_map] at before after
  rw [compact_eq, w.compact_records, (w.compact_eq now).1, withLog_logOf]
  exact ⟨left, by rw [before, after]⟩

/-- **Compaction.**  A partition is left with, unchanged and in order, its messages
without a key and the last message of each key, and `compact` returns how many went;
what is appended and compacted later leaves what compacting once would, and compacting
again changes nothing; and a write-ahead log of the same keys and values, in whatever
segments, is left with the same keys and values and returns the same number, and may
be compacted at any time as well.  The partition has to have room for what is appended:
a full one refuses messages that it would take after a compaction (`narrow_differs`). -/
theorem compaction (s : Store) (p : PartitionRef) (ms : List (Timestamp × MessageRef))
    (room : s.HasRoomFor p ms.length) (w : WriteAheadLog)
    (same : w.entries.map LogEntry.record = (s.logOf p).map s.recordOf) (now : ℕ → Timestamp) :
    let t := (s.compact p).2
    (t.messages = s.messages ∧ (t.logOf p).Sublist (s.logOf p) ∧
      (t.logOf p).filter (fun m => s.keyOf m = none) = (s.logOf p).filter (fun m => s.keyOf m = none) ∧
      ∀ k, (t.logOf p).filter (fun m => s.keyOf m = some k) =
        ((s.logOf p).filter fun m => s.keyOf m = some k).getLast?.toList) ∧
    (s.compact p).1 + (t.logOf p).length = (s.logOf p).length ∧
    ((run applyOp t (appends p ms)).compact p).2 = ((run applyOp s (appends p ms)).compact p).2 ∧
    t.compact p = (0, t) ∧
    (w.compact now).2.entries.map LogEntry.record = (t.logOf p).map s.recordOf ∧
    (w.compact now).1 = (s.compact p).1 ∧
    ∀ es later, (((w.compact now).2.appendAll es).compact later).2.entries.map LogEntry.record =
      ((w.appendAll es).compact later).2.entries.map LogEntry.record := by
  intro t
  obtain ⟨records, removed⟩ := compact_agrees same now
  have left : t.logOf p = latest s.keyOf (s.logOf p) := by simp [t, compact_eq]
  have sub := latest_sublist s.keyOf (s.logOf p)
  refine ⟨⟨rfl, ?_, ?_, fun k => ?_⟩, ?_, compact_appends_compact ms room, compact_compact s p,
    records, removed, fun es later => w.compact_appendAll_compact es now later⟩
  · rw [left]
    exact sub
  · rw [left]
    exact filter_latest_keyless _
  · rw [left]
    exact filter_latest_keyed _ k
  · rw [left, compact_eq]
    exact Nat.sub_add_cancel sub.length_le

/-- Messages 0, 1 and 2 in partition 0, and the same in a log of three segments. -/
def keyedAppends : List LogOp := appends 0 [(0, 0), (0, 1), (0, 2)]

def keyedLog : WriteAheadLog :=
  (run LogRun.step (LogRun.start 1 0) [.append 0 none [], .append 0 (some "k") [],
    .append 0 (some "k") []]).log

theorem keyedAppends_compaction :
    let s := run applyOp keyedStart keyedAppends
    let t := (s.compact 0).2
    (t.messages = s.messages ∧ (t.logOf 0).Sublist (s.logOf 0) ∧
      (t.logOf 0).filter (fun m => s.keyOf m = none) = (s.logOf 0).filter (fun m => s.keyOf m = none) ∧
      ∀ k, (t.logOf 0).filter (fun m => s.keyOf m = some k) =
        ((s.logOf 0).filter fun m => s.keyOf m = some k).getLast?.toList) ∧
    (s.compact 0).1 + (t.logOf 0).length = (s.logOf 0).length ∧
    ((run applyOp t (appends 0 [(1, 3)])).compact 0).2 =
      ((run applyOp s (appends 0 [(1, 3)])).compact 0).2 ∧
    t.compact 0 = (0, t) ∧
    (keyedLog.compact fun _ => 1).2.entries.map LogEntry.record = (t.logOf 0).map s.recordOf ∧
    (keyedLog.compact fun _ => 1).1 = (s.compact 0).1 ∧
    ∀ es later, (((keyedLog.compact fun _ => 1).2.appendAll es).compact later).2.entries.map
        LogEntry.record =
      ((keyedLog.appendAll es).compact later).2.entries.map LogEntry.record :=
  compaction (run applyOp keyedStart keyedAppends) 0 [(1, 3)] (.inl (by decide +kernel)) keyedLog
    (by decide +kernel) fun _ => 1

/-- Room for two messages in each partition. -/
def narrowStart : Store where
  messages m := { topic := "t", value := [], id := toString m, key := if m = 2 then none else some "k" }
  partitions p := { topic := "t", partitionId := p, maxSize := 2 }

/-- Without room for message 2, compacting first is what lets it in. -/
theorem narrow_differs :
    let s := run applyOp narrowStart (appends 0 [(0, 0), (0, 1)])
    let m := appends 0 [(1, 2)]
    ((run applyOp (s.compact 0).2 m).compact 0).2.logOf 0 = [1, 2] ∧
      ((run applyOp s m).compact 0).2.logOf 0 = [1] :=
  ⟨by decide +kernel, by decide +kernel⟩

end Store

end BrokerLite
