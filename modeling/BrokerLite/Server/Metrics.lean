/-
# Server.Metrics -- rates and latency percentiles

A `MetricsCollector` keeps the times of messages in and out, the last latencies and
what it is told of topics, groups and connections.  Times, latencies and rates are
rationals.  The latencies are a `deque` with a bound: an append to a full one drops
the oldest.

`percentile` truncates the rank it computes and indexes the sorted latencies with
it.  Of every run, the percentiles are elements of those ranks among the last
latencies (`run_percentiles`).
-/
import BrokerLite.Flow.RateLimiter
import BrokerLite.Theory.OrderStatistic
import BrokerLite.Theory.Window

namespace BrokerLite

open Theory

set_option autoImplicit false

structure MetricsSnapshot where
  timestamp : Timestamp
  messagesInRate : ℚ := 0
  messagesOutRate : ℚ := 0
  totalMessages : ℤ := 0
  totalBytes : ℤ := 0
  topicDepths : Dict String ℤ := .empty
  consumerLag : Dict String ℤ := .empty
  activeConnections : ℤ := 0
  dlqSizes : Dict String ℤ := .empty
  latencyP50 : ℚ := 0
  latencyP90 : ℚ := 0
  latencyP95 : ℚ := 0
  latencyP99 : ℚ := 0

structure MetricsCollector where
  windowSeconds : ℤ := 60
  maxLatencySamples : ℕ := 10000
  messagesIn : List Timestamp := []
  messagesOut : List Timestamp := []
  latencies : List ℚ := []
  topicDepths : Dict String ℤ := .empty
  consumerLag : Dict String ℤ := .empty
  dlqSizes : Dict String ℤ := .empty
  activeConnections : ℤ := 0
  totalMessages : ℤ := 0
  totalBytes : ℤ := 0

/-- `append` on a deque with a `maxlen`. -/
def appendBounded {α : Type} (maxlen : ℕ) (items : List α) (item : α) : List α :=
  let items := items ++ [item]
  if maxlen < items.length then items.tail else items

/-- `items[index]`; a negative index counts from the end. -/
def itemAt {α : Type} (items : List α) (index : ℤ) : Except Raised α :=
  let index := if index < 0 then index + items.length else index
  match if index < 0 then none else items[index.toNat]? with
  | none => .error .indexError
  | some item => .ok item

/-- `percentile(p)` of latencies that are sorted. -/
def percentile (sortedLatencies : List ℚ) (p : ℚ) : Except Raised ℚ :=
  let n : ℤ := sortedLatencies.length
  let idx := truncate (p / 100 * ((n - 1 : ℤ) : ℚ))
  itemAt sortedLatencies (min idx (n - 1))

namespace MetricsCollector

def recordMessageIn (now : Timestamp) (count : ℤ) (c : MetricsCollector) : MetricsCollector :=
  { c with
    messagesIn := c.messagesIn ++ List.replicate count.toNat now
    totalMessages := c.totalMessages + count }

def recordMessageOut (now : Timestamp) (count : ℤ) (c : MetricsCollector) : MetricsCollector :=
  { c with messagesOut := c.messagesOut ++ List.replicate count.toNat now }

def recordLatency (latencyMs : ℚ) (c : MetricsCollector) : MetricsCollector :=
  { c with latencies := appendBounded c.maxLatencySamples c.latencies latencyMs }

def updateTopicDepth (topic : String) (depth : ℤ) (c : MetricsCollector) : MetricsCollector :=
  { c with topicDepths := c.topicDepths.set topic depth }

def updateConsumerLag (groupId : String) (lag : ℤ) (c : MetricsCollector) : MetricsCollector :=
  { c with consumerLag := c.consumerLag.set groupId lag }

def updateDlqSize (name : String) (size : ℤ) (c : MetricsCollector) : MetricsCollector :=
  { c with dlqSizes := c.dlqSizes.set name size }

def updateConnections (count : ℤ) (c : MetricsCollector) : MetricsCollector :=
  { c with activeConnections := count }

def updateTotalBytes (total : ℤ) (c : MetricsCollector) : MetricsCollector :=
  { c with totalBytes := total }

/-- The rate, and the times that are left: those before the window are dropped. -/
def calculateRate (now : Timestamp) (c : MetricsCollector) (timestamps : List Timestamp) :
    ℚ × List Timestamp :=
  let cutoff := now - c.windowSeconds
  match timestamps.dropWhile (· < cutoff) with
  | [] => (0, [])
  | first :: rest =>
      let elapsed : ℚ := if rest = [] then c.windowSeconds else now - first
      (if elapsed ≤ 0 then 0 else (rest.length + 1) / elapsed, first :: rest)

def calculatePercentiles (c : MetricsCollector) : Except Raised (ℚ × ℚ × ℚ × ℚ) :=
  if c.latencies = [] then .ok (0, 0, 0, 0)
  else do
    let sortedLatencies := c.latencies.insertionSort (· ≤ ·)
    return (← percentile sortedLatencies 50, ← percentile sortedLatencies 90,
      ← percentile sortedLatencies 95, ← percentile sortedLatencies 99)

/-- The clock is read for each rate and for the snapshot. -/
def snapshot (nowIn nowOut now : Timestamp) (c : MetricsCollector) :
    Except Raised MetricsSnapshot × MetricsCollector :=
  let (inRate, messagesIn) := c.calculateRate nowIn c.messagesIn
  let (outRate, messagesOut) := c.calculateRate nowOut c.messagesOut
  let c := { c with messagesIn, messagesOut }
  match c.calculatePercentiles with
  | .error raised => (.error raised, c)
  | .ok (p50, p90, p95, p99) =>
      (.ok {
        timestamp := now
        messagesInRate := inRate
        messagesOutRate := outRate
        totalMessages := c.totalMessages
        totalBytes := c.totalBytes
        topicDepths := c.topicDepths
        consumerLag := c.consumerLag
        activeConnections := c.activeConnections
        dlqSizes := c.dlqSizes
        latencyP50 := p50
        latencyP90 := p90
        latencyP95 := p95
        latencyP99 := p99 }, c)

def reset (c : MetricsCollector) : MetricsCollector :=
  { windowSeconds := c.windowSeconds, maxLatencySamples := c.maxLatencySamples }

end MetricsCollector

/-! ## One percentile -/

theorem appendBounded_eq {α : Type} {maxlen : ℕ} {items : List α} (fits : items.length ≤ maxlen) (item : α) :
    appendBounded maxlen items item = (items ++ [item]).rtake maxlen := by
  unfold appendBounded List.rtake
  dsimp only
  rw [List.length_append, List.length_singleton]
  split
  · next full =>
      rw [← List.drop_one]
      congr 1
      omega
  · next room => rw [Nat.sub_eq_zero_of_le (by omega), List.drop_zero]

theorem itemAt_of_lt {α : Type} {items : List α} {i : ℕ} (inside : i < items.length) :
    itemAt items i = .ok items[i] := by
  have nonneg : ¬ (i : ℤ) < 0 := by omega
  simp [itemAt, nonneg, inside]

/-- A rank in hundredths of the last index, truncated. -/
theorem truncate_rank (p last : ℕ) :
    truncate ((p : ℚ) / 100 * ((last : ℤ) : ℚ)) = ((p * last / 100 : ℕ) : ℤ) := by
  rw [truncate_of_nonneg (by positivity)]
  have quotient : (p : ℚ) / 100 * ((last : ℤ) : ℚ) = ((p * last : ℕ) : ℚ) / ((100 : ℕ) : ℚ) := by
    push_cast
    ring
  rw [quotient, Rat.floor_natCast_div_natCast]
  rfl

/-- A percentile up to the hundredth truncates its rank to one that is there. -/
theorem percentile_eq {sortedLatencies : List ℚ} (nonempty : sortedLatencies ≠ []) {p : ℕ}
    (hundredth : p ≤ 100) :
    ∃ inside : p * (sortedLatencies.length - 1) / 100 < sortedLatencies.length,
      percentile sortedLatencies p =
        .ok sortedLatencies[p * (sortedLatencies.length - 1) / 100] := by
  have positive := List.length_pos_iff.mpr nonempty
  have rank_le : p * (sortedLatencies.length - 1) / 100 ≤ sortedLatencies.length - 1 :=
    Nat.div_le_of_le_mul (Nat.mul_le_mul_right _ hundredth)
  have last : (sortedLatencies.length : ℤ) - 1 = ((sortedLatencies.length - 1 : ℕ) : ℤ) := by omega
  refine ⟨by omega, ?_⟩
  unfold percentile
  dsimp only
  rw [last, truncate_rank, min_eq_left (Int.ofNat_le.mpr rank_le), itemAt_of_lt]

/-- Among sorted latencies a percentile has its truncated rank. -/
theorem isRank_percentile {latencies : List ℚ} (nonempty : latencies ≠ []) {p : ℕ} (hundredth : p ≤ 100) :
    ∃ value, percentile (latencies.insertionSort (· ≤ ·)) p = .ok value ∧
      IsRank latencies (p * (latencies.length - 1) / 100) value := by
  have perm := List.perm_insertionSort (· ≤ ·) latencies
  have nonempty' : latencies.insertionSort (· ≤ ·) ≠ [] := fun empty => by
    rw [empty] at perm
    exact nonempty perm.nil_eq.symm
  obtain ⟨inside, value⟩ := percentile_eq nonempty' hundredth
  have rank := (isRank_getElem latencies.sortedLE_insertionSort inside).perm perm
  refine ⟨_, value, ?_⟩
  rw [← perm.length_eq]
  exact rank

/-! ## All four -/

/-- Each value is an element of its rank. -/
structure ArePercentiles (latencies : List ℚ) (values : ℚ × ℚ × ℚ × ℚ) : Prop where
  p50 : IsRank latencies (50 * (latencies.length - 1) / 100) values.1
  p90 : IsRank latencies (90 * (latencies.length - 1) / 100) values.2.1
  p95 : IsRank latencies (95 * (latencies.length - 1) / 100) values.2.2.1
  p99 : IsRank latencies (99 * (latencies.length - 1) / 100) values.2.2.2

namespace ArePercentiles

variable {latencies latencies' : List ℚ} {values values' : ℚ × ℚ × ℚ × ℚ}

theorem unique (here : ArePercentiles latencies values) (there : ArePercentiles latencies values') :
    values = values' := by
  apply Prod.ext (here.p50.unique there.p50)
  apply Prod.ext (here.p90.unique there.p90)
  exact Prod.ext (here.p95.unique there.p95) (here.p99.unique there.p99)

theorem perm (here : ArePercentiles latencies values) (reordered : latencies.Perm latencies') :
    ArePercentiles latencies' values := by
  have length := reordered.length_eq
  refine ⟨?_, ?_, ?_, ?_⟩ <;> rw [← length]
  · exact here.p50.perm reordered
  · exact here.p90.perm reordered
  · exact here.p95.perm reordered
  · exact here.p99.perm reordered

theorem ordered (here : ArePercentiles latencies values) :
    values.1 ≤ values.2.1 ∧ values.2.1 ≤ values.2.2.1 ∧ values.2.2.1 ≤ values.2.2.2 := by
  refine ⟨here.p50.le here.p90 ?_, here.p90.le here.p95 ?_, here.p95.le here.p99 ?_⟩ <;> omega

end ArePercentiles

namespace MetricsCollector

variable {c : MetricsCollector}

/-- With a latency recorded, there are percentiles, and they are those of the ranks. -/
theorem calculatePercentiles_ok (nonempty : c.latencies ≠ []) :
    ∃ values, c.calculatePercentiles = .ok values ∧ ArePercentiles c.latencies values := by
  obtain ⟨p50, found50, rank50⟩ := isRank_percentile nonempty (by decide : 50 ≤ 100)
  obtain ⟨p90, found90, rank90⟩ := isRank_percentile nonempty (by decide : 90 ≤ 100)
  obtain ⟨p95, found95, rank95⟩ := isRank_percentile nonempty (by decide : 95 ≤ 100)
  obtain ⟨p99, found99, rank99⟩ := isRank_percentile nonempty (by decide : 99 ≤ 100)
  refine ⟨(p50, p90, p95, p99), ?_, ⟨rank50, rank90, rank95, rank99⟩⟩
  rw [calculatePercentiles, if_neg nonempty]
  push_cast at found50 found90 found95 found99
  dsimp only
  rw [found50, found90, found95, found99]
  rfl

/-- The order of the latencies does not matter. -/
theorem calculatePercentiles_perm {c' : MetricsCollector} (reordered : c'.latencies.Perm c.latencies) :
    c'.calculatePercentiles = c.calculatePercentiles := by
  by_cases empty : c.latencies = []
  · have empty' := reordered
    rw [empty, List.perm_nil] at empty'
    rw [calculatePercentiles, calculatePercentiles, if_pos empty, if_pos empty']
  · have nonempty' : c'.latencies ≠ [] := fun empty' => by
      rw [empty'] at reordered
      exact empty reordered.nil_eq.symm
    obtain ⟨values, found, ranks⟩ := c.calculatePercentiles_ok empty
    obtain ⟨values', found', ranks'⟩ := c'.calculatePercentiles_ok nonempty'
    rw [found, found', (ranks'.perm reordered).unique ranks]

end MetricsCollector

/-! ## Runs -/

/-- The calls of a collector, with the readings of the clock. -/
inductive MetricsCall where
  | recordMessageIn (now : Timestamp) (count : ℤ)
  | recordMessageOut (now : Timestamp) (count : ℤ)
  | recordLatency (latencyMs : ℚ)
  | updateTopicDepth (topic : String) (depth : ℤ)
  | updateConsumerLag (groupId : String) (lag : ℤ)
  | updateDlqSize (name : String) (size : ℤ)
  | updateConnections (count : ℤ)
  | updateTotalBytes (total : ℤ)
  | snapshot (nowIn nowOut now : Timestamp)
  | reset

namespace MetricsCollector

def step (c : MetricsCollector) : MetricsCall → MetricsCollector
  | .recordMessageIn now count => c.recordMessageIn now count
  | .recordMessageOut now count => c.recordMessageOut now count
  | .recordLatency latencyMs => c.recordLatency latencyMs
  | .updateTopicDepth topic depth => c.updateTopicDepth topic depth
  | .updateConsumerLag groupId lag => c.updateConsumerLag groupId lag
  | .updateDlqSize name size => c.updateDlqSize name size
  | .updateConnections count => c.updateConnections count
  | .updateTotalBytes total => c.updateTotalBytes total
  | .snapshot nowIn nowOut now => (c.snapshot nowIn nowOut now).2
  | .reset => c.reset

/-- The latencies recorded since the last reset, after one more call. -/
def record (samples : List ℚ) : MetricsCall → List ℚ
  | .recordLatency latencyMs => samples ++ [latencyMs]
  | .reset => []
  | _ => samples

def recorded (calls : List MetricsCall) : List ℚ := run record [] calls

theorem recorded_recordLatency (samples : List ℚ) :
    recorded (samples.map .recordLatency) = samples := by
  have from_ : ∀ before, run record before (samples.map .recordLatency) = before ++ samples := by
    induction samples with
    | nil => simp
    | cons first rest ih => simp [record, ih]
  exact from_ []

/-- The latencies that are kept are the last ones. -/
structure Keeps (max : ℕ) (c : MetricsCollector) (samples : List ℚ) : Prop where
  bound : c.maxLatencySamples = max
  last : c.latencies = samples.rtake max

variable {c : MetricsCollector}

theorem Keeps.step {max : ℕ} {samples : List ℚ} (keeps : c.Keeps max samples) (call : MetricsCall) :
    (c.step call).Keeps max (record samples call) := by
  cases call with
  | recordLatency latencyMs =>
      refine ⟨keeps.bound, ?_⟩
      show appendBounded c.maxLatencySamples c.latencies latencyMs = _
      rw [keeps.bound, keeps.last, appendBounded_eq, rtake_concat_rtake]
      · rfl
      · rw [List.rtake, List.length_drop]
        omega
  | reset => exact ⟨keeps.bound, by simp [MetricsCollector.step, reset, record]⟩
  | snapshot nowIn nowOut now =>
      have kept : (c.snapshot nowIn nowOut now).2.maxLatencySamples = c.maxLatencySamples ∧
          (c.snapshot nowIn nowOut now).2.latencies = c.latencies := by
        unfold snapshot
        dsimp only
        split <;> exact ⟨rfl, rfl⟩
      exact ⟨kept.1.trans keeps.bound, kept.2.trans keeps.last⟩
  | recordMessageIn | recordMessageOut | updateTopicDepth | updateConsumerLag | updateDlqSize
  | updateConnections | updateTotalBytes => exact ⟨keeps.bound, keeps.last⟩

/-- **The percentiles of every run are elements of their ranks among the last
latencies, in whatever order these came.** -/
theorem run_percentiles (windowSeconds : ℤ) {max : ℕ} (positive : 1 ≤ max) (calls : List MetricsCall)
    (nonempty : recorded calls ≠ []) :
    let c := run step { windowSeconds, maxLatencySamples := max } calls
    let window := (recorded calls).rtake (min (recorded calls).length max)
    c.latencies = window ∧
      ∃ p50 p90 p95 p99, c.calculatePercentiles = .ok (p50, p90, p95, p99) ∧
        (p50 ≤ p90 ∧ p90 ≤ p95 ∧ p95 ≤ p99) ∧
        (∀ e ∈ [(50, p50), (90, p90), (95, p95), (99, p99)],
          e.2 ∈ window ∧
          e.1 * (window.length - 1) / 100 + 1 ≤ window.countP (· ≤ e.2) ∧
          window.length - e.1 * (window.length - 1) / 100 ≤ window.countP (e.2 ≤ ·)) ∧
        ∀ c' : MetricsCollector, c'.latencies.Perm window →
          c'.calculatePercentiles = .ok (p50, p90, p95, p99) := by
  intro c window
  have related : ∀ (c : MetricsCollector) (samples : List ℚ) call, c.Keeps max samples →
      (c.step call).Keeps max (record samples call) := fun _ _ call keeps => keeps.step call
  have keeps : c.Keeps max (recorded calls) := run_related step related ⟨rfl, by simp⟩ calls
  have kept : c.latencies = window := by
    rw [keeps.last]
    simp only [window, List.rtake]
    congr 1
    omega
  have some_ : c.latencies ≠ [] := by
    have length := List.length_pos_iff.mpr nonempty
    rw [keeps.last, ← List.length_pos_iff, List.rtake, List.length_drop]
    omega
  obtain ⟨⟨p50, p90, p95, p99⟩, found, ranks⟩ := c.calculatePercentiles_ok some_
  refine ⟨kept, p50, p90, p95, p99, found, ranks.ordered, ?_, ?_⟩
  · rw [← kept]
    simp only [List.forall_mem_cons, List.not_mem_nil, false_implies, implies_true, and_true]
    refine ⟨?_, ?_, ?_, ?_⟩
    · exact ⟨ranks.p50.mem, ranks.p50.lower, ranks.p50.upper⟩
    · exact ⟨ranks.p90.mem, ranks.p90.lower, ranks.p90.upper⟩
    · exact ⟨ranks.p95.mem, ranks.p95.lower, ranks.p95.upper⟩
    · exact ⟨ranks.p99.mem, ranks.p99.lower, ranks.p99.upper⟩
  · intro c' reordered
    rw [← kept] at reordered
    rw [calculatePercentiles_perm reordered, found]

/-- Eleven latencies are kept of twelve, and the percentiles are theirs. -/
theorem run_percentiles_eleven :
    let samples : List ℚ := [99, 4, 1, 5 / 2, 8, 3, 7, 2, 6, 5, 10, 12]
    let c := run step { windowSeconds := 60, maxLatencySamples := 11 } (samples.map .recordLatency)
    recorded (samples.map .recordLatency) ≠ [] ∧ c.latencies = samples.tail ∧
      c.calculatePercentiles = .ok (5, 10, 10, 10) := by
  intro samples c
  have nonempty : recorded (samples.map .recordLatency) ≠ [] := by
    rw [recorded_recordLatency]
    exact List.cons_ne_nil _ _
  obtain ⟨kept, _⟩ := run_percentiles 60 (by decide : 1 ≤ 11) _ nonempty
  refine ⟨nonempty, ?_, by decide +kernel⟩
  rw [kept, recorded_recordLatency]
  rfl

end MetricsCollector

end BrokerLite
