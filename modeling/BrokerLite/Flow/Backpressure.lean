/-
# Flow.Backpressure -- who may publish, and which limiters ever let anything through

`BackpressureManager` keeps a rate limiter for each producer and asks it before a
publish.  The burst of a limiter is cut to an integer: `int(rate)` if no burst is
given, and the manager gives `int(rate * 2)`.

A limiter of positive rate grants a token after `1 / rate` seconds without one
exactly when its burst is at least one (`letsThrough_iff`); with a burst of zero
it never grants anything.
-/
import BrokerLite.Flow.RateLimiter

namespace BrokerLite

open Theory

set_option autoImplicit false

structure BackpressureConfig where
  maxQueueDepth : ℤ := 100000
  producerRateLimit : ℚ := 10000
  slowConsumerThreshold : ℤ := 1000
  enableThrottling : Bool := true

structure BackpressureManager where
  config : BackpressureConfig := {}
  producerLimiters : Dict String RateLimiter := .empty
  topicDepths : Dict String ℤ := .empty
  totalThrottled : ℕ := 0
  totalRejected : ℕ := 0

/-- Why a publish is allowed or refused. -/
inductive PublishVerdict where
  | throttlingDisabled
  | depthExceeded (topic : String) (currentDepth maxQueueDepth : ℤ)
  | rateLimited (producerId : String) (rate : ℚ)
  | ok

/-- The text of the verdict; `repr` and `str` print a string and a number. -/
def PublishVerdict.text (repr : String → String) (str : ℚ → String) : PublishVerdict → String
  | .throttlingDisabled => "Throttling disabled"
  | .depthExceeded topic currentDepth maxQueueDepth =>
      s!"Topic {repr topic} depth ({currentDepth}) exceeds limit ({maxQueueDepth})"
  | .rateLimited producerId rate => s!"Producer {repr producerId} rate-limited ({str rate}/s)"
  | .ok => "OK"

namespace BackpressureManager

def getProducerLimiter (now : Timestamp) (b : BackpressureManager) (producerId : String) :
    RateLimiter × BackpressureManager :=
  match b.producerLimiters.get? producerId with
  | some limiter => (limiter, b)
  | none =>
      let rate := b.config.producerRateLimit
      let limiter := RateLimiter.create now rate (truncate (rate * 2))
      (limiter, { b with producerLimiters := b.producerLimiters.set producerId limiter })

/-- `check_publish_allowed`; `made` is the clock as a new limiter reads it. -/
def checkPublishAllowed (made now : Timestamp) (b : BackpressureManager) (producerId topic : String)
    (currentDepth : ℤ) : Bool × PublishVerdict × BackpressureManager :=
  if !b.config.enableThrottling then (true, .throttlingDisabled, b)
  else if b.config.maxQueueDepth ≤ currentDepth then
    (false, .depthExceeded topic currentDepth b.config.maxQueueDepth,
      { b with totalRejected := b.totalRejected + 1 })
  else
    let got := b.getProducerLimiter made producerId
    let asked := got.1.acquire now 1
    let b := { got.2 with producerLimiters := got.2.producerLimiters.set producerId asked.2 }
    if asked.1 then (true, .ok, b)
    else
      (false, .rateLimited producerId b.config.producerRateLimit,
        { b with totalThrottled := b.totalThrottled + 1 })

end BackpressureManager

/-! ## What a limiter lets through -/

namespace LimiterRun

/-- In every state the limiter reaches: if it is then not asked for tokens for
`1 / rate` seconds, but perhaps read, it grants one. -/
def LetsThrough (rate : ℚ) (limiter : RateLimiter) : Prop :=
  ∀ ops, Guarded step Clocked { limiter } ops →
    ∀ reads, Guarded step (fun r op => r.Clocked op ∧ op.Reads) (run step { limiter } ops) reads →
      ∀ now, (run step (run step { limiter } ops) reads).limiter.lastRefill ≤ now →
        1 / rate ≤ now - (run step { limiter } ops).limiter.lastRefill →
          ((run step (run step { limiter } ops) reads).limiter.acquire now 1).1 = true

/-- A limiter of that rate and burst, with no tokens owed. -/
structure Solvent (rate : ℚ) (burst : ℤ) (r : LimiterRun) : Prop where
  nonneg : 0 ≤ r.limiter.tokens
  sameRate : r.limiter.rate = rate
  sameBurst : r.limiter.burst = burst

/-- It has filled since `t`. -/
structure Idle (rate : ℚ) (burst : ℤ) (t : Timestamp) (r : LimiterRun) : Prop extends
    Solvent rate burst r where
  filled : r.bucket.Filled (burst : ℚ) rate t

variable {rate : ℚ} {burst : ℤ} {t : Timestamp} {r : LimiterRun}

theorem Solvent.step (burst_nonneg : 0 ≤ burst) (rate_nonneg : 0 ≤ rate)
    (solvent : r.Solvent rate burst) {op : LimiterOp} (clocked : r.Clocked op) :
    (r.step op).Solvent rate burst := by
  obtain ⟨rate_, burst_, -⟩ := r.step_params op
  refine ⟨?_, rate_.trans solvent.sameRate, burst_.trans solvent.sameBurst⟩
  have inflow : 0 ≤ (op.now - r.limiter.lastRefill) * rate :=
    mul_nonneg (sub_nonneg.mpr clocked) rate_nonneg
  have level : 0 ≤ (r.looked op.now).level := by
    rw [looked, solvent.sameRate, solvent.sameBurst]
    exact le_min (Int.cast_nonneg burst_nonneg) (add_nonneg solvent.nonneg inflow)
  rcases r.step_bucket op with passed | ⟨now, tokens, rfl, enough, taken⟩
  · have same : (r.step op).limiter.tokens = (r.looked op.now).level := congrArg Bucket.level passed
    rw [same]
    exact level
  · have same : (r.step (.acquire now tokens)).limiter.tokens = (r.looked now).level - tokens :=
      congrArg Bucket.level taken
    rw [same]
    exact sub_nonneg.mpr enough

theorem Idle.step (burst_nonneg : 0 ≤ burst) (rate_nonneg : 0 ≤ rate) (idle : r.Idle rate burst t)
    {op : LimiterOp} (clocked : r.Clocked op) (reads : op.Reads) : (r.step op).Idle rate burst t := by
  refine ⟨idle.toSolvent.step burst_nonneg rate_nonneg clocked, ?_⟩
  rcases r.step_bucket op with passed | ⟨now, tokens, rfl, -⟩
  · rw [passed, looked, idle.sameRate, idle.sameBurst]
    exact Bucket.filled_advance idle.filled rate_nonneg clocked
  · exact reads.elim

/-- A limiter that has filled for `1 / rate` seconds has a token, if it can hold one. -/
theorem Idle.acquires (rate_pos : 0 < rate) (room : 1 ≤ burst) (idle : r.Idle rate burst t)
    {now : Timestamp} (later : r.limiter.lastRefill ≤ now) (long : 1 / rate ≤ now - t) :
    (r.limiter.acquire now 1).1 = true := by
  have filled : (r.looked now).Filled (burst : ℚ) rate t := by
    rw [looked, idle.sameRate, idle.sameBurst]
    exact Bucket.filled_advance idle.filled (le_of_lt rate_pos) later
  have one : 1 ≤ (now - t) * rate := by
    rwa [← div_le_iff₀ rate_pos]
  have room : (1 : ℚ) ≤ burst := by exact_mod_cast room
  have level : 1 ≤ (r.limiter.refill now).tokens := le_trans (le_min room one) filled
  unfold RateLimiter.acquire
  dsimp only
  rw [if_pos (by exact_mod_cast level)]

/-- With a burst of zero no call is ever granted a token. -/
theorem acquire_of_no_burst {limiter : RateLimiter} (none_ : limiter.burst ≤ 0) (now : Timestamp) :
    (limiter.acquire now 1).1 = false := by
  have level : (limiter.refill now).tokens ≤ limiter.burst := min_le_left ..
  have none_ : (limiter.burst : ℚ) ≤ 0 := by exact_mod_cast none_
  unfold RateLimiter.acquire
  dsimp only
  rw [if_neg]
  push_cast
  linarith

/-- **A limiter lets its rate through exactly when its burst is at least one.** -/
theorem letsThrough_iff (rate_pos : 0 < rate) (made : Timestamp) (burst : ℤ) :
    LetsThrough rate (.create made rate burst) ↔ 1 ≤ (RateLimiter.create made rate burst).burst := by
  have rate_nonneg : 0 ≤ rate := le_of_lt rate_pos
  have burst_nonneg := RateLimiter.create_burst_nonneg made rate_nonneg burst
  constructor
  · intro lets
    by_contra room
    have waited : (0 : ℚ) ≤ 1 / rate := by positivity
    have granted := lets [] trivial [] trivial (made + 1 / rate) (by simpa [RateLimiter.create])
      (by simp [RateLimiter.create])
    have none_ : (RateLimiter.create made rate burst).burst ≤ 0 := by omega
    have refused := acquire_of_no_burst none_ (made + 1 / rate)
    exact absurd (granted.symm.trans refused) (by decide)
  · intro room ops clocked reads quiet now later long
    have start : Solvent rate (RateLimiter.create made rate burst).burst
        { limiter := .create made rate burst } := ⟨Int.cast_nonneg burst_nonneg, rfl, rfl⟩
    have pays : ∀ r op, Solvent rate _ r → Clocked r op → Solvent rate _ (r.step op) :=
      fun _ _ solvent clocked => solvent.step burst_nonneg rate_nonneg clocked
    have solvent := run_invariant pays start clocked
    have fills : ∀ t r op, Idle rate _ t r → Clocked r op ∧ op.Reads → Idle rate _ t (r.step op) :=
      fun _ _ _ idle guard => idle.step burst_nonneg rate_nonneg guard.1 guard.2
    have idle := run_invariant (fills _) ⟨solvent, Bucket.filled_self solvent.nonneg⟩ quiet
    exact idle.acquires rate_pos room later long

/-! ## The two ways to make one -/

theorem one_le_truncate_iff {x : ℚ} (nonneg : 0 ≤ x) : 1 ≤ truncate x ↔ 1 ≤ x := by
  rw [truncate_of_nonneg nonneg, Int.le_floor]
  norm_cast

theorem create_burst_iff (made : Timestamp) (rate_pos : 0 < rate) :
    1 ≤ (RateLimiter.create made rate 0).burst ↔ 1 ≤ rate :=
  one_le_truncate_iff (le_of_lt rate_pos)

theorem create_double_burst_iff (made : Timestamp) (rate_pos : 0 < rate) :
    1 ≤ (RateLimiter.create made rate (truncate (rate * 2))).burst ↔ 1 / 2 ≤ rate := by
  have double := one_le_truncate_iff (x := rate * 2) (by positivity)
  have single := one_le_truncate_iff (le_of_lt rate_pos)
  show (1 ≤ if 0 < truncate (rate * 2) then truncate (rate * 2) else truncate rate) ↔ _
  by_cases half : 1 / 2 ≤ rate
  · have room : 1 ≤ truncate (rate * 2) := double.mpr (by linarith)
    rw [if_pos (by omega)]
    exact iff_of_true room half
  · have none_ : ¬ 1 ≤ truncate (rate * 2) := fun room => half (by linarith [double.mp room])
    rw [if_neg (by omega), single]
    exact iff_of_false (fun one => half (by linarith)) half

/-- **When a positive rate is let through**: a limiter made from the rate alone needs
one token a second, the manager's limiter half a token. -/
theorem rate_letsThrough_iff (rate_pos : 0 < rate) (made : Timestamp) :
    (LetsThrough rate (.create made rate 0) ↔ 1 ≤ rate) ∧
    ∀ (b : BackpressureManager) producerId, b.config.producerRateLimit = rate →
      b.producerLimiters.get? producerId = none →
        (LetsThrough rate (b.getProducerLimiter made producerId).1 ↔ 1 / 2 ≤ rate) := by
  refine ⟨(letsThrough_iff rate_pos made 0).trans (create_burst_iff made rate_pos), ?_⟩
  intro b producerId configured absent
  have built : (b.getProducerLimiter made producerId).1 =
      .create made rate (truncate (rate * 2)) := by
    simp only [BackpressureManager.getProducerLimiter, absent, configured]
  rw [built]
  exact (letsThrough_iff rate_pos made _).trans (create_double_burst_iff made rate_pos)

theorem one_letsThrough_iff : (LetsThrough 1 (.create 0 1 0) ↔ (1 : ℚ) ≤ 1) ∧
    ∀ (b : BackpressureManager) producerId, b.config.producerRateLimit = 1 →
      b.producerLimiters.get? producerId = none →
        (LetsThrough 1 (b.getProducerLimiter 0 producerId).1 ↔ (1 : ℚ) / 2 ≤ 1) :=
  rate_letsThrough_iff (by decide) 0

/-- One message in four seconds: neither limiter ever lets one through. -/
theorem quarter_blocked :
    let limiter : RateLimiter := .create 0 (1 / 4) 0
    let managed := (BackpressureManager.getProducerLimiter 0 { config := { producerRateLimit := 1 / 4 } } "p").1
    ¬ LetsThrough (1 / 4) limiter ∧ ¬ LetsThrough (1 / 4) managed ∧
      ∀ now, (limiter.acquire now 1).1 = false ∧ (managed.acquire now 1).1 = false := by
  intro limiter managed
  have none_ : limiter.burst ≤ 0 := by decide +kernel
  have none' : managed.burst ≤ 0 := by decide +kernel
  refine ⟨fun lets => ?_, fun lets => ?_, fun now => ?_⟩
  · have granted := lets [] trivial [] trivial 4 (by decide +kernel) (by decide +kernel)
    exact absurd (granted.symm.trans (acquire_of_no_burst none_ 4)) (by decide)
  · have granted := lets [] trivial [] trivial 4 (by decide +kernel) (by decide +kernel)
    exact absurd (granted.symm.trans (acquire_of_no_burst none' 4)) (by decide)
  · exact ⟨acquire_of_no_burst none_ now, acquire_of_no_burst none' now⟩

end LimiterRun

/-! ## A producer that is blocked -/

namespace BackpressureManager

/-- Throttling is on, with less than half a token a second, and no limiter can hold
a token. -/
structure Blocking (b : BackpressureManager) : Prop where
  enabled : b.config.enableThrottling = true
  rate_nonneg : 0 ≤ b.config.producerRateLimit
  slow : b.config.producerRateLimit < 1 / 2
  none_ : ∀ producerId limiter, b.producerLimiters.get? producerId = some limiter → limiter.burst ≤ 0

theorem Blocking.getProducerLimiter {b : BackpressureManager} (blocking : b.Blocking) (made : Timestamp)
    (producerId : String) : (b.getProducerLimiter made producerId).1.burst ≤ 0 ∧
      (b.getProducerLimiter made producerId).2.Blocking := by
  unfold BackpressureManager.getProducerLimiter
  split
  · next limiter found => exact ⟨blocking.none_ producerId limiter found, blocking⟩
  · have nonneg := blocking.rate_nonneg
    have slow := blocking.slow
    have small : (RateLimiter.create made b.config.producerRateLimit
        (truncate (b.config.producerRateLimit * 2))).burst ≤ 0 := by
      show (if 0 < truncate (b.config.producerRateLimit * 2) then _ else truncate _) ≤ 0
      have double := LimiterRun.one_le_truncate_iff (x := b.config.producerRateLimit * 2) (by positivity)
      have single := LimiterRun.one_le_truncate_iff nonneg
      have none_ : ¬ 1 ≤ truncate (b.config.producerRateLimit * 2) := fun room => by
        linarith [double.mp room]
      have none' : ¬ 1 ≤ truncate b.config.producerRateLimit := fun room => by
        linarith [single.mp room]
      rw [if_neg (by omega)]
      omega
    refine ⟨small, blocking.enabled, nonneg, slow, fun other limiter found => ?_⟩
    rcases Dict.get?_set_eq_some_iff.mp found with ⟨-, rfl⟩ | ⟨-, before⟩
    · exact small
    · exact blocking.none_ other limiter before

/-- **A manager with a slow rate refuses every publish**, at whatever times. -/
theorem Blocking.checkPublishAllowed {b : BackpressureManager} (blocking : b.Blocking)
    (made now : Timestamp) (producerId topic : String) (currentDepth : ℤ) :
    (b.checkPublishAllowed made now producerId topic currentDepth).1 = false ∧
      (b.checkPublishAllowed made now producerId topic currentDepth).2.2.Blocking := by
  unfold BackpressureManager.checkPublishAllowed
  rw [if_neg (by simp [blocking.enabled])]
  split
  · exact ⟨rfl, blocking.enabled, blocking.rate_nonneg, blocking.slow, blocking.none_⟩
  · obtain ⟨small, next⟩ := blocking.getProducerLimiter made producerId
    have refused := LimiterRun.acquire_of_no_burst small now
    have kept : ((b.getProducerLimiter made producerId).1.acquire now 1).2.burst ≤ 0 := by
      rwa [RateLimiter.acquire_burst]
    dsimp only
    rw [if_neg (by simp [refused])]
    refine ⟨rfl, next.enabled, next.rate_nonneg, next.slow, fun other limiter found => ?_⟩
    rcases Dict.get?_set_eq_some_iff.mp found with ⟨-, rfl⟩ | ⟨-, before⟩
    · exact kept
    · exact next.none_ other limiter before

end BackpressureManager

end BrokerLite
