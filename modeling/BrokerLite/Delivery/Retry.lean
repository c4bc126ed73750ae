/-
# Delivery.Retry -- retry policies and their schedules

A `RetryPolicy` says after a failed attempt whether to try again, and how long to
wait: a fixed delay, one that grows geometrically up to a cap, or such a delay with
a random share added or taken away.  Numbers are rationals; what `random.uniform`
draws for an attempt is a parameter.

The list of all delays and their total are computed by two loops.  Without a
random share they agree (`schedule_total`).
-/
import BrokerLite.Store.Message
import BrokerLite.Theory.Backoff
import Mathlib.Algebra.BigOperators.Group.List.Basic
import Mathlib.Data.Rat.Defs
import Mathlib.Tactic.Linarith

namespace BrokerLite

open Theory

set_option autoImplicit false

inductive RetryStrategy where
  | fixed
  | exponential
  | exponentialJitter
  deriving DecidableEq

/-- Why a retry is made or not. -/
inductive RetryReason where
  | attemptsExceeded (maxAttempts : ℤ)
  | retry (attempt maxAttempts : ℤ) (delay : ℚ)
  deriving DecidableEq

/-- The text of the reason; `fixed2` prints a number with two decimals. -/
def RetryReason.text (fixed2 : ℚ → String) : RetryReason → String
  | .attemptsExceeded maxAttempts => s!"Max attempts ({maxAttempts}) exceeded"
  | .retry attempt maxAttempts delay => s!"Retry {attempt}/{maxAttempts} after {fixed2 delay}s"

structure RetryResult where
  shouldRetry : Bool
  delaySeconds : ℚ
  attempt : ℤ
  maxAttempts : ℤ
  reason : RetryReason
  deriving DecidableEq

structure RetryPolicy where
  maxAttempts : ℤ := 3
  initialDelay : ℚ := 1
  maxDelay : ℚ := 60
  backoffMultiplier : ℚ := 2
  strategy : RetryStrategy := .exponentialJitter
  jitterRange : ℚ := 1 / 2

namespace RetryPolicy

variable (p : RetryPolicy)

/-- `backoff_multiplier ** exponent`, which raises on a negative power of zero. -/
def power (exponent : ℤ) : Except Raised ℚ :=
  if p.backoffMultiplier = 0 ∧ exponent < 0 then .error .zeroDivisionError
  else .ok (p.backoffMultiplier ^ exponent)

/-- `draw` is what `random.uniform` returns in this call, if it is called. -/
def calculateDelay (draw : ℚ) (attempt : ℤ) : Except Raised ℚ :=
  match p.strategy with
  | .fixed => .ok (min p.initialDelay p.maxDelay)
  | .exponential => do
      let power ← p.power (attempt - 1)
      return min (p.initialDelay * power) p.maxDelay
  | .exponentialJitter => do
      let power ← p.power (attempt - 1)
      let baseDelay := min (p.initialDelay * power) p.maxDelay
      return max 0 (baseDelay * (1 + draw))

def shouldRetry (draw : ℚ) (attempt : ℤ) : Except Raised RetryResult :=
  if p.maxAttempts ≤ attempt then
    .ok {
      shouldRetry := false
      delaySeconds := 0
      attempt
      maxAttempts := p.maxAttempts
      reason := .attemptsExceeded p.maxAttempts }
  else do
    let delay ← p.calculateDelay draw attempt
    return {
      shouldRetry := true
      delaySeconds := delay
      attempt
      maxAttempts := p.maxAttempts
      reason := .retry attempt p.maxAttempts delay }

/-- The loop of `delays_for_all_attempts`. -/
def delaysLoop (draws : ℤ → ℚ) : List ℤ → List ℚ → Except Raised (List ℚ)
  | [], delays => .ok delays
  | attempt :: rest, delays => do
      let result ← p.shouldRetry (draws attempt) attempt
      delaysLoop draws rest
        (if result.shouldRetry then delays ++ [result.delaySeconds] else delays)

def delaysForAllAttempts (draws : ℤ → ℚ) : Except Raised (List ℚ) :=
  p.delaysLoop draws (between 1 (p.maxAttempts + 1)) []

/-- The loop of `total_max_delay`. -/
def totalLoop : List ℤ → ℚ → Except Raised ℚ
  | [], total => .ok total
  | attempt :: rest, total =>
      match p.strategy with
      | .fixed => totalLoop rest (total + min p.initialDelay p.maxDelay)
      | .exponential | .exponentialJitter => do
          let power ← p.power (attempt - 1)
          totalLoop rest (total + min (p.initialDelay * power) p.maxDelay)

def totalMaxDelay : Except Raised ℚ := p.totalLoop (between 1 p.maxAttempts) 0

/-! ## What the calls return -/

/-- The factor by which the delay grows. -/
def factor : ℚ :=
  match p.strategy with
  | .fixed => 1
  | _ => p.backoffMultiplier

/-- The delay of an attempt before a random share. -/
def baseDelay (attempt : ℤ) : ℚ := capped p.initialDelay p.factor p.maxDelay (attempt - 1)

def delay (draw : ℚ) (attempt : ℤ) : ℚ :=
  match p.strategy with
  | .exponentialJitter => max 0 (p.baseDelay attempt * (1 + draw))
  | _ => p.baseDelay attempt

variable {p}

theorem power_eq (nonzero : p.backoffMultiplier ≠ 0) (exponent : ℤ) :
    p.power exponent = .ok (p.backoffMultiplier ^ exponent) := if_neg fun zero => nonzero zero.1

theorem calculateDelay_eq (nonzero : p.backoffMultiplier ≠ 0) (draw : ℚ) (attempt : ℤ) :
    p.calculateDelay draw attempt = .ok (p.delay draw attempt) := by
  unfold calculateDelay delay baseDelay factor capped
  cases p.strategy with
  | fixed => simp
  | exponential => simp [power_eq nonzero, bind, Except.bind, pure, Except.pure]
  | exponentialJitter => simp [power_eq nonzero, bind, Except.bind, pure, Except.pure]

/-- What `should_retry` answers for an attempt below the maximum. -/
theorem shouldRetry_of_lt (nonzero : p.backoffMultiplier ≠ 0) (draw : ℚ) {attempt : ℤ}
    (below : attempt < p.maxAttempts) : p.shouldRetry draw attempt =
      .ok ⟨true, p.delay draw attempt, attempt, p.maxAttempts,
        .retry attempt p.maxAttempts (p.delay draw attempt)⟩ := by
  rw [shouldRetry, if_neg (not_le.mpr below), calculateDelay_eq nonzero]
  rfl

theorem shouldRetry_of_ge (draw : ℚ) {attempt : ℤ} (reached : p.maxAttempts ≤ attempt) :
    p.shouldRetry draw attempt =
      .ok ⟨false, 0, attempt, p.maxAttempts, .attemptsExceeded p.maxAttempts⟩ := if_pos reached

theorem delaysLoop_eq (nonzero : p.backoffMultiplier ≠ 0) (draws : ℤ → ℚ) (attempts : List ℤ)
    (delays : List ℚ) : p.delaysLoop draws attempts delays =
      .ok (delays ++ (attempts.filter fun a => a < p.maxAttempts).map fun a => p.delay (draws a) a) := by
  induction attempts generalizing delays with
  | nil => simp [delaysLoop]
  | cons attempt rest ih =>
      rw [delaysLoop]
      rcases lt_or_ge attempt p.maxAttempts with below | reached
      · rw [shouldRetry_of_lt nonzero _ below]
        show p.delaysLoop draws rest (delays ++ [p.delay (draws attempt) attempt]) = _
        rw [ih]
        simp [below]
      · rw [shouldRetry_of_ge _ reached]
        show p.delaysLoop draws rest delays = _
        rw [ih]
        simp [not_lt.mpr reached]

/-- **The delays of all attempts** are those of the attempts below the maximum. -/
theorem delaysForAllAttempts_eq (nonzero : p.backoffMultiplier ≠ 0) (draws : ℤ → ℚ) :
    p.delaysForAllAttempts draws =
      .ok ((between 1 p.maxAttempts).map fun a => p.delay (draws a) a) := by
  rw [delaysForAllAttempts, delaysLoop_eq nonzero, filter_between, List.nil_append]

theorem totalLoop_eq (nonzero : p.backoffMultiplier ≠ 0) (attempts : List ℤ) (total : ℚ) :
    p.totalLoop attempts total = .ok (total + (attempts.map p.baseDelay).sum) := by
  induction attempts generalizing total with
  | nil => simp [totalLoop]
  | cons attempt rest ih =>
      have next : p.totalLoop (attempt :: rest) total = p.totalLoop rest (total + p.baseDelay attempt) := by
        unfold baseDelay factor capped
        rw [totalLoop, power_eq nonzero]
        cases p.strategy with
        | fixed => simp
        | exponential => rfl
        | exponentialJitter => rfl
      rw [next, ih, List.map_cons, List.sum_cons, add_assoc]

/-- **The total** is that of the delays before a random share. -/
theorem totalMaxDelay_eq (nonzero : p.backoffMultiplier ≠ 0) :
    p.totalMaxDelay = .ok ((between 1 p.maxAttempts).map p.baseDelay).sum := by
  rw [totalMaxDelay, totalLoop_eq nonzero, zero_add]

/-! ## Without a random share -/

theorem delay_of_steady (steady : p.strategy ≠ .exponentialJitter) (draw : ℚ) (attempt : ℤ) :
    p.delay draw attempt = p.baseDelay attempt := by
  unfold delay
  cases strategy : p.strategy with
  | fixed => rfl
  | exponential => rfl
  | exponentialJitter => exact absurd strategy steady

theorem one_le_factor (grows : 1 ≤ p.backoffMultiplier) : 1 ≤ p.factor := by
  unfold factor
  cases p.strategy with
  | fixed => exact le_refl 1
  | exponential => exact grows
  | exponentialJitter => exact grows

/-- **The schedule and its total.**  Without a random share there is a delay for
every attempt below the maximum, the delays grow geometrically up to the cap, and
the total is their sum. -/
theorem schedule_total (steady : p.strategy ≠ .exponentialJitter) (initial : 0 ≤ p.initialDelay)
    (grows : 1 ≤ p.backoffMultiplier) (draws : ℤ → ℚ) :
    ∃ delays, p.delaysForAllAttempts draws = .ok delays ∧
      (delays.length : ℤ) = max 0 (p.maxAttempts - 1) ∧
      (∀ k (inside : k < delays.length),
        delays[k] = min (p.initialDelay * p.factor ^ k) p.maxDelay) ∧
      delays.Pairwise (· ≤ ·) ∧ p.totalMaxDelay = .ok delays.sum := by
  have nonzero : p.backoffMultiplier ≠ 0 := by linarith
  have same : (between 1 p.maxAttempts).map (fun a => p.delay (draws a) a) =
      (between 1 p.maxAttempts).map p.baseDelay :=
    List.map_congr_left fun a _ => delay_of_steady steady (draws a) a
  refine ⟨_, (delaysForAllAttempts_eq nonzero draws).trans (congrArg _ same), ?_, ?_, ?_,
    totalMaxDelay_eq nonzero⟩
  · rw [List.length_map, length_between]
    omega
  · intro k inside
    have exponent : (1 : ℤ) + k - 1 = k := by omega
    simp only [between, List.getElem_map, List.getElem_range]
    rw [baseDelay, exponent, capped, zpow_natCast]
  · exact pairwise_capped initial (one_le_factor grows) 1 p.maxAttempts

/-- Four attempts whose delays double up to three seconds. -/
def doubling : RetryPolicy where
  maxAttempts := 4
  maxDelay := 3
  strategy := .exponential

example : doubling.delaysForAllAttempts (fun _ => 0) = .ok [1, 2, 3] := by decide +kernel

theorem doubling_total : ∃ delays, doubling.delaysForAllAttempts (fun _ => 0) = .ok delays ∧
    (delays.length : ℤ) = max 0 (doubling.maxAttempts - 1) ∧
    (∀ k (inside : k < delays.length),
      delays[k] = min (doubling.initialDelay * doubling.factor ^ k) doubling.maxDelay) ∧
    delays.Pairwise (· ≤ ·) ∧ doubling.totalMaxDelay = .ok delays.sum :=
  schedule_total (by decide) (by decide +kernel) (by decide +kernel) _

end RetryPolicy

end BrokerLite
