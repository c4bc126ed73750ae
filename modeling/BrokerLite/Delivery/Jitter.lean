/-
# Delivery.Jitter -- what a random share does to the worst case

With the strategy `exponentialJitter` the cap is applied first and the random share
after it, and the total leaves the share out.  A positive share of a capped delay
is therefore over the cap, and a schedule whose shares do not add up to zero or
less is over its total (`bounded_iff`).  For every draw the two bounds hold only
without a random share, or when there is nothing to retry (`always_bounded_iff`).
-/
import BrokerLite.Delivery.Retry
import Mathlib.Algebra.Order.BigOperators.Group.List

namespace BrokerLite

open Theory

set_option autoImplicit false

namespace RetryPolicy

/-- What `random.uniform` may draw. -/
def Drawn (p : RetryPolicy) (draws : ℤ → ℚ) : Prop :=
  ∀ attempt, -p.jitterRange ≤ draws attempt ∧ draws attempt ≤ p.jitterRange

/-- Every delay that `should_retry` returns is at most the cap, and the delays of
all attempts add up to the total at most. -/
structure Bounded (p : RetryPolicy) (draws : ℤ → ℚ) : Prop where
  delays : ∀ attempt, ∃ result, p.shouldRetry (draws attempt) attempt = .ok result ∧
    result.delaySeconds ≤ p.maxDelay
  total : ∃ delays total, p.delaysForAllAttempts draws = .ok delays ∧ p.totalMaxDelay = .ok total ∧
    delays.sum ≤ total

/-- No share is larger than the room its delay has under the cap, and together the
shares of all attempts are not positive. -/
structure Headroom (p : RetryPolicy) (draws : ℤ → ℚ) : Prop where
  each : ∀ attempt < p.maxAttempts,
    p.baseDelay attempt * draws attempt ≤ p.maxDelay - p.baseDelay attempt
  together : ((between 1 p.maxAttempts).map fun a => p.baseDelay a * draws a).sum ≤ 0

/-- A policy with random shares, as it is meant to be used. -/
structure Jittered (p : RetryPolicy) : Prop where
  strategy : p.strategy = .exponentialJitter
  initial : 0 < p.initialDelay
  cap : 0 < p.maxDelay
  grows : 1 ≤ p.backoffMultiplier
  range_nonneg : 0 ≤ p.jitterRange
  range_le : p.jitterRange ≤ 1

variable {p : RetryPolicy} {draws : ℤ → ℚ}

theorem Jittered.nonzero (jittered : p.Jittered) : p.backoffMultiplier ≠ 0 := by
  have grows := jittered.grows
  linarith

theorem Jittered.base_pos (jittered : p.Jittered) (attempt : ℤ) : 0 < p.baseDelay attempt :=
  capped_pos jittered.initial jittered.cap (one_le_factor jittered.grows) _

/-- The share of a delay is added to it; a delay is never cut to zero. -/
theorem Jittered.delay_eq (jittered : p.Jittered) (drawn : p.Drawn draws) (attempt : ℤ) :
    p.delay (draws attempt) attempt = p.baseDelay attempt + p.baseDelay attempt * draws attempt := by
  have low := (drawn attempt).1
  have range_le := jittered.range_le
  have nonneg : 0 ≤ p.baseDelay attempt * (1 + draws attempt) :=
    mul_nonneg (le_of_lt (jittered.base_pos attempt)) (by linarith)
  rw [delay, jittered.strategy]
  show max 0 (p.baseDelay attempt * (1 + draws attempt)) = _
  rw [max_eq_right nonneg, mul_add, mul_one]

theorem Jittered.bounded_iff (jittered : p.Jittered) (drawn : p.Drawn draws) :
    p.Bounded draws ↔ p.Headroom draws := by
  have nonzero := jittered.nonzero
  have delays : (between 1 p.maxAttempts).map (fun a => p.delay (draws a) a) =
      (between 1 p.maxAttempts).map fun a => p.baseDelay a + p.baseDelay a * draws a :=
    List.map_congr_left fun a _ => jittered.delay_eq drawn a
  constructor
  · intro bounded
    constructor
    · intro attempt below
      obtain ⟨result, returned, under⟩ := bounded.delays attempt
      rw [shouldRetry_of_lt nonzero _ below, Except.ok.injEq] at returned
      rw [← returned, jittered.delay_eq drawn] at under
      linarith
    · obtain ⟨listed, total, schedule, worst, under⟩ := bounded.total
      rw [delaysForAllAttempts_eq nonzero, Except.ok.injEq, delays] at schedule
      rw [totalMaxDelay_eq nonzero, Except.ok.injEq] at worst
      rw [← schedule, ← worst, List.sum_map_add] at under
      linarith
  · intro headroom
    constructor
    · intro attempt
      rcases lt_or_ge attempt p.maxAttempts with below | reached
      · refine ⟨_, shouldRetry_of_lt nonzero _ below, ?_⟩
        have room := headroom.each attempt below
        rw [jittered.delay_eq drawn]
        linarith
      · exact ⟨_, shouldRetry_of_ge _ reached, le_of_lt jittered.cap⟩
    · refine ⟨_, _, delaysForAllAttempts_eq nonzero draws, totalMaxDelay_eq nonzero, ?_⟩
      have together := headroom.together
      rw [delays, List.sum_map_add]
      linarith

/-- The delay before attempt number one below the maximum, before the cap. -/
def lastDelay (p : RetryPolicy) : ℚ := p.initialDelay * p.backoffMultiplier ^ (p.maxAttempts - 2)

theorem Jittered.base_last (jittered : p.Jittered) :
    p.baseDelay (p.maxAttempts - 1) = min p.lastDelay p.maxDelay := by
  have exponent : p.maxAttempts - 1 - 1 = p.maxAttempts - 2 := by omega
  rw [baseDelay, factor, jittered.strategy, capped, lastDelay, exponent]

/-- The largest share that may be drawn is one too many for a schedule with retries. -/
theorem Jittered.no_retries (jittered : p.Jittered) (positive : 0 < p.jitterRange)
    (together : ((between 1 p.maxAttempts).map fun a => p.baseDelay a * p.jitterRange).sum ≤ 0) :
    p.maxAttempts ≤ 1 := by
  by_contra more
  have first : (1 : ℤ) ∈ between 1 p.maxAttempts := mem_between.mpr ⟨le_refl 1, by omega⟩
  have shares : ∀ x ∈ (between 1 p.maxAttempts).map fun a => p.baseDelay a * p.jitterRange, 0 ≤ x := by
    intro x member
    obtain ⟨a, -, rfl⟩ := List.mem_map.mp member
    exact le_of_lt (mul_pos (jittered.base_pos a) positive)
  have one := List.single_le_sum shares _ (List.mem_map_of_mem first)
  have share := mul_pos (jittered.base_pos 1) positive
  linarith

/-- Without a random share there is room, and none is needed. -/
theorem Headroom.of_no_range (zero : p.jitterRange = 0) (drawn : p.Drawn draws) :
    p.Headroom draws := by
  have nothing : ∀ a, draws a = 0 := by
    intro a
    have bounds := drawn a
    rw [zero] at bounds
    linarith [bounds.1, bounds.2]
  constructor
  · intro attempt _
    have under : p.baseDelay attempt ≤ p.maxDelay := capped_le _
    rw [nothing, mul_zero]
    linarith
  · simp [nothing]

/-- Without retries only delays at or before the last one are asked for. -/
theorem Jittered.headroom_of_no_retries (jittered : p.Jittered) (none_ : p.maxAttempts ≤ 1)
    (room : p.lastDelay * (1 + p.jitterRange) ≤ p.maxDelay) (drawn : p.Drawn draws) :
    p.Headroom draws := by
  constructor
  · intro attempt below
    have base := le_of_lt (jittered.base_pos attempt)
    have order : p.baseDelay attempt ≤ p.baseDelay (p.maxAttempts - 1) := by
      apply capped_mono (le_of_lt jittered.initial) (one_le_factor jittered.grows)
      omega
    have last : p.baseDelay (p.maxAttempts - 1) ≤ p.lastDelay :=
      le_of_eq_of_le jittered.base_last (min_le_left ..)
    have share : p.baseDelay attempt * draws attempt ≤ p.baseDelay attempt * p.jitterRange :=
      mul_le_mul_of_nonneg_left (drawn attempt).2 base
    have most : p.baseDelay attempt * p.jitterRange ≤ p.lastDelay * p.jitterRange :=
      mul_le_mul_of_nonneg_right (le_trans order last) jittered.range_nonneg
    linarith
  · simp [between_eq_nil none_]

/-- The largest share leaves room below the cap for the last delay. -/
theorem Jittered.last_room (jittered : p.Jittered) (positive : 0 < p.jitterRange)
    (headroom : p.Headroom fun _ => p.jitterRange) :
    p.lastDelay * (1 + p.jitterRange) ≤ p.maxDelay := by
  have room := headroom.each (p.maxAttempts - 1) (by omega)
  rw [jittered.base_last] at room
  -- a capped delay has no room at all
  rcases le_total p.lastDelay p.maxDelay with under | above
  · rw [min_eq_left under] at room
    linarith
  · rw [min_eq_right above] at room
    have share := mul_pos jittered.cap positive
    linarith

theorem Jittered.always_iff (jittered : p.Jittered) : (∀ draws, p.Drawn draws → p.Bounded draws) ↔
    p.jitterRange = 0 ∨
      (p.maxAttempts ≤ 1 ∧ p.lastDelay * (1 + p.jitterRange) ≤ p.maxDelay) := by
  have range_nonneg := jittered.range_nonneg
  constructor
  · intro always
    rcases range_nonneg.eq_or_lt with zero | positive
    · exact .inl zero.symm
    · have drawn : p.Drawn fun _ => p.jitterRange := fun _ => ⟨by linarith, le_refl _⟩
      have headroom := (jittered.bounded_iff drawn).mp (always _ drawn)
      exact .inr ⟨jittered.no_retries positive headroom.together, jittered.last_room positive headroom⟩
  · intro condition draws drawn
    rw [jittered.bounded_iff drawn]
    rcases condition with zero | ⟨none_, room⟩
    · exact .of_no_range zero drawn
    · exact jittered.headroom_of_no_retries none_ room drawn

/-- **When the worst case is an upper bound with random shares**: for given draws,
when they leave room; for all draws, without shares or without retries. -/
theorem jitter_bounded_iff (jittered : p.Jittered) :
    (∀ draws, p.Drawn draws → (p.Bounded draws ↔ p.Headroom draws)) ∧
      ((∀ draws, p.Drawn draws → p.Bounded draws) ↔
        p.jitterRange = 0 ∨
          (p.maxAttempts ≤ 1 ∧ p.lastDelay * (1 + p.jitterRange) ≤ p.maxDelay)) :=
  ⟨fun _ drawn => jittered.bounded_iff drawn, jittered.always_iff⟩

theorem default_jittered : ({} : RetryPolicy).Jittered :=
  ⟨rfl, by decide +kernel, by decide +kernel, by decide +kernel, by decide +kernel, by decide +kernel⟩

theorem default_jitter_bounded_iff :
    (∀ draws, Drawn {} draws → (Bounded {} draws ↔ Headroom {} draws)) ∧
      ((∀ draws, Drawn {} draws → Bounded {} draws) ↔ ({} : RetryPolicy).jitterRange = 0 ∨
        (({} : RetryPolicy).maxAttempts ≤ 1 ∧
          ({} : RetryPolicy).lastDelay * (1 + ({} : RetryPolicy).jitterRange) ≤ ({} : RetryPolicy).maxDelay)) :=
  jitter_bounded_iff default_jittered

/-- The default policy, when the largest share is drawn each time: the delays are one
and a half and three seconds, and the worst case is three seconds.  With a cap of
one second the first delay is over the cap as well. -/
theorem default_exceeds :
    let draws : ℤ → ℚ := fun _ => 1 / 2
    let capped : RetryPolicy := { maxDelay := 1 }
    Drawn {} draws ∧ ({} : RetryPolicy).delaysForAllAttempts draws = .ok [3 / 2, 3] ∧
      ({} : RetryPolicy).totalMaxDelay = .ok 3 ∧ ¬ Bounded {} draws ∧
      (capped.shouldRetry (draws 1) 1).map RetryResult.delaySeconds = .ok (3 / 2) := by
  intro draws capped
  have schedule : ({} : RetryPolicy).delaysForAllAttempts draws = .ok [3 / 2, 3] := by decide +kernel
  have worst : ({} : RetryPolicy).totalMaxDelay = .ok 3 := by decide +kernel
  refine ⟨fun _ => by decide +kernel, schedule, worst, fun bounded => ?_, by decide +kernel⟩
  obtain ⟨delays, total, listed, added, under⟩ := bounded.total
  rw [schedule, Except.ok.injEq] at listed
  rw [worst, Except.ok.injEq] at added
  rw [← listed, ← added] at under
  exact absurd under (by decide +kernel)

end RetryPolicy

end BrokerLite
