/-
# Flow.RateLimiter -- the token bucket, and what it lets through at most

A `RateLimiter` refills its tokens whenever it is asked, for the time since it was
last asked, up to its burst.  Readings of the monotonic clock are rationals, as
are tokens; the burst is an integer.

`LimiterRun` notes what was granted when, so that a limiter is a `Bucket`
(`step_bucket`), and the rate bound over every window is the bucket's.
-/
import BrokerLite.Store.Message
import BrokerLite.Theory.Run
import BrokerLite.Theory.TokenBucket
import Mathlib.Data.Rat.Floor

namespace BrokerLite

open Theory

set_option autoImplicit false

/-- `int(x)`, which cuts towards zero. -/
def truncate (x : ℚ) : ℤ := x.num.tdiv x.den

theorem truncate_of_nonneg {x : ℚ} (nonneg : 0 ≤ x) : truncate x = ⌊x⌋ := by
  rw [truncate, Int.tdiv_eq_ediv_of_nonneg (Rat.num_nonneg.mpr nonneg), Rat.floor_def']

/-- `round(x, 2)`: to the nearest hundredth, a tie to the even one. -/
def roundHundredths (x : ℚ) : ℚ :=
  let below := ⌊x * 100⌋
  let rest := x * 100 - below
  if rest < 1 / 2 ∨ (rest = 1 / 2 ∧ below % 2 = 0) then below / 100 else (below + 1) / 100

structure RateLimiter where
  rate : ℚ
  burst : ℤ
  tokens : ℚ
  lastRefill : Timestamp
  totalAllowed : ℕ := 0
  totalRejected : ℕ := 0

structure RateLimiterSnapshot where
  rate : ℚ
  burst : ℤ
  availableTokens : ℚ
  totalAllowed : ℕ
  totalRejected : ℕ

namespace RateLimiter

/-- `RateLimiter(rate, burst)`; no burst is 0. -/
def create (now : Timestamp) (rate : ℚ) (burst : ℤ) : RateLimiter :=
  let burst := if 0 < burst then burst else truncate rate
  { rate, burst, tokens := burst, lastRefill := now }

def refill (now : Timestamp) (l : RateLimiter) : RateLimiter :=
  { l with tokens := min l.burst (l.tokens + (now - l.lastRefill) * l.rate), lastRefill := now }

def acquire (now : Timestamp) (l : RateLimiter) (tokens : ℤ) : Bool × RateLimiter :=
  let l := l.refill now
  if tokens ≤ l.tokens then
    (true, { l with tokens := l.tokens - tokens, totalAllowed := l.totalAllowed + 1 })
  else (false, { l with totalRejected := l.totalRejected + 1 })

def availableTokens (now : Timestamp) (l : RateLimiter) : ℚ × RateLimiter :=
  let l := l.refill now
  (l.tokens, l)

def snapshot (now : Timestamp) (l : RateLimiter) : RateLimiterSnapshot × RateLimiter :=
  let l := l.refill now
  ({ rate := l.rate
     burst := l.burst
     availableTokens := roundHundredths l.tokens
     totalAllowed := l.totalAllowed
     totalRejected := l.totalRejected }, l)

theorem acquire_burst (now : Timestamp) (l : RateLimiter) (tokens : ℤ) :
    (l.acquire now tokens).2.burst = l.burst := by
  unfold acquire
  dsimp only
  split <;> rfl

/-- With a rate that is not negative, neither is the burst. -/
theorem create_burst_nonneg (now : Timestamp) {rate : ℚ} (rate_nonneg : 0 ≤ rate) (burst : ℤ) :
    0 ≤ (create now rate burst).burst := by
  show 0 ≤ if 0 < burst then burst else truncate rate
  split
  · omega
  · rw [truncate_of_nonneg rate_nonneg]
    exact Int.floor_nonneg.mpr rate_nonneg

end RateLimiter

/-! ## Runs -/

/-- A limiter, and the tokens it granted at which times. -/
structure LimiterRun where
  limiter : RateLimiter
  grants : List (Timestamp × ℚ) := []

inductive LimiterOp where
  | acquire (now : Timestamp) (tokens : ℤ)
  | availableTokens (now : Timestamp)
  | snapshot (now : Timestamp)

/-- The reading of the clock. -/
def LimiterOp.now : LimiterOp → Timestamp
  | .acquire now _ | .availableTokens now | .snapshot now => now

/-- The call asks for no tokens. -/
def LimiterOp.Reads : LimiterOp → Prop
  | .acquire _ _ => False
  | _ => True

/-- The call asks for no negative number of tokens. -/
def LimiterOp.Asks : LimiterOp → Prop
  | .acquire _ tokens => 0 ≤ tokens
  | _ => True

namespace LimiterRun

def step (r : LimiterRun) : LimiterOp → LimiterRun
  | .acquire now tokens =>
      let done := r.limiter.acquire now tokens
      { limiter := done.2
        grants := if done.1 then r.grants ++ [(now, (tokens : ℚ))] else r.grants }
  | .availableTokens now => { r with limiter := (r.limiter.availableTokens now).2 }
  | .snapshot now => { r with limiter := (r.limiter.snapshot now).2 }

/-- The clock has not gone back. -/
def Clocked (r : LimiterRun) (op : LimiterOp) : Prop := r.limiter.lastRefill ≤ op.now

/-- The limiter as a bucket. -/
def bucket (r : LimiterRun) : Bucket ℚ := ⟨r.limiter.tokens, r.limiter.lastRefill, r.grants⟩

/-- The bucket after a look at it. -/
def looked (now : Timestamp) (r : LimiterRun) : Bucket ℚ :=
  r.bucket.advance (r.limiter.burst : ℚ) r.limiter.rate now

variable {r : LimiterRun}

theorem step_params (r : LimiterRun) (op : LimiterOp) :
    (r.step op).limiter.rate = r.limiter.rate ∧ (r.step op).limiter.burst = r.limiter.burst ∧
      (r.step op).limiter.lastRefill = op.now := by
  cases op with
  | acquire now tokens =>
      simp only [step, RateLimiter.acquire]
      split <;> exact ⟨rfl, rfl, rfl⟩
  | availableTokens now => exact ⟨rfl, rfl, rfl⟩
  | snapshot now => exact ⟨rfl, rfl, rfl⟩

/-- **Every call looks at the bucket**, and a granted one takes its tokens out. -/
theorem step_bucket (r : LimiterRun) (op : LimiterOp) :
    (r.step op).bucket = r.looked op.now ∨ ∃ now tokens, op = .acquire now tokens ∧
      (tokens : ℚ) ≤ (r.looked now).level ∧ (r.step op).bucket = (r.looked now).take (tokens : ℚ) := by
  cases op with
  | acquire now tokens =>
      by_cases enough : (tokens : ℚ) ≤ (r.limiter.refill now).tokens
      · right
        refine ⟨now, tokens, rfl, enough, ?_⟩
        simp only [step, RateLimiter.acquire, if_pos enough]
        rfl
      · left
        simp only [step, RateLimiter.acquire, if_neg enough]
        rfl
  | availableTokens now => exact .inl rfl
  | snapshot now => exact .inl rfl

/-! ## The rate bound -/

/-- A bucket of the given burst and rate, within its bound. -/
structure Sound (rate : ℚ) (burst : ℤ) (r : LimiterRun) : Prop where
  bounded : r.bucket.Bounded (burst : ℚ) rate
  sameRate : r.limiter.rate = rate
  sameBurst : r.limiter.burst = burst

theorem Sound.step {rate : ℚ} {burst : ℤ} (rate_nonneg : 0 ≤ rate) (sound : r.Sound rate burst)
    {op : LimiterOp} (clocked : r.Clocked op) (asks : op.Asks) : (r.step op).Sound rate burst := by
  obtain ⟨rate_, burst_, -⟩ := r.step_params op
  refine ⟨?_, rate_.trans sound.sameRate, burst_.trans sound.sameBurst⟩
  have bounded : (r.looked op.now).Bounded (burst : ℚ) rate := by
    rw [looked, sound.sameRate, sound.sameBurst]
    exact sound.bounded.advance rate_nonneg clocked
  rcases r.step_bucket op with passed | ⟨now, tokens, rfl, enough, taken⟩
  · rw [passed]
    exact bounded
  · rw [taken]
    exact bounded.take rate_nonneg (Int.cast_nonneg asks) enough

theorem create_sound {rate : ℚ} (rate_nonneg : 0 ≤ rate) (now : Timestamp) (burst : ℤ) :
    Sound rate (RateLimiter.create now rate burst).burst { limiter := .create now rate burst } :=
  ⟨Bucket.bounded_new (Int.cast_nonneg (RateLimiter.create_burst_nonneg now rate_nonneg burst))
    rate_nonneg now, rfl, rfl⟩

/-- **The rate bound.**  In every run of a limiter with a rate that is not negative,
the tokens stay between zero and the burst, and what is granted in any window of
time is at most the burst and what the rate brings in meanwhile. -/
theorem run_granted_le {rate : ℚ} (rate_nonneg : 0 ≤ rate) (now : Timestamp) (burst : ℤ)
    {ops : List LimiterOp}
    (clocked : Guarded step (fun r op => r.Clocked op ∧ op.Asks)
      { limiter := .create now rate burst } ops) :
    let after := run step { limiter := .create now rate burst } ops
    (0 ≤ after.limiter.tokens ∧ after.limiter.tokens ≤ after.limiter.burst) ∧
      after.limiter.burst = (RateLimiter.create now rate burst).burst ∧
      ∀ t₁ t₂, t₁ ≤ t₂ → Bucket.granted after.grants t₁ t₂ ≤
        (RateLimiter.create now rate burst).burst + rate * (t₂ - t₁) := by
  intro after
  have preserved : ∀ r op, Sound rate (RateLimiter.create now rate burst).burst r →
      Clocked r op ∧ op.Asks → Sound rate (RateLimiter.create now rate burst).burst (r.step op) :=
    fun _ _ sound guard => sound.step rate_nonneg guard.1 guard.2
  have sound := run_invariant preserved (create_sound rate_nonneg now burst) clocked
  refine ⟨⟨sound.bounded.nonneg, ?_⟩, sound.sameBurst, sound.bounded.within⟩
  rw [sound.sameBurst]
  exact sound.bounded.le_cap

/-- Two tokens a second: three are asked for at once, and one more a second later. -/
def limiterOps : List LimiterOp :=
  [.acquire 0 2, .acquire 0 1, .availableTokens (1 / 2), .snapshot 1, .acquire 1 1]

theorem limiterOps_granted_le :
    let after := run step { limiter := .create 0 2 0 } limiterOps
    (0 ≤ after.limiter.tokens ∧ after.limiter.tokens ≤ after.limiter.burst) ∧
      after.limiter.burst = (RateLimiter.create 0 2 0).burst ∧
      ∀ t₁ t₂, t₁ ≤ t₂ → Bucket.granted after.grants t₁ t₂ ≤
        (RateLimiter.create 0 2 0).burst + 2 * (t₂ - t₁) := by
  refine run_granted_le (by decide) 0 0 ?_
  simp only [limiterOps, Guarded, Clocked, LimiterOp.Asks, (step_params _ _).2.2, LimiterOp.now,
    RateLimiter.create]
  norm_num

end LimiterRun

end BrokerLite
