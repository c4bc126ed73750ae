/-
# Theory.TokenBucket -- a bucket that fills at a steady rate

A bucket of capacity `cap` fills at `rate` and is looked at now and then: looking
fills it for the time since the last look, up to the capacity.  What is taken out
is noted with its time.

`Bounded.within` is the bound that a bucket is for: what is taken in a window of
time is at most the capacity and what flows in meanwhile.  `filled_advance` is the
other direction, that a bucket nothing is taken from fills.
-/
import Mathlib.Algebra.BigOperators.Group.List.Basic
import Mathlib.Algebra.Order.Field.Basic
import Mathlib.Tactic.Linarith
import Mathlib.Tactic.Ring

namespace BrokerLite.Theory

set_option autoImplicit false

universe u

/-- The level when it was last looked at, and what was taken out at which times. -/
structure Bucket (K : Type u) where
  level : K
  last : K
  grants : List (K × K)

namespace Bucket

variable {K : Type u} [Field K] [LinearOrder K]

/-- What was taken between two moments. -/
def granted (grants : List (K × K)) (t₁ t₂ : K) : K :=
  ((grants.filter fun g => t₁ ≤ g.1 ∧ g.1 ≤ t₂).map Prod.snd).sum

section Operations

variable (cap rate : K)

/-- Time passes, and the bucket is looked at. -/
def advance (now : K) (b : Bucket K) : Bucket K :=
  { b with level := min cap (b.level + (now - b.last) * rate), last := now }

/-- Something is taken out at the last look. -/
def take (amount : K) (b : Bucket K) : Bucket K :=
  { b with level := b.level - amount, grants := b.grants ++ [(b.last, amount)] }

/-- The level is in range, and the grants respect the bound: since any earlier
moment, with what is left, and between any two moments. -/
structure Bounded (b : Bucket K) : Prop where
  nonneg : 0 ≤ b.level
  le_cap : b.level ≤ cap
  past : ∀ g ∈ b.grants, g.1 ≤ b.last
  since : ∀ t ≤ b.last, granted b.grants t b.last + b.level ≤ cap + rate * (b.last - t)
  within : ∀ t₁ t₂, t₁ ≤ t₂ → granted b.grants t₁ t₂ ≤ cap + rate * (t₂ - t₁)

/-- The bucket has filled since `t`, as far as it can. -/
def Filled (t : K) (b : Bucket K) : Prop := min cap ((b.last - t) * rate) ≤ b.level

end Operations

variable {cap rate : K} {b : Bucket K}

/-! ## Windows of grants -/

theorem granted_append_single (grants : List (K × K)) (time amount t₁ t₂ : K) :
    granted (grants ++ [(time, amount)]) t₁ t₂ =
      granted grants t₁ t₂ + if t₁ ≤ time ∧ time ≤ t₂ then amount else 0 := by
  unfold granted
  rw [List.filter_append, List.map_append, List.sum_append]
  by_cases inside : t₁ ≤ time ∧ time ≤ t₂
  · rw [if_pos inside, List.filter_singleton, decide_eq_true inside]
    simp
  · rw [if_neg inside, List.filter_singleton, decide_eq_false inside]
    simp

/-- Windows that end after the last grant hold the same grants. -/
theorem granted_congr {grants : List (K × K)} {t t₂ t₃ : K} (early : ∀ g ∈ grants, g.1 ≤ t₂)
    (also : ∀ g ∈ grants, g.1 ≤ t₃) : granted grants t t₂ = granted grants t t₃ := by
  unfold granted
  congr 2
  apply List.filter_congr
  intro g member
  simp [early g member, also g member]

/-- No grant comes after the last. -/
theorem granted_eq_zero {grants : List (K × K)} {t t₂ : K} (early : ∀ g ∈ grants, g.1 < t) :
    granted grants t t₂ = 0 := by
  unfold granted
  rw [List.filter_eq_nil_iff.mpr, List.map_nil, List.sum_nil]
  intro g member
  simp [not_le.mpr (early g member)]

theorem filled_self (nonneg : 0 ≤ b.level) : b.Filled cap rate b.last := by
  unfold Filled
  rw [sub_self, zero_mul]
  exact le_trans (min_le_right ..) nonneg

/-! ## The bound -/

variable [IsStrictOrderedRing K]

/-- A full bucket that nothing was taken from. -/
theorem bounded_new (cap_nonneg : 0 ≤ cap) (rate_nonneg : 0 ≤ rate) (last : K) :
    Bounded cap rate ⟨cap, last, []⟩ := by
  have flow : ∀ t₁ t₂ : K, t₁ ≤ t₂ → 0 ≤ rate * (t₂ - t₁) := fun t₁ t₂ order =>
    mul_nonneg rate_nonneg (sub_nonneg.mpr order)
  refine ⟨cap_nonneg, le_refl cap, nofun, fun t early => ?_, fun t₁ t₂ order => ?_⟩
  · have inflow := flow t last early
    simp only [granted, List.filter_nil, List.map_nil, List.sum_nil]
    linarith
  · have inflow := flow t₁ t₂ order
    simp only [granted, List.filter_nil, List.map_nil, List.sum_nil]
    linarith

theorem Bounded.advance (bounded : b.Bounded cap rate) (rate_nonneg : 0 ≤ rate) {now : K}
    (later : b.last ≤ now) : (b.advance cap rate now).Bounded cap rate := by
  have cap_nonneg : 0 ≤ cap := le_trans bounded.nonneg bounded.le_cap
  have inflow : 0 ≤ (now - b.last) * rate := mul_nonneg (sub_nonneg.mpr later) rate_nonneg
  have past : ∀ g ∈ b.grants, g.1 ≤ now := fun g member => le_trans (bounded.past g member) later
  refine ⟨?_, min_le_left .., past, fun t early => ?_, bounded.within⟩
  · exact le_min cap_nonneg (add_nonneg bounded.nonneg inflow)
  · show granted b.grants t now + min cap (b.level + (now - b.last) * rate) ≤ cap + rate * (now - t)
    rcases le_or_gt t b.last with before | after
    · -- what flowed in since the last look is what the bound gained
      have spent := bounded.since t before
      have level := min_le_right cap (b.level + (now - b.last) * rate)
      rw [granted_congr past bounded.past]
      calc granted b.grants t b.last + min cap (b.level + (now - b.last) * rate)
          ≤ (granted b.grants t b.last + b.level) + (now - b.last) * rate := by linarith
        _ ≤ (cap + rate * (b.last - t)) + (now - b.last) * rate := by linarith
        _ = cap + rate * (now - t) := by ring
    · -- nothing was taken since `t`
      have level := min_le_left cap (b.level + (now - b.last) * rate)
      have flow : 0 ≤ rate * (now - t) := mul_nonneg rate_nonneg (sub_nonneg.mpr early)
      rw [granted_eq_zero fun g member => lt_of_le_of_lt (bounded.past g member) after]
      linarith

theorem Bounded.take (bounded : b.Bounded cap rate) (rate_nonneg : 0 ≤ rate) {amount : K}
    (positive : 0 ≤ amount) (enough : amount ≤ b.level) : (b.take amount).Bounded cap rate := by
  have le_cap := bounded.le_cap
  refine ⟨sub_nonneg.mpr enough, ?_, fun g member => ?_, fun t early => ?_, fun t₁ t₂ order => ?_⟩
  · show b.level - amount ≤ cap
    linarith
  · rcases List.mem_append.mp member with old | new
    · exact bounded.past g old
    · rw [List.mem_singleton.mp new]
      exact le_refl b.last
  · show granted (b.grants ++ [(b.last, amount)]) t b.last + (b.level - amount) ≤ cap + rate * (b.last - t)
    have spent := bounded.since t early
    rw [granted_append_single, if_pos ⟨early, le_refl _⟩]
    linarith
  · show granted (b.grants ++ [(b.last, amount)]) t₁ t₂ ≤ cap + rate * (t₂ - t₁)
    rw [granted_append_single]
    by_cases inside : t₁ ≤ b.last ∧ b.last ≤ t₂
    · have spent := bounded.since t₁ inside.1
      have past : ∀ g ∈ b.grants, g.1 ≤ t₂ := fun g member => le_trans (bounded.past g member) inside.2
      have flow : 0 ≤ rate * (t₂ - b.last) := mul_nonneg rate_nonneg (sub_nonneg.mpr inside.2)
      rw [if_pos inside, granted_congr past bounded.past]
      calc granted b.grants t₁ b.last + amount
          ≤ granted b.grants t₁ b.last + b.level := by linarith
        _ ≤ (cap + rate * (b.last - t₁)) + rate * (t₂ - b.last) := by linarith
        _ = cap + rate * (t₂ - t₁) := by ring
    · rw [if_neg inside, add_zero]
      exact bounded.within t₁ t₂ order

/-! ## Filling -/

/-- **A look in between does not matter.** -/
theorem advance_advance (rate_nonneg : 0 ≤ rate) {t now : K} (late : t ≤ now) :
    (b.advance cap rate t).advance cap rate now = b.advance cap rate now := by
  have inflow : 0 ≤ (now - t) * rate := mul_nonneg (sub_nonneg.mpr late) rate_nonneg
  have split_ : b.level + (now - b.last) * rate = b.level + (t - b.last) * rate + (now - t) * rate := by ring
  have level : min cap (min cap (b.level + (t - b.last) * rate) + (now - t) * rate) =
      min cap (b.level + (now - b.last) * rate) := by
    rw [split_]
    rcases le_total cap (b.level + (t - b.last) * rate) with full | filling
    · rw [min_eq_left full, min_eq_left (le_add_of_nonneg_right inflow),
        min_eq_left (le_add_of_le_of_nonneg full inflow)]
    · rw [min_eq_right filling]
  simp only [advance, level]

/-- **A bucket nothing is taken from fills**, however often it is looked at. -/
theorem filled_advance {t now : K} (filled : b.Filled cap rate t) (rate_nonneg : 0 ≤ rate)
    (later : b.last ≤ now) : (b.advance cap rate now).Filled cap rate t := by
  have inflow : 0 ≤ (now - b.last) * rate := mul_nonneg (sub_nonneg.mpr later) rate_nonneg
  show min cap ((now - t) * rate) ≤ min cap (b.level + (now - b.last) * rate)
  refine le_min (min_le_left ..) ?_
  rcases min_choice cap ((b.last - t) * rate) with full | filling
  · have level : cap ≤ b.level := full ▸ filled
    exact le_trans (min_le_left ..) (le_trans level (le_add_of_nonneg_right inflow))
  · have level : (b.last - t) * rate ≤ b.level := filling ▸ filled
    calc min cap ((now - t) * rate) ≤ (now - t) * rate := min_le_right ..
      _ = (b.last - t) * rate + (now - b.last) * rate := by ring
      _ ≤ b.level + (now - b.last) * rate := by linarith

end Bucket

end BrokerLite.Theory
