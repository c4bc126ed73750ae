/-
# Theory.Backoff -- delays that grow geometrically up to a cap

`capped initial factor cap k` is the delay before retry number `k`: `initial`
times `factor` to the `k`, but at most `cap`.  With a factor of at least one the
delays do not decrease.  `between lo hi` lists the integers from `lo` below `hi`.
-/
import Mathlib.Algebra.Order.Field.Power
import Mathlib.Data.List.Range
import Mathlib.Order.Lattice

namespace BrokerLite.Theory

set_option autoImplicit false

universe u

/-! ## Integers in a row -/

def between (lo hi : ℤ) : List ℤ := (List.range (hi - lo).toNat).map fun k : ℕ => lo + (k : ℤ)

@[simp] theorem length_between (lo hi : ℤ) : (between lo hi).length = (hi - lo).toNat := by
  simp [between]

theorem mem_between {lo hi a : ℤ} : a ∈ between lo hi ↔ lo ≤ a ∧ a < hi := by
  simp only [between, List.mem_map, List.mem_range]
  constructor
  · rintro ⟨k, below, rfl⟩
    omega
  · rintro ⟨low, high⟩
    exact ⟨(a - lo).toNat, by omega, by omega⟩

theorem between_eq_nil {lo hi : ℤ} (empty : hi ≤ lo) : between lo hi = [] := by
  rw [between, Int.toNat_of_nonpos (by omega), List.range_zero, List.map_nil]

/-- The integers below `hi` among those below `hi + 1`. -/
theorem filter_between (lo hi : ℤ) :
    (between lo (hi + 1)).filter (fun a => a < hi) = between lo hi := by
  rcases le_or_gt lo hi with inside | outside
  · have more : (hi + 1 - lo).toNat = (hi - lo).toNat + 1 := by omega
    have kept : (between lo hi).filter (fun a => a < hi) = between lo hi :=
      List.filter_eq_self.mpr fun a member => decide_eq_true (mem_between.mp member).2
    have last : ¬ lo + ((hi - lo).toNat : ℤ) < hi := by omega
    rw [between, more, List.range_succ, List.map_append, List.filter_append]
    rw [between] at kept
    simp only [kept, List.map_singleton, List.filter_singleton, decide_eq_false last]
    simp [between]
  · rw [between_eq_nil (by omega), between_eq_nil (by omega), List.filter_nil]

/-! ## Capped growth -/

section Capped

variable {K : Type u} [Field K] [LinearOrder K]

def capped (initial factor cap : K) (k : ℤ) : K := min (initial * factor ^ k) cap

variable {initial factor cap : K}

theorem capped_le (k : ℤ) : capped initial factor cap k ≤ cap := min_le_right ..

variable [IsStrictOrderedRing K]

theorem capped_mono (initial_nonneg : 0 ≤ initial) (grows : 1 ≤ factor) {k l : ℤ} (order : k ≤ l) :
    capped initial factor cap k ≤ capped initial factor cap l :=
  min_le_min_right cap
    (mul_le_mul_of_nonneg_left (zpow_le_zpow_right₀ grows order) initial_nonneg)

theorem capped_pos (initial_pos : 0 < initial) (cap_pos : 0 < cap) (grows : 1 ≤ factor) (k : ℤ) :
    0 < capped initial factor cap k :=
  lt_min (mul_pos initial_pos (zpow_pos (lt_of_lt_of_le one_pos grows) k)) cap_pos

/-- Delays in a row do not decrease. -/
theorem pairwise_capped (initial_nonneg : 0 ≤ initial) (grows : 1 ≤ factor) (lo hi : ℤ) :
    ((between lo hi).map fun a => capped initial factor cap (a - 1)).Pairwise (· ≤ ·) := by
  rw [between, List.map_map, List.pairwise_map]
  apply List.pairwise_lt_range.imp
  intro i j earlier
  apply capped_mono initial_nonneg grows
  show lo + (i : ℤ) - 1 ≤ lo + j - 1
  omega

end Capped

end BrokerLite.Theory
