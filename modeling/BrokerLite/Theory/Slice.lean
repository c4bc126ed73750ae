/-
# Theory.Slice -- list slices with integer bounds

`slice l start stop` is `l[start:stop]` of a language whose slice bounds may be
any integers: a negative bound counts from the end, and a bound outside the list
is moved to its nearest end.  `sliceTo` is the slice with no lower bound.
-/
import Mathlib.Data.List.TakeDrop
import Mathlib.Tactic.Common

namespace BrokerLite.Theory

set_option autoImplicit false

universe u

variable {α : Type u}

/-- The position a slice bound stands for in a list of `n` elements. -/
def sliceBound (n : Nat) (i : Int) : Nat :=
  if i < 0 then (i + n).toNat else min i.toNat n

def slice (l : List α) (start stop : Int) : List α :=
  (l.take (sliceBound l.length stop)).drop (sliceBound l.length start)

def sliceTo (l : List α) (stop : Int) : List α := l.take (sliceBound l.length stop)

theorem sliceBound_of_nonneg (n : Nat) {i : Int} (nonneg : 0 ≤ i) :
    sliceBound n i = min i.toNat n := by
  simp [sliceBound, Int.not_lt.mpr nonneg]

theorem sliceBound_of_neg (n : Nat) {i : Int} (neg : i < 0) :
    sliceBound n i = (i + n).toNat := by
  simp [sliceBound, neg]

/-- With both bounds counted from the front, a slice is a window. -/
theorem slice_of_nonneg (l : List α) {start stop : Int} (startNonneg : 0 ≤ start)
    (stopNonneg : 0 ≤ stop) :
    slice l start stop = (l.drop start.toNat).take (stop - start).toNat := by
  have counted : (stop - start).toNat = stop.toNat - start.toNat := by omega
  rw [slice, sliceBound_of_nonneg _ startNonneg, sliceBound_of_nonneg _ stopNonneg,
    ← List.take_eq_take_min, counted, List.drop_take]
  rcases Nat.le_total start.toNat l.length with inside | outside
  · rw [Nat.min_eq_left inside]
  · rw [Nat.min_eq_right outside, List.drop_length, List.drop_eq_nil_of_le outside]
    simp

theorem sliceTo_of_nonneg (l : List α) {stop : Int} (nonneg : 0 ≤ stop) :
    sliceTo l stop = l.take stop.toNat := by
  rw [sliceTo, sliceBound_of_nonneg _ nonneg, ← List.take_eq_take_min]

end BrokerLite.Theory
