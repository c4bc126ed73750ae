/-
# Theory.OrderStatistic -- the elements of a list by their rank

`IsRank l k a` says that `a` is an element of rank `k` of `l`, counted from zero:
more than `k` elements are at most `a`, and all but `k` are at least `a`.  This says
nothing about the order of the list.  Ranks respect the order (`IsRank.le`), so
there is one element of each rank (`IsRank.unique`), and a sorted list has it at the
index (`isRank_getElem`).
-/
import Mathlib.Data.List.Sort

namespace BrokerLite.Theory

set_option autoImplicit false

universe u

variable {α : Type u} [LinearOrder α]

/-- `a` is an element of rank `k`. -/
structure IsRank (l : List α) (k : ℕ) (a : α) : Prop where
  mem : a ∈ l
  lower : k + 1 ≤ l.countP (· ≤ a)
  upper : l.length - k ≤ l.countP (a ≤ ·)

variable {l l' : List α} {i j k : ℕ} {a b : α}

/-- Elements below `b` and elements from `a` on are different elements. -/
theorem countP_add_countP_le (lower : b < a) :
    l.countP (· ≤ b) + l.countP (a ≤ ·) ≤ l.length := by
  rw [List.length_eq_countP_add_countP (· ≤ b)]
  apply Nat.add_le_add_left
  apply List.countP_mono_left
  intro x _ above
  have above : a ≤ x := by simpa using above
  simpa using lt_of_lt_of_le lower above

theorem IsRank.le (first : IsRank l i a) (second : IsRank l j b) (ranks : i ≤ j) : a ≤ b := by
  by_contra lower
  have apart := countP_add_countP_le (l := l) (not_le.mp lower)
  have below := second.lower
  have above := first.upper
  omega

theorem IsRank.unique (first : IsRank l k a) (second : IsRank l k b) : a = b :=
  le_antisymm (first.le second le_rfl) (second.le first le_rfl)

/-- The ranks do not depend on the order of the list. -/
theorem IsRank.perm (rank : IsRank l k a) (perm : l.Perm l') : IsRank l' k a where
  mem := perm.subset rank.mem
  lower := by
    rw [← perm.countP_eq]
    exact rank.lower
  upper := by
    rw [← perm.countP_eq, ← perm.length_eq]
    exact rank.upper

/-- In a sorted list the index is the rank. -/
theorem isRank_getElem (sorted : l.SortedLE) (inside : k < l.length) : IsRank l k l[k] where
  mem := List.getElem_mem inside
  lower := by
    have all : (l.take (k + 1)).countP (· ≤ l[k]) = (l.take (k + 1)).length := by
      apply List.countP_eq_length.mpr
      intro x member
      obtain ⟨i, early, rfl⟩ := List.mem_take_iff_getElem.mp member
      have before : l[i] ≤ l[k] := sorted.getElem_le_getElem_of_le (by omega)
      simpa using before
    have length : (l.take (k + 1)).length = k + 1 := List.length_take_of_le inside
    rw [← length, ← all]
    exact (List.take_sublist ..).countP_le
  upper := by
    have all : (l.drop k).countP (l[k] ≤ ·) = (l.drop k).length := by
      apply List.countP_eq_length.mpr
      intro x member
      obtain ⟨i, late, rfl⟩ := List.mem_drop_iff_getElem.mp member
      have after : l[k] ≤ l[k + i] := sorted.getElem_le_getElem_of_le (Nat.le_add_right ..)
      simpa using after
    rw [← List.length_drop, ← all]
    exact (List.drop_sublist ..).countP_le

end BrokerLite.Theory
