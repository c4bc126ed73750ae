/-
# Theory.FairDivision -- dividing a list among holders

`Divided holders held whole` says that the holders together hold `whole`, each
element once, and that no two holdings differ in size by more than one.  Two
ways to divide a list among `n` holders are given:

* `cut (shares total n)`: one contiguous piece each, the first `total % n` of
  them one longer (`divided_of_cut`);
* `deal n`: element `i` goes to holder `i % n` (`divided_of_deal`).

Both give holder `j` exactly `share total n j` elements.
-/
import Mathlib.Algebra.BigOperators.Group.List.Basic
import Mathlib.Data.Int.CardIntervalMod
import Mathlib.Data.List.Range
import Mathlib.Data.List.Perm.Basic

namespace BrokerLite.Theory

set_option autoImplicit false

universe u v w

variable {α : Type u} {κ : Type v}

/-- The size of holding `j` when `total` elements go to `n` holders. -/
def share (total n j : ℕ) : ℕ := total / n + if j < total % n then 1 else 0

def shares (total n : ℕ) : List ℕ := (List.range n).map (share total n)

/-- Contiguous pieces of the given sizes. -/
def cut : List ℕ → List α → List (List α)
  | [], _ => []
  | size :: sizes, l => l.take size :: cut sizes (l.drop size)

/-- What holder `j` of `n` gets when the elements are dealt in turn. -/
def deal (n : ℕ) (l : List α) (j : ℕ) : List α :=
  (l.zipIdx.filter fun e => e.2 % n = j).map Prod.fst

structure Divided (holders : List κ) (held : κ → List α) (whole : List α) : Prop where
  all : (holders.flatMap held).Perm whole
  even : ∀ a ∈ holders, ∀ b ∈ holders, (held a).length ≤ (held b).length + 1

theorem share_le (total n i j : ℕ) : share total n i ≤ share total n j + 1 := by
  unfold share
  split <;> split <;> omega

theorem sum_shares {n : ℕ} (pos : 0 < n) (total : ℕ) : (shares total n).sum = total := by
  have upTo : ∀ k r, ((List.range k).map fun j => total / n + if j < r then 1 else 0).sum =
      k * (total / n) + min k r := by
    intro k r
    induction k with
    | zero => simp
    | succ k ih =>
        rw [List.range_succ, List.map_append, List.sum_append, ih, Nat.succ_mul]
        simp only [List.map_cons, List.map_nil, List.sum_singleton]
        split <;> omega
  have rest := Nat.mod_lt total pos
  have whole := Nat.div_add_mod total n
  rw [shares, show share total n = fun j => total / n + if j < total % n then 1 else 0 from rfl,
    upTo, min_eq_right (le_of_lt rest)]
  exact whole

/-! ## Contiguous pieces -/

@[simp] theorem length_cut (sizes : List ℕ) (l : List α) : (cut sizes l).length = sizes.length := by
  induction sizes generalizing l with
  | nil => rfl
  | cons size sizes ih => simp [cut, ih]

theorem flatten_cut {sizes : List ℕ} {l : List α} (sum : sizes.sum = l.length) :
    (cut sizes l).flatten = l := by
  induction sizes generalizing l with
  | nil => simpa [cut] using (List.length_eq_zero_iff.mp (by simpa using sum.symm)).symm
  | cons size sizes ih =>
      rw [List.sum_cons] at sum
      rw [cut, List.flatten_cons, ih (by rw [List.length_drop]; omega), List.take_append_drop]

theorem map_length_cut {sizes : List ℕ} {l : List α} (sum : sizes.sum ≤ l.length) :
    (cut sizes l).map List.length = sizes := by
  induction sizes generalizing l with
  | nil => rfl
  | cons size sizes ih =>
      rw [List.sum_cons] at sum
      rw [cut, List.map_cons, ih (by rw [List.length_drop]; omega), List.length_take,
        min_eq_left (by omega)]

/-! ## Dealing in turn -/

theorem deal_append_single (n : ℕ) (l : List α) (x : α) (j : ℕ) :
    deal n (l ++ [x]) j = deal n l j ++ if l.length % n = j then [x] else [] := by
  simp only [deal, List.zipIdx_append, List.filter_append, List.map_append]
  by_cases here : l.length % n = j <;> simp [here]

theorem length_deal {n : ℕ} (pos : 0 < n) (l : List α) {j : ℕ} (inside : j < n) :
    (deal n l j).length = share l.length n j := by
  have counted := Nat.count_modEq_card l.length pos j
  rw [Nat.mod_eq_of_lt inside] at counted
  rw [share, ← counted]
  clear counted
  induction l using List.reverseRecOn with
  | nil => rfl
  | append_singleton l x ih =>
      rw [deal_append_single, List.length_append, ih, List.length_append, List.length_singleton,
        Nat.count_succ]
      simp only [Nat.ModEq, Nat.mod_eq_of_lt inside]
      split <;> rfl

/-- Every element is dealt to somebody, once. -/
theorem perm_deal {n : ℕ} (pos : 0 < n) (l : List α) :
    ((List.range n).flatMap (deal n l)).Perm l := by
  induction l using List.reverseRecOn with
  | nil =>
      have none_ : deal n ([] : List α) = fun _ => [] := rfl
      simp [none_]
  | append_singleton l x ih =>
      have dealt : (List.range n).flatMap (deal n (l ++ [x])) =
          (List.range n).flatMap fun j => deal n l j ++ if l.length % n = j then [x] else [] :=
        congrArg (List.flatMap · (List.range n)) (funext (deal_append_single n l x))
      have last : ((List.range n).flatMap fun j => if l.length % n = j then [x] else []).Perm [x] := by
        have inside : l.length % n ∈ List.range n := List.mem_range.mpr (Nat.mod_lt _ pos)
        obtain ⟨before, after, split⟩ := List.append_of_mem inside
        have distinct := List.nodup_range (n := n)
        rw [split, List.nodup_middle, List.nodup_cons, List.mem_append, not_or] at distinct
        have nothing : ∀ js : List ℕ, l.length % n ∉ js →
            (js.flatMap fun j => if l.length % n = j then [x] else []) = [] := by
          intro js absent
          refine List.flatMap_eq_nil_iff.mpr fun j member => if_neg ?_
          rintro rfl
          exact absent member
        rw [split, List.flatMap_append, List.flatMap_cons, if_pos rfl, nothing _ distinct.1.1,
          nothing _ distinct.1.2]
        exact List.Perm.refl _
      rw [dealt]
      exact (List.flatMap_append_perm _ _ _).symm.trans (ih.append last)

/-! ## Both divide the list evenly -/

variable {holders : List κ} {held : κ → List α} {whole : List α}

theorem divided_of_cut (nonempty : 0 < holders.length)
    (pieces : holders.map held = cut (shares whole.length holders.length) whole) :
    Divided holders held whole := by
  have total := sum_shares nonempty whole.length
  have sizes := map_length_cut (le_of_eq total)
  rw [← pieces, List.map_map] at sizes
  have size : ∀ a ∈ holders, ∃ j, (held a).length = share whole.length holders.length j := by
    intro a member
    have listed : (held a).length ∈ shares whole.length holders.length :=
      sizes ▸ List.mem_map_of_mem (f := List.length ∘ held) member
    obtain ⟨j, -, same⟩ := List.mem_map.mp listed
    exact ⟨j, same.symm⟩
  refine ⟨?_, fun a first b second => ?_⟩
  · rw [List.flatMap_def, pieces, flatten_cut total]
  · obtain ⟨i, left⟩ := size a first
    obtain ⟨j, right⟩ := size b second
    rw [left, right]
    exact share_le ..

theorem divided_of_deal (nonempty : 0 < holders.length)
    (pieces : holders.map held = (List.range holders.length).map (deal holders.length whole)) :
    Divided holders held whole := by
  have size : ∀ a ∈ holders, ∃ j, (held a).length = share whole.length holders.length j := by
    intro a member
    have listed : held a ∈ (List.range holders.length).map (deal holders.length whole) :=
      pieces ▸ List.mem_map_of_mem member
    obtain ⟨j, inside, same⟩ := List.mem_map.mp listed
    exact ⟨j, by rw [← same, length_deal nonempty whole (List.mem_range.mp inside)]⟩
  refine ⟨?_, fun a first b second => ?_⟩
  · rw [List.flatMap_def, pieces, ← List.flatMap_def]
    exact perm_deal nonempty whole
  · obtain ⟨i, left⟩ := size a first
    obtain ⟨j, right⟩ := size b second
    rw [left, right]
    exact share_le ..

namespace Divided

variable (divided : Divided holders held whole) (once : whole.Nodup)

include divided

theorem mem_iff {x : α} : x ∈ whole ↔ ∃ a ∈ holders, x ∈ held a := by
  rw [← divided.all.mem_iff, List.mem_flatMap]

/-- What the holders add up together is what the whole adds up to. -/
theorem sum_map {M : Type w} [AddCommMonoid M] (f : α → M) :
    (holders.map fun a => ((held a).map f).sum).sum = (whole.map f).sum := by
  have flat : ∀ l : List κ, ((l.flatMap held).map f).sum = (l.map fun a => ((held a).map f).sum).sum := by
    intro l
    induction l with
    | nil => rfl
    | cons a rest ih => simp only [List.flatMap_cons, List.map_append, List.sum_append, ih,
        List.map_cons, List.sum_cons]
  rw [← flat]
  exact (divided.all.map f).sum_eq

include once

theorem nodup {a : κ} (member : a ∈ holders) : (held a).Nodup :=
  (List.nodup_flatMap.mp (divided.all.nodup_iff.mpr once)).1 a member

/-- Different holders have nothing in common. -/
theorem holder_unique {a b : κ} {x : α} (first : a ∈ holders) (second : b ∈ holders)
    (left : x ∈ held a) (right : x ∈ held b) : a = b := by
  by_contra other
  have apart := (List.nodup_flatMap.mp (divided.all.nodup_iff.mpr once)).2
  have symmetric : Std.Symm (Function.onFun List.Disjoint held) := ⟨fun _ _ disjoint => disjoint.symm⟩
  exact apart.forall first second other left right

theorem exists_unique {x : α} (member : x ∈ whole) : ∃! a, a ∈ holders ∧ x ∈ held a := by
  obtain ⟨a, holder, holds⟩ := divided.mem_iff.mp member
  exact ⟨a, ⟨holder, holds⟩, fun b other => divided.holder_unique once other.1 holder other.2 holds⟩

end Divided

end BrokerLite.Theory
