/-
# Theory.Numbered -- logs whose numbers run without a gap

`Numbered f n l` says that the entries of `l` carry the numbers `n`, `n + 1`, …:
the position of an entry and its number determine each other.  The entries from a
number on are then a suffix that can be computed (`since_eq_drop`).
-/
import BrokerLite.Theory.OffsetLog

namespace BrokerLite.Theory

set_option autoImplicit false

universe u

variable {α : Type u} {f : α → ℤ}

def Numbered (f : α → ℤ) : ℤ → List α → Prop
  | _, [] => True
  | n, x :: rest => f x = n ∧ Numbered f (n + 1) rest

@[simp] theorem numbered_nil (n : ℤ) : Numbered f n [] := trivial

@[simp] theorem numbered_cons (n : ℤ) (x : α) (rest : List α) :
    Numbered f n (x :: rest) ↔ f x = n ∧ Numbered f (n + 1) rest := Iff.rfl

theorem numbered_append (n : ℤ) (l l' : List α) :
    Numbered f n (l ++ l') ↔ Numbered f n l ∧ Numbered f (n + l.length) l' := by
  induction l generalizing n with
  | nil => simp
  | cons x rest ih =>
      rw [List.cons_append, numbered_cons, numbered_cons, ih, List.length_cons, and_assoc]
      push_cast
      rw [add_right_comm, add_assoc]

namespace Numbered

variable {n : ℤ} {l : List α}

/-- The number of an entry is given by its position. -/
theorem at_position (numbered : Numbered f n l) {i : ℕ} {x : α} (found : l[i]? = some x) :
    f x = n + i := by
  induction l generalizing n i with
  | nil => simp at found
  | cons y rest ih =>
      cases i with
      | zero =>
          have same : y = x := by simpa using found
          simpa [same] using numbered.1
      | succ i =>
          have later := ih numbered.2 (by simpa using found)
          push_cast
          omega

theorem map_eq_range (numbered : Numbered f n l) :
    l.map f = (List.range l.length).map fun (i : ℕ) => n + i := by
  apply List.ext_getElem (by simp)
  intro i inside _
  simp only [List.getElem_map, List.getElem_range]
  exact numbered.at_position (List.getElem?_eq_getElem _)

theorem bounds (numbered : Numbered f n l) {x : α} (member : x ∈ l) :
    n ≤ f x ∧ f x < n + l.length := by
  obtain ⟨i, found⟩ := List.mem_iff_getElem?.mp member
  have inside := (List.getElem?_eq_some_iff.mp found).1
  have number := numbered.at_position found
  omega

theorem last (numbered : Numbered f n l) {x : α} (found : l.getLast? = some x) :
    f x + 1 = n + l.length := by
  rw [List.getLast?_eq_getElem?] at found
  have inside := (List.getElem?_eq_some_iff.mp found).1
  have number := numbered.at_position found
  omega

theorem since_eq_self (numbered : Numbered f n l) {o : ℤ} (early : o ≤ n) : since f o l = l := by
  rw [since, List.filter_eq_self]
  intro x member
  have bounds := numbered.bounds member
  simp
  omega

theorem since_eq_nil (numbered : Numbered f n l) {o : ℤ} (late : n + l.length ≤ o) :
    since f o l = [] := by
  rw [since, List.filter_eq_nil_iff]
  intro x member
  have bounds := numbered.bounds member
  simp
  omega

/-- The entries from `o` on start where the difference of the numbers says. -/
theorem since_eq_drop (numbered : Numbered f n l) (o : ℤ) :
    since f o l = l.drop (o - n).toNat := by
  induction l generalizing n with
  | nil => simp [since]
  | cons x rest ih =>
      rcases Int.lt_or_le n o with late | early
      · have below : ¬ o ≤ f x := by
          rw [numbered.1]
          omega
        have step : (o - n).toNat = (o - (n + 1)).toNat + 1 := by omega
        rw [step, List.drop_succ_cons, ← ih numbered.2, since, since,
          List.filter_cons_of_neg (by simpa using below)]
      · have none : (o - n).toNat = 0 := by omega
        rw [since_eq_self numbered early, none, List.drop_zero]

theorem ascending (numbered : Numbered f n l) : Ascending f l := by
  induction l generalizing n with
  | nil => exact List.Pairwise.nil
  | cons x rest ih =>
      refine List.Pairwise.cons (fun y member => ?_) (ih numbered.2)
      have bounds := numbered.2.bounds member
      have head := numbered.1
      omega

end Numbered

end BrokerLite.Theory
