/-
# Theory.Framing -- a stream of self-delimiting codes, cut anywhere

`encode` writes an item as a list of symbols; a stream is `items.flatMap encode`.
Once `n` symbols of it have arrived, the items that are `complete` are known
(`complete`), and they are all of what arrived but a part of the next one
(`prefix_cases`).  What is complete later is what was complete before and what is
complete in the rest (`complete_append`), which is why a reader may take items
off as they become complete, whatever the cuts are.

A reader of such a stream is a function that takes one item off the front of what
it is given if it is there, and leaves everything otherwise (`Reader`).
-/
import Mathlib.Data.List.Basic

namespace BrokerLite.Theory

set_option autoImplicit false

universe u v w

section Complete

variable {α : Type u} {β : Type v} (encode : β → List α)

/-- The items that have arrived whole with the first `n` symbols. -/
def complete : ℕ → List β → List β
  | _, [] => []
  | n, b :: rest =>
      if (encode b).length ≤ n then b :: complete (n - (encode b).length) rest else []

theorem prefix_complete (n : ℕ) (items : List β) : complete encode n items <+: items := by
  induction items generalizing n with
  | nil => exact List.prefix_refl _
  | cons b rest ih =>
      rw [complete]
      split
      · exact (List.prefix_cons_inj b).mpr (ih _)
      · exact List.nil_prefix

section Cons

variable {encode}

theorem complete_cons_of_le {n : ℕ} {b : β} (whole : (encode b).length ≤ n) (rest : List β) :
    complete encode n (b :: rest) = b :: complete encode (n - (encode b).length) rest := by
  rw [complete, if_pos whole]

theorem complete_cons_of_lt {n : ℕ} {b : β} (part : n < (encode b).length) (rest : List β) :
    complete encode n (b :: rest) = [] := by
  rw [complete, if_neg (Nat.not_le.mpr part)]

end Cons

/-- More items are complete when more has arrived. -/
theorem complete_mono {n k : ℕ} (more : n ≤ k) (items : List β) :
    complete encode n items <+: complete encode k items := by
  induction items generalizing n k with
  | nil => exact List.prefix_refl _
  | cons b rest ih =>
      rw [complete]
      split
      · next whole =>
          rw [complete_cons_of_le (Nat.le_trans whole more)]
          exact (List.prefix_cons_inj b).mpr (ih (by omega))
      · exact List.nil_prefix

/-- The complete items of two stretches. -/
theorem complete_append (before after : List β) (n : ℕ) :
    complete encode ((before.flatMap encode).length + n) (before ++ after) =
      before ++ complete encode n after := by
  induction before with
  | nil => simp
  | cons b rest ih =>
      rw [List.flatMap_cons, List.length_append, List.cons_append, complete_cons_of_le (by omega),
        List.cons_append, ← ih]
      congr 2
      omega

/-- Everything has arrived. -/
theorem complete_all (items : List β) : complete encode (items.flatMap encode).length items = items := by
  have all := complete_append encode items [] 0
  simpa [complete] using all

variable {encode}

/-- What has arrived of a stream is a whole item and more, or a part of one, or
the stream is over. -/
theorem prefix_cases {arrived : List α} {b : β} {rest : List β}
    (prefixed : arrived <+: (b :: rest).flatMap encode) :
    (∃ more, arrived = encode b ++ more ∧ more <+: rest.flatMap encode) ∨
      ∃ missing, missing ≠ [] ∧ encode b = arrived ++ missing := by
  rw [List.flatMap_cons] at prefixed
  rcases List.prefix_or_prefix_of_prefix prefixed (List.prefix_append _ _) with inside | outside
  · obtain ⟨missing, whole⟩ := inside
    by_cases ended : missing = []
    · subst ended
      exact .inl ⟨[], by simpa using whole, List.nil_prefix⟩
    · exact .inr ⟨missing, ended, whole.symm⟩
  · obtain ⟨more, rfl⟩ := outside
    exact .inl ⟨more, rfl, (List.prefix_append_right_inj _).mp prefixed⟩

section Later

variable {items rest : List β} {arrived left : List α}
  (split : items = complete encode arrived.length items ++ rest)
  (taken : arrived = (complete encode arrived.length items).flatMap encode ++ left)

include split taken

/-- What is complete later: what was complete, and what is complete of the rest. -/
theorem complete_later (more : List α) : complete encode (arrived ++ more).length items =
    complete encode arrived.length items ++ complete encode (left ++ more).length rest := by
  have append := complete_append encode (complete encode arrived.length items) rest
    (left ++ more).length
  rw [← split, ← List.length_append, ← List.append_assoc, ← taken] at append
  exact append

/-- With what is left over nothing is complete. -/
theorem complete_left : complete encode left.length rest = [] := by
  have later := complete_later split taken []
  rw [List.append_nil, List.append_nil] at later
  exact List.append_right_eq_self.mp later.symm

/-- What is left over and comes in later is a beginning of the rest. -/
theorem prefix_left {more : List α} (prefixed : arrived ++ more <+: items.flatMap encode) :
    left ++ more <+: rest.flatMap encode := by
  rw [split, List.flatMap_append] at prefixed
  nth_rewrite 1 [taken] at prefixed
  rw [List.append_assoc] at prefixed
  exact (List.prefix_append_right_inj _).mp prefixed

end Later

end Complete

/-- `read` takes an item that is there off the front, and leaves a part of one. -/
structure Reader {α : Type u} {β : Type v} {ε : Type w} (encode : β → List α) (good : β → Prop)
    (read : List α → Except ε (Option β × List α)) : Prop where
  whole : ∀ b rest, good b → read (encode b ++ rest) = .ok (some b, rest)
  part : ∀ b arrived missing, good b → missing ≠ [] → encode b = arrived ++ missing →
    read arrived = .ok (none, arrived)

end BrokerLite.Theory
