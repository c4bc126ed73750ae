/-
# Theory.Heap -- a heap, by the order in which it gives its entries back

A binary heap answers two questions: what is in it, and which entry is least.
`Heap α key` keeps the entries in ascending order of `key`, with that order as a
field, so both are read off the list.  Where in its array a real heap keeps an
entry is not observed by its users; among entries of equal key it may return
any, and `pop?` returns the newest.
-/
import Mathlib.Data.List.Sort

namespace BrokerLite.Theory

set_option autoImplicit false

universe u v

structure Heap (α : Type u) {κ : Type v} [LinearOrder κ] (key : α → κ) where
  entries : List α
  sorted : entries.Pairwise fun a b => key a ≤ key b

namespace Heap

variable {α : Type u} {κ : Type v} [LinearOrder κ] {key : α → κ}

def empty : Heap α key := ⟨[], .nil⟩

def length (h : Heap α key) : ℕ := h.entries.length

def push (h : Heap α key) (a : α) : Heap α key where
  entries := h.entries.orderedInsert (fun a b => key a ≤ key b) a
  sorted := by
    have : Std.Total fun a b : α => key a ≤ key b := ⟨fun a b => le_total (key a) (key b)⟩
    have : IsTrans α fun a b => key a ≤ key b := ⟨fun _ _ _ => le_trans⟩
    exact h.sorted.orderedInsert a

def pop? (h : Heap α key) : Option (α × Heap α key) :=
  match h with
  | ⟨[], _⟩ => none
  | ⟨a :: rest, sorted⟩ => some (a, ⟨rest, sorted.of_cons⟩)

theorem push_perm (h : Heap α key) (a : α) : (h.push a).entries.Perm (a :: h.entries) :=
  List.perm_orderedInsert _ a h.entries

theorem pop?_eq_none {h : Heap α key} (popped : h.pop? = none) : h.entries = [] := by
  obtain ⟨entries, sorted⟩ := h
  cases entries with
  | nil => rfl
  | cons a rest => cases popped

/-- What is popped was in the heap, and is least of what was there. -/
theorem pop?_eq_some {h rest : Heap α key} {a : α} (popped : h.pop? = some (a, rest)) :
    h.entries = a :: rest.entries ∧ ∀ b ∈ h.entries, key a ≤ key b := by
  obtain ⟨entries, sorted⟩ := h
  cases entries with
  | nil => cases popped
  | cons b tail =>
      cases popped
      refine ⟨rfl, fun c member => ?_⟩
      rcases List.mem_cons.mp member with rfl | later
      · exact le_refl _
      · exact List.rel_of_pairwise_cons sorted later

end Heap

end BrokerLite.Theory
