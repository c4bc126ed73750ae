/-
# Theory.Line -- a line in order of arrival, served by priority

Things stand in line in the order in which they came.  Served next is the first
of those with the highest priority (`Next`), and `Served` is the order in which
a whole line is served when nothing more comes: things of one priority in the
order of the line (`Served.pairwise_iff`).

A store that numbers its arrivals, and hands out the highest priority and under
that the least number, serves the line (`Next.of_least`).
-/
import Mathlib.Data.List.Basic
import Mathlib.Order.Lattice

namespace BrokerLite.Theory

set_option autoImplicit false

universe u v w x

section

variable {α : Type u} {π : Type v} [LinearOrder π] (priority : α → π)

/-- `a` is the first of the highest priority, and `rest` the line without it. -/
def Next (line : List α) (a : α) (rest : List α) : Prop :=
  ∃ ahead behind, line = ahead ++ a :: behind ∧ rest = ahead ++ behind ∧
    (∀ b ∈ ahead, priority b < priority a) ∧ ∀ b ∈ behind, priority b ≤ priority a

/-- `out` is the line in the order in which it is served. -/
inductive Served : List α → List α → Prop
  | nil : Served [] []
  | cons {line : List α} {a : α} {rest out : List α} (next : Next priority line a rest)
      (later : Served rest out) : Served line (a :: out)

variable {priority} {line rest out : List α} {a : α}

theorem Next.perm (next : Next priority line a rest) : line.Perm (a :: rest) := by
  obtain ⟨ahead, behind, rfl, rfl, -⟩ := next
  exact List.perm_middle

theorem Next.sublist (next : Next priority line a rest) : rest.Sublist line := by
  obtain ⟨ahead, behind, rfl, rfl, -⟩ := next
  exact List.Sublist.append_left (List.sublist_cons_self a behind) ahead

/-- **The least by priority and number is the first of the highest priority**, when the
numbers ascend along the line. -/
theorem Next.of_least {number : α → ℕ} (ascending : line.Pairwise fun b c => number b < number c)
    (member : a ∈ line)
    (least : ∀ b ∈ line, priority b < priority a ∨ priority b = priority a ∧ number a ≤ number b) :
    ∃ rest, Next priority line a rest := by
  obtain ⟨ahead, behind, rfl⟩ := List.append_of_mem member
  refine ⟨_, ahead, behind, rfl, rfl, fun b before => ?_, fun b after => ?_⟩
  · rcases least b (by simp [before]) with lower | ⟨-, late⟩
    · exact lower
    · have early := (List.pairwise_append.mp ascending).2.2 b before a List.mem_cons_self
      omega
  · rcases least b (by simp [after]) with lower | ⟨same, -⟩
    · exact le_of_lt lower
    · exact le_of_eq same

theorem Next.map {γ : Type x} {f : α → γ} {level : γ → π} (next : Next priority line a rest)
    (same : ∀ b ∈ line, level (f b) = priority b) : Next level (line.map f) (f a) (rest.map f) := by
  obtain ⟨ahead, behind, rfl, rfl, higher, highest⟩ := next
  have here := same a (by simp)
  refine ⟨ahead.map f, behind.map f, by simp, by simp, ?_, ?_⟩
  · simp only [List.forall_mem_map]
    intro b before
    rw [same b (by simp [before]), here]
    exact higher b before
  · simp only [List.forall_mem_map]
    intro b after
    rw [same b (by simp [after]), here]
    exact highest b after

/-- Two lines of the same things, told apart by more or by less, are served alike. -/
theorem Next.transport {β : Type w} {γ : Type x} (f : α → γ) (g : β → γ) (level : γ → π)
    {line' : List β} (same : line.map f = line'.map g)
    (next : Next (fun a => level (f a)) line a rest) :
    ∃ b rest', Next (fun b => level (g b)) line' b rest' ∧ g b = f a ∧ rest'.map g = rest.map f := by
  obtain ⟨ahead, behind, rfl, rfl, higher, highest⟩ := next
  rw [List.map_append, List.map_cons] at same
  obtain ⟨ahead', later, rfl, front, back⟩ := List.map_eq_append_iff.mp same.symm
  obtain ⟨b, behind', rfl, here, tail⟩ := List.map_eq_cons_iff.mp back
  refine ⟨b, _, ⟨ahead', behind', rfl, rfl, fun c before => ?_, fun c after => ?_⟩, here, ?_⟩
  · have image : g c ∈ ahead.map f := front ▸ List.mem_map_of_mem before
    obtain ⟨d, member, equal⟩ := List.mem_map.mp image
    show level (g c) < level (g b)
    rw [← equal, here]
    exact higher d member
  · have image : g c ∈ behind.map f := tail ▸ List.mem_map_of_mem after
    obtain ⟨d, member, equal⟩ := List.mem_map.mp image
    show level (g c) ≤ level (g b)
    rw [← equal, here]
    exact highest d member
  · rw [List.map_append, List.map_append, front, tail]

/-- Taking the first thing of a kind serves the line, if that kind has the priority of `a`. -/
theorem Next.eraseP {kind : α → Bool} (next : Next priority line a rest) (here : kind a = true)
    (level : ∀ b ∈ line, kind b = true → priority b = priority a) :
    line.eraseP kind = rest ∧ line.find? kind = some a := by
  obtain ⟨ahead, behind, rfl, rfl, higher, -⟩ := next
  have other : ∀ b ∈ ahead, kind b = false := by
    intro b before
    by_contra also
    have equal := level b (List.mem_append_left _ before) (by simpa using also)
    exact absurd equal (ne_of_lt (higher b before))
  constructor
  · rw [List.eraseP_append_right _ (by simpa using other), List.eraseP_cons_of_pos here]
  · rw [List.find?_append, List.find?_eq_none.mpr (by simpa using other)]
    simp [here]

theorem Served.perm (served : Served priority line out) : out.Perm line := by
  induction served with
  | nil => exact .nil
  | cons next _ ih => exact (ih.cons _).trans next.perm.symm

/-- What is served next comes before everything of its priority. -/
theorem Next.pairwise_iff {R : α → α → Prop} (next : Next priority line a rest) :
    (line.Pairwise fun b c => priority b = priority c → R b c) ↔
      (∀ c ∈ rest, priority a = priority c → R a c) ∧
        rest.Pairwise fun b c => priority b = priority c → R b c := by
  obtain ⟨ahead, behind, rfl, rfl, higher, -⟩ := next
  have lower : ∀ b ∈ ahead, priority b ≠ priority a := fun b before => ne_of_lt (higher b before)
  simp only [List.pairwise_append, List.pairwise_cons, List.mem_cons, List.mem_append]
  constructor
  · rintro ⟨front, ⟨first, back⟩, across⟩
    refine ⟨?_, front, back, fun b before c after => across b before c (.inr after)⟩
    rintro c (before | after) same
    · exact absurd same.symm (lower c before)
    · exact first c after same
  · rintro ⟨first, front, back, across⟩
    refine ⟨front, ⟨fun c after => first c (.inr after), back⟩, ?_⟩
    rintro b before c (rfl | after) same
    · exact absurd same (lower b before)
    · exact across b before c after same

/-- **Things of one priority are served in the order of the line.** -/
theorem Served.pairwise_iff {R : α → α → Prop} (served : Served priority line out) :
    (out.Pairwise fun b c => priority b = priority c → R b c) ↔
      line.Pairwise fun b c => priority b = priority c → R b c := by
  induction served with
  | nil => exact Iff.rfl
  | cons next later ih =>
      rw [List.pairwise_cons, ih, next.pairwise_iff]
      simp only [later.perm.mem_iff]

end

end BrokerLite.Theory
