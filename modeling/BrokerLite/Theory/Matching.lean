/-
# Theory.Matching -- two tables with the same entries

A table is a function into `Option`.  Two tables match when the same values stand
in them.  If no value stands twice in a table, changing one place of each to one
new entry keeps them matching exactly when the two places had the same entry
(`Matching.update_iff`), and clearing a place of one table only when it was clear
(`Matching.clear_iff`).
-/
import Mathlib.Logic.Function.Basic
import Mathlib.Data.Option.Basic

namespace BrokerLite.Theory

set_option autoImplicit false

universe u v w

variable {α : Type u} {β : Type v} {ν : Type w}

/-- No value stands in two places. -/
def Unrepeated (f : α → Option ν) : Prop :=
  ∀ ⦃a a' v⦄, f a = some v → f a' = some v → a = a'

/-- The same values stand in both tables. -/
def Matching (f : α → Option ν) (g : β → Option ν) : Prop :=
  ∀ v, (∃ a, f a = some v) ↔ ∃ b, g b = some v

section Update

variable [DecidableEq α] [DecidableEq β] {f : α → Option ν} {g : β → Option ν} {new : Option ν}

omit [DecidableEq β] in
/-- Clearing a place adds nothing. -/
theorem of_update_none {a a' : α} {v : ν} (there : Function.update f a none a' = some v) :
    f a' = some v := by
  rw [Function.update_apply] at there
  split at there
  · cases there
  · exact there

theorem Unrepeated.update (once : Unrepeated f) (a : α)
    (fresh : ∀ v, new = some v → ∀ a, f a ≠ some v) : Unrepeated (Function.update f a new) := by
  intro b b' v here there
  rw [Function.update_apply] at here there
  split at here <;> split at there
  · next first second => exact first.trans second.symm
  · exact absurd there (fresh v here b')
  · exact absurd here (fresh v there b)
  · exact once here there

/-- What stands in a table after one place changed. -/
theorem Unrepeated.exists_update_iff (once : Unrepeated f) (a : α) (v : ν) :
    (∃ a', Function.update f a new a' = some v) ↔
      new = some v ∨ (∃ a', f a' = some v) ∧ f a ≠ some v := by
  constructor
  · rintro ⟨a', there⟩
    rw [Function.update_apply] at there
    split at there
    · exact .inl there
    · next other => exact .inr ⟨⟨a', there⟩, fun here => other (once there here)⟩
  · rintro (new | ⟨⟨a', there⟩, gone⟩)
    · exact ⟨a, by simp [new]⟩
    · have other : a' ≠ a := by
        rintro rfl
        exact gone there
      exact ⟨a', by simp [other, there]⟩

theorem Matching.update_iff (matching : Matching f g) (onceLeft : Unrepeated f)
    (onceRight : Unrepeated g) (a : α) (b : β) (fresh : ∀ v, new = some v → ∀ a, f a ≠ some v) :
    Matching (Function.update f a new) (Function.update g b new) ↔ f a = g b := by
  simp only [Matching, onceLeft.exists_update_iff, onceRight.exists_update_iff]
  constructor
  · intro same
    apply Option.ext
    intro v
    have listed := matching v
    have apart := same v
    constructor
    · intro here
      have old : new ≠ some v := fun isNew => fresh v isNew a here
      by_contra other
      exact (apart.mpr (.inr ⟨listed.mp ⟨a, here⟩, other⟩)).elim old fun left => left.2 here
    · intro here
      obtain ⟨a', there⟩ := listed.mpr ⟨b, here⟩
      have old : new ≠ some v := fun isNew => fresh v isNew a' there
      by_contra other
      exact (apart.mp (.inr ⟨⟨a', there⟩, other⟩)).elim old fun right => right.2 here
  · intro same v
    rw [matching v, same]

omit [DecidableEq α] in
theorem Matching.clear_iff (matching : Matching f g) (once : Unrepeated g) (b : β) :
    Matching f (Function.update g b none) ↔ g b = none := by
  constructor
  · intro same
    rw [Option.eq_none_iff_forall_ne_some]
    intro v here
    have after := (same v).mp ((matching v).mpr ⟨b, here⟩)
    rw [once.exists_update_iff] at after
    exact after.elim nofun fun kept => kept.2 here
  · intro clear
    rwa [← clear, Function.update_eq_self]

end Update

end BrokerLite.Theory
