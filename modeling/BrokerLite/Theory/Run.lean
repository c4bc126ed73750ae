/-
# Theory.Run -- runs of a step function, and what survives them

A system is a step function `step : σ → ι → σ` over states and inputs.  A run
feeds it a list of inputs; `Guarded` says that every input met a condition in
the state it was taken from.  Three rules carry the whole-run results:

* `run_invariant`: what one guarded step preserves, a guarded run preserves
  (`run_preserves` without a guard);
* `run_mono`: a measure that no guarded step lowers is not lowered by a run;
* `guarded_append`: a run splits, so a fact about all runs is a fact about
  every state on the way.
-/
import Mathlib.Order.Basic

namespace BrokerLite.Theory

set_option autoImplicit false

universe u v w

variable {σ : Type u} {ι : Type v} (step : σ → ι → σ)

/-- The state after the inputs, taken in order. -/
def run (s : σ) (inputs : List ι) : σ := inputs.foldl step s

/-- Every input of the run meets `guard` in the state it is taken from. -/
def Guarded (guard : σ → ι → Prop) : σ → List ι → Prop
  | _, [] => True
  | s, i :: rest => guard s i ∧ Guarded guard (step s i) rest

instance Guarded.decidable (guard : σ → ι → Prop) [∀ s i, Decidable (guard s i)] :
    ∀ s inputs, Decidable (Guarded step guard s inputs)
  | _, [] => isTrue trivial
  | s, i :: rest =>
      match Guarded.decidable guard (step s i) rest with
      | isTrue later => decidable_of_iff (guard s i) ⟨fun h => ⟨h, later⟩, fun h => h.1⟩
      | isFalse later => isFalse fun h => later h.2

@[simp] theorem run_nil (s : σ) : run step s [] = s := rfl

@[simp] theorem run_cons (s : σ) (i : ι) (rest : List ι) :
    run step s (i :: rest) = run step (step s i) rest := rfl

theorem run_append (s : σ) (before after : List ι) :
    run step s (before ++ after) = run step (run step s before) after :=
  List.foldl_append

/-- Two systems that take the same inputs stay related if every input relates them again. -/
theorem run_related {τ : Type w} {other : τ → ι → τ} {R : σ → τ → Prop}
    (related : ∀ s t i, R s t → R (step s i) (other t i)) {s : σ} {t : τ} (start : R s t)
    (inputs : List ι) : R (run step s inputs) (run other t inputs) := by
  induction inputs generalizing s t with
  | nil => exact start
  | cons i rest ih => exact ih (related s t i start)

section Guard

variable {step} {guard : σ → ι → Prop}

@[simp] theorem guarded_nil (s : σ) : Guarded step guard s [] := trivial

@[simp] theorem guarded_cons (s : σ) (i : ι) (rest : List ι) :
    Guarded step guard s (i :: rest) ↔ guard s i ∧ Guarded step guard (step s i) rest := Iff.rfl

theorem guarded_append (s : σ) (before after : List ι) :
    Guarded step guard s (before ++ after) ↔
      Guarded step guard s before ∧ Guarded step guard (run step s before) after := by
  induction before generalizing s with
  | nil => simp
  | cons i rest ih => simp [ih, and_assoc]

/-- A run is guarded when every one of its inputs meets the guard where it is taken. -/
theorem guarded_iff_split {s : σ} {inputs : List ι} : Guarded step guard s inputs ↔
    ∀ before i after, inputs = before ++ i :: after → guard (run step s before) i := by
  constructor
  · rintro guarded before i after rfl
    exact ((guarded_append s before (i :: after)).mp guarded).2.1
  · intro each
    induction inputs generalizing s with
    | nil => trivial
    | cons i rest ih =>
        exact ⟨each [] i rest rfl, ih fun before j after split =>
          each (i :: before) j after (congrArg (i :: ·) split)⟩

/-- A prefix of a guarded run is guarded. -/
theorem Guarded.of_prefix {s : σ} {before inputs : List ι} (guarded : Guarded step guard s inputs)
    (early : before <+: inputs) : Guarded step guard s before := by
  obtain ⟨after, rfl⟩ := early
  exact ((guarded_append s before after).mp guarded).1

/-- What one guarded step preserves, a guarded run preserves. -/
theorem run_invariant {Inv : σ → Prop} (preserved : ∀ s i, Inv s → guard s i → Inv (step s i))
    {s : σ} {inputs : List ι} (start : Inv s) (guarded : Guarded step guard s inputs) :
    Inv (run step s inputs) := by
  induction inputs generalizing s with
  | nil => exact start
  | cons i rest ih => exact ih (preserved s i start guarded.1) guarded.2

/-- What every step preserves, every run preserves. -/
theorem run_preserves {Inv : σ → Prop} (preserved : ∀ s i, Inv s → Inv (step s i)) {s : σ}
    (start : Inv s) (inputs : List ι) : Inv (run step s inputs) := by
  induction inputs generalizing s with
  | nil => exact start
  | cons i rest ih => exact ih (preserved s i start)

/-- Where a step is good exactly when it is guarded, and a guarded step keeps the
invariant, a run passes through good states only exactly when it is guarded. -/
theorem forall_prefix_iff_guarded_of_invariant {Inv P : σ → Prop}
    (preserved : ∀ s i, Inv s → guard s i → Inv (step s i))
    (exact_ : ∀ s i, Inv s → (P (step s i) ↔ guard s i)) {s : σ} {inputs : List ι}
    (start : Inv s) (good : P s) :
    (∀ before, before <+: inputs → P (run step s before)) ↔ Guarded step guard s inputs := by
  induction inputs generalizing s with
  | nil =>
      refine iff_of_true (fun before early => ?_) trivial
      rw [List.prefix_nil.mp early]
      exact good
  | cons i rest ih =>
      rw [guarded_cons, ← exact_ s i start]
      constructor
      · intro each
        have next : P (step s i) := each [i] (List.prefix_cons_inj i |>.mpr (List.nil_prefix ..))
        have inv := preserved s i start ((exact_ s i start).mp next)
        refine ⟨next, (ih inv next).mp fun before early => ?_⟩
        exact each (i :: before) ((List.prefix_cons_inj i).mpr early)
      · rintro ⟨next, guarded⟩ before early
        have inv := preserved s i start ((exact_ s i start).mp next)
        cases before with
        | nil => exact good
        | cons j before =>
            obtain ⟨rfl, later⟩ := List.cons_prefix_cons.mp early
            exact (ih inv next).mpr guarded before later

/-- Where a step from a good state is good exactly when it is guarded, a run passes
through good states only exactly when it is guarded. -/
theorem forall_prefix_iff_guarded {Inv P : σ → Prop} (preserved : ∀ s i, Inv s → Inv (step s i))
    (exact_ : ∀ s i, Inv s → P s → (P (step s i) ↔ guard s i)) {s : σ} {inputs : List ι}
    (start : Inv s) (good : P s) :
    (∀ before, before <+: inputs → P (run step s before)) ↔ Guarded step guard s inputs := by
  have preserved' : ∀ s i, Inv s ∧ P s → guard s i → Inv (step s i) ∧ P (step s i) :=
    fun s i both met => ⟨preserved s i both.1, (exact_ s i both.1 both.2).mpr met⟩
  have exact' : ∀ s i, Inv s ∧ P s → (P (step s i) ↔ guard s i) :=
    fun s i both => exact_ s i both.1 both.2
  exact forall_prefix_iff_guarded_of_invariant preserved' exact' ⟨start, good⟩ good

/-- A measure that no guarded step from an invariant state lowers is not
lowered by a guarded run. -/
theorem run_mono {β : Type w} [Preorder β] {Inv : σ → Prop} (measure : σ → β)
    (preserved : ∀ s i, Inv s → guard s i → Inv (step s i))
    (raised : ∀ s i, Inv s → guard s i → measure s ≤ measure (step s i))
    {s : σ} {inputs : List ι} (start : Inv s) (guarded : Guarded step guard s inputs) :
    measure s ≤ measure (run step s inputs) := by
  induction inputs generalizing s with
  | nil => exact le_refl _
  | cons i rest ih =>
      exact le_trans (raised s i start guarded.1) (ih (preserved s i start guarded.1) guarded.2)

/-- Equivalent guards guard the same runs. -/
theorem guarded_congr {other : σ → ι → Prop} (same : ∀ s i, guard s i ↔ other s i) (s : σ)
    (inputs : List ι) : Guarded step guard s inputs ↔ Guarded step other s inputs := by
  induction inputs generalizing s with
  | nil => exact Iff.rfl
  | cons i rest ih => exact and_congr (same s i) (ih (step s i))

/-- A weaker guard guards more runs. -/
theorem Guarded.imp {other : σ → ι → Prop} (implies : ∀ s i, guard s i → other s i) {s : σ}
    {inputs : List ι} (guarded : Guarded step guard s inputs) : Guarded step other s inputs := by
  induction inputs generalizing s with
  | nil => trivial
  | cons i rest ih => exact ⟨implies s i guarded.1, ih guarded.2⟩

/-- Inputs that meet the guard in invariant states and keep the invariant make a guarded run. -/
theorem guarded_of_invariant {Inv : σ → Prop} {P : ι → Prop}
    (met : ∀ s i, Inv s → P i → guard s i ∧ Inv (step s i)) {s : σ} {inputs : List ι} (start : Inv s)
    (all : ∀ i ∈ inputs, P i) : Guarded step guard s inputs := by
  induction inputs generalizing s with
  | nil => trivial
  | cons i rest ih =>
      obtain ⟨here, next⟩ := met s i start (all i List.mem_cons_self)
      exact ⟨here, ih next fun j later => all j (List.mem_cons_of_mem i later)⟩

/-- A run seen through a filter: what is not seen keeps the relation, what is seen makes
both systems move. -/
theorem run_seen {τ : Type w} {other : τ → ι → τ} {R : σ → τ → Prop}
    (seen : ι → Bool)
    (moves : ∀ s t i, R s t → guard s i → seen i = true → R (step s i) (other t i))
    (rests : ∀ s t i, R s t → guard s i → seen i = false → R (step s i) t) {s : σ} {t : τ}
    (start : R s t) {inputs : List ι} (guarded : Guarded step guard s inputs) :
    R (run step s inputs) (run other t (inputs.filter seen)) := by
  induction inputs generalizing s t with
  | nil => exact start
  | cons i rest ih =>
      cases visible : seen i with
      | true =>
          rw [List.filter_cons_of_pos visible]
          exact ih (moves s t i start guarded.1 visible) guarded.2
      | false =>
          rw [List.filter_cons_of_neg (by simp [visible])]
          exact ih (rests s t i start guarded.1 visible) guarded.2

/-- A condition that every input meets joins the guard. -/
theorem Guarded.and {P : ι → Prop} {s : σ} {inputs : List ι} (guarded : Guarded step guard s inputs)
    (all : ∀ i ∈ inputs, P i) : Guarded step (fun s i => guard s i ∧ P i) s inputs := by
  induction inputs generalizing s with
  | nil => trivial
  | cons i rest ih =>
      exact ⟨⟨guarded.1, all i List.mem_cons_self⟩,
        ih guarded.2 fun j later => all j (List.mem_cons_of_mem i later)⟩

end Guard

end BrokerLite.Theory
