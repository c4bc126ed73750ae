/-
# Theory.Cursor -- reading data at an offset

A cursor reads the data from an offset on and returns a value with the offset
behind it.  `Reads` says that it finds a value in its bytes wherever these stand;
the rules for a sequence (`Reads.bind`, `Reads.map`) and the rule for a counted loop that
carries a state (`reads_rounds`) are what a decoder's proof consists of.

`Forward`, `Advances` and `AgreesFrom` serve decoders that are bounded by a depth:
two that agree from some offset on cannot be told apart by a reader that has
moved there.
-/
import Mathlib.Data.List.Forall2
import Mathlib.Tactic.Common

namespace BrokerLite.Theory

set_option autoImplicit false

universe u v w x

abbrev Cursor (α : Type u) (ε : Type v) (β : Type w) := List α → ℕ → Except ε (β × ℕ)

variable {α : Type u} {ε : Type v} {β : Type w} {γ : Type x}

namespace Cursor

/-- The cursor that answers without reading. -/
def here (b : β) : Cursor α ε β := fun _ offset => .ok (b, offset)

/-- What is made of the value, which may fail. -/
def map (read : Cursor α ε β) (f : β → Except ε γ) : Cursor α ε γ := fun data offset =>
  match read data offset with
  | .error e => .error e
  | .ok (b, offset) =>
      match f b with
      | .error e => .error e
      | .ok c => .ok (c, offset)

def bind (read : Cursor α ε β) (next : β → Cursor α ε γ) : Cursor α ε γ := fun data offset =>
  match read data offset with
  | .error e => .error e
  | .ok (b, offset) => next b data offset

/-- `count` rounds of a loop that carries a state and the offset. -/
def rounds (step : β → Cursor α ε β) : ℕ → β → Cursor α ε β
  | 0, s => here s
  | count + 1, s => (step s).bind (rounds step count)

/-- The cursor finds `b` in `bytes`, whatever stands before and after them. -/
def Reads (read : Cursor α ε β) (bytes : List α) (b : β) : Prop :=
  ∀ before after, read (before ++ bytes ++ after) before.length =
    .ok (b, before.length + bytes.length)

theorem reads_here (b : β) : Reads (here b : Cursor α ε β) [] b := by
  intro before after
  rfl

theorem Reads.map {read : Cursor α ε β} {f : β → Except ε γ} {bytes : List α} {b : β} {c : γ}
    (reads : Reads read bytes b) (made : f b = .ok c) : Reads (read.map f) bytes c := by
  intro before after
  simp only [Cursor.map, reads before after, made]

theorem Reads.bind {read : Cursor α ε β} {next : β → Cursor α ε γ} {first second : List α} {b : β}
    {c : γ} (reads : Reads read first b) (continues : Reads (next b) second c) :
    Reads (read.bind next) (first ++ second) c := by
  intro before after
  have head := reads before (second ++ after)
  have tail := continues (before ++ first) after
  simp only [List.append_assoc, List.length_append] at head tail ⊢
  rw [Cursor.bind, head]
  show next b _ _ = _
  rw [tail, Nat.add_assoc]

/-- A loop finds its items one after the other. -/
theorem reads_rounds {step : β → Cursor α ε β} {add : β → γ → β} {parts : List (List α)}
    {items : List γ}
    (each : List.Forall₂ (fun part item => ∀ s, Reads (step s) part (add s item)) parts items) :
    ∀ s, Reads (rounds step items.length s) parts.flatten (items.foldl add s) := by
  induction each with
  | nil =>
      intro s
      exact reads_here s
  | cons head _ ih =>
      intro s
      exact (head s).bind (ih _)

/-! ## Cursors that move on -/

/-- What the cursor returns lies not before where it started. -/
def Forward (read : Cursor α ε β) (data : List α) : Prop :=
  ∀ offset b next, read data offset = .ok (b, next) → offset ≤ next

/-- What the cursor returns lies behind where it started. -/
def Advances (read : Cursor α ε β) (data : List α) : Prop :=
  ∀ offset b next, read data offset = .ok (b, next) → offset < next

theorem Advances.forward {read : Cursor α ε β} {data : List α} (advances : Advances read data) :
    Forward read data :=
  fun offset b next done => Nat.le_of_lt (advances offset b next done)

theorem forward_here (b : β) (data : List α) : Forward (here b : Cursor α ε β) data := by
  intro offset b' next done
  cases done
  exact Nat.le_refl offset

theorem Forward.map {read : Cursor α ε β} {data : List α} (forward : Forward read data)
    (f : β → Except ε γ) : Forward (read.map f) data := by
  intro offset c stop done
  rw [Cursor.map] at done
  split at done
  · cases done
  · next b middle found =>
      split at done
      · cases done
      · cases done
        exact forward offset b stop found

theorem Forward.ite {read read' : Cursor α ε β} {data : List α} {p : Prop} [Decidable p]
    (yes : Forward read data) (no : Forward read' data) :
    Forward (if p then read else read') data := by
  split
  · exact yes
  · exact no

theorem Forward.bind {read : Cursor α ε β} {next : β → Cursor α ε γ} {data : List α}
    (forward : Forward read data) (continues : ∀ b, Forward (next b) data) :
    Forward (read.bind next) data := by
  intro offset c stop done
  rw [Cursor.bind] at done
  split at done
  · cases done
  · next b middle found =>
      exact Nat.le_trans (forward offset b middle found) (continues b middle c stop done)

theorem Advances.bind {read : Cursor α ε β} {next : β → Cursor α ε γ} {data : List α}
    (advances : Advances read data) (continues : ∀ b, Forward (next b) data) :
    Advances (read.bind next) data := by
  intro offset c stop done
  rw [Cursor.bind] at done
  split at done
  · cases done
  · next b middle found =>
      exact Nat.lt_of_lt_of_le (advances offset b middle found) (continues b middle c stop done)

theorem forward_rounds {step : β → Cursor α ε β} {data : List α}
    (forward : ∀ s, Forward (step s) data) (count : ℕ) (s : β) :
    Forward (rounds step count s) data := by
  induction count generalizing s with
  | zero => exact forward_here s data
  | succ count ih => exact (forward s).bind ih

/-! ## Cursors that answer alike -/

/-- The cursors answer alike from `start` on. -/
def AgreesFrom (data : List α) (start : ℕ) (read read' : Cursor α ε β) : Prop :=
  ∀ offset, start ≤ offset → read data offset = read' data offset

theorem AgreesFrom.refl (read : Cursor α ε β) (data : List α) (start : ℕ) :
    AgreesFrom data start read read := fun _ _ => rfl

theorem AgreesFrom.mono {data : List α} {start later : ℕ} {read read' : Cursor α ε β}
    (agree : AgreesFrom data start read read') (le : start ≤ later) :
    AgreesFrom data later read read' :=
  fun offset late => agree offset (Nat.le_trans le late)

theorem AgreesFrom.map {data : List α} {start : ℕ} {read read' : Cursor α ε β}
    (agree : AgreesFrom data start read read') (f : β → Except ε γ) :
    AgreesFrom data start (read.map f) (read'.map f) := by
  intro offset late
  rw [Cursor.map, Cursor.map, agree offset late]

theorem AgreesFrom.ite {data : List α} {start : ℕ} {yes yes' no no' : Cursor α ε β} {p : Prop}
    [Decidable p] (first : AgreesFrom data start yes yes') (second : AgreesFrom data start no no') :
    AgreesFrom data start (if p then yes else no) (if p then yes' else no') := by
  split
  · exact first
  · exact second

theorem AgreesFrom.bind {data : List α} {start : ℕ} {read read' : Cursor α ε β}
    {next next' : β → Cursor α ε γ} (agree : AgreesFrom data start read read')
    (forward : Forward read data) (continues : ∀ b, AgreesFrom data start (next b) (next' b)) :
    AgreesFrom data start (read.bind next) (read'.bind next') := by
  intro offset late
  rw [Cursor.bind, Cursor.bind, ← agree offset late]
  split
  · rfl
  · next b middle found =>
      exact continues b middle (Nat.le_trans late (forward offset b middle found))

/-- Behind a cursor that advances it is enough to agree from the next place on. -/
theorem AgreesFrom.after {data : List α} {start : ℕ} {read : Cursor α ε β}
    {next next' : β → Cursor α ε γ} (advances : Advances read data)
    (continues : ∀ b, AgreesFrom data (start + 1) (next b) (next' b)) :
    AgreesFrom data start (read.bind next) (read.bind next') := by
  intro offset late
  rw [Cursor.bind, Cursor.bind]
  split
  · rfl
  · next b middle found =>
      have moved := advances offset b middle found
      exact continues b middle (by omega)

theorem AgreesFrom.rounds {step step' : β → Cursor α ε β} {data : List α} {start : ℕ}
    (agree : ∀ s, AgreesFrom data start (step s) (step' s))
    (forward : ∀ s, Forward (step s) data) (count : ℕ) (s : β) :
    AgreesFrom data start (rounds step count s) (rounds step' count s) := by
  induction count generalizing s with
  | zero => exact .refl _ data start
  | succ count ih => exact (agree s).bind (forward s) ih

/-! ## Cursors that do not raise -/

/-- From `start` on the cursor does not raise `bad`. -/
def Avoids (bad : ε) (data : List α) (start : ℕ) (read : Cursor α ε β) : Prop :=
  ∀ offset, start ≤ offset → read data offset ≠ .error bad

section Avoids

variable {bad : ε} {data : List α} {start : ℕ} {read : Cursor α ε β}

theorem Avoids.mono {later : ℕ} (avoids : Avoids bad data start read) (le : start ≤ later) :
    Avoids bad data later read :=
  fun offset late => avoids offset (Nat.le_trans le late)

theorem avoids_here (b : β) : Avoids bad data start (here b) := by
  intro offset _ raised
  cases raised

theorem Avoids.map {f : β → Except ε γ} (avoids : Avoids bad data start read)
    (made : ∀ b, f b ≠ .error bad) : Avoids bad data start (read.map f) := by
  intro offset late raised
  rw [Cursor.map] at raised
  split at raised
  · next e found =>
      cases raised
      exact avoids offset late found
  · next b middle found =>
      split at raised
      · next e refused =>
          cases raised
          exact made b refused
      · cases raised

theorem Avoids.ite {read' : Cursor α ε β} {p : Prop} [Decidable p] (yes : Avoids bad data start read)
    (no : Avoids bad data start read') : Avoids bad data start (if p then read else read') := by
  split
  · exact yes
  · exact no

/-- What comes behind is read from somewhere not before `later`. -/
theorem Avoids.behind {next : β → Cursor α ε γ} {later : ℕ} (avoids : Avoids bad data start read)
    (moves : ∀ offset b middle, start ≤ offset → read data offset = .ok (b, middle) → later ≤ middle)
    (continues : ∀ b, Avoids bad data later (next b)) : Avoids bad data start (read.bind next) := by
  intro offset late raised
  rw [Cursor.bind] at raised
  split at raised
  · next e found =>
      cases raised
      exact avoids offset late found
  · next b middle found => exact continues b middle (moves offset b middle late found) raised

theorem Avoids.bind {next : β → Cursor α ε γ} (avoids : Avoids bad data start read)
    (forward : Forward read data) (continues : ∀ b, Avoids bad data start (next b)) :
    Avoids bad data start (read.bind next) :=
  avoids.behind (fun offset b middle late found => Nat.le_trans late (forward offset b middle found))
    continues

/-- Behind a cursor that advances it is enough not to raise from the next place on. -/
theorem Avoids.after {next : β → Cursor α ε γ} (avoids : Avoids bad data start read)
    (advances : Advances read data) (continues : ∀ b, Avoids bad data (start + 1) (next b)) :
    Avoids bad data start (read.bind next) :=
  avoids.behind (fun offset b middle late found =>
    Nat.succ_le_of_lt (Nat.lt_of_le_of_lt late (advances offset b middle found))) continues

theorem avoids_rounds {step : β → Cursor α ε β} (avoids : ∀ s, Avoids bad data start (step s))
    (forward : ∀ s, Forward (step s) data) (count : ℕ) (s : β) :
    Avoids bad data start (rounds step count s) := by
  induction count generalizing s with
  | zero => exact avoids_here s
  | succ count ih => exact (avoids s).bind (forward s) ih

end Avoids

end Cursor

end BrokerLite.Theory
