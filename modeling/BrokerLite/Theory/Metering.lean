/-
# Theory.Metering -- cursors that count what they finish

A metered cursor returns with its result, or with its error, how many things it has
finished until then; without the count it is a cursor (`erase`).

`Pays` is the rule that bounds the count: every thing that is finished is paid for with
a place of the data that has been read, and places behind the end are worth nothing.
A loop pays for what its rounds finish, however many rounds it is told to make.
`Measures` bounds from below: a value is not larger than the count that came with it.
-/
import BrokerLite.Theory.Cursor

namespace BrokerLite.Theory

set_option autoImplicit false

universe u v w x

abbrev Metered (α : Type u) (ε : Type v) (β : Type w) := List α → ℕ → ℕ × Except ε (β × ℕ)

variable {α : Type u} {ε : Type v} {β : Type w} {γ : Type x}

namespace Metered

open Cursor

/-- Without the count. -/
def erase (read : Metered α ε β) : Cursor α ε β := fun data offset => (read data offset).2

/-- Nothing is counted. -/
def free (read : Cursor α ε β) : Metered α ε β := fun data offset => (0, read data offset)

def map (read : Metered α ε β) (f : β → Except ε γ) : Metered α ε γ := fun data offset =>
  ((read data offset).1, read.erase.map f data offset)

def bind (read : Metered α ε β) (next : β → Metered α ε γ) : Metered α ε γ := fun data offset =>
  match read data offset with
  | (n, .error e) => (n, .error e)
  | (n, .ok (b, middle)) => (n + (next b data middle).1, (next b data middle).2)

def rounds (step : β → Metered α ε β) : ℕ → β → Metered α ε β
  | 0, s => free (here s)
  | count + 1, s => (step s).bind (rounds step count)

/-- What is returned counts as one more. -/
def tick (read : Metered α ε β) : Metered α ε β := fun data offset =>
  match read data offset with
  | (n, .error e) => (n, .error e)
  | (n, .ok result) => (n + 1, .ok result)

@[simp] theorem erase_free (read : Cursor α ε β) : (free read).erase = read := rfl

@[simp] theorem erase_map (read : Metered α ε β) (f : β → Except ε γ) :
    (read.map f).erase = read.erase.map f := rfl

@[simp] theorem erase_bind (read : Metered α ε β) (next : β → Metered α ε γ) :
    (read.bind next).erase = read.erase.bind fun b => (next b).erase := by
  funext data offset
  rcases found : read data offset with ⟨n, e | ⟨b, middle⟩⟩ <;>
    simp [erase, bind, Cursor.bind, found]

@[simp] theorem erase_rounds (step : β → Metered α ε β) (count : ℕ) (s : β) :
    (rounds step count s).erase = Cursor.rounds (fun s => (step s).erase) count s := by
  induction count generalizing s with
  | zero => rfl
  | succ count ih =>
      rw [rounds, erase_bind, Cursor.rounds]
      exact congrArg _ (funext ih)

@[simp] theorem erase_tick (read : Metered α ε β) : read.tick.erase = read.erase := by
  funext data offset
  rcases found : read data offset with ⟨n, e | result⟩ <;> simp [erase, tick, found]

/-! ## What a run came from -/

section Inversion

variable {read : Metered α ε β} {data : List α} {offset stop n : ℕ} {c : γ} {e : ε}

theorem map_eq_ok {f : β → Except ε γ} (done : read.map f data offset = (n, .ok (c, stop))) :
    ∃ b, read data offset = (n, .ok (b, stop)) ∧ f b = .ok c := by
  rcases found : read data offset with ⟨m, e | ⟨b, next⟩⟩
  · simp [Metered.map, Cursor.map, erase, found] at done
  · cases made : f b with
    | error e => simp [Metered.map, Cursor.map, erase, found, made] at done
    | ok c' =>
        simp only [Metered.map, Cursor.map, erase, found, made] at done
        cases done
        exact ⟨b, rfl, made⟩

theorem bind_eq_ok {next : β → Metered α ε γ} (done : read.bind next data offset = (n, .ok (c, stop))) :
    ∃ i b middle m, read data offset = (i, .ok (b, middle)) ∧
      next b data middle = (m, .ok (c, stop)) ∧ n = i + m := by
  rcases found : read data offset with ⟨i, e | ⟨b, middle⟩⟩
  · simp [Metered.bind, found] at done
  · simp only [Metered.bind, found, Prod.mk.injEq] at done
    exact ⟨i, b, middle, _, rfl, Prod.ext rfl done.2, done.1.symm⟩

theorem bind_eq_error {next : β → Metered α ε γ} (raised : read.bind next data offset = (n, .error e)) :
    read data offset = (n, .error e) ∨
      ∃ i b middle m, read data offset = (i, .ok (b, middle)) ∧
        next b data middle = (m, .error e) ∧ n = i + m := by
  rcases found : read data offset with ⟨i, e' | ⟨b, middle⟩⟩
  · simp only [Metered.bind, found] at raised
    cases raised
    exact .inl rfl
  · simp only [Metered.bind, found, Prod.mk.injEq] at raised
    exact .inr ⟨i, b, middle, _, rfl, Prod.ext rfl raised.2, raised.1.symm⟩

theorem tick_eq_ok {b : β} (done : read.tick data offset = (n, .ok (b, stop))) :
    ∃ m, read data offset = (m, .ok (b, stop)) ∧ n = m + 1 := by
  rcases found : read data offset with ⟨m, e | result⟩
  · simp [Metered.tick, found] at done
  · simp only [Metered.tick, found] at done
    cases done
    exact ⟨m, rfl, rfl⟩

theorem tick_eq_error (raised : read.tick data offset = (n, .error e)) :
    read data offset = (n, .error e) := by
  rcases found : read data offset with ⟨m, e' | result⟩
  · simpa [Metered.tick, found] using raised
  · simp [Metered.tick, found] at raised

end Inversion

/-! ## What the count is at most -/

/-- What is finished is paid for with places that are read, and `k` of them are left over. -/
structure Pays (k : ℕ) (read : Metered α ε β) (data : List α) : Prop where
  ok : ∀ offset n b next, read data offset = (n, .ok (b, next)) →
    n + k + min offset data.length ≤ min next data.length
  error : ∀ offset n e, read data offset = (n, .error e) →
    n + min offset data.length ≤ data.length

variable {read : Metered α ε β} {data : List α} {j k : ℕ}

theorem Pays.count_le (pays : Pays k read data) (offset : ℕ) :
    (read data offset).1 ≤ data.length - offset := by
  rcases found : read data offset with ⟨n, e | ⟨b, next⟩⟩
  · have bound := pays.error offset n e found
    show n ≤ _
    omega
  · have bound := pays.ok offset n b next found
    show n ≤ _
    omega

theorem pays_free {read : Cursor α ε β} (forward : Forward read data) : Pays 0 (free read) data where
  ok offset n b next done := by
    obtain ⟨rfl, found⟩ := Prod.mk.inj done
    have le := forward offset b next found
    omega
  error offset n e raised := by
    obtain ⟨rfl, -⟩ := Prod.mk.inj raised
    omega

theorem Pays.map (pays : Pays k read data) (f : β → Except ε γ) : Pays k (read.map f) data where
  ok offset n c next done := by
    obtain ⟨b, found, -⟩ := map_eq_ok done
    exact pays.ok offset n b next found
  error offset n e raised := by
    obtain ⟨rfl, -⟩ := Prod.mk.inj raised
    have bound := pays.count_le offset
    omega

theorem Pays.ite {read' : Metered α ε β} {p : Prop} [Decidable p] (yes : Pays k read data)
    (no : Pays k read' data) : Pays k (if p then read else read') data := by
  split
  · exact yes
  · exact no

theorem Pays.bind {next : β → Metered α ε γ} (pays : Pays j read data)
    (continues : ∀ b, Pays k (next b) data) : Pays (j + k) (read.bind next) data where
  ok offset n c stop done := by
    obtain ⟨i, b, middle, m, found, behind, rfl⟩ := bind_eq_ok done
    have first := pays.ok offset i b middle found
    have second := (continues b).ok middle m c stop behind
    omega
  error offset n e raised := by
    rcases bind_eq_error raised with raised | ⟨i, b, middle, m, found, behind, rfl⟩
    · exact pays.error offset n e raised
    · have first := pays.ok offset i b middle found
      have second := (continues b).error middle m e behind
      omega

/-- However many rounds there are to be, each pays for itself. -/
theorem pays_rounds {step : β → Metered α ε β} (pays : ∀ s, Pays 0 (step s) data) (count : ℕ) (s : β) :
    Pays 0 (rounds step count s) data := by
  induction count generalizing s with
  | zero => exact pays_free (forward_here s data)
  | succ count ih => exact (pays s).bind ih

/-- One place pays for the thing that is returned. -/
theorem Pays.tick (pays : Pays (k + 1) read data) : Pays k read.tick data where
  ok offset n b next done := by
    obtain ⟨m, found, rfl⟩ := tick_eq_ok done
    have bound := pays.ok offset m b next found
    omega
  error offset n e raised := pays.error offset n e (tick_eq_error raised)

/-! ## What the count is at least -/

/-- What is returned is at most `before` larger than the count. -/
def Measures (size : β → ℕ) (before : ℕ) (read : Metered α ε β) (data : List α) : Prop :=
  ∀ offset n b next, read data offset = (n, .ok (b, next)) → size b ≤ before + n

section Measures

variable {size : β → ℕ} {size' : γ → ℕ} {before : ℕ}

theorem Measures.add (measures : Measures size before read data) (extra : ℕ) :
    Measures (fun b => extra + size b) (extra + before) read data := by
  intro offset n b next done
  have bound := measures offset n b next done
  show extra + size b ≤ _
  omega

theorem Measures.map (measures : Measures size before read data) {f : β → Except ε γ} {more : ℕ}
    (made : ∀ b c, f b = .ok c → size' c ≤ more + size b) :
    Measures size' (more + before) (read.map f) data := by
  intro offset n c next done
  obtain ⟨b, found, made_⟩ := map_eq_ok done
  have first := measures offset n b next found
  have second := made b c made_
  omega

/-- What comes behind counts on from what was read first. -/
theorem Measures.bind {next : β → Metered α ε γ} (measures : Measures size before read data)
    (continues : ∀ b, Measures size' (size b) (next b) data) :
    Measures size' before (read.bind next) data := by
  intro offset n c stop done
  obtain ⟨i, b, middle, m, found, behind, rfl⟩ := bind_eq_ok done
  have first := measures offset i b middle found
  have second := continues b middle m c stop behind
  omega

theorem measures_rounds {step : β → Metered α ε β}
    (measures : ∀ s, Measures size (size s) (step s) data) (count : ℕ) (s : β) :
    Measures size (size s) (rounds step count s) data := by
  induction count generalizing s with
  | zero =>
      intro offset n b next done
      cases done
      exact Nat.le_refl _
  | succ count ih => exact (measures s).bind ih

theorem Measures.tick (measures : Measures size (before + 1) read data) :
    Measures size before read.tick data := by
  intro offset n b next done
  obtain ⟨m, found, rfl⟩ := tick_eq_ok done
  have bound := measures offset m b next found
  omega

end Measures

end Metered

end BrokerLite.Theory
