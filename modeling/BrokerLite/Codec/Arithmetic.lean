/-
# Codec.Arithmetic -- the numbers of the language

Booleans and integers are exact; a float is the number its 64 bits stand for.  Numbers
are compared exactly, whatever their types.  A sum or a difference with a float is the
exact one rounded to a float, after an integer was rounded to one itself; there an
integer can be too large.
-/
import BrokerLite.Codec.Value
import BrokerLite.Store.Message
import Mathlib.Data.Int.Log
import Mathlib.Data.Rat.Floor

namespace BrokerLite

set_option autoImplicit false

namespace Number

/-! ## Comparing -/

/-- `m < n`; a NaN is neither less nor more than anything. -/
def less : Number → Number → Bool
  | .finite p, .finite q => p < q
  | .finite _, .infinite negative => !negative
  | .infinite negative, .finite _ => negative
  | .infinite negative, .infinite negative' => negative && !negative'
  | _, _ => false

/-- `m <= n`. -/
def atMost (m n : Number) : Bool := m.less n || (m = n && m ≠ .nan)

/-! ## Rounding -/

/-- The nearest integer, an even one where two are as near. -/
def nearestInteger (q : ℚ) : ℤ :=
  let below := ⌊q⌋
  let rest := q - below
  if rest < 1 / 2 then below
  else if 1 / 2 < rest then below + 1
  else if below % 2 = 0 then below else below + 1

/-- The nearest float: 53 bits from the leading one, none below `2 ^ (-1074)`, all below
`2 ^ 1024`. -/
def round (q : ℚ) : Number :=
  let unit : ℚ := 2 ^ (max (Int.log 2 |q|) (-1022) - 52)
  let rounded := nearestInteger (q / unit) * unit
  if |rounded| < 2 ^ 1024 then .finite rounded else .infinite (decide (q < 0))

/-- `m + n` on floats. -/
def plus : Number → Number → Number
  | .finite p, .finite q => round (p + q)
  | .finite _, .infinite negative => .infinite negative
  | .infinite negative, .finite _ => .infinite negative
  | .infinite negative, .infinite negative' => if negative = negative' then .infinite negative else .nan
  | _, _ => .nan

def negated : Number → Number
  | .finite q => .finite (-q)
  | .infinite negative => .infinite !negative
  | .nan => .nan

end Number

/-! ## Numbers with their types -/

inductive Operand where
  | int (i : ℤ)
  | float (x : Number)
  deriving DecidableEq

namespace Operand

def number : Operand → Number
  | .int i => .finite i
  | .float x => x

/-- `a < b`. -/
def less (a b : Operand) : Bool := a.number.less b.number

/-- `a <= b`. -/
def atMost (a b : Operand) : Bool := a.number.atMost b.number

@[simp] theorem less_int (i j : ℤ) : (int i).less (.int j) = decide (i < j) := by
  simp [less, number, Number.less]

@[simp] theorem atMost_int (i j : ℤ) : (int i).atMost (.int j) = decide (i ≤ j) := by
  simp [atMost, number, Number.atMost, Number.less, le_iff_lt_or_eq]

/-- The integer, if it is one. -/
def integer : Operand → Option ℤ
  | .int i => some i
  | .float _ => none

/-- `type(operand).__name__`. -/
def typeName : Operand → String
  | .int _ => "int"
  | .float _ => "float"

/-- The conversion to a float. -/
def toFloat : Operand → Except Raised Number
  | .int i =>
      match Number.round i with
      | .infinite _ => .error .overflowError
      | x => .ok x
  | .float x => .ok x

def add : Operand → Operand → Except Raised Operand
  | .int i, .int j => .ok (.int (i + j))
  | a, b => do
      let x ← a.toFloat
      let y ← b.toFloat
      .ok (.float (x.plus y))

def sub : Operand → Operand → Except Raised Operand
  | .int i, .int j => .ok (.int (i - j))
  | a, b => do
      let x ← a.toFloat
      let y ← b.toFloat
      .ok (.float (x.plus y.negated))

end Operand

namespace Value

/-- The number a value is, with its type; a boolean is an integer. -/
def operand : Value → Option Operand
  | .bool b => some (.int (if b then 1 else 0))
  | .int i => some (.int i)
  | .float bits => some (.float (.ofBits bits))
  | _ => Option.none

/-- `value - i`. -/
def sub (value : Value) (i : ℤ) : Except Raised Operand :=
  match value.operand with
  | Option.none => .error (.typeError s!"unsupported operand type(s) for -: '{value.typeName}' and 'int'")
  | some a => a.sub (.int i)

/-- `a + value`. -/
def addTo (value : Value) (a : Operand) : Except Raised Operand :=
  match value.operand with
  | Option.none =>
      .error (.typeError s!"unsupported operand type(s) for +: '{a.typeName}' and '{value.typeName}'")
  | some b => a.add b

end Value

/-! ## What is raised is no `ValueError` -/

namespace Operand

theorem toFloat_error {a : Operand} {raised : Raised} (failed : a.toFloat = .error raised) :
    raised.isValueError = false := by
  unfold toFloat at failed
  split at failed
  · split at failed <;> cases failed
    rfl
  · cases failed

/-- Both operands are converted before anything is computed. -/
theorem convert_error {a b : Operand} {compute : Number → Number → Operand} {raised : Raised}
    (failed : (do let x ← a.toFloat; let y ← b.toFloat; .ok (compute x y) : Except Raised Operand) =
      .error raised) : raised.isValueError = false := by
  rcases first : a.toFloat with raised' | x
  · rw [first] at failed
    cases failed
    exact toFloat_error first
  · rcases second : b.toFloat with raised' | y
    · rw [first, second] at failed
      cases failed
      exact toFloat_error second
    · rw [first, second] at failed
      cases failed

end Operand

namespace Value

theorem sub_error {value : Value} {i : ℤ} {raised : Raised} (failed : value.sub i = .error raised) :
    raised.isValueError = false := by
  unfold sub at failed
  split at failed
  · cases failed
    rfl
  · unfold Operand.sub at failed
    split at failed
    · cases failed
    · exact Operand.convert_error failed

theorem addTo_error {a : Operand} {value : Value} {raised : Raised} (failed : value.addTo a = .error raised) :
    raised.isValueError = false := by
  unfold addTo at failed
  split at failed
  · cases failed
    rfl
  · unfold Operand.add at failed
    split at failed
    · cases failed
    · exact Operand.convert_error failed

end Value

end BrokerLite
