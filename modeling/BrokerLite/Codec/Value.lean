/-
# Codec.Value -- values of the language

The values that messages and schemas are about.  A float is its 64-bit pattern, a
dict its entries in insertion order.  Keys are compared as the language compares
them: `False`, `0` and `0.0` are one key.  `setItem` is an assignment to a dict;
on keys that are distinct, one after the other, it adds each at the end
(`foldl_setItem`).
-/
import Mathlib.Algebra.Order.Ring.Rat
import Mathlib.Algebra.Field.Rat

namespace BrokerLite

set_option autoImplicit false

inductive Value where
  | none
  | bool (b : Bool)
  | int (i : ℤ)
  | float (bits : BitVec 64)
  | str (s : String)
  | bytes (b : List UInt8)
  | list (items : List Value)
  | tuple (items : List Value)
  | dict (entries : List (Value × Value))
  | other (typeName : String)

/-- The number a value is equal to, for comparisons. -/
inductive Number where
  | finite (q : ℚ)
  | infinite (negative : Bool)
  | nan
  deriving DecidableEq

/-- The number with the 64-bit pattern `bits`: sign, 11 exponent bits, 52 fraction bits. -/
def Number.ofBits (bits : BitVec 64) : Number :=
  let negative := bits.msb
  let exponent := (bits.extractLsb' 52 11).toNat
  let fraction := (bits.extractLsb' 0 52).toNat
  if exponent = 2047 then if fraction = 0 then .infinite negative else .nan
  else
    let magnitude : ℚ :=
      if exponent = 0 then fraction / 2 ^ 1074
      else (2 ^ 52 + fraction) * 2 ^ exponent / 2 ^ 1075
    .finite (if negative then -magnitude else magnitude)

namespace Value

/-- `type(value).__name__`. -/
def typeName : Value → String
  | .none => "NoneType"
  | .bool _ => "bool"
  | .int _ => "int"
  | .float _ => "float"
  | .str _ => "str"
  | .bytes _ => "bytes"
  | .list _ => "list"
  | .tuple _ => "tuple"
  | .dict _ => "dict"
  | .other typeName => typeName

def number : Value → Option Number
  | .bool b => some (.finite (if b then 1 else 0))
  | .int i => some (.finite i)
  | .float bits => some (.ofBits bits)
  | _ => .none

/-- Equal numbers; a NaN equals nothing. -/
def sameNumber (v w : Value) : Bool :=
  match v.number, w.number with
  | some m, some n => m = n && m ≠ .nan
  | _, _ => false

mutual

def hashable : Value → Bool
  | .none | .bool _ | .int _ | .float _ | .str _ | .bytes _ | .other _ => true
  | .tuple items => allHashable items
  | .list _ | .dict _ => false

def allHashable : List Value → Bool
  | [] => true
  | v :: rest => v.hashable && allHashable rest

end

mutual

/-- Two values are one dict key. -/
def sameKey : Value → Value → Bool
  | .none, .none => true
  | .str s, .str t => s = t
  | .bytes a, .bytes b => a = b
  | .tuple items, .tuple items' => sameKeys items items'
  | v, w => sameNumber v w

def sameKeys : List Value → List Value → Bool
  | [], [] => true
  | v :: rest, w :: rest' => v.sameKey w && sameKeys rest rest'
  | _, _ => false

end

/-- `entries[k] = v`: an equal key keeps its place and its own spelling. -/
def setItem : List (Value × Value) → Value → Value → List (Value × Value)
  | [], k, v => [(k, v)]
  | (k', v') :: rest, k, v =>
      if k'.sameKey k then (k', v) :: rest else (k', v') :: setItem rest k v

/-- `bool(value)`. -/
def isTrue : Value → Bool
  | .none => false
  | .bool b => b
  | .int i => i ≠ 0
  | .float bits => Number.ofBits bits ≠ .finite 0
  | .str s => s ≠ ""
  | .bytes b => b ≠ []
  | .list items | .tuple items => !items.isEmpty
  | .dict entries => !entries.isEmpty
  | .other _ => true

/-- `entries.get(k)`. -/
def getItem (entries : List (Value × Value)) (k : Value) : Option Value :=
  (entries.find? fun e => e.1.sameKey k).map Prod.snd

theorem setItem_of_new {entries : List (Value × Value)} {k : Value}
    (new : ∀ e ∈ entries, e.1.sameKey k = false) (v : Value) :
    setItem entries k v = entries ++ [(k, v)] := by
  induction entries with
  | nil => rfl
  | cons e rest ih =>
      have head := new e List.mem_cons_self
      have tail := ih fun e member => new e (List.mem_cons_of_mem _ member)
      simp [setItem, head, tail]

/-- The keys are pairwise distinct, as a dict's keys are. -/
def DistinctKeys (entries : List (Value × Value)) : Prop :=
  entries.Pairwise fun d e => d.1.sameKey e.1 = false

/-- The entries are those of a dict. -/
def IsDict (entries : List (Value × Value)) : Prop :=
  DistinctKeys entries ∧ ∀ e ∈ entries, e.1.hashable = true

/-- Assigning distinct keys in turn rebuilds the entries in their order. -/
theorem foldl_setItem {done entries : List (Value × Value)}
    (distinct : DistinctKeys (done ++ entries)) :
    entries.foldl (fun result e => setItem result e.1 e.2) done = done ++ entries := by
  induction entries generalizing done with
  | nil => simp
  | cons e rest ih =>
      have new : ∀ d ∈ done, d.1.sameKey e.1 = false := fun d member =>
        (List.pairwise_append.mp distinct).2.2 d member e List.mem_cons_self
      rw [List.foldl_cons, setItem_of_new new, ih (by simpa using distinct)]
      simp

end Value

end BrokerLite
