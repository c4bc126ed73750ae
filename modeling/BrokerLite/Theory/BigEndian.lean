/-
# Theory.BigEndian -- numbers as a fixed number of bytes, most significant first

`bytesOf width n` writes the last `width` base-256 digits of `n`, `natOf` reads
any number of bytes back; `intOf` reads them as two's complement.  A number that
fits is read back (`natOf_bytesOf`, `intOf_bytesOf`), and bytes that were read are
written again (`bytesOf_natOf`, `bytesOf_intOf`).
-/
import Mathlib.Data.Int.ModEq
import Mathlib.Data.List.Induction

namespace BrokerLite.Theory

set_option autoImplicit false

def bytesOf : ℕ → ℕ → List UInt8
  | 0, _ => []
  | width + 1, n => bytesOf width (n / 256) ++ [UInt8.ofNat n]

def natOf (bytes : List UInt8) : ℕ := bytes.foldl (fun n b => n * 256 + b.toNat) 0

/-- The bytes as a signed number. -/
def intOf (bytes : List UInt8) : ℤ := (natOf bytes : ℤ).bmod (256 ^ bytes.length)

@[simp] theorem length_bytesOf (width n : ℕ) : (bytesOf width n).length = width := by
  induction width generalizing n with
  | zero => rfl
  | succ width ih => simp [bytesOf, ih]

theorem natOf_append_single (bytes : List UInt8) (b : UInt8) :
    natOf (bytes ++ [b]) = natOf bytes * 256 + b.toNat := by
  simp [natOf]

theorem natOf_bytesOf {width n : ℕ} (fits : n < 256 ^ width) : natOf (bytesOf width n) = n := by
  induction width generalizing n with
  | zero =>
      have zero : n = 0 := by simpa using fits
      rw [zero]
      rfl
  | succ width ih =>
      have high : n / 256 < 256 ^ width := by
        rw [Nat.div_lt_iff_lt_mul (by decide)]
        exact fits
      rw [bytesOf, natOf_append_single, ih high, UInt8.toNat_ofNat']
      omega

/-- Two's complement: a number in the signed range is read back. -/
theorem intOf_bytesOf {width : ℕ} {n : ℤ} (low : -(256 ^ width / 2) ≤ n)
    (high : n < 256 ^ width / 2) : intOf (bytesOf width (n % 256 ^ width).toNat) = n := by
  have cast : ((256 ^ width : ℕ) : ℤ) = 256 ^ width := by push_cast; rfl
  have positive : 0 < 256 ^ width := Nat.pow_pos (by decide)
  rw [← cast] at low high ⊢
  have nonneg : 0 ≤ n % ((256 ^ width : ℕ) : ℤ) := Int.emod_nonneg n (by omega)
  have small : n % ((256 ^ width : ℕ) : ℤ) < ((256 ^ width : ℕ) : ℤ) :=
    Int.emod_lt_of_pos n (by omega)
  have fits : (n % ((256 ^ width : ℕ) : ℤ)).toNat < 256 ^ width := by omega
  rw [intOf, natOf_bytesOf fits, length_bytesOf, Int.toNat_of_nonneg nonneg, Int.emod_bmod]
  exact Int.bmod_eq_of_le low (by omega)

/-! ## Bytes that were read -/

theorem natOf_lt (bytes : List UInt8) : natOf bytes < 256 ^ bytes.length := by
  induction bytes using List.reverseRecOn with
  | nil => simp [natOf]
  | append_singleton bytes b ih =>
      have small := b.toNat_lt
      rw [natOf_append_single, List.length_append, List.length_singleton, Nat.pow_succ]
      omega

theorem bytesOf_natOf (bytes : List UInt8) : bytesOf bytes.length (natOf bytes) = bytes := by
  induction bytes using List.reverseRecOn with
  | nil => rfl
  | append_singleton bytes b ih =>
      have small := b.toNat_lt
      have high : (natOf bytes * 256 + b.toNat) / 256 = natOf bytes := by omega
      have low : UInt8.ofNat (natOf bytes * 256 + b.toNat) = b := by
        rw [← UInt8.toNat_inj, UInt8.toNat_ofNat']
        omega
      rw [List.length_append, List.length_singleton, bytesOf, natOf_append_single, high, low, ih]

/-- What is read as two's complement is in the signed range. -/
theorem intOf_range {bytes : List UInt8} {width : ℕ} (length : bytes.length = width + 1) :
    -(256 ^ (width + 1) / 2) ≤ intOf bytes ∧ intOf bytes < 256 ^ (width + 1) / 2 := by
  have positive : 0 < 256 ^ (width + 1) := Nat.pow_pos (by decide)
  have low := Int.le_bmod (x := natOf bytes) positive
  have high := Int.bmod_lt (x := natOf bytes) positive
  have half : ((256 ^ (width + 1) : ℕ) : ℤ) = 2 * (128 * 256 ^ width) := by
    rw [Nat.pow_succ]
    push_cast
    omega
  rw [intOf, length]
  have cast : (256 : ℤ) ^ (width + 1) = ((256 ^ (width + 1) : ℕ) : ℤ) := by push_cast; rfl
  rw [cast]
  omega

theorem bytesOf_intOf (bytes : List UInt8) :
    bytesOf bytes.length (intOf bytes % 256 ^ bytes.length).toNat = bytes := by
  have cast : (256 : ℤ) ^ bytes.length = ((256 ^ bytes.length : ℕ) : ℤ) := by push_cast; rfl
  have small := natOf_lt bytes
  have number : (intOf bytes % 256 ^ bytes.length).toNat = natOf bytes := by
    rw [intOf, cast, Int.bmod_emod, Int.emod_eq_of_lt (by omega) (by omega), Int.toNat_natCast]
  rw [number, bytesOf_natOf]

end BrokerLite.Theory
