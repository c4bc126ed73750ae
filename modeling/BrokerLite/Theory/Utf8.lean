/-
# Theory.Utf8 -- decoding text with replacement

`decode` reads bytes as UTF-8, one byte at a time, and never fails: where the bytes
read begin no character, or begin one that the next byte does not continue, it gives
one U+FFFD for them.  `decode_encode` says that text that was encoded is read back;
so a byte string survives decoding and encoding when it is the encoding of some text,
and only then.
-/
import Mathlib.Tactic.Common
import Mathlib.Tactic.IntervalCases

namespace BrokerLite.Theory.Utf8

set_option autoImplicit false

/-- A character that has begun: what its next byte may be, how many come behind that,
and the bits read so far. -/
structure Begun where
  behind : ℕ
  low : ℕ
  high : ℕ
  code : ℕ

def replacement : Char := Char.ofNat 0xFFFD

/-- A byte between characters: what it gives, and the character it begins. -/
def first (b : ℕ) : List Char × Option Begun :=
  if b < 0x80 then ([Char.ofNat b], none)
  else if 0xC2 ≤ b ∧ b ≤ 0xDF then ([], some ⟨0, 0x80, 0xBF, b - 0xC0⟩)
  else if b = 0xE0 then ([], some ⟨1, 0xA0, 0xBF, 0⟩)
  else if b = 0xED then ([], some ⟨1, 0x80, 0x9F, 0xD⟩)
  else if 0xE1 ≤ b ∧ b ≤ 0xEF then ([], some ⟨1, 0x80, 0xBF, b - 0xE0⟩)
  else if b = 0xF0 then ([], some ⟨2, 0x90, 0xBF, 0⟩)
  else if b = 0xF4 then ([], some ⟨2, 0x80, 0x8F, 4⟩)
  else if 0xF1 ≤ b ∧ b ≤ 0xF3 then ([], some ⟨2, 0x80, 0xBF, b - 0xF0⟩)
  else ([replacement], none)

def decodeFrom : Option Begun → List UInt8 → List Char
  | none, [] => []
  | some _, [] => [replacement]
  | none, b :: rest => (first b.toNat).1 ++ decodeFrom (first b.toNat).2 rest
  | some begun, b :: rest =>
      if begun.low ≤ b.toNat ∧ b.toNat ≤ begun.high then
        let code := begun.code * 64 + b.toNat % 64
        match begun.behind with
        | 0 => Char.ofNat code :: decodeFrom none rest
        | behind + 1 => decodeFrom (some ⟨behind, 0x80, 0xBF, code⟩) rest
      else replacement :: (first b.toNat).1 ++ decodeFrom (first b.toNat).2 rest

def decode (bytes : List UInt8) : String := String.ofList (decodeFrom none bytes)

def encode (s : String) : List UInt8 := s.toUTF8.data.toList

/-! ## One character -/

theorem toNat_ofNat {n : ℕ} (small : n < 256) : (UInt8.ofNat n).toNat = n := by
  rw [UInt8.toNat_ofNat']
  exact Nat.mod_eq_of_lt small

/-- A byte in the range gives six bits. -/
theorem decodeFrom_last {low high code k : ℕ} (above : low ≤ k % 64 + 0x80) (below : k % 64 + 0x80 ≤ high)
    (rest : List UInt8) : decodeFrom (some ⟨0, low, high, code⟩) (UInt8.ofNat (k % 64 + 0x80) :: rest) =
      Char.ofNat (code * 64 + k % 64) :: decodeFrom none rest := by
  have bits : (k % 64 + 0x80) % 64 = k % 64 := by omega
  rw [decodeFrom, toNat_ofNat (by omega), if_pos ⟨above, below⟩, bits]

theorem decodeFrom_more {behind low high code k : ℕ} (above : low ≤ k % 64 + 0x80)
    (below : k % 64 + 0x80 ≤ high) (rest : List UInt8) :
    decodeFrom (some ⟨behind + 1, low, high, code⟩) (UInt8.ofNat (k % 64 + 0x80) :: rest) =
      decodeFrom (some ⟨behind, 0x80, 0xBF, code * 64 + k % 64⟩) rest := by
  have bits : (k % 64 + 0x80) % 64 = k % 64 := by omega
  rw [decodeFrom, toNat_ofNat (by omega), if_pos ⟨above, below⟩, bits]

/-- The first byte of two. -/
theorem first_two {n : ℕ} (low : 2 ≤ n) (high : n < 32) :
    first (n + 0xC0) = ([], some ⟨0, 0x80, 0xBF, n⟩) := by
  unfold first
  rw [if_neg (by omega), if_pos (by omega), Nat.add_sub_cancel]

/-- The first byte of three. -/
theorem first_three {n : ℕ} (small : n < 16) : first (n + 0xE0) =
    ([], some ⟨1, if n = 0 then 0xA0 else 0x80, if n = 13 then 0x9F else 0xBF, n⟩) := by
  interval_cases n <;> rfl

/-- The first byte of four. -/
theorem first_four {n : ℕ} (small : n < 5) : first (n + 0xF0) =
    ([], some ⟨2, if n = 0 then 0x90 else 0x80, if n = 4 then 0x8F else 0xBF, n⟩) := by
  interval_cases n <;> rfl

/-- **The bytes of a character give the character.** -/
theorem decodeFrom_encodeChar (c : Char) (rest : List UInt8) :
    decodeFrom none (String.utf8EncodeChar c ++ rest) = c :: decodeFrom none rest := by
  have valid : c.val.toNat < 0xD800 ∨ 0xDFFF < c.val.toNat ∧ c.val.toNat < 0x110000 := c.valid
  have whole : Char.ofNat c.val.toNat = c := Char.ofNat_toNat c
  unfold String.utf8EncodeChar
  generalize c.val.toNat = v at valid whole ⊢
  dsimp only
  split_ifs with one two three
  · rw [List.singleton_append, decodeFrom, toNat_ofNat (by omega), first, if_pos (by omega)]
    simp [whole]
  · have value : v / 64 % 32 * 64 + v % 64 = v := by omega
    rw [List.cons_append, decodeFrom, toNat_ofNat (by omega), first_two (by omega) (by omega),
      List.nil_append, List.singleton_append, decodeFrom_last (by omega) (by omega), value, whole]
  · have value : (v / 4096 % 16 * 64 + v / 64 % 64) * 64 + v % 64 = v := by omega
    rw [List.cons_append, decodeFrom, toNat_ofNat (by omega), first_three (by omega), List.nil_append,
      List.cons_append, decodeFrom_more (by split <;> omega) (by split <;> omega), List.singleton_append,
      decodeFrom_last (by omega) (by omega), value, whole]
  · have value : ((v / 262144 % 8 * 64 + v / 4096 % 64) * 64 + v / 64 % 64) * 64 + v % 64 = v := by
      omega
    rw [List.cons_append, decodeFrom, toNat_ofNat (by omega), first_four (by omega), List.nil_append,
      List.cons_append, decodeFrom_more (by split <;> omega) (by split <;> omega), List.cons_append,
      decodeFrom_more (by omega) (by omega), List.singleton_append, decodeFrom_last (by omega) (by omega),
      value, whole]

/-! ## Texts -/

theorem encode_eq (s : String) : encode s = s.toList.flatMap String.utf8EncodeChar := by
  rw [encode, String.toUTF8_eq_toByteArray, ← String.utf8Encode_toList, List.utf8Encode]
  simp

/-- **Text is read back.** -/
theorem decode_encode (s : String) : decode (encode s) = s := by
  have chars : ∀ l : List Char, decodeFrom none (l.flatMap String.utf8EncodeChar) = l := by
    intro l
    induction l with
    | nil => rfl
    | cons c rest ih => rw [List.flatMap_cons, decodeFrom_encodeChar, ih]
  rw [decode, encode_eq, chars, String.ofList_toList]

/-- The bytes are the encoding of some text. -/
def Valid (bytes : List UInt8) : Prop := ∃ s, encode s = bytes

/-- **Bytes survive exactly when they are text.** -/
theorem encode_decode_iff {bytes : List UInt8} : encode (decode bytes) = bytes ↔ Valid bytes := by
  constructor
  · intro same
    exact ⟨_, same⟩
  · rintro ⟨s, rfl⟩
    rw [decode_encode]

end BrokerLite.Theory.Utf8
