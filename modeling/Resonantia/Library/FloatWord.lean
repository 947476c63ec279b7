import Mathlib.Algebra.Field.Rat
import Mathlib.Data.Nat.Notation
import Mathlib.Data.Rat.Cast.CharZero
import Mathlib.Tactic.NormNum
import Resonantia.Library.Bytes

/-!
# Single-precision words

A `float` as its 32-bit word: a sign bit, eight bits of exponent and 23 bits of fraction, stored
with the least significant byte first.

## Main definitions

* `FloatWord.isFinite`, `FloatWord.value`: finite words and their values.
* `FloatWord.ofByte`: the word of a small natural number.
* `FloatWord.toBytes`, `FloatWord.ofBytes`: words in memory.

## Main results

* `FloatWord.value_ofByte`: a byte is converted exactly.
* `FloatWord.ofBytes_flatMap_toBytes`: stored words are read back.
-/

namespace FloatWord

open ByteString

def exponentBits (w : UInt32) : ℕ := w.toNat / 2 ^ 23 % 256

def fractionBits (w : UInt32) : ℕ := w.toNat % 2 ^ 23

/-- Infinities and NaNs have all exponent bits set. -/
def isFinite (w : UInt32) : Bool := exponentBits w ≠ 255

/-- The magnitude of a finite word in units of the smallest positive one. -/
def units (w : UInt32) : ℕ :=
  if exponentBits w = 0 then fractionBits w
  else (2 ^ 23 + fractionBits w) * 2 ^ (exponentBits w - 1)

/-- The value of a finite word. -/
def value (w : UInt32) : ℚ :=
  (if w.toNat < 2 ^ 31 then (units w : ℚ) else -(units w : ℚ)) / 2 ^ 149

/-- The word of a byte as a number: its leading bit is implied and the others begin the fraction. -/
def ofByte (b : UInt8) : UInt32 :=
  if b = 0 then 0
  else
    let exponent := Nat.log2 b.toNat
    ((127 + exponent) * 2 ^ 23 + (b.toNat - 2 ^ exponent) * 2 ^ (23 - exponent)).toUInt32

theorem units_ofByte (b : UInt8) :
    (ofByte b).toNat < 2 ^ 31 ∧ isFinite (ofByte b) = true ∧
      units (ofByte b) = b.toNat * 2 ^ 149 := by
  have hall : ∀ i < 256, (ofByte (UInt8.ofNat i)).toNat < 2 ^ 31 ∧
      isFinite (ofByte (UInt8.ofNat i)) = true ∧
        units (ofByte (UInt8.ofNat i)) = i * 2 ^ 149 := by
    decide +kernel
  have hb := hall b.toNat b.toNat_lt
  rwa [UInt8.ofNat_toNat] at hb

/-- **A byte is converted exactly.** -/
theorem value_ofByte (b : UInt8) : value (ofByte b) = b.toNat := by
  obtain ⟨hsign, -, hunits⟩ := units_ofByte b
  rw [value, if_pos hsign, hunits, Nat.cast_mul, Nat.cast_pow, Nat.cast_ofNat]
  exact mul_div_cancel_right₀ _ (by norm_num)

/-! ### Words in memory -/

def toBytes (w : UInt32) : Bytes := littleEndian 4 w.toNat

/-- The words that are stored in these bytes. -/
def ofBytes : Bytes → List UInt32
  | a :: b :: c :: d :: l => (ofLittleEndian [a, b, c, d]).toUInt32 :: ofBytes l
  | _ => []

@[simp]
theorem length_toBytes (w : UInt32) : (toBytes w).length = 4 := length_littleEndian 4 _

theorem length_flatMap_toBytes (ws : List UInt32) :
    (ws.flatMap toBytes).length = 4 * ws.length := by
  induction ws with
  | nil => rfl
  | cons w ws ih =>
    rw [List.flatMap_cons, List.length_append, length_toBytes, ih, List.length_cons]
    omega

theorem ofBytes_toBytes_append (w : UInt32) (l : Bytes) :
    ofBytes (toBytes w ++ l) = w :: ofBytes l := by
  have hread : ofLittleEndian (toBytes w) = w.toNat :=
    ofLittleEndian_littleEndian w.toNat_lt
  have hword : (ofLittleEndian (toBytes w)).toUInt32 = w := by
    rw [hread]
    exact UInt32.ofNat_toNat
  conv_rhs => rw [← hword]
  rfl

/-- **Stored words are read back.** -/
theorem ofBytes_flatMap_toBytes (ws : List UInt32) : ofBytes (ws.flatMap toBytes) = ws := by
  induction ws with
  | nil => rfl
  | cons w ws ih => rw [List.flatMap_cons, ofBytes_toBytes_append, ih]

end FloatWord
