import Mathlib.Algebra.Ring.Int.Defs
import Mathlib.Algebra.Ring.Nat
import Mathlib.Data.Nat.Notation

/-!
# Byte strings

A byte string is a list of bytes. Numbers are stored with the least significant byte first.

## Main definitions

* `ByteString.Bytes`, `ByteString.bytes`: byte strings, and the bytes of an ASCII literal.
* `ByteString.littleEndian`, `ByteString.ofLittleEndian`: a number as a fixed count of bytes.

## Main results

* `ByteString.ofLittleEndian_littleEndian`: a number that fits is read back.
* `ByteString.littleEndian_ofLittleEndian`: so are the bytes of a number.
-/

namespace ByteString

abbrev Bytes := List UInt8

/-- A constant, so that membership tests mean the same term in every module. -/
instance instLawfulBEqBytes : LawfulBEq Bytes := inferInstance

def byte (c : Char) : UInt8 := c.toNat.toUInt8

/-- The bytes of an ASCII literal. -/
def bytes (s : String) : Bytes := s.toList.map byte

/-- The lowest `count` bytes of a number. -/
def littleEndian : ℕ → ℕ → Bytes
  | 0, _ => []
  | count + 1, n => n.toUInt8 :: littleEndian count (n / 256)

/-- The number that is stored in these bytes. -/
def ofLittleEndian : Bytes → ℕ
  | [] => 0
  | b :: l => b.toNat + 256 * ofLittleEndian l

/-- A check of every byte that can be computed. -/
theorem forall_mem_of_all {P : UInt8 → Prop} [DecidablePred P] {l : Bytes}
    (h : (l.all fun c => decide (P c)) = true) : ∀ c ∈ l, P c :=
  fun c hc => of_decide_eq_true (List.all_eq_true.1 h c hc)

@[simp]
theorem length_littleEndian (count n : ℕ) : (littleEndian count n).length = count := by
  induction count generalizing n with
  | zero => rfl
  | succ count ih => rw [littleEndian, List.length_cons, ih]

/-- A number that fits is read back. -/
theorem ofLittleEndian_littleEndian {count n : ℕ} (h : n < 256 ^ count) :
    ofLittleEndian (littleEndian count n) = n := by
  induction count generalizing n with
  | zero =>
    obtain rfl : n = 0 := by simpa using h
    rfl
  | succ count ih =>
    have hquotient : n / 256 < 256 ^ count := by
      rw [Nat.div_lt_iff_lt_mul (by decide), ← Nat.pow_succ]
      exact h
    rw [littleEndian, ofLittleEndian, ih hquotient, UInt8.toNat_ofNat']
    exact Nat.mod_add_div n 256

theorem ofLittleEndian_lt (l : Bytes) : ofLittleEndian l < 256 ^ l.length := by
  induction l with
  | nil => simp [ofLittleEndian]
  | cons b l ih =>
    have hb : b.toNat < 256 := b.toNat_lt
    rw [ofLittleEndian, List.length_cons, Nat.pow_succ]
    omega

/-- Bytes are what the number of them stores. -/
theorem littleEndian_ofLittleEndian (l : Bytes) : littleEndian l.length (ofLittleEndian l) = l := by
  induction l with
  | nil => rfl
  | cons b l ih =>
    have hb : b.toNat < 256 := b.toNat_lt
    have hhead : (b.toNat + 256 * ofLittleEndian l).toUInt8 = b := by
      apply UInt8.toNat_inj.1
      rw [UInt8.toNat_ofNat']
      omega
    have htail : (b.toNat + 256 * ofLittleEndian l) / 256 = ofLittleEndian l := by omega
    rw [List.length_cons, littleEndian, ofLittleEndian, hhead, htail, ih]

end ByteString
