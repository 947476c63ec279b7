import Mathlib.Algebra.Ring.Int.Defs
import Mathlib.Algebra.Ring.Nat
import Mathlib.Data.Nat.Notation

/-!
# Checked machine arithmetic of the bounded pipeline

The bounded pipeline counts samples, frames and bytes in `std::uint64_t`. Additions and
multiplications that may leave the range go through `checked_add` and `checked_mul`, conversions
to `std::size_t` and `int` through `narrow_size` and `narrow_int`. Unchecked products of the source
are written `u64 (2 * pad)`, so that a wrap-around stays visible in the model.

## Main definitions

* `Pipeline.u64`: an unsigned 64-bit result, wrapped.
* `Pipeline.checkedAdd`, `Pipeline.checkedMul`, `Pipeline.narrowSize`, `Pipeline.narrowInt`.
-/

namespace Resonantia.Pipeline

/-- A constant, so that decimal literals mean the same term in every module. -/
instance instAtLeastTwoTen : Nat.AtLeastTwo 10 := ⟨by decide⟩

/-- The largest `std::uint64_t`. -/
def uint64Max : ℕ := 2 ^ 64 - 1

/-- The largest `int`. -/
def intMax : ℕ := 2 ^ 31 - 1

/-- The result of an unchecked `std::uint64_t` operation. -/
def u64 (n : ℕ) : ℕ := n % 2 ^ 64

theorem u64_of_lt {n : ℕ} (h : n < 2 ^ 64) : u64 n = n :=
  Nat.mod_eq_of_lt h

/-- `checked_add`. -/
def checkedAdd (left right : ℕ) : Option ℕ :=
  if right > uint64Max - left then none else some (left + right)

/-- `checked_mul`. -/
def checkedMul (left right : ℕ) : Option ℕ :=
  if left ≠ 0 ∧ right > uint64Max / left then none else some (left * right)

/-- `narrow_size`: a `std::size_t` has 64 bits. -/
def narrowSize (value : ℕ) : Option ℕ :=
  if value > uint64Max then none else some value

/-- `narrow_int`. -/
def narrowInt (value : ℕ) : Option ℕ :=
  if value > intMax then none else some value

theorem checkedAdd_of_lt {a b : ℕ} (h : a + b < 2 ^ 64) : checkedAdd a b = some (a + b) := by
  rw [checkedAdd, if_neg]
  simp only [uint64Max]
  omega

theorem eq_add_of_checkedAdd {a b c : ℕ} (h : checkedAdd a b = some c) : c = a + b := by
  rw [checkedAdd] at h
  split at h
  · cases h
  · exact (Option.some.inj h).symm

theorem checkedMul_of_lt {a b : ℕ} (h : a * b < 2 ^ 64) : checkedMul a b = some (a * b) := by
  rw [checkedMul, if_neg]
  rintro ⟨ha, hb⟩
  have hlt : uint64Max < b * a :=
    (Nat.div_lt_iff_lt_mul (Nat.pos_of_ne_zero ha)).mp hb
  rw [Nat.mul_comm] at hlt
  simp only [uint64Max] at hlt
  omega

theorem eq_mul_of_checkedMul {a b c : ℕ} (h : checkedMul a b = some c) : c = a * b := by
  rw [checkedMul] at h
  split at h
  · cases h
  · exact (Option.some.inj h).symm

theorem narrowSize_of_lt {n : ℕ} (h : n < 2 ^ 64) : narrowSize n = some n := by
  rw [narrowSize, if_neg]
  simp only [uint64Max]
  omega

theorem narrowInt_of_lt {n : ℕ} (h : n < 2 ^ 31) : narrowInt n = some n := by
  rw [narrowInt, if_neg]
  simp only [intMax]
  omega

end Resonantia.Pipeline
