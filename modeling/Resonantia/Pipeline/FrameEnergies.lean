import Resonantia.Library.FloatArithmetic
import Resonantia.Pipeline.QuietPlanner

/-!
# The energies of float samples

A frame has as its energy the sum of the absolute values of its samples, taken in double precision
and stored as a `float`. Finite samples may add up to more than a `float` holds; such an energy is
less than no other.

## Main definitions

* `Pipeline.fabs`, and the instances of `Io.Sample` and `Pipeline.FrameEnergy` for `Single`.

## Main results

* `Pipeline.frameEnergy_replicate`: the energies of frames of zeros and of ones.
* `Pipeline.less_frameEnergy_replicate`, `Pipeline.less_maximum`: their comparisons.
-/

namespace Resonantia.Pipeline

open BinaryFloat Io

/-- The samples of a spool are finite. -/
instance : Sample Single where
  isFinite _ := true

/-- `std::fabs`. -/
def fabs (x : Single) : Single := { x with negative := false }

/-- The accumulated energy of a frame. -/
def accumulatedEnergy (frame : List Single) : Number binary64 :=
  frame.foldl (fun sum x => Number.add sum (Number.convert (some (fabs x)))) (Number.zero false)

/-- `std::numeric_limits<float>::max()`. -/
def floatMax : Number binary32 := Number.ofRat ((2 ^ 24 - 1) * 2 ^ 104)

/-- The comparison of two energies, of which an infinite one is less than none. -/
def energyLess (a b : Number binary32) : Bool :=
  match a, b with
  | some a, some b => decide (a.value < b.value)
  | _, _ => false

instance : FrameEnergy Single where
  Energy := Number binary32
  frameEnergy frame := Number.convert (accumulatedEnergy frame)
  maximum := floatMax
  less := energyLess

/-- A sample of value zero or one. -/
def level (b : Bool) : Single where
  negative := false
  magnitude := if b then 1 else 0
  representable := by
    cases b
    · exact Format.representable_zero
    · exact Format.representable_natCast (n := 1) (by decide) (by decide)
  bounded := by cases b <;> norm_num [binary32]

theorem value_level (b : Bool) : (level b).value = (b.toNat : ℚ) := by
  cases b <;> simp [level, Finite.value]

theorem representable_nat (F : Format) {n : ℕ} (hn : n < 2 ^ 24) (hF : 24 ≤ F.precision)
    (hmin : F.minExponent ≤ 0) : F.Representable |(n : ℚ)| := by
  rw [abs_of_nonneg n.cast_nonneg]
  exact Format.representable_natCast (hn.trans_le (Nat.pow_le_pow_right (by norm_num) hF)) hmin

theorem natCast_lt_two_zpow {n : ℕ} (hn : n < 2 ^ 24) {k : ℤ} (hk : 24 ≤ k) :
    |(n : ℚ)| < 2 ^ k := by
  rw [abs_of_nonneg n.cast_nonneg]
  calc (n : ℚ) < 2 ^ (24 : ℤ) := by exact_mod_cast hn
    _ ≤ 2 ^ k := zpow_le_zpow_right₀ (by norm_num) hk

/-- The sum of a number of equal samples. -/
theorem foldl_add_replicate (b : Bool) (k : ℕ) {n : ℕ} {s : Finite binary64}
    (hs : s.value = n) (hk : n + k < 2 ^ 24) :
    ∃ t : Finite binary64, t.value = (n + k * b.toNat : ℕ) ∧
      (List.replicate k (level b)).foldl
        (fun sum x => Number.add sum (Number.convert (some (fabs x)))) (some s) = some t := by
  induction k generalizing n s with
  | zero => exact ⟨s, by simpa using hs, rfl⟩
  | succ k ih =>
    have hb : b.toNat ≤ 1 := Bool.toNat_le b
    obtain ⟨x, hx, hvalue⟩ := exists_convert_eq (F := binary32) (G := binary64) (x := level b)
      (by rw [value_level]; exact representable_nat _ (by omega) (by decide) (by decide))
      (by rw [value_level]; exact natCast_lt_two_zpow (by omega) (by decide))
    have hsum : s.value + x.value = ((n + b.toNat : ℕ) : ℚ) := by
      rw [hs, hvalue, value_level]
      push_cast
      rfl
    obtain ⟨t, ht, htvalue⟩ : ∃ t : Finite binary64,
        Number.add (some s) (some x) = some t ∧ t.value = (n + b.toNat : ℕ) := by
      rw [Number.add, Option.bind_eq_bind, Option.bind_some, Option.bind_some, hsum]
      split_ifs with hzero
      · refine ⟨_, rfl, ?_⟩
        rw [hzero, Finite.value]
        split_ifs <;> simp
      · exact exists_ofRat_eq (representable_nat _ (by omega) (by decide) (by decide))
          (natCast_lt_two_zpow (by omega) (by decide))
    obtain ⟨u, hu, hfold⟩ := ih htvalue (by omega)
    refine ⟨u, ?_, ?_⟩
    · rw [hu]
      congr 1
      rw [Nat.succ_mul]
      omega
    · rw [List.replicate_succ, List.foldl_cons, show fabs (level b) = level b from rfl, hx, ht]
      exact hfold

/-- The energy of a frame of zeros is zero, that of a frame of ones is their number. -/
theorem frameEnergy_replicate (b : Bool) {k : ℕ} (hk : k < 2 ^ 24) :
    ∃ e : Finite binary32, e.value = (k * b.toNat : ℕ) ∧
      FrameEnergy.frameEnergy (List.replicate k (level b)) = some e := by
  have hb : b.toNat ≤ 1 := Bool.toNat_le b
  have hle : k * b.toNat < 2 ^ 24 := (Nat.mul_le_mul_left k hb).trans_lt (by omega)
  have hzero : (⟨false, 0, Format.representable_zero, by positivity⟩ : Finite binary64).value =
      (0 : ℕ) := by simp [Finite.value]
  obtain ⟨s, hs, hfold⟩ := foldl_add_replicate b k hzero (by omega)
  rw [Nat.zero_add] at hs
  obtain ⟨e, he, hvalue⟩ := exists_convert_eq (F := binary64) (G := binary32) (x := s)
    (by rw [hs]; exact representable_nat _ hle (by decide) (by decide))
    (by rw [hs]; exact natCast_lt_two_zpow hle (by decide))
  refine ⟨e, hvalue.trans hs, ?_⟩
  rw [← he, ← hfold]
  rfl

/-- A frame of zeros has less energy than one of ones, and not less than another one of zeros. -/
theorem less_frameEnergy_replicate (b c : Bool) {k : ℕ} (hpos : 0 < k) (hk : k < 2 ^ 24) :
    FrameEnergy.less (FrameEnergy.frameEnergy (List.replicate k (level b)))
      (FrameEnergy.frameEnergy (List.replicate k (level c))) = (!b && c) := by
  obtain ⟨x, hx, henergy⟩ := frameEnergy_replicate b hk
  obtain ⟨y, hy, henergy'⟩ := frameEnergy_replicate c hk
  rw [henergy, henergy']
  change decide (x.value < y.value) = _
  rw [hx, hy]
  cases b <;> cases c <;> simp [hpos]

/-- A frame of zeros has less energy than the start value of the search. -/
theorem less_maximum {k : ℕ} (hk : k < 2 ^ 24) :
    FrameEnergy.less (FrameEnergy.frameEnergy (List.replicate k (level false)))
      (FrameEnergy.maximum (α := Single)) = true := by
  obtain ⟨x, hx, henergy⟩ := frameEnergy_replicate false hk
  obtain ⟨m, hm, hvalue⟩ := exists_ofRat_eq (F := binary32) (q := (2 ^ 24 - 1) * 2 ^ 104)
    (by
      rw [abs_of_nonneg (by norm_num)]
      exact ⟨2 ^ 24 - 1, 104, by decide, by decide, by norm_num⟩)
    (by
      rw [abs_of_nonneg (by norm_num)]
      norm_num [binary32])
  have hmaximum : FrameEnergy.maximum (α := Single) = (some m : Number binary32) := hm
  rw [henergy, hmaximum]
  change decide (x.value < m.value) = true
  rw [hx, hvalue]
  norm_num

end Resonantia.Pipeline
