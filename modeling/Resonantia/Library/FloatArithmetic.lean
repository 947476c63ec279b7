import Resonantia.Library.BinaryFloat
import Resonantia.Library.FloatWord

/-!
# Floating-point arithmetic

Sums, quotients and conversions of finite numbers, rounded to nearest. A result that overflows is
no number; the bounds below say when that does not happen.

## Main definitions

* `BinaryFloat.Number`: a finite number, or nothing.
* `BinaryFloat.Number.add`, `BinaryFloat.Number.mul`, `BinaryFloat.Number.divNat`,
  `BinaryFloat.Number.convert`: arithmetic.
* `FloatWord.toSingle`, `FloatWord.ofSingle`: the number of a word, and the word of a number.

## Main results

* `BinaryFloat.Finite.magnitude_le_largest`: the largest finite number.
* `BinaryFloat.exists_add`, `BinaryFloat.exists_divNat`, `BinaryFloat.exists_convert`: results up to
  a representable bound are finite and stay below it.
* `BinaryFloat.exists_ofMagnitude_eq`: representable results are exact.
* `FloatWord.toSingle_ofSingle`: a number is read back from its word.
-/

namespace BinaryFloat

variable {F G : Format}

/-- A number that may have left the finite range. Nothing stands for the infinities and for NaN; a
sum with a finite number, a quotient by a natural number or a conversion of these is one again. -/
abbrev Number (F : Format) := Option (Finite F)

namespace Number

def zero (negative : Bool) : Number F :=
  some ⟨negative, 0, Format.representable_zero, by positivity⟩

/-- The number nearest to a rational; zero is positive. -/
def ofRat (q : ℚ) : Number F := Finite.ofMagnitude (decide (q < 0)) q

/-- A sum; an exact zero is negative only when both operands are. -/
def add (x y : Number F) : Number F := do
  let x ← x
  let y ← y
  if x.value + y.value = 0 then zero (x.negative && y.negative) else ofRat (x.value + y.value)

/-- A product. -/
def mul (x y : Number F) : Number F := do
  let x ← x
  let y ← y
  Finite.ofMagnitude (x.negative != y.negative) (x.magnitude * y.magnitude)

/-- A finite number above zero. -/
def IsPositive (x : Number F) : Prop := ∃ y : Finite F, x = some y ∧ 0 < y.value

/-- The quotient by a natural number. -/
def divNat (x : Number F) (n : ℕ) : Number F := do
  let x ← x
  Finite.ofMagnitude x.negative (x.magnitude / n)

/-- The nearest number of another format. -/
def convert (x : Number F) : Number G := do
  let x ← x
  Finite.ofMagnitude x.negative x.magnitude

end Number

/-! ### Bounds -/

theorem Finite.abs_value (x : Finite F) : |x.value| = x.magnitude := by
  have hnonneg := x.representable.nonneg
  rw [value]
  split_ifs
  · rw [abs_neg, abs_of_nonneg hnonneg]
  · exact abs_of_nonneg hnonneg

theorem Finite.representable_abs_value (x : Finite F) :
    F.Representable |x.value| ∧ |x.value| < 2 ^ F.maxExponent := by
  rw [x.abs_value]
  exact ⟨x.representable, x.bounded⟩

/-- The largest finite number of a format. -/
def Format.largest (F : Format) : ℚ :=
  ((2 ^ F.precision - 1 : ℕ) : ℚ) * 2 ^ (F.maxExponent - F.precision)

/-- **The largest finite number.** -/
theorem Finite.magnitude_le_largest (x : Finite F) : x.magnitude ≤ F.largest := by
  obtain ⟨m, e, hm, -, hx⟩ := x.representable
  have hbounded := x.bounded
  rw [hx] at hbounded ⊢
  rw [Format.largest]
  rcases le_total e (F.maxExponent - F.precision) with hle | hle
  · have hm' : (m : ℚ) ≤ ((2 ^ F.precision - 1 : ℕ) : ℚ) := by
      exact_mod_cast Nat.le_sub_one_of_lt hm
    have hpow := zpow_le_zpow_right₀ (a := (2 : ℚ)) (by norm_num) hle
    gcongr
  · -- a number with a larger last place is a whole number of the smaller ones
    obtain ⟨k, hk⟩ := Int.eq_ofNat_of_zero_le (sub_nonneg.2 hle)
    have hexp : (2 : ℚ) ^ e = 2 ^ k * 2 ^ (F.maxExponent - F.precision) := by
      rw [← zpow_natCast, ← zpow_add₀ (by norm_num)]
      congr 1
      omega
    have hmax : (2 : ℚ) ^ F.maxExponent =
        2 ^ F.precision * 2 ^ (F.maxExponent - F.precision) := by
      rw [← zpow_natCast, ← zpow_add₀ (by norm_num)]
      congr 1
      omega
    rw [hexp, hmax, ← mul_assoc] at hbounded
    have hlt : (m : ℚ) * 2 ^ k < 2 ^ F.precision := lt_of_mul_lt_mul_right hbounded (by positivity)
    have hnat : m * 2 ^ k < 2 ^ F.precision := by exact_mod_cast hlt
    have hle' : ((m * 2 ^ k : ℕ) : ℚ) ≤ ((2 ^ F.precision - 1 : ℕ) : ℚ) := by
      exact_mod_cast Nat.le_sub_one_of_lt hnat
    rw [hexp, ← mul_assoc]
    push_cast at hle' ⊢
    gcongr

/-- Rounding up to a representable bound in range. -/
theorem exists_ofMagnitude_le {q r : ℚ} (negative : Bool) (h : |q| ≤ r) (hr : F.Representable r)
    (hrange : r < 2 ^ F.maxExponent) :
    ∃ x : Finite F, Finite.ofMagnitude negative q = some x ∧ x.magnitude ≤ r := by
  have hle := Format.nearest_le (abs_nonneg q) h hr
  rw [Finite.ofMagnitude, dif_pos (hle.trans_lt hrange)]
  exact ⟨_, rfl, hle⟩

/-- A representable magnitude in range is not rounded. -/
theorem exists_ofMagnitude_eq {q : ℚ} (negative : Bool) (hr : F.Representable |q|)
    (hrange : |q| < 2 ^ F.maxExponent) :
    ∃ x : Finite F, Finite.ofMagnitude negative q = some x ∧ x.negative = negative ∧
      x.magnitude = |q| := by
  have hnearest := Format.nearest_of_representable hr
  rw [Finite.ofMagnitude, dif_pos (by rw [hnearest]; exact hrange)]
  exact ⟨_, rfl, rfl, hnearest⟩

theorem exists_ofRat_eq {q : ℚ} (hr : F.Representable |q|) (hrange : |q| < 2 ^ F.maxExponent) :
    ∃ x : Finite F, Number.ofRat q = some x ∧ x.value = q := by
  obtain ⟨x, hx, hsign, hmagnitude⟩ := exists_ofMagnitude_eq (decide (q < 0)) hr hrange
  refine ⟨x, hx, ?_⟩
  rw [Finite.value, hsign, hmagnitude]
  by_cases hneg : q < 0
  · rw [decide_eq_true hneg, if_pos rfl, abs_of_neg hneg, neg_neg]
  · rw [decide_eq_false hneg, if_neg Bool.false_ne_true, abs_of_nonneg (not_lt.1 hneg)]

/-- The magnitude of a value may be used for its sign and size. -/
theorem exists_ofMagnitude_value {x : Finite F} (hr : G.Representable |x.value|)
    (hrange : |x.value| < 2 ^ G.maxExponent) :
    ∃ y : Finite G, Finite.ofMagnitude x.negative x.magnitude = some y ∧ y.value = x.value := by
  have hmagnitude : |x.magnitude| = |x.value| := by
    rw [x.abs_value, abs_of_nonneg x.representable.nonneg]
  rw [← hmagnitude] at hr hrange
  obtain ⟨y, hy, hsign, hvalue⟩ := exists_ofMagnitude_eq x.negative hr hrange
  refine ⟨y, hy, ?_⟩
  rw [Finite.value, hsign, hvalue, abs_of_nonneg x.representable.nonneg, Finite.value]

/-- A number after nothing. -/
theorem exists_zero_add (x : Finite F) :
    ∃ y : Finite F, Number.add (Number.zero false) (some x) = some y ∧ y.value = x.value := by
  rw [Number.add, Number.zero, Option.bind_eq_bind, Option.bind_some, Option.bind_some]
  have hzero : (⟨false, 0, Format.representable_zero, by positivity⟩ : Finite F).value = 0 := rfl
  rw [hzero, zero_add]
  split_ifs with hvalue
  · exact ⟨_, rfl, hvalue.symm⟩
  · exact exists_ofRat_eq x.representable_abs_value.1 x.representable_abs_value.2

theorem exists_divNat_one (x : Finite F) :
    ∃ y : Finite F, Number.divNat (some x) 1 = some y ∧ y.value = x.value := by
  rw [Number.divNat, Option.bind_eq_bind, Option.bind_some, Nat.cast_one, div_one]
  exact exists_ofMagnitude_value x.representable_abs_value.1 x.representable_abs_value.2

theorem exists_convert_eq {x : Finite F} (hr : G.Representable |x.value|)
    (hrange : |x.value| < 2 ^ G.maxExponent) :
    ∃ y : Finite G, Number.convert (some x) = some y ∧ y.value = x.value := by
  rw [Number.convert, Option.bind_eq_bind, Option.bind_some]
  exact exists_ofMagnitude_value hr hrange

theorem exists_add {x y : Finite F} {a b : ℚ} (hx : x.magnitude ≤ a) (hy : y.magnitude ≤ b)
    (hr : F.Representable (a + b)) (hrange : a + b < 2 ^ F.maxExponent) :
    ∃ z : Finite F, Number.add (some x) (some y) = some z ∧ z.magnitude ≤ a + b := by
  rw [Number.add, Option.bind_eq_bind, Option.bind_some, Option.bind_some]
  split_ifs
  · exact ⟨_, rfl, hr.nonneg⟩
  · refine exists_ofMagnitude_le _ ?_ hr hrange
    calc |x.value + y.value| ≤ |x.value| + |y.value| := abs_add_le _ _
      _ ≤ a + b := by
        rw [x.abs_value, y.abs_value]
        exact add_le_add hx hy

theorem exists_divNat {x : Finite F} {n : ℕ} {a : ℚ} (hn : 0 < n) (hx : x.magnitude ≤ n * a)
    (hr : F.Representable a) (hrange : a < 2 ^ F.maxExponent) :
    ∃ z : Finite F, Number.divNat (some x) n = some z ∧ z.magnitude ≤ a := by
  rw [Number.divNat, Option.bind_eq_bind, Option.bind_some]
  refine exists_ofMagnitude_le _ ?_ hr hrange
  have hn' : (0 : ℚ) < n := by exact_mod_cast hn
  rw [abs_of_nonneg (div_nonneg x.representable.nonneg hn'.le), div_le_iff₀ hn', mul_comm]
  exact hx

theorem exists_convert {x : Finite F} {a : ℚ} (hx : x.magnitude ≤ a) (hr : G.Representable a)
    (hrange : a < 2 ^ G.maxExponent) :
    ∃ z : Finite G, Number.convert (some x) = some z ∧ z.magnitude ≤ a := by
  rw [Number.convert, Option.bind_eq_bind, Option.bind_some]
  refine exists_ofMagnitude_le _ ?_ hr hrange
  rw [abs_of_nonneg x.representable.nonneg]
  exact hx

/-! ### Products -/

theorem Finite.value_pos_iff (x : Finite F) :
    0 < x.value ↔ x.negative = false ∧ 0 < x.magnitude := by
  have hnonneg := x.representable.nonneg
  rw [value]
  split_ifs with hsign
  · simp only [hsign, Bool.true_eq_false, false_and, iff_false, not_lt]
    linarith
  · simp only [hsign, true_and]

/-- A positive product of a number and a positive number has a positive factor. -/
theorem Number.IsPositive.of_mul {x y : Number F} (hy : y.IsPositive)
    (h : (x.mul y).IsPositive) : x.IsPositive := by
  obtain ⟨y, rfl, hypos⟩ := hy
  obtain ⟨z, hz, hzpos⟩ := h
  rw [Finite.value_pos_iff] at hypos hzpos
  cases x with
  | none => cases hz
  | some x =>
    rw [mul, Option.bind_eq_bind, Option.bind_some, Option.bind_some] at hz
    have hsign := Finite.negative_of_ofMagnitude hz
    have hmagnitude := Finite.magnitude_of_ofMagnitude hz
    refine ⟨x, rfl, (Finite.value_pos_iff x).2 ⟨?_, ?_⟩⟩
    · rw [hzpos.1, hypos.1] at hsign
      simpa using hsign.symm
    · refine lt_of_le_of_ne x.representable.nonneg fun hzero => ?_
      rw [← hzero, zero_mul, abs_zero,
        Format.nearest_of_representable Format.representable_zero] at hmagnitude
      rw [hmagnitude] at hzpos
      exact lt_irrefl 0 hzpos.2

end BinaryFloat

namespace FloatWord

open BinaryFloat

theorem fractionBits_lt (w : UInt32) : fractionBits w < 2 ^ 23 := Nat.mod_lt _ (by positivity)

theorem representable_units (w : UInt32) : binary32.Representable (units w / 2 ^ 149) := by
  have hfraction := fractionBits_lt w
  have hdiv : ∀ n : ℕ, ((n : ℚ) / 2 ^ 149) = n * (2 : ℚ) ^ (-149 : ℤ) := by
    intro n
    rw [zpow_neg, div_eq_mul_inv]
    norm_num
  rw [hdiv, units]
  split_ifs with hzero
  · refine ⟨fractionBits w, -149, ?_, le_rfl, rfl⟩
    change fractionBits w < 2 ^ 24
    omega
  · refine ⟨2 ^ 23 + fractionBits w, (exponentBits w - 1 : ℕ) + -149, ?_, ?_, ?_⟩
    · change 2 ^ 23 + fractionBits w < 2 ^ 24
      omega
    · change (-149 : ℤ) ≤ _
      omega
    · rw [zpow_add₀ (by norm_num), zpow_natCast]
      push_cast
      ring

theorem units_lt {w : UInt32} (h : isFinite w = true) : (units w : ℚ) / 2 ^ 149 < 2 ^ (128 : ℤ) := by
  have hfraction := fractionBits_lt w
  have hexponent : exponentBits w ≤ 254 := by
    have hlt : exponentBits w < 256 := Nat.mod_lt _ (by positivity)
    have hne : exponentBits w ≠ 255 := by simpa [isFinite] using h
    omega
  have hunits : units w < 2 ^ 24 * 2 ^ 253 := by
    rw [units]
    split_ifs
    · exact hfraction.trans (by norm_num)
    · have hpow : 2 ^ (exponentBits w - 1) ≤ 2 ^ 253 :=
        Nat.pow_le_pow_right (by norm_num) (by omega)
      calc (2 ^ 23 + fractionBits w) * 2 ^ (exponentBits w - 1)
          ≤ (2 ^ 23 + fractionBits w) * 2 ^ 253 := Nat.mul_le_mul_left _ hpow
        _ < 2 ^ 24 * 2 ^ 253 := Nat.mul_lt_mul_of_pos_right (by omega) (by positivity)
  rw [div_lt_iff₀ (by positivity)]
  have hcast : (units w : ℚ) < 2 ^ 24 * 2 ^ 253 := by exact_mod_cast hunits
  calc (units w : ℚ) < 2 ^ 24 * 2 ^ 253 := hcast
    _ = 2 ^ (128 : ℤ) * 2 ^ 149 := by norm_num

/-- The number of a word. -/
def toSingle (w : UInt32) : Number binary32 :=
  if h : isFinite w = true then
    some ⟨decide (2 ^ 31 ≤ w.toNat), units w / 2 ^ 149, representable_units w, units_lt h⟩
  else none

theorem isSome_toSingle (w : UInt32) : (toSingle w).isSome = isFinite w := by
  rw [toSingle]
  split_ifs with h
  · rw [h, Option.isSome_some]
  · rw [Option.isSome_none, Bool.not_eq_true] at *
    exact h.symm

/-! ### The word of a number -/

/-- The exponent and the fraction of a magnitude in units of the smallest positive one. -/
def ofUnits (n : ℕ) : ℕ :=
  if n < 2 ^ 23 then n
  else (Nat.log2 n - 23 + 1) * 2 ^ 23 + (n / 2 ^ (Nat.log2 n - 23) - 2 ^ 23)

/-- The word of a number. -/
def ofSingle (x : Finite binary32) : UInt32 :=
  ((if x.negative = true then 2 ^ 31 else 0) + ofUnits (x.magnitude * 2 ^ 149).num.toNat).toUInt32

/-- The fields that `ofUnits` puts together. -/
theorem ofUnits_spec {m j : ℕ} (hm : m < 2 ^ 24) (hlt : m * 2 ^ j < 2 ^ 277) :
    ofUnits (m * 2 ^ j) / 2 ^ 23 < 255 ∧
      (if ofUnits (m * 2 ^ j) / 2 ^ 23 = 0 then ofUnits (m * 2 ^ j) % 2 ^ 23
        else (2 ^ 23 + ofUnits (m * 2 ^ j) % 2 ^ 23) *
          2 ^ (ofUnits (m * 2 ^ j) / 2 ^ 23 - 1)) = m * 2 ^ j := by
  generalize hn : m * 2 ^ j = n at hlt ⊢
  rw [ofUnits]
  by_cases hsmall : n < 2 ^ 23
  · rw [if_pos hsmall, Nat.div_eq_of_lt hsmall, if_pos rfl, Nat.mod_eq_of_lt hsmall]
    exact ⟨by norm_num, rfl⟩
  rw [if_neg hsmall]
  have hpos : n ≠ 0 := by omega
  obtain ⟨shift, hshift⟩ : ∃ shift, Nat.log2 n = 23 + shift :=
    Nat.exists_eq_add_of_le ((Nat.le_log2 hpos).2 (not_lt.1 hsmall))
  have hbound : shift < 254 := by
    have := (Nat.log2_lt hpos).2 hlt
    omega
  have hlow : 2 ^ 23 * 2 ^ shift ≤ n := by
    rw [← pow_add, ← hshift]
    exact Nat.log2_self_le hpos
  have hhigh : n < 2 ^ 24 * 2 ^ shift := by
    have := (Nat.log2_lt hpos).1 (Nat.lt_succ_self _)
    rw [hshift] at this
    calc n < 2 ^ (23 + shift + 1) := this
      _ = 2 ^ 24 * 2 ^ shift := by rw [← pow_add]; congr 1; omega
  -- the number has no more than 24 significant bits
  have hdvd : 2 ^ shift ∣ n := by
    have hless : 2 ^ (23 + shift) < 2 ^ (24 + j) := by
      calc 2 ^ (23 + shift) ≤ n := by rw [pow_add]; exact hlow
        _ = m * 2 ^ j := hn.symm
        _ < 2 ^ 24 * 2 ^ j := Nat.mul_lt_mul_of_pos_right hm (by positivity)
        _ = 2 ^ (24 + j) := (pow_add 2 24 j).symm
    have hexponent := (Nat.pow_lt_pow_iff_right (by decide : 1 < 2)).1 hless
    rw [← hn]
    exact Dvd.dvd.mul_left (pow_dvd_pow 2 (by omega)) m
  have hquotient : 2 ^ 23 ≤ n / 2 ^ shift ∧ n / 2 ^ shift < 2 ^ 24 :=
    ⟨(Nat.le_div_iff_mul_le (by positivity)).2 hlow,
      (Nat.div_lt_iff_lt_mul (by positivity)).2 hhigh⟩
  have hproduct : n / 2 ^ shift * 2 ^ shift = n := Nat.div_mul_cancel hdvd
  rw [hshift, Nat.add_sub_cancel_left]
  generalize n / 2 ^ shift = quotient at hquotient hproduct
  have hexponent : ((shift + 1) * 2 ^ 23 + (quotient - 2 ^ 23)) / 2 ^ 23 = shift + 1 := by omega
  have hfraction : ((shift + 1) * 2 ^ 23 + (quotient - 2 ^ 23)) % 2 ^ 23 = quotient - 2 ^ 23 := by
    omega
  rw [hexponent, hfraction, if_neg (Nat.succ_ne_zero _), Nat.add_sub_cancel' hquotient.1,
    Nat.add_sub_cancel]
  exact ⟨by omega, hproduct⟩

/-- The magnitude of a number is a multiple of the smallest positive one. -/
theorem exists_units (x : Finite binary32) :
    ∃ m j : ℕ, m < 2 ^ 24 ∧ m * 2 ^ j < 2 ^ 277 ∧ x.magnitude = ((m * 2 ^ j : ℕ) : ℚ) / 2 ^ 149 := by
  obtain ⟨m, e, hm, he, hvalue⟩ := x.representable
  obtain ⟨j, hj⟩ : ∃ j : ℕ, e = j + -149 := ⟨(e + 149).toNat, by
    change (-149 : ℤ) ≤ e at he
    omega⟩
  have hmagnitude : x.magnitude = ((m * 2 ^ j : ℕ) : ℚ) / 2 ^ 149 := by
    rw [hvalue, hj, zpow_add₀ (by norm_num), zpow_natCast, zpow_neg, Nat.cast_mul, Nat.cast_pow,
      Nat.cast_ofNat, div_eq_mul_inv, mul_assoc]
    norm_num
  refine ⟨m, j, hm, ?_, hmagnitude⟩
  have hrange : x.magnitude < 2 ^ (128 : ℤ) := x.bounded
  rw [hmagnitude, div_lt_iff₀ (by positivity)] at hrange
  have hpow : (2 : ℚ) ^ (128 : ℤ) * 2 ^ 149 = ((2 ^ 277 : ℕ) : ℚ) := by
    rw [show (128 : ℤ) = ((128 : ℕ) : ℤ) from rfl, zpow_natCast, ← pow_add, Nat.cast_pow,
      Nat.cast_ofNat]
  rw [hpow] at hrange
  exact_mod_cast hrange

/-- **A number is read back from its word.** -/
theorem toSingle_ofSingle (x : Finite binary32) : toSingle (ofSingle x) = some x := by
  obtain ⟨m, j, hm, hlt, hmagnitude⟩ := exists_units x
  obtain ⟨hexponent, hunits⟩ := ofUnits_spec hm hlt
  have hnum : (x.magnitude * 2 ^ 149).num.toNat = m * 2 ^ j := by
    rw [hmagnitude, div_mul_cancel₀ _ (by positivity), Rat.num_natCast, Int.toNat_natCast]
  have hword : (ofSingle x).toNat =
      (if x.negative = true then 2 ^ 31 else 0) + ofUnits (m * 2 ^ j) := by
    rw [ofSingle, hnum]
    apply UInt32.toNat_ofNat_of_lt'
    change _ < 2 ^ 32
    split_ifs <;> omega
  generalize ofUnits (m * 2 ^ j) = code at hexponent hunits hword
  have hbits : exponentBits (ofSingle x) = code / 2 ^ 23 := by
    rw [exponentBits, hword]
    split_ifs <;> omega
  have hfraction : fractionBits (ofSingle x) = code % 2 ^ 23 := by
    rw [fractionBits, hword]
    split_ifs <;> omega
  have hfinite : isFinite (ofSingle x) = true := by
    rw [isFinite, hbits]
    exact decide_eq_true (Nat.ne_of_lt hexponent)
  have hsame : units (ofSingle x) = m * 2 ^ j := by
    rw [units, hbits, hfraction, hunits]
  have hnegative : decide (2 ^ 31 ≤ (ofSingle x).toNat) = x.negative := by
    rw [hword]
    cases x.negative with
    | true => exact decide_eq_true (Nat.le_add_right _ _)
    | false =>
      refine decide_eq_false ?_
      rw [if_neg Bool.false_ne_true]
      omega
  rw [toSingle, dif_pos hfinite]
  refine congrArg some (Finite.ext hnegative ?_)
  change (units (ofSingle x) : ℚ) / 2 ^ 149 = x.magnitude
  rw [hsame, hmagnitude]

theorem isFinite_ofSingle (x : Finite binary32) : isFinite (ofSingle x) = true := by
  rw [← isSome_toSingle, toSingle_ofSingle, Option.isSome_some]

theorem value_of_toSingle {w : UInt32} {x : Finite binary32} (h : toSingle w = some x) :
    value w = x.value := by
  rw [toSingle] at h
  split_ifs at h with hfinite
  rw [← Option.some.inj h, value, Finite.value]
  by_cases hsign : w.toNat < 2 ^ 31
  · rw [if_pos hsign, if_neg (by simpa using hsign)]
  · rw [if_neg hsign, if_pos (by simpa using hsign), neg_div]

theorem value_ofSingle (x : Finite binary32) : value (ofSingle x) = x.value :=
  value_of_toSingle (toSingle_ofSingle x)

end FloatWord
