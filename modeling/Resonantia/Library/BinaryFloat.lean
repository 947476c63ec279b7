import Mathlib.Algebra.Order.Field.Power
import Mathlib.Data.Int.Log
import Mathlib.Data.Nat.Notation
import Mathlib.Data.Rat.Floor
import Mathlib.Tactic.FieldSimp
import Mathlib.Tactic.Linarith
import Mathlib.Tactic.Positivity
import Mathlib.Tactic.Ring

/-!
# Binary floating point over the rationals

A finite binary floating-point number is a sign and a rational magnitude `m * 2 ^ e` with a
bounded significand and a bounded exponent. Rounding to the nearest such magnitude, ties to an
even significand, is division by the unit in the last place, rounding to an integer, and
multiplication back.

## Main definitions

* `BinaryFloat.roundHalfEven`: the nearest integer, ties to even.
* `BinaryFloat.Format`, `BinaryFloat.binary64`, `BinaryFloat.binary32`: precision and range.
* `BinaryFloat.Format.nearest`: round to nearest, ties to even, with an unbounded range above.
* `BinaryFloat.Finite`: the finite numbers of a format, signed zeros kept apart.

## Main results

* `BinaryFloat.Format.nearest_representable`, `BinaryFloat.Format.nearest_of_representable`:
  rounding lands on representable magnitudes and fixes them.
* `BinaryFloat.Format.nearest_le`: rounding never passes a representable bound.
* `BinaryFloat.Format.abs_sub_nearest_le`: the rounding error of a magnitude below `2 ^ k`.
-/

namespace BinaryFloat

/-! ### Rounding to an integer -/

/-- The integer nearest to `q`; a tie goes to the even neighbour. -/
def roundHalfEven (q : ℚ) : ℤ :=
  if q - ⌊q⌋ < 1 / 2 then ⌊q⌋
  else if 1 / 2 < q - ⌊q⌋ then ⌊q⌋ + 1
  else if ⌊q⌋ % 2 = 0 then ⌊q⌋ else ⌊q⌋ + 1

theorem abs_sub_roundHalfEven_le (q : ℚ) : |q - roundHalfEven q| ≤ 1 / 2 := by
  have hfloor := Int.floor_le q
  have hlt := Int.lt_floor_add_one q
  rw [roundHalfEven, abs_le]
  split_ifs <;> push_cast <;> constructor <;> linarith

/-- An integer closer than one half is the rounded value. -/
theorem roundHalfEven_eq_of_abs_lt {q : ℚ} {n : ℤ} (h : |q - n| < 1 / 2) :
    roundHalfEven q = n := by
  have hround := abs_le.1 (abs_sub_roundHalfEven_le q)
  have hn := abs_lt.1 h
  have hlow : (roundHalfEven q : ℚ) < n + 1 := by linarith
  have hhigh : (n : ℚ) < roundHalfEven q + 1 := by linarith
  have hlow' : roundHalfEven q < n + 1 := by exact_mod_cast hlow
  have hhigh' : n < roundHalfEven q + 1 := by exact_mod_cast hhigh
  omega

@[simp]
theorem roundHalfEven_intCast (n : ℤ) : roundHalfEven n = n :=
  roundHalfEven_eq_of_abs_lt (by simp)

@[simp]
theorem roundHalfEven_zero : roundHalfEven 0 = 0 := by
  exact_mod_cast roundHalfEven_intCast 0

theorem roundHalfEven_le {q : ℚ} {n : ℤ} (h : q ≤ n) : roundHalfEven q ≤ n := by
  rcases h.eq_or_lt with rfl | hlt
  · simp
  · have hround := abs_le.1 (abs_sub_roundHalfEven_le q)
    have hlt' : (roundHalfEven q : ℚ) < n + 1 := by linarith
    have : roundHalfEven q < n + 1 := by exact_mod_cast hlt'
    omega

theorem le_roundHalfEven {q : ℚ} {n : ℤ} (h : n ≤ q) : n ≤ roundHalfEven q := by
  rcases h.eq_or_lt with rfl | hlt
  · simp
  · have hround := abs_le.1 (abs_sub_roundHalfEven_le q)
    have hlt' : (n : ℚ) < roundHalfEven q + 1 := by linarith
    have : n < roundHalfEven q + 1 := by exact_mod_cast hlt'
    omega

/-- Rounding to an integer keeps the order. -/
theorem roundHalfEven_mono {q r : ℚ} (h : q ≤ r) : roundHalfEven q ≤ roundHalfEven r := by
  by_contra hlt
  rw [not_le] at hlt
  have hq := abs_le.1 (abs_sub_roundHalfEven_le q)
  have hr := abs_le.1 (abs_sub_roundHalfEven_le r)
  have hstep : (roundHalfEven r : ℚ) + 1 ≤ roundHalfEven q := by exact_mod_cast hlt
  have heq : q = r := by linarith
  rw [heq] at hlt
  exact absurd hlt (lt_irrefl _)

/-- Nothing rounds to zero but the interval up to one half. -/
theorem roundHalfEven_pos_iff {q : ℚ} (h : 0 ≤ q) : 0 < roundHalfEven q ↔ 1 / 2 < q := by
  have hround := abs_le.1 (abs_sub_roundHalfEven_le q)
  constructor
  · intro hpos
    by_contra hle
    have hfloor : ⌊q⌋ = 0 := Int.floor_eq_zero_iff.2 ⟨h, by linarith⟩
    have hzero : roundHalfEven q = 0 := by
      rw [roundHalfEven, hfloor]
      split_ifs with h₁ h₂ h₃
      · rfl
      · exact absurd (by simpa using h₂) hle
      · rfl
      · exact absurd rfl h₃
    omega
  · intro hq
    have : (0 : ℚ) < roundHalfEven q := by linarith
    exact_mod_cast this

/-! ### Formats -/

/-- A binary format: significands have `precision` bits, the last place of every number is at
least `2 ^ minExponent`, and every magnitude is below `2 ^ maxExponent`. -/
structure Format where
  precision : ℕ
  minExponent : ℤ
  maxExponent : ℤ
  precision_pos : 0 < precision
deriving DecidableEq

/-- The double-precision format. -/
def binary64 : Format where
  precision := 53
  minExponent := -1074
  maxExponent := 1024
  precision_pos := by decide

/-- The single-precision format. -/
def binary32 : Format where
  precision := 24
  minExponent := -149
  maxExponent := 128
  precision_pos := by decide

variable (F : Format)

/-- A magnitude that the format holds exactly, if its range allows. -/
def Format.Representable (q : ℚ) : Prop :=
  ∃ (m : ℕ) (e : ℤ), m < 2 ^ F.precision ∧ F.minExponent ≤ e ∧ q = m * (2 : ℚ) ^ e

/-- The exponent of the unit in the last place at magnitude `q`. -/
def Format.ulpExponent (q : ℚ) : ℤ := max F.minExponent (Int.log 2 q - (F.precision - 1))

/-- Round a magnitude to the nearest representable one, ties to an even significand. -/
def Format.nearest (q : ℚ) : ℚ :=
  roundHalfEven (q / 2 ^ F.ulpExponent q) * 2 ^ F.ulpExponent q

/-- Round a signed value to nearest. -/
def Format.nearestSigned (q : ℚ) : ℚ := if q < 0 then -F.nearest (-q) else F.nearest q

variable {F}

theorem Format.Representable.nonneg {q : ℚ} (h : F.Representable q) : 0 ≤ q := by
  obtain ⟨m, e, -, -, rfl⟩ := h
  positivity

theorem Format.representable_zero : F.Representable 0 :=
  ⟨0, F.minExponent, by positivity, le_rfl, by simp⟩

/-- Naturals below `2 ^ precision` are representable once the format reaches down to units. -/
theorem Format.representable_natCast {n : ℕ} (hn : n < 2 ^ F.precision) (h : F.minExponent ≤ 0) :
    F.Representable n :=
  ⟨n, 0, hn, h, by simp⟩

theorem Format.minExponent_le_ulpExponent (q : ℚ) : F.minExponent ≤ F.ulpExponent q :=
  le_max_left _ _

/-- A magnitude below `2 ^ k` has its last place no higher than `2 ^ (k - precision)`. -/
theorem Format.ulpExponent_le {q : ℚ} {k : ℤ} (hq : 0 < q) (h : q < 2 ^ k) :
    F.ulpExponent q ≤ max F.minExponent (k - F.precision) := by
  have hlog : Int.log 2 q < k := (Int.lt_zpow_iff_log_lt one_lt_two hq).1 (by exact_mod_cast h)
  rw [Format.ulpExponent]
  refine max_le_max le_rfl ?_
  omega

/-- The magnitude is below `2 ^ precision` units in its last place. -/
theorem Format.div_ulp_lt {q : ℚ} (hq : 0 ≤ q) :
    q / 2 ^ F.ulpExponent q < 2 ^ (F.precision : ℤ) := by
  rcases hq.eq_or_lt with rfl | hpos
  · simp
  · rw [div_lt_iff₀ (by positivity), ← zpow_add₀ (by norm_num)]
    have hlog : q < (2 : ℚ) ^ (Int.log 2 q + 1) := by
      exact_mod_cast Int.lt_zpow_succ_log_self one_lt_two q
    refine hlog.trans_le (zpow_le_zpow_right₀ (by norm_num) ?_)
    have : Int.log 2 q - (F.precision - 1) ≤ F.ulpExponent q := le_max_right _ _
    omega

/-- A representable magnitude is a whole number of units of any last place at or below its own. -/
theorem Format.Representable.exists_int_mul {q : ℚ} (h : F.Representable q) {u : ℤ}
    (hu : u = F.minExponent ∨ u = F.ulpExponent q) : ∃ n : ℤ, q = n * (2 : ℚ) ^ u := by
  obtain ⟨m, e, hm, he, rfl⟩ := h
  rcases Nat.eq_zero_or_pos m with rfl | hpos
  · exact ⟨0, by simp⟩
  have hle : u ≤ e := by
    rcases hu with rfl | rfl
    · exact he
    · have hq : (m : ℚ) * 2 ^ e < 2 ^ (F.precision + e) := by
        rw [zpow_add₀ (by norm_num)]
        have : (m : ℚ) < 2 ^ (F.precision : ℤ) := by exact_mod_cast hm
        gcongr
      refine (Format.ulpExponent_le (by positivity) hq).trans (max_le he ?_)
      omega
  refine ⟨m * 2 ^ (e - u).toNat, ?_⟩
  have hexp : (2 : ℚ) ^ e = 2 ^ (e - u).toNat * 2 ^ u := by
    rw [← zpow_natCast, ← zpow_add₀ (by norm_num)]
    congr 1
    omega
  rw [hexp]
  push_cast
  ring

/-- **Rounding fixes representable magnitudes.** -/
theorem Format.nearest_of_representable {q : ℚ} (h : F.Representable q) : F.nearest q = q := by
  obtain ⟨n, hn⟩ := h.exists_int_mul (Or.inr rfl)
  have hdiv : q / 2 ^ F.ulpExponent q = n := by
    rw [div_eq_iff (by positivity)]
    exact hn
  rw [Format.nearest, hdiv, roundHalfEven_intCast, ← hn]

theorem Format.nearest_nonneg {q : ℚ} (hq : 0 ≤ q) : 0 ≤ F.nearest q := by
  have hround : (0 : ℤ) ≤ roundHalfEven (q / 2 ^ F.ulpExponent q) :=
    le_roundHalfEven (by simpa using by positivity)
  have : (0 : ℚ) ≤ roundHalfEven (q / 2 ^ F.ulpExponent q) := by exact_mod_cast hround
  rw [Format.nearest]
  positivity

/-- **Rounding lands on representable magnitudes.** -/
theorem Format.nearest_representable {q : ℚ} (hq : 0 ≤ q) : F.Representable (F.nearest q) := by
  have hlow : (0 : ℤ) ≤ roundHalfEven (q / 2 ^ F.ulpExponent q) :=
    le_roundHalfEven (by simpa using by positivity)
  have hhigh : roundHalfEven (q / 2 ^ F.ulpExponent q) ≤ ((2 ^ F.precision : ℕ) : ℤ) := by
    refine roundHalfEven_le ?_
    have := (Format.div_ulp_lt (F := F) hq).le
    exact_mod_cast this
  obtain ⟨m, hm⟩ := Int.eq_ofNat_of_zero_le hlow
  rw [Format.nearest, hm]
  rw [hm] at hhigh
  rcases (show m ≤ 2 ^ F.precision by exact_mod_cast hhigh).eq_or_lt with heq | hlt
  · -- the significand carried into the next binade
    have hp := F.precision_pos
    refine ⟨2 ^ (F.precision - 1), F.ulpExponent q + 1,
      Nat.pow_lt_pow_right one_lt_two (by omega),
      (Format.minExponent_le_ulpExponent q).trans (by omega), ?_⟩
    have hpow : (2 : ℕ) ^ F.precision = 2 ^ (F.precision - 1) * 2 := by
      rw [← pow_succ]
      congr 1
      omega
    rw [heq, hpow, zpow_add_one₀ (by norm_num)]
    push_cast
    ring
  · exact ⟨m, F.ulpExponent q, hlt, Format.minExponent_le_ulpExponent q, by simp⟩

/-- **Rounding never passes a representable bound.** -/
theorem Format.nearest_le {q r : ℚ} (hq : 0 ≤ q) (h : q ≤ r) (hr : F.Representable r) :
    F.nearest q ≤ r := by
  rcases hq.eq_or_lt with rfl | hpos
  · rw [Format.nearest_of_representable Format.representable_zero]
    exact h
  have hunit : (0 : ℚ) < 2 ^ F.ulpExponent q := by positivity
  have hfrom : ∀ n : ℤ, r = n * 2 ^ F.ulpExponent q → F.nearest q ≤ r := by
    intro n hn
    have hdiv : q / 2 ^ F.ulpExponent q ≤ n := by
      rw [div_le_iff₀ hunit]
      linarith
    have hround : (roundHalfEven (q / 2 ^ F.ulpExponent q) : ℚ) ≤ n := by
      exact_mod_cast roundHalfEven_le hdiv
    rw [Format.nearest, hn]
    gcongr
  have hlog : Int.log 2 q ≤ Int.log 2 r := Int.log_mono_right hpos h
  rcases hlog.eq_or_lt with hsame | hless
  · -- both magnitudes lie in one binade and share their last place
    have hulp : F.ulpExponent q = F.ulpExponent r := by rw [Format.ulpExponent, hsame]; rfl
    obtain ⟨n, hn⟩ := hr.exists_int_mul (Or.inr hulp)
    exact hfrom n hn
  · rcases le_total (Int.log 2 q - (F.precision - 1)) F.minExponent with hsub | hnormal
    · obtain ⟨n, hn⟩ := hr.exists_int_mul (Or.inl rfl)
      exact hfrom n (by rwa [Format.ulpExponent, max_eq_left hsub])
    · -- the bound is at least the next power of two, the largest value rounding can reach
      have hulp : F.ulpExponent q = Int.log 2 q - (F.precision - 1) := max_eq_right hnormal
      have hround : roundHalfEven (q / 2 ^ F.ulpExponent q) ≤ ((2 ^ F.precision : ℕ) : ℤ) := by
        refine roundHalfEven_le ?_
        have := (Format.div_ulp_lt (F := F) hq).le
        exact_mod_cast this
      have hround' : (roundHalfEven (q / 2 ^ F.ulpExponent q) : ℚ) ≤ 2 ^ (F.precision : ℤ) := by
        exact_mod_cast hround
      calc F.nearest q ≤ 2 ^ (F.precision : ℤ) * 2 ^ F.ulpExponent q := by
            rw [Format.nearest]
            gcongr
        _ = 2 ^ (Int.log 2 q + 1) := by
            rw [← zpow_add₀ (by norm_num), hulp]
            congr 1
            ring
        _ ≤ 2 ^ Int.log 2 r := zpow_le_zpow_right₀ (by norm_num) (by omega)
        _ ≤ r := by exact_mod_cast Int.zpow_log_le_self one_lt_two (hpos.trans_le h)

/-- **Rounding keeps the order** of magnitudes. -/
theorem Format.nearest_mono {q r : ℚ} (hq : 0 ≤ q) (h : q ≤ r) : F.nearest q ≤ F.nearest r := by
  rcases hq.eq_or_lt with rfl | hpos
  · rw [Format.nearest_of_representable Format.representable_zero]
    exact Format.nearest_nonneg h
  have hlog : Int.log 2 q ≤ Int.log 2 r := Int.log_mono_right hpos h
  have hunit : (0 : ℚ) < 2 ^ F.ulpExponent r := by positivity
  by_cases hsame : F.ulpExponent q = F.ulpExponent r
  · have hround : (roundHalfEven (q / 2 ^ F.ulpExponent r) : ℚ) ≤
        roundHalfEven (r / 2 ^ F.ulpExponent r) := by
      exact_mod_cast roundHalfEven_mono (div_le_div_of_nonneg_right h hunit.le)
    rw [Format.nearest, Format.nearest, hsame]
    gcongr
  · -- the power of two between the two magnitudes is representable
    have hulp : F.ulpExponent r = Int.log 2 r - (F.precision - 1) := by
      rw [Format.ulpExponent, Format.ulpExponent] at hsame
      rw [Format.ulpExponent]
      omega
    have hlt : Int.log 2 q < Int.log 2 r := by
      refine lt_of_le_of_ne hlog fun heq => hsame ?_
      rw [Format.ulpExponent, Format.ulpExponent, heq]
    have hpow : ((2 ^ (F.precision - 1) : ℕ) : ℚ) * 2 ^ F.ulpExponent r = 2 ^ Int.log 2 r := by
      have := F.precision_pos
      rw [Nat.cast_pow, Nat.cast_ofNat, ← zpow_natCast, ← zpow_add₀ (by norm_num), hulp]
      congr 1
      omega
    have hrepresentable : F.Representable (2 ^ Int.log 2 r) := by
      refine ⟨2 ^ (F.precision - 1), F.ulpExponent r, ?_, Format.minExponent_le_ulpExponent r,
        hpow.symm⟩
      exact Nat.pow_lt_pow_right one_lt_two (by have := F.precision_pos; omega)
    have hbelow : q ≤ 2 ^ Int.log 2 r := by
      have hpowlt : q < (2 : ℚ) ^ (Int.log 2 q + 1) := by
        exact_mod_cast Int.lt_zpow_succ_log_self one_lt_two q
      exact hpowlt.le.trans (zpow_le_zpow_right₀ (by norm_num) (by omega))
    have habove : ((2 ^ (F.precision - 1) : ℕ) : ℤ) ≤ roundHalfEven (r / 2 ^ F.ulpExponent r) := by
      refine le_roundHalfEven ?_
      rw [Int.cast_natCast, le_div_iff₀ hunit, hpow]
      exact_mod_cast Int.zpow_log_le_self one_lt_two (hpos.trans_le h)
    calc F.nearest q ≤ 2 ^ Int.log 2 r := Format.nearest_le hq hbelow hrepresentable
      _ = ((2 ^ (F.precision - 1) : ℕ) : ℚ) * 2 ^ F.ulpExponent r := hpow.symm
      _ ≤ F.nearest r := by
        rw [Format.nearest]
        have habove' : ((2 ^ (F.precision - 1) : ℕ) : ℚ) ≤ roundHalfEven (r / 2 ^ F.ulpExponent r) := by
          exact_mod_cast habove
        gcongr

/-- **Rounding error.** A magnitude below `2 ^ k` moves by at most half of its last place. -/
theorem Format.abs_sub_nearest_le {q : ℚ} {k : ℤ} (hq : 0 ≤ q) (h : q < 2 ^ k) :
    |q - F.nearest q| ≤ 2 ^ (max F.minExponent (k - F.precision)) / 2 := by
  rcases hq.eq_or_lt with rfl | hpos
  · rw [Format.nearest_of_representable Format.representable_zero, sub_zero, abs_zero]
    positivity
  have hunit : (0 : ℚ) < 2 ^ F.ulpExponent q := by positivity
  have hscale : q - F.nearest q =
      (q / 2 ^ F.ulpExponent q - roundHalfEven (q / 2 ^ F.ulpExponent q)) *
        2 ^ F.ulpExponent q := by
    rw [Format.nearest]
    field_simp
  calc |q - F.nearest q| ≤ 1 / 2 * 2 ^ F.ulpExponent q := by
        rw [hscale, abs_mul, abs_of_pos hunit]
        have := abs_sub_roundHalfEven_le (q / 2 ^ F.ulpExponent q)
        gcongr
    _ ≤ 1 / 2 * 2 ^ (max F.minExponent (k - F.precision)) := by
        have := zpow_le_zpow_right₀ (a := (2 : ℚ)) (by norm_num)
          (Format.ulpExponent_le (F := F) hpos h)
        gcongr
    _ = 2 ^ (max F.minExponent (k - F.precision)) / 2 := by ring

/-! ### Finite numbers -/

/-- A finite number of a format: a sign, which zero has too, and a representable magnitude. -/
@[ext]
structure Finite (F : Format) where
  negative : Bool
  magnitude : ℚ
  representable : F.Representable magnitude
  bounded : magnitude < 2 ^ F.maxExponent
deriving DecidableEq

namespace Finite

/-- The signed value; the two zeros have the same one. -/
def value (x : Finite F) : ℚ := if x.negative then -x.magnitude else x.magnitude

/-- A number that is not below zero is its magnitude: only zero has a sign then. -/
theorem value_eq_magnitude {x : Finite F} (h : 0 ≤ x.value) : x.value = x.magnitude := by
  have hnonneg := x.representable.nonneg
  rw [value] at h ⊢
  split_ifs at h ⊢ with hsign
  · linarith
  · rfl

/-- The number nearest to a signed magnitude, or nothing when it overflows. -/
def ofMagnitude (negative : Bool) (q : ℚ) : Option (Finite F) :=
  if h : F.nearest |q| < 2 ^ F.maxExponent then
    some ⟨negative, F.nearest |q|, Format.nearest_representable (abs_nonneg q), h⟩
  else none

theorem negative_of_ofMagnitude {negative : Bool} {q : ℚ} {x : Finite F}
    (h : ofMagnitude negative q = some x) : x.negative = negative := by
  rw [ofMagnitude] at h
  split_ifs at h
  rw [← Option.some.inj h]

theorem magnitude_of_ofMagnitude {negative : Bool} {q : ℚ} {x : Finite F}
    (h : ofMagnitude negative q = some x) : x.magnitude = F.nearest |q| := by
  rw [ofMagnitude] at h
  split_ifs at h
  rw [← Option.some.inj h]

/-- A magnitude up to a representable one in range does not overflow. -/
theorem exists_ofMagnitude {q r : ℚ} (negative : Bool) (hq : 0 ≤ q) (h : q ≤ r)
    (hr : F.Representable r) (hrange : r < 2 ^ F.maxExponent) :
    ∃ x : Finite F, ofMagnitude negative q = some x := by
  have hlt : F.nearest |q| < 2 ^ F.maxExponent := by
    rw [abs_of_nonneg hq]
    exact (Format.nearest_le hq h hr).trans_lt hrange
  rw [ofMagnitude, dif_pos hlt]
  exact ⟨_, rfl⟩

/-- Subtraction, rounded to nearest; the range is unbounded above. -/
def sub (x y : Finite F) : ℚ := F.nearestSigned (x.value - y.value)

end Finite

/-- The finite numbers in double precision. -/
abbrev Double := Finite binary64

/-- The finite numbers in single precision. -/
abbrev Single := Finite binary32

end BinaryFloat
