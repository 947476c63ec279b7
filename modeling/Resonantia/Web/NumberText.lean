import Mathlib.Data.Int.Notation
import Resonantia.Library.BinaryFloat
import Resonantia.Library.Numeral

/-!
# Number fields of forms and task records

The service reads numeric form fields with `strtol` and `strtod` and writes them into task
records with `std::to_string`, which prints a double with six decimals. This module embeds both
directions and computes what a double becomes after one trip through its stored text.

## Main definitions

* `Web.strtod`, `Web.strtol`: the longest number at the start of a text.
* `Web.parseIntField`, `Web.parseDoubleField`, `Web.parseBoolField`: the form field checks.
* `Web.toStringDouble`: `std::to_string` of a double.
* `Web.micros`: the number of millionths that the six printed decimals denote.
* `Web.throughText`: the double read back from the printed text.

## Main results

* `Web.parseDoubleField_toStringDouble`, `Web.parseIntField_toString`,
  `Web.parseBoolField_boolText`: reading back what was written.
* `Web.toStringDouble_throughText`: the stored text is a fixed point of write and read.
* `Web.throughText_pos_iff`: which doubles survive as nonzero.
-/

namespace Resonantia.Web

open BinaryFloat Numeral

/-- `ERANGE` on underflow: the exact value is below the smallest normal number and the result is
inexact. -/
def underflows (q : ℚ) (x : Double) : Prop :=
  x.magnitude ≠ q ∧ q < 2 ^ (binary64.minExponent + binary64.precision - 1)

instance (q : ℚ) (x : Double) : Decidable (underflows q x) := by
  unfold underflows
  infer_instance

/-- `strtod` in the C locale: the correctly rounded number and the unread rest, or nothing when
there is no number or `errno` is `ERANGE`. The texts of infinities and of NaN are left out: the
one caller rejects them. -/
def strtod (cs : List Char) : Option (Double × List Char) :=
  match scanSign (cs.dropWhile isSpace) with
  | (negative, digits) =>
    match scanMagnitude digits with
    | none => none
    | some (q, rest) =>
      match Finite.ofMagnitude negative q with
      | none => none
      | some x => if underflows q x then none else some (x, rest)

/-- `strtol` in base ten; nothing when there are no digits or the value leaves `long`. -/
def strtol (cs : List Char) : Option (ℤ × List Char) :=
  match scanSign (cs.dropWhile isSpace) with
  | (negative, digits) =>
    match scanDigits decimalDigit 10 0 0 digits with
    | (_, 0, _) => none
    | (value, _ + 1, rest) =>
      let parsed : ℤ := if negative then -value else value
      if -2 ^ 63 ≤ parsed ∧ parsed < 2 ^ 63 then some (parsed, rest) else none

/-! ### Field checks -/

def parseIntField (value : String) (minimum maximum : ℤ) : Option ℤ :=
  match strtol value.toList with
  | some (parsed, []) => if parsed < minimum ∨ maximum < parsed then none else some parsed
  | _ => none

def parseDoubleField (value : String) (minimum maximum : ℚ) : Option Double :=
  match strtod value.toList with
  | some (parsed, []) =>
    if parsed.value < minimum ∨ maximum < parsed.value then none else some parsed
  | _ => none

def parseBoolField (value : String) : Option Bool :=
  if value = "0" then some false else if value = "1" then some true else none

/-! ### Printing -/

/-- The printed magnitude in millionths: six decimals, exact ties to even. -/
def micros (x : Double) : ℕ := (roundHalfEven (x.magnitude * 10 ^ 6)).toNat

/-- `std::to_string(double)`. -/
def toStringDouble (x : Double) : String :=
  String.ofList (signText x.negative ++ decimals 6 (micros x))

/-- `flag ? "1" : "0"`. -/
def boolText (flag : Bool) : String := if flag then "1" else "0"

/-! ### Integers and flags -/

/-- Integers within the checked range are read back from their text. -/
theorem parseIntField_toString {n minimum maximum : ℤ} (hlow : minimum ≤ n) (hhigh : n ≤ maximum)
    (hmin : -2 ^ 63 ≤ minimum) (hmax : maximum < 2 ^ 63) :
    parseIntField (toString n) minimum maximum = some n := by
  obtain ⟨c, cs, hdigits⟩ := List.exists_cons_of_ne_nil (Nat.toDigits_ne_nil (b := 10)
    (n := n.natAbs))
  have hc : c.isDigit = true := isDigit_of_mem_toDigits (n := n.natAbs) (by simp [hdigits])
  have hscan := @scanDigits_append _ []
    (fun c hc => isDigit_of_mem_toDigits (n := n.natAbs) hc) (by simp) 0 0
  rw [List.append_nil, Nat.ofDigitChars_ten_toDigits, hdigits, List.length_cons,
    Nat.zero_add] at hscan
  have hparsed : (if decide (n < 0) = true then -(n.natAbs : ℤ) else n.natAbs) = n := by
    by_cases h : n < 0
    · simp only [h, decide_true, if_true]
      omega
    · simp only [h, decide_false, if_neg Bool.false_ne_true]
      omega
  have hstrtol : strtol (toString n).toList = some (n, []) := by
    rw [strtol, toList_toString_int, hdigits, scanSign_signText _ hc]
    dsimp only
    rw [hscan]
    dsimp only
    rw [hparsed, if_pos ⟨by omega, by omega⟩]
  rw [parseIntField, hstrtol]
  dsimp only
  rw [if_neg (by omega)]

@[simp]
theorem parseBoolField_boolText (flag : Bool) : parseBoolField (boolText flag) = some flag := by
  cases flag <;> decide

/-! ### Doubles -/

/-- The double that reading the printed text gives, nothing when it overflows. -/
def throughText (x : Double) : Option Double :=
  Finite.ofMagnitude x.negative ((micros x : ℚ) / 10 ^ 6)

/-- Six decimals never underflow: they are zero or at least a millionth. -/
theorem not_underflows_micros {x y : Double} (h : throughText x = some y) :
    ¬underflows ((micros x : ℚ) / 10 ^ 6) y := by
  rintro ⟨hne, hsmall⟩
  rcases Nat.eq_zero_or_pos (micros x) with hzero | hpos
  · rw [Finite.magnitude_of_ofMagnitude h, hzero, Nat.cast_zero, zero_div, abs_zero,
      Format.nearest_of_representable Format.representable_zero] at hne
    exact hne rfl
  · have hone : (1 : ℚ) ≤ micros x := by exact_mod_cast hpos
    have htiny : (2 : ℚ) ^ (binary64.minExponent + binary64.precision - 1) ≤ 2 ^ (-20 : ℤ) :=
      zpow_le_zpow_right₀ (by norm_num) (by decide)
    have htwenty : (2 : ℚ) ^ (-20 : ℤ) ≤ 1 / 10 ^ 6 := by norm_num
    have hmillionth : 1 / 10 ^ 6 ≤ (micros x : ℚ) / 10 ^ 6 := by gcongr
    exact lt_irrefl _ (hsmall.trans_le (htiny.trans (htwenty.trans hmillionth)))

/-- **Reading back what was printed.** The text of a double is read to the end, as the double
nearest to its six decimals, and then checked against the range. -/
theorem parseDoubleField_toStringDouble (x : Double) (minimum maximum : ℚ) :
    parseDoubleField (toStringDouble x) minimum maximum =
      (throughText x).filter fun y => ¬(y.value < minimum ∨ maximum < y.value) := by
  obtain ⟨c, cs, hcs, hc⟩ := decimals_eq_cons 6 (micros x)
  have hstrtod : strtod (toStringDouble x).toList = (throughText x).map fun y => (y, []) := by
    rw [strtod, toStringDouble, String.toList_ofList, hcs, scanSign_signText _ hc, ← hcs]
    dsimp only
    rw [scanMagnitude_decimals (by decide)]
    dsimp only
    rw [← throughText]
    rcases h : throughText x with _ | y
    · rfl
    · dsimp only
      rw [if_neg (not_underflows_micros h)]
      rfl
  rw [parseDoubleField, hstrtod]
  rcases throughText x with _ | y
  · rfl
  · simp only [Option.map_some, Option.filter_some]
    split_ifs <;> simp_all

/-! ### Fixed points of write and read -/

theorem throughText_negative {x y : Double} (h : throughText x = some y) :
    y.negative = x.negative :=
  Finite.negative_of_ofMagnitude h

theorem throughText_magnitude {x y : Double} (h : throughText x = some y) :
    y.magnitude = binary64.nearest ((micros x : ℚ) / 10 ^ 6) := by
  rw [Finite.magnitude_of_ofMagnitude h, abs_of_nonneg (by positivity)]

/-- The largest magnitude, in millionths, for which six decimals pin the double down: seconds of
a clip and mixing rates are far below it. -/
abbrev microsLimit : ℕ := 1024 * 10 ^ 6

/-- The double nearest to a number of millionths prints as that number. -/
theorem roundHalfEven_nearest_micros {n : ℕ} (hn : n ≤ microsLimit) :
    roundHalfEven (binary64.nearest ((n : ℚ) / 10 ^ 6) * 10 ^ 6) = n := by
  have hn' : (n : ℚ) ≤ 1024 * 10 ^ 6 := by exact_mod_cast hn
  have hlt : (n : ℚ) / 10 ^ 6 < 2 ^ (11 : ℤ) := by
    rw [div_lt_iff₀ (by positivity)]
    linarith
  have herror := Format.abs_sub_nearest_le (F := binary64) (q := (n : ℚ) / 10 ^ 6) (by positivity)
    hlt
  have hexp : max binary64.minExponent (11 - (binary64.precision : ℤ)) = -42 := by decide
  rw [hexp, abs_le] at herror
  have htiny : (2 : ℚ) ^ (-42 : ℤ) / 2 * 10 ^ 6 < 1 / 2 := by norm_num
  have hscale : (n : ℚ) / 10 ^ 6 * 10 ^ 6 = n := by field_simp
  refine roundHalfEven_eq_of_abs_lt ?_
  push_cast
  rw [abs_lt]
  constructor <;> nlinarith

theorem micros_le {x : Double} (h : x.magnitude ≤ 1024) : micros x ≤ microsLimit := by
  have hround : roundHalfEven (x.magnitude * 10 ^ 6) ≤ (microsLimit : ℤ) := by
    refine roundHalfEven_le ?_
    push_cast
    linarith
  rw [micros]
  omega

theorem micros_throughText {x y : Double} (hx : x.magnitude ≤ 1024) (h : throughText x = some y) :
    micros y = micros x := by
  rw [micros, throughText_magnitude h, roundHalfEven_nearest_micros (micros_le hx)]
  rfl

/-- **The stored text is a fixed point.** What is read back prints as the same text. -/
theorem toStringDouble_throughText {x y : Double} (hx : x.magnitude ≤ 1024)
    (h : throughText x = some y) : toStringDouble y = toStringDouble x := by
  rw [toStringDouble, toStringDouble, throughText_negative h, micros_throughText hx h]

/-- A magnitude within the limits is read back from its text. -/
theorem exists_throughText {x : Double} (hx : x.magnitude ≤ 1024) :
    ∃ y, throughText x = some y := by
  refine Finite.exists_ofMagnitude (r := (1024 : ℕ)) x.negative (by positivity) ?_
    (Format.representable_natCast (by decide) (by decide)) ?_
  · rw [div_le_iff₀ (by positivity)]
    exact_mod_cast micros_le hx
  · calc ((1024 : ℕ) : ℚ) < 2 ^ (11 : ℤ) := by norm_num
      _ ≤ 2 ^ binary64.maxExponent := zpow_le_zpow_right₀ (by norm_num) (by decide)

/-- A magnitude up to a whole number of millionths, itself a double, is read back up to it. -/
theorem throughText_le {x y : Double} {n : ℕ} (hx : x.magnitude ≤ n)
    (hn : n < 2 ^ binary64.precision) (h : throughText x = some y) : y.magnitude ≤ n := by
  rw [throughText_magnitude h]
  refine Format.nearest_le (by positivity) ?_ (Format.representable_natCast hn (by decide))
  have hround : roundHalfEven (x.magnitude * 10 ^ 6) ≤ (n * 10 ^ 6 : ℕ) := by
    refine roundHalfEven_le ?_
    push_cast
    linarith
  have hmicros : micros x ≤ n * 10 ^ 6 := by
    rw [micros]
    omega
  rw [div_le_iff₀ (by positivity)]
  exact_mod_cast hmicros

/-- **What survives as nonzero.** A double is read back as zero exactly up to half a millionth. -/
theorem throughText_pos_iff {x y : Double} (hx : x.magnitude ≤ 1024)
    (h : throughText x = some y) : 0 < y.magnitude ↔ 1 / 2 / 10 ^ 6 < x.magnitude := by
  have hmicros : 0 < y.magnitude ↔ 0 < micros x := by
    constructor
    · intro hpos
      by_contra hzero
      have : micros x = 0 := by omega
      rw [throughText_magnitude h, this, Nat.cast_zero, zero_div,
        Format.nearest_of_representable Format.representable_zero] at hpos
      exact lt_irrefl 0 hpos
    · intro hpos
      refine lt_of_le_of_ne y.representable.nonneg fun hzero => ?_
      have := micros_throughText hx h
      rw [micros, ← hzero, zero_mul, roundHalfEven_zero, Int.toNat_zero] at this
      omega
  have hround := roundHalfEven_pos_iff (q := x.magnitude * 10 ^ 6)
    (mul_nonneg x.representable.nonneg (by positivity))
  rw [hmicros, div_lt_iff₀ (by positivity), ← hround, micros]
  omega

/-- **The doubles that survive unchanged** are those nearest to a number of millionths. -/
theorem throughText_eq_self_iff {x : Double} (hx : x.magnitude ≤ 1024) :
    throughText x = some x ↔
      ∃ n ≤ microsLimit, x.magnitude = binary64.nearest ((n : ℚ) / 10 ^ 6) := by
  constructor
  · intro h
    exact ⟨micros x, micros_le hx, throughText_magnitude h⟩
  · rintro ⟨n, hn, hmagnitude⟩
    obtain ⟨y, hy⟩ := exists_throughText hx
    have hmicros : micros x = n := by
      rw [micros, hmagnitude, roundHalfEven_nearest_micros hn]
      rfl
    have hsame : y = x := by
      ext
      · exact throughText_negative hy
      · rw [throughText_magnitude hy, hmicros, hmagnitude]
    rw [hy, hsame]

/-! ### Stored fields -/

/-- What a stored double is read back as. -/
def readBack (x : Double) : Double := (throughText x).getD x

/-- The doubles that six decimals denote: those nearest to a number of millionths. -/
def SixDecimal (x : Double) : Prop :=
  ∃ n ≤ microsLimit, x.magnitude = binary64.nearest ((n : ℚ) / 10 ^ 6)

section Stored

variable {x : Double} {n : ℕ} (hlow : 0 ≤ x.value) (hhigh : x.value ≤ n) (hn : n ≤ 1024)
include hlow hhigh hn

theorem throughText_readBack : throughText x = some (readBack x) := by
  rw [Finite.value_eq_magnitude hlow] at hhigh
  obtain ⟨y, hy⟩ := exists_throughText (hhigh.trans (by exact_mod_cast hn))
  rw [readBack, hy, Option.getD_some]

theorem readBack_value : (readBack x).value = (readBack x).magnitude := by
  have hread := throughText_readBack hlow hhigh hn
  refine Finite.value_eq_magnitude ?_
  have hmagnitude : x.negative = true → (readBack x).magnitude = 0 := by
    intro hnegative
    have hzero : x.magnitude = 0 := by
      have := Finite.value_eq_magnitude hlow
      rw [Finite.value, hnegative, if_pos rfl] at this
      linarith
    have hmicros : micros x = 0 := by
      rw [micros, hzero, zero_mul, roundHalfEven_zero, Int.toNat_zero]
    rw [throughText_magnitude hread, hmicros, Nat.cast_zero, zero_div,
      Format.nearest_of_representable Format.representable_zero]
  rw [Finite.value, throughText_negative hread]
  split_ifs with hnegative
  · rw [hmagnitude hnegative, neg_zero]
  · exact (readBack x).representable.nonneg

/-- **A stored double in range is read back.** -/
theorem parseDoubleField_readBack :
    parseDoubleField (toStringDouble x) 0 n = some (readBack x) := by
  have hread := throughText_readBack hlow hhigh hn
  have hmagnitude : (readBack x).magnitude ≤ n :=
    throughText_le (by rwa [← Finite.value_eq_magnitude hlow]) (by
      refine hn.trans_lt ?_
      decide) hread
  have hnonneg := (readBack x).representable.nonneg
  rw [parseDoubleField_toStringDouble, hread, Option.filter_some,
    readBack_value hlow hhigh hn, if_pos (by simpa using ⟨hnonneg, hmagnitude⟩)]

theorem toStringDouble_readBack : toStringDouble (readBack x) = toStringDouble x :=
  toStringDouble_throughText (by
    rw [← Finite.value_eq_magnitude hlow]
    exact hhigh.trans (by exact_mod_cast hn)) (throughText_readBack hlow hhigh hn)

theorem readBack_pos_iff : 0 < (readBack x).value ↔ 1 / 2 / 10 ^ 6 < x.value := by
  rw [readBack_value hlow hhigh hn, Finite.value_eq_magnitude hlow]
  refine throughText_pos_iff ?_ (throughText_readBack hlow hhigh hn)
  rw [← Finite.value_eq_magnitude hlow]
  exact hhigh.trans (by exact_mod_cast hn)

theorem readBack_eq_self_iff : readBack x = x ↔ SixDecimal x := by
  have hread := throughText_readBack hlow hhigh hn
  rw [SixDecimal, ← throughText_eq_self_iff (by
    rw [← Finite.value_eq_magnitude hlow]
    exact hhigh.trans (by exact_mod_cast hn)), hread, Option.some.injEq]

end Stored

end Resonantia.Web
