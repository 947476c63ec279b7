import Mathlib.Algebra.Ring.Int.Defs
import Mathlib.Algebra.Ring.Nat
import Mathlib.Algebra.Order.Ring.Unbundled.Rat
import Mathlib.Data.Int.Notation
import Mathlib.Data.Nat.Notation
import Mathlib.Tactic.Common
import Std.Data.String.ToNat

/-!
# Numerals in texts

Scanning a number from the front of a text as the C and C++ libraries do, printing a number with
a fixed number of decimals, and reading such a print back.

## Main definitions

* `Numeral.scanDigits`, `Numeral.scanNumeral`, `Numeral.scanMagnitude`: digits, a numeral with
  point and exponent, and a decimal or hexadecimal numeral at the front of a text.
* `Numeral.decimals`: a natural number of decimal units with the point in place.

## Main results

* `Numeral.scanDigits_append`: scanning digits reads exactly the digits.
* `Numeral.scanMagnitude_decimals`: a print with a fixed number of decimals is read back exactly.
* `Numeral.toList_toString_int`: the print of an integer is its sign and its digits.
-/

namespace Numeral

/-! ### Scanning -/

/-- White space of the C locale. -/
def isSpace (c : Char) : Bool := c == ' ' || (9 ≤ c.toNat && c.toNat ≤ 13)

def decimalDigit (c : Char) : Option ℕ :=
  if c.isDigit then some (c.toNat - '0'.toNat) else none

def hexDigit (c : Char) : Option ℕ :=
  if c.isDigit then some (c.toNat - '0'.toNat)
  else if 'a' ≤ c.toLower ∧ c.toLower ≤ 'f' then some (c.toLower.toNat - 'a'.toNat + 10)
  else none

/-- Read digits onto `value`, counting them; returns the value, the count and the rest. -/
def scanDigits (digit : Char → Option ℕ) (base : ℕ) :
    ℕ → ℕ → List Char → ℕ × ℕ × List Char
  | value, count, [] => (value, count, [])
  | value, count, c :: cs =>
    match digit c with
    | some d => scanDigits digit base (base * value + d) (count + 1) cs
    | none => (value, count, c :: cs)

/-- An optional sign; `true` is minus. -/
def scanSign : List Char → Bool × List Char
  | '-' :: cs => (true, cs)
  | '+' :: cs => (false, cs)
  | cs => (false, cs)

/-- An optional exponent. A marker without digits after it is not part of the number. -/
def scanExponent (marker : Char) : List Char → ℤ × List Char
  | [] => (0, [])
  | c :: cs =>
    if c.toLower = marker then
      match scanDigits decimalDigit 10 0 0 (scanSign cs).2 with
      | (_, 0, _) => (0, c :: cs)
      | (value, _ + 1, rest) => (if (scanSign cs).1 then -(value : ℤ) else value, rest)
    else (0, c :: cs)

/-- The fraction digits after an optional point, read onto the value of the whole part. -/
def scanFraction (digit : Char → Option ℕ) (base value : ℕ) : List Char → ℕ × ℕ × List Char
  | '.' :: cs => scanDigits digit base value 0 cs
  | cs => (value, 0, cs)

/-- A numeral with an optional point and exponent. It needs at least one digit. -/
def scanNumeral (digit : Char → Option ℕ) (base exponentBase : ℕ) (marker : Char)
    (cs : List Char) : Option (ℚ × List Char) :=
  match scanDigits digit base 0 0 cs with
  | (whole, wholeCount, afterWhole) =>
    match scanFraction digit base whole afterWhole with
    | (value, fractionCount, afterFraction) =>
      if wholeCount + fractionCount = 0 then none
      else
        match scanExponent marker afterFraction with
        | (exponent, rest) =>
          some (value / base ^ fractionCount * (exponentBase : ℚ) ^ exponent, rest)

/-- A decimal numeral, or a hexadecimal one after `0x`. -/
def scanMagnitude (cs : List Char) : Option (ℚ × List Char) :=
  match cs with
  | '0' :: 'x' :: rest => scanNumeral hexDigit 16 2 'p' rest <|> some (0, 'x' :: rest)
  | '0' :: 'X' :: rest => scanNumeral hexDigit 16 2 'p' rest <|> some (0, 'X' :: rest)
  | cs => scanNumeral decimalDigit 10 10 'e' cs

/-! ### Printing -/

def signText (negative : Bool) : List Char := if negative then ['-'] else []

/-- A number of units of the last of `places` decimals, with the point in place. -/
def decimals (places n : ℕ) : List Char :=
  Nat.toDigits 10 (n / 10 ^ places) ++
    '.' :: (Nat.toDigits 10 (n % 10 ^ places)).leftpad places '0'

/-! ### Reading back -/

/-- Scanning digits followed by something else reads exactly the digits. -/
theorem scanDigits_append {ds rest : List Char} (hds : ∀ c ∈ ds, c.isDigit = true)
    (hrest : ∀ c ∈ rest.head?, c.isDigit = false) (value count : ℕ) :
    scanDigits decimalDigit 10 value count (ds ++ rest) =
      (Nat.ofDigitChars 10 ds value, count + ds.length, rest) := by
  induction ds generalizing value count with
  | nil =>
    cases rest with
    | nil => rfl
    | cons c cs =>
      have hc : c.isDigit = false := hrest c (by simp)
      simp [scanDigits, decimalDigit, hc]
  | cons d ds ih =>
    have hd : decimalDigit d = some (d.toNat - '0'.toNat) := if_pos (hds d (by simp))
    rw [List.cons_append, scanDigits, hd]
    dsimp only
    rw [ih (fun c hc => hds c (by simp [hc])), Nat.ofDigitChars_cons, List.length_cons]
    congr 2
    omega

theorem isDigit_of_mem_toDigits {c : Char} {n : ℕ} (h : c ∈ Nat.toDigits 10 n) :
    c.isDigit = true :=
  Nat.isDigit_of_mem_toDigits (by decide) (by decide) h

/-- Reading a printed sign before a digit, which is neither white space nor a sign. -/
theorem scanSign_signText (negative : Bool) {c : Char} (h : c.isDigit = true) (cs : List Char) :
    scanSign ((signText negative ++ c :: cs).dropWhile isSpace) = (negative, c :: cs) := by
  cases negative with
  | true =>
    change scanSign (('-' :: c :: cs).dropWhile isSpace) = _
    rw [List.dropWhile_cons_of_neg (by decide), scanSign]
  | false =>
    have hrange := Char.isDigit_iff_toNat.1 h
    have hspace : ¬isSpace c = true := by
      simp only [isSpace, Bool.or_eq_true, beq_iff_eq, Bool.and_eq_true, decide_eq_true_eq]
      rintro (rfl | ⟨-, hle⟩)
      · exact absurd h (by decide)
      · have : 48 ≤ c.toNat := hrange.1
        omega
    change scanSign ((c :: cs).dropWhile isSpace) = _
    rw [List.dropWhile_cons_of_neg hspace, scanSign]
    · rintro _ ⟨⟩
      exact absurd h (by decide)
    · rintro _ ⟨⟩
      exact absurd h (by decide)

theorem toList_toString_int (n : ℤ) :
    (toString n).toList = signText (n < 0) ++ Nat.toDigits 10 n.natAbs := by
  rw [Int.toString_eq_repr, Int.repr_eq_if]
  split_ifs with h
  · rw [Nat.toList_repr, signText, decide_eq_false (by omega), if_neg Bool.false_ne_true,
      List.nil_append]
    congr 1
    omega
  · rw [String.toList_append, Nat.toList_repr, signText, decide_eq_true (by omega), if_pos rfl]
    congr 2
    omega

theorem mem_decimals {c : Char} {places n : ℕ} (h : c ∈ decimals places n) :
    c.isDigit = true ∨ c = '.' := by
  simp only [decimals, List.leftpad, List.mem_append, List.mem_cons, List.mem_replicate] at h
  rcases h with h | rfl | ⟨-, rfl⟩ | h
  · exact Or.inl (isDigit_of_mem_toDigits h)
  · exact Or.inr rfl
  · exact Or.inl rfl
  · exact Or.inl (isDigit_of_mem_toDigits h)

theorem decimals_eq_cons (places n : ℕ) :
    ∃ c cs, decimals places n = c :: cs ∧ c.isDigit = true := by
  obtain ⟨c, cs, hdigits⟩ := List.exists_cons_of_ne_nil (Nat.toDigits_ne_nil (b := 10)
    (n := n / 10 ^ places))
  refine ⟨c, cs ++ _, by rw [decimals, hdigits, List.cons_append], ?_⟩
  refine isDigit_of_mem_toDigits (n := n / 10 ^ places) ?_
  rw [hdigits]
  exact List.mem_cons_self

section Places

variable {places : ℕ} (hplaces : 0 < places)
include hplaces

theorem length_toDigits_mod_le (n : ℕ) : (Nat.toDigits 10 (n % 10 ^ places)).length ≤ places :=
  (Nat.length_toDigits_le_iff (by decide) hplaces).2 (Nat.mod_lt _ (Nat.pow_pos (by decide)))

/-- The fraction digits read onto the whole part give back the number of units. -/
theorem ofDigitChars_leftpad (n : ℕ) :
    Nat.ofDigitChars 10 ((Nat.toDigits 10 (n % 10 ^ places)).leftpad places '0')
      (n / 10 ^ places) = n := by
  rw [List.leftpad, Nat.ofDigitChars_append, Nat.ofDigitChars_replicate_zero,
    Nat.ofDigitChars_eq_ofDigitChars_zero, Nat.ofDigitChars_ten_toDigits, ← Nat.mul_assoc,
    ← Nat.pow_add, Nat.add_sub_cancel' (length_toDigits_mod_le hplaces n)]
  exact Nat.div_add_mod n (10 ^ places)

/-- **Reading a fixed number of decimals.** The print of `n` units is read to its end, as the
exact value. -/
theorem scanMagnitude_decimals (n : ℕ) :
    scanMagnitude (decimals places n) = some ((n : ℚ) / 10 ^ places, []) := by
  have hwhole := @scanDigits_append (Nat.toDigits 10 (n / 10 ^ places))
    ('.' :: (Nat.toDigits 10 (n % 10 ^ places)).leftpad places '0')
    (fun c hc => isDigit_of_mem_toDigits hc)
    (fun c hc => by obtain rfl := Option.some.inj hc; rfl) 0 0
  rw [Nat.ofDigitChars_ten_toDigits] at hwhole
  have hfraction := @scanDigits_append ((Nat.toDigits 10 (n % 10 ^ places)).leftpad places '0') []
    (by
      intro c hc
      simp only [List.leftpad, List.mem_append, List.mem_replicate] at hc
      rcases hc with ⟨-, rfl⟩ | hc
      · rfl
      · exact isDigit_of_mem_toDigits hc) (by simp) (n / 10 ^ places) 0
  rw [List.append_nil, ofDigitChars_leftpad hplaces, List.length_leftpad,
    max_eq_left (length_toDigits_mod_le hplaces n)] at hfraction
  have hnox : ∀ c ∈ decimals places n, c ≠ 'x' ∧ c ≠ 'X' := by
    intro c hc
    rcases mem_decimals hc with hdigit | rfl
    · exact ⟨by rintro rfl; exact absurd hdigit (by decide),
        by rintro rfl; exact absurd hdigit (by decide)⟩
    · decide
  rw [scanMagnitude]
  · rw [scanNumeral, decimals, hwhole]
    dsimp only
    rw [scanFraction, hfraction]
    dsimp only
    rw [if_neg (by omega)]
    simp [scanExponent]
  · intro rest heq
    exact (hnox 'x' (by simp [heq])).1 rfl
  · intro rest heq
    exact (hnox 'X' (by simp [heq])).2 rfl

end Places

end Numeral
