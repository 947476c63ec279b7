import Mathlib.Analysis.Fourier.ZMod
import Resonantia.Library.Scatter

/-!
# The discrete Fourier transform of real sequences

The spectrum of a real sequence is Hermitian, so that its lower half determines it. The transform of
`n` real numbers returns the `n / 2 + 1` lower components, and the transform back extends them; one
after the other they multiply by `n`.

## Main definitions

* `RealDft.forward`: the lower half of the spectrum of a real sequence.
* `RealDft.backward`: the real sequence of a half spectrum, not normalised.

## Main results

* `RealDft.backward_forward`: the two transforms one after the other.
-/

open ZMod ComplexConjugate

open scoped ZMod

namespace RealDft

/-- A real sequence as a function. -/
noncomputable def signal (n : ℕ) (x : List ℝ) : ZMod n → ℂ := fun j => (x.getD j.val 0 : ℝ)

/-- A component of a half spectrum. -/
noncomputable def component (c : List (ℝ × ℝ)) (f : ℕ) : ℂ := ⟨(c.getD f 0).1, (c.getD f 0).2⟩

/-- The spectrum of a half spectrum. -/
noncomputable def hermitian (n : ℕ) (c : List (ℝ × ℝ)) : ZMod n → ℂ := fun f =>
  if f.val ≤ n / 2 then component c f.val else conj (component c (-f).val)

variable (n : ℕ) [NeZero n]

/-- The lower half of the spectrum of a real sequence. -/
noncomputable def forward (x : List ℝ) : List (ℝ × ℝ) :=
  (List.range (n / 2 + 1)).map fun (f : ℕ) =>
    ((𝓕 (signal n x) (f : ZMod n)).re, (𝓕 (signal n x) (f : ZMod n)).im)

/-- The real sequence of a half spectrum, not normalised. -/
noncomputable def backward (c : List (ℝ × ℝ)) : List ℝ :=
  (List.range n).map fun (m : ℕ) => (𝓕 (hermitian n c) (-(m : ZMod n))).re

theorem length_forward (x : List ℝ) : (forward n x).length = n / 2 + 1 := by
  rw [forward, List.length_map, List.length_range]

/-- The spectrum of a real sequence is Hermitian. -/
theorem conj_dft_signal (x : List ℝ) (k : ZMod n) :
    conj (𝓕 (signal n x) (-k)) = 𝓕 (signal n x) k := by
  rw [dft_apply, dft_apply, map_sum]
  refine Finset.sum_congr rfl fun j _ => ?_
  rw [smul_eq_mul, smul_eq_mul, map_mul, signal, Complex.conj_ofReal, mul_neg, neg_neg,
    AddChar.map_neg_eq_conj]

theorem component_forward (x : List ℝ) {f : ℕ} (hf : f ≤ n / 2) :
    component (forward n x) f = 𝓕 (signal n x) (f : ZMod n) := by
  have hget : (forward n x).getD f 0 =
      ((𝓕 (signal n x) (f : ZMod n)).re, (𝓕 (signal n x) (f : ZMod n)).im) := by
    rw [forward, List.getD_eq_getElem?_getD, List.getElem?_map,
      List.getElem?_range (Nat.lt_succ_of_le hf)]
    rfl
  rw [component, hget]

/-- The half spectrum of a real sequence determines its spectrum. -/
theorem hermitian_forward (x : List ℝ) : hermitian n (forward n x) = 𝓕 (signal n x) := by
  funext f
  rw [hermitian]
  split
  · rename_i hlower
    rw [component_forward n x hlower, ZMod.natCast_zmod_val]
  · rename_i hupper
    have hne : NeZero f := ⟨by
      rintro rfl
      exact hupper (by rw [ZMod.val_zero]; exact Nat.zero_le _)⟩
    have hneg : (-f).val = n - f.val := ZMod.val_neg_of_ne_zero f
    have hle : (-f).val ≤ n / 2 := by omega
    rw [component_forward n x hle, ZMod.natCast_zmod_val, conj_dft_signal]

/-- **The two transforms one after the other** multiply by the length. -/
theorem backward_forward {x : List ℝ} (hx : x.length = n) :
    backward n (forward n x) = x.map ((n : ℝ) * ·) := by
  have hvalue (m : ℕ) (hm : m ∈ List.range n) :
      (𝓕 (hermitian n (forward n x)) (-(m : ZMod n))).re = n * x.getD m 0 := by
    rw [hermitian_forward, dft_dft]
    change ((n : ℂ) • signal n x (-(-(m : ZMod n)))).re = _
    rw [neg_neg, smul_eq_mul, signal, ZMod.val_natCast_of_lt (List.mem_range.1 hm),
      Complex.re_mul_ofReal, Complex.natCast_re]
  rw [backward, List.map_congr_left hvalue]
  calc (List.range n).map (fun m => (n : ℝ) * x.getD m 0)
      = ((List.range n).map fun m => x.getD m 0).map ((n : ℝ) * ·) := by rw [List.map_map]; rfl
    _ = x.map ((n : ℝ) * ·) := by rw [Scatter.map_getD_range hx 0]

end RealDft
