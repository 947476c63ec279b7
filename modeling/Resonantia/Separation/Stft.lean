import Mathlib
import Mathlib.Algebra.BigOperators.Ring.Finset
import Mathlib.Algebra.Order.BigOperators.Group.Finset
import Mathlib.Algebra.Order.Field.Basic
import Mathlib.Data.List.GetD
import Mathlib.Tactic.FieldSimp
import Mathlib.Tactic.NormNum
import Mathlib.Tactic.Positivity
import Resonantia.Library.RealDft
import Resonantia.Library.Scatter
import Resonantia.Library.Slice
import Resonantia.Pipeline.Synthesis

/-!
# The short-time Fourier transform

`Stft::forward` pads a signal by reflection, cuts it into windowed frames and transforms every
frame; `Stft::inverse` transforms the frames back, weights them by the window once more, adds them
up and divides by the sum of the squared window. The number of frames is rounded down.

Arithmetic is exact. The two transforms of cuFFT are parameters, a buffer is allocated with zeros,
and the threads of every kernel run in an order of their own. The samples are there, and no
operation of the device fails.

## Main definitions

* `Separation.Stft`, `Separation.Stft.create`: the sizes and the window.
* `Separation.Stft.forward`, `Separation.Stft.inverse`: the two directions.
* `Separation.FftPair`: what is asked of the transforms.

## Main results

* `Separation.Stft.exists_central`: every sample lies in a frame at a central offset.
* `Separation.Stft.inverse_forward`: the inverse gives the signal back.
-/

namespace Resonantia.Separation

open Pipeline Scatter Slices

/-! ### Checked sizes -/

/-- `checked_element_count`. -/
def checkedElementCount (shape : List ℕ) : Option ℕ :=
  shape.foldlM (fun count dim =>
    if dim = 0 ∨ count > uint64Max / dim then none else some (count * dim)) 1

/-- `checked_int_product`. -/
def checkedIntProduct (factors : List ℕ) (context : String) : Except String ℕ := do
  let result ← orFail (checkedElementCount factors) (context ++ " size is not representable")
  require (result ≤ intMax) (context ++ " exceeds the CUDA int limit")
  return result

/-- `checked_float_count`. The second bound is the `max_size` of a vector. -/
def checkedFloatCount (factors : List ℕ) (context : String) : Except String ℕ := do
  let result ← orFail (checkedElementCount factors) (context ++ " size is not representable")
  require (result ≤ uint64Max / 4 ∧ result ≤ (2 ^ 63 - 1) / 4)
    (context ++ " float storage is not representable")
  return result

theorem checkedElementCount_pair {a b n : ℕ} (h : checkedElementCount [a, b] = some n) :
    n = a * b := by
  rw [checkedElementCount, List.foldlM_cons] at h
  obtain ⟨c, hc, h⟩ := Option.bind_eq_some_iff.1 h
  rw [List.foldlM_cons] at h
  obtain ⟨d, hd, h⟩ := Option.bind_eq_some_iff.1 h
  split at hc
  · cases hc
  · split at hd
    · cases hd
    · cases hc
      cases hd
      cases h
      rw [Nat.one_mul]

theorem checkedIntProduct_eq_ok {factors : List ℕ} {context : String} {n : ℕ} :
    checkedIntProduct factors context = .ok n ↔
      checkedElementCount factors = some n ∧ n ≤ intMax := by
  rw [checkedIntProduct, bind_eq_ok]
  constructor
  · rintro ⟨result, hresult, h⟩
    obtain ⟨_, hle, h⟩ := bind_eq_ok.1 h
    cases h
    exact ⟨orFail_eq_ok.1 hresult, require_eq_ok.1 hle⟩
  · rintro ⟨hresult, hle⟩
    exact ⟨n, orFail_eq_ok.2 hresult, bind_eq_ok.2 ⟨(), require_eq_ok.2 hle, rfl⟩⟩

theorem checkedFloatCount_eq_ok {factors : List ℕ} {context : String} {n : ℕ} :
    checkedFloatCount factors context = .ok n ↔
      checkedElementCount factors = some n ∧ n ≤ uint64Max / 4 ∧ n ≤ (2 ^ 63 - 1) / 4 := by
  rw [checkedFloatCount, bind_eq_ok]
  constructor
  · rintro ⟨result, hresult, h⟩
    obtain ⟨_, hle, h⟩ := bind_eq_ok.1 h
    cases h
    exact ⟨orFail_eq_ok.1 hresult, require_eq_ok.1 hle⟩
  · rintro ⟨hresult, hle⟩
    exact ⟨n, orFail_eq_ok.2 hresult, bind_eq_ok.2 ⟨(), require_eq_ok.2 hle, rfl⟩⟩

/-! ### The transform -/

variable {K : Type} [Field K]

/-- `Stft`. -/
structure Stft (K : Type) where
  nFft : ℕ
  hop : ℕ
  pad : ℕ
  window : List K

/-- The kernels; the additions to each array of `k_ola` come in an order of their own. -/
inductive Kernel
  | frameWindow
  | split
  | merge
  | olaSignal
  | olaWeights
  | norm

/-- `Spectrum`: `re`, `im` and `T`. -/
structure Spectrum (K : Type) where
  re : List K
  im : List K
  frames : ℕ

/-- What is asked of the two transforms of a frame of `n` samples. -/
structure FftPair (n : ℕ) (r2c : List K → List (K × K)) (c2r : List (K × K) → List K) : Prop where
  length_r2c : ∀ x, x.length = n → (r2c x).length = n / 2 + 1
  c2r_r2c : ∀ x, x.length = n → c2r (r2c x) = x.map ((n : K) * ·)

/-- What is asked of a window of `n` samples. -/
structure CentralWindow [LinearOrder K] (window : ℕ → K) (n : ℕ) : Prop where
  zero : window 0 = 0
  central : ∀ o, n ≤ 4 * o → 4 * o ≤ 3 * n → 1 / 100 ≤ |window o|

namespace Stft

/-- `Stft::Stft`, with the window `hann` of a length. -/
def create (nFft hop winLength : ℤ) (center : Bool) (padOverride : ℤ) (hann : ℕ → ℕ → K) :
    Except String (Stft K) := do
  let win := if winLength > 0 then winLength else nFft
  let pad := if padOverride ≥ 0 then padOverride else if center then nFft / 2 else 0
  require (¬(nFft ≤ 1 ∨ hop ≤ 0 ∨ win ≤ 0 ∨ win > nFft ∨ pad < 0))
    "STFT requires n_fft > 1, hop > 0, and 0 < win <= n_fft"
  let off := ((nFft - win) / 2).toNat
  return {
    nFft := nFft.toNat
    hop := hop.toNat
    pad := pad.toNat
    window := scatter (List.range win.toNat) (fun n => off + n) (hann win.toNat)
      (List.replicate nFft.toNat 0) }

variable (stft : Stft K)

/-- `n_freq`. -/
def nFreq : ℕ := stft.nFft / 2 + 1

/-- `num_frames`. -/
def numFrames (L : ℕ) : Except String ℕ := do
  let padded := L + 2 * stft.pad
  require (¬(L = 0 ∨ padded > intMax)) "STFT input length is invalid"
  require (¬padded < stft.nFft) "STFT input is shorter than one frame"
  return 1 + (padded - stft.nFft) / stft.hop

/-- The signal, reflected at both ends. -/
def padded (audio : List K) : List K :=
  let L := audio.length
  let inner := scatter (List.range L) (fun i => stft.pad + i) (fun i => audio.getD i 0)
    (List.replicate (L + 2 * stft.pad) 0)
  scatter ((List.range stft.pad).flatMap fun j =>
      [(stft.pad - 1 - j, audio.getD (min (j + 1) (L - 1)) 0),
        (stft.pad + L + j, audio.getD (max ((L : ℤ) - 2 - j) 0).toNat 0)])
    Prod.fst Prod.snd inner

/-- The transform of `T` blocks of `n` elements. -/
def batch {α β : Type} (transform : List α → List β) (T n : ℕ) (l : List α) : List β :=
  (List.range T).flatMap fun t => transform (slice l (t * n) (t * n + n))

/-- The element of the padded signal that the thread `i` works on. -/
def position (i : ℕ) : ℕ := i / stft.nFft * stft.hop + i % stft.nFft

/-- `k_frame_window`. -/
def frameWindow (order : Schedule) (signal : List K) (T : ℕ) : List K :=
  scatter (order.threads (T * stft.nFft)) (fun i => i)
    (fun i => signal.getD (stft.position i) 0 * stft.window.getD (i % stft.nFft) 0)
    (List.replicate (T * stft.nFft) 0)

/-- One of the two arrays of `k_split`. -/
def split (order : Schedule) (part : K × K → K) (c : List (K × K)) (T nf : ℕ) : List K :=
  scatter (order.threads (T * nf)) (fun i => i % nf * T + i / nf) (fun i => part (c.getD i (0, 0)))
    (List.replicate (T * nf) 0)

/-- `k_merge`. -/
def merge (order : Schedule) (re im : List K) (T nf : ℕ) : List (K × K) :=
  scatter (order.threads (T * nf)) (fun i => i)
    (fun i => (re.getD (i % nf * T + i / nf) 0, im.getD (i % nf * T + i / nf) 0))
    (List.replicate (T * nf) (0, 0))

/-- The first array of `k_ola`. -/
def olaSignal (order : Schedule) (framed : List K) (T Lp : ℕ) : List K :=
  scatterAdd (order.threads (T * stft.nFft)) stft.position
    (fun i => framed.getD i 0 * (1 / stft.nFft) * stft.window.getD (i % stft.nFft) 0)
    (List.replicate Lp 0)

/-- The second array of `k_ola`. -/
def olaWeights (order : Schedule) (T Lp : ℕ) : List K :=
  scatterAdd (order.threads (T * stft.nFft)) stft.position
    (fun i => stft.window.getD (i % stft.nFft) 0 * stft.window.getD (i % stft.nFft) 0)
    (List.replicate Lp 0)

/-- `k_norm`. -/
def norm [Max K] (order : Schedule) (y wsum : List K) (Lp : ℕ) : List K :=
  scatter (order.threads Lp) (fun i => i) (fun i => y.getD i 0 / max (wsum.getD i 0) (1 / 10 ^ 8)) y

/-- `Stft::forward`. -/
def forward (order : Kernel → Schedule) (r2c : List K → List (K × K)) (audio : List K) :
    Except String (Spectrum K) := do
  let nf := stft.nFreq
  let T ← stft.numFrames audio.length
  let Lp := audio.length + 2 * stft.pad
  let _ ← checkedIntProduct [T, stft.nFft] "STFT frame tensor"
  let _ ← checkedIntProduct [T, nf] "STFT spectrum tensor"
  let _ ← checkedFloatCount [T, nf, 2] "STFT complex tensor"
  let _ ← checkedFloatCount [Lp] "STFT padded input"
  let framed := stft.frameWindow (order .frameWindow) (stft.padded audio) T
  let c := batch r2c T stft.nFft framed
  return {
    re := split (order .split) Prod.fst c T nf
    im := split (order .split) Prod.snd c T nf
    frames := T }

/-- `Stft::inverse`. -/
def inverse [Max K] (order : Kernel → Schedule) (c2r : List (K × K) → List K) (re im : List K)
    (T L : ℕ) : Except String (List K) := do
  let nf := stft.nFreq
  require (¬(T = 0 ∨ L = 0)) "STFT inverse shape does not match T and output length"
  let frames ← stft.numFrames L
  require (T = frames) "STFT inverse shape does not match T and output length"
  let _ ← checkedIntProduct [T, stft.nFft] "STFT inverse frame tensor"
  let spectrumElements ← checkedIntProduct [T, nf] "STFT inverse spectrum tensor"
  let _ ← checkedFloatCount [T, nf, 2] "STFT inverse complex tensor"
  let Lp := L + 2 * stft.pad
  let _ ← checkedFloatCount [Lp] "STFT inverse padded output"
  require (¬(re.length ≠ spectrumElements ∨ im.length ≠ re.length))
    "STFT inverse shape does not match T and output length"
  let framed := batch c2r T nf (merge (order .merge) re im T nf)
  let y := norm (order .norm) (stft.olaSignal (order .olaSignal) framed T Lp)
    (stft.olaWeights (order .olaWeights) T Lp) Lp
  return slice y stft.pad (stft.pad + L)

/-! ### The sizes -/

/-- The sizes and the window with centre padding and a window of full length. -/
theorem of_create {nFft hop : ℕ} {hann : ℕ → ℕ → K} {stft : Stft K}
    (h : create nFft hop 0 true (-1) hann = .ok stft) :
    stft.nFft = nFft ∧ stft.hop = hop ∧ stft.pad = nFft / 2 ∧
      stft.window = (List.range nFft).map (hann nFft) := by
  rw [create] at h
  obtain ⟨_, hrequire, h⟩ := bind_eq_ok.1 h
  have hwindow : scatter (List.range nFft) (fun n => 0 + n) (hann nFft) (List.replicate nFft 0) =
      (List.range nFft).map (hann nFft) := by
    simp only [Nat.zero_add]
    exact Schedule.inOrder.scatter_self _ List.length_replicate
  cases h
  rw [← hwindow]
  refine ⟨rfl, rfl, rfl, ?_⟩
  simp

omit [Field K] in
/-- An accepted length, with the number of its frames. -/
theorem of_numFrames {L T : ℕ} (h : stft.numFrames L = .ok T) :
    0 < L ∧ stft.nFft ≤ L + 2 * stft.pad ∧ T = 1 + (L + 2 * stft.pad - stft.nFft) / stft.hop := by
  rw [numFrames] at h
  obtain ⟨_, hL, h⟩ := bind_eq_ok.1 h
  obtain ⟨_, hpadded, h⟩ := bind_eq_ok.1 h
  have hL := require_eq_ok.1 hL
  have hpadded := require_eq_ok.1 hpadded
  cases h
  exact ⟨by omega, by omega, rfl⟩

/-! ### The padded signal -/

/-- The reflection leaves the signal alone. -/
theorem getD_padded (audio : List K) {i : ℕ} (hi : i < audio.length) :
    (stft.padded audio).getD (stft.pad + i) 0 = audio.getD i 0 := by
  have houter (q : ℕ × K) (hq : q ∈ (List.range stft.pad).flatMap fun j =>
      [(stft.pad - 1 - j, audio.getD (min (j + 1) (audio.length - 1)) 0),
        (stft.pad + audio.length + j, audio.getD (max ((audio.length : ℤ) - 2 - j) 0).toNat 0)]) :
      q.1 ≠ stft.pad + i := by
    obtain ⟨j, hj, hq⟩ := List.mem_flatMap.1 hq
    have hj := List.mem_range.1 hj
    rcases List.mem_pair.1 hq with rfl | rfl
    · exact (show stft.pad - 1 - j ≠ stft.pad + i by omega)
    · exact (show stft.pad + audio.length + j ≠ stft.pad + i by omega)
  have hlength : stft.pad + i < (List.replicate (audio.length + 2 * stft.pad) (0 : K)).length := by
    rw [List.length_replicate]
    omega
  have hinner := getElem?_scatter (List.mem_range.2 hi)
    (fun j _ (heq : stft.pad + j = stft.pad + i) => Nat.add_left_cancel heq)
    (fun i => audio.getD i 0) hlength
  rw [padded, List.getD_eq_getElem?_getD, getElem?_scatter_of_notMem houter]
  exact (congrArg (Option.getD · 0) hinner).trans rfl

/-! ### The frames -/

section Batch

variable {α β : Type}

theorem batch_succ (transform : List α → List β) (T n : ℕ) (l : List α) :
    batch transform (T + 1) n l =
      batch transform T n l ++ transform (slice l (T * n) (T * n + n)) := by
  rw [batch, List.range_succ, List.flatMap_append, List.flatMap_singleton, ← batch]

theorem length_batch {transform : List α → List β} {T n m : ℕ} {l : List α}
    (hl : T * n ≤ l.length) (h : ∀ x, x.length = n → (transform x).length = m) :
    (batch transform T n l).length = T * m := by
  induction T with
  | zero => exact (Nat.zero_mul m).symm
  | succ T ih =>
    rw [Nat.succ_mul] at hl
    have hblock : (slice l (T * n) (T * n + n)).length = n := by
      rw [length_slice hl, Nat.add_sub_cancel_left]
    rw [batch_succ, List.length_append, ih (by omega), h _ hblock, Nat.succ_mul]

/-- A block of the transformed blocks. -/
theorem slice_batch {transform : List α → List β} {T n m t : ℕ} {l : List α}
    (hl : T * n ≤ l.length) (h : ∀ x, x.length = n → (transform x).length = m) (ht : t < T) :
    slice (batch transform T n l) (t * m) (t * m + m) =
      transform (slice l (t * n) (t * n + n)) := by
  induction T with
  | zero => exact absurd ht (Nat.not_lt_zero t)
  | succ T ih =>
    rw [Nat.succ_mul] at hl
    have hlength : (batch transform T n l).length = T * m := length_batch (by omega) h
    rw [batch_succ]
    by_cases hlast : t = T
    · subst hlast
      have hblock : (slice l (t * n) (t * n + n)).length = n := by
        rw [length_slice hl, Nat.add_sub_cancel_left]
      rw [slice_append_right _ _ hlength.le, hlength, Nat.sub_self, Nat.add_sub_cancel_left]
      exact slice_zero_of_length (h _ hblock)
    · have hle : t * m + m ≤ T * m := by
        rw [← Nat.succ_mul]
        exact Nat.mul_le_mul_right m (by omega)
      rw [slice_append_left _ _ (by omega)]
      exact ih (by omega) (by omega)

/-- Blocks that are transformed and transformed back. -/
theorem batch_batch {transform : List α → List β} {back : List β → List α} {φ : α → α}
    {T n m : ℕ} {l : List α} (hl : l.length = T * n)
    (h : ∀ x, x.length = n → (transform x).length = m)
    (hback : ∀ x, x.length = n → back (transform x) = x.map φ) :
    batch back T m (batch transform T n l) = l.map φ := by
  have hblock (t : ℕ) (ht : t ∈ List.range T) :
      back (slice (batch transform T n l) (t * m) (t * m + m)) =
        (slice l (t * n) (t * n + n)).map φ := by
    have ht := List.mem_range.1 ht
    have hle : t * n + n ≤ l.length := by
      rw [hl, ← Nat.succ_mul]
      exact Nat.mul_le_mul_right n ht
    have hlength : (slice l (t * n) (t * n + n)).length = n := by
      rw [length_slice hle, Nat.add_sub_cancel_left]
    rw [slice_batch hl.ge h ht, hback _ hlength]
  have hfirst (T' : ℕ) : batch (fun x => x) T' n l = slice l 0 (T' * n) := by
    induction T' with
    | zero => rw [Nat.zero_mul, slice_self, batch, List.range_zero, List.flatMap_nil]
    | succ T' ih =>
      rw [batch_succ, ih, Nat.succ_mul]
      exact slice_append_slice l (Nat.zero_le _) (Nat.le_add_right _ _)
  rw [batch, List.flatMap_congr hblock, ← List.map_flatMap]
  exact congrArg (List.map φ) ((hfirst T).trans (slice_zero_of_length hl))

end Batch

/-! ### The spectrum -/

omit [Field K] in
/-- The two arrays of a spectrum are a transposition. -/
theorem transposed_injective {T nf i j : ℕ} (hi : i < T * nf) (hj : j < T * nf)
    (h : j % nf * T + j / nf = i % nf * T + i / nf) : j = i := by
  have hdivi : i / nf < T := Nat.div_lt_of_lt_mul (Nat.mul_comm T nf ▸ hi)
  have hdivj : j / nf < T := Nat.div_lt_of_lt_mul (Nat.mul_comm T nf ▸ hj)
  have hdiv : j / nf = i / nf := by
    have hmod := congrArg (· % T) h
    simpa only [Nat.mul_add_mod_self_right, Nat.mod_eq_of_lt hdivi, Nat.mod_eq_of_lt hdivj]
      using hmod
  have hmod : j % nf = i % nf := by
    rw [hdiv] at h
    exact Nat.eq_of_mul_eq_mul_right (Nat.zero_lt_of_lt hdivi) (Nat.add_right_cancel h)
  rw [← Nat.div_add_mod j nf, hdiv, hmod, Nat.div_add_mod]

/-- `k_merge` undoes `k_split`. -/
theorem merge_split (first second third : Schedule) {c : List (K × K)} {T nf : ℕ}
    (hc : c.length = T * nf) :
    merge third (split first Prod.fst c T nf) (split second Prod.snd c T nf) T nf = c := by
  have hread (order : Schedule) (part : K × K → K) (i : ℕ) (hi : i < T * nf) :
      (split order part c T nf).getD (i % nf * T + i / nf) 0 = part (c.getD i (0, 0)) := by
    have hdiv : i / nf < T := Nat.div_lt_of_lt_mul (Nat.mul_comm T nf ▸ hi)
    have hmod : i % nf < nf := Nat.mod_lt i (Nat.pos_of_mul_pos_left (Nat.zero_lt_of_lt hi))
    refine order.getD_scatter hi (fun j hj heq => transposed_injective hi hj heq) ?_ 0
    rw [List.length_replicate]
    calc i % nf * T + i / nf < i % nf * T + T := Nat.add_lt_add_left hdiv _
      _ = (i % nf + 1) * T := (Nat.succ_mul _ _).symm
      _ ≤ nf * T := Nat.mul_le_mul_right T hmod
      _ = T * nf := Nat.mul_comm nf T
  rw [merge, third.scatter_self _ List.length_replicate]
  refine Eq.trans (List.map_congr_left fun i hi => ?_) (map_getD_range hc (0, 0))
  have hi := List.mem_range.1 hi
  rw [hread first Prod.fst i hi, hread second Prod.snd i hi]

/-! ### The coverage -/

/-- **Every sample lies in a frame at a central offset.** It is the last frame in which the offset
is at least a quarter, or the last frame of all. -/
theorem exists_central {n hop L p : ℕ} (hn : 16 ≤ n) (hhop : 1 ≤ hop) (hquarter : 4 * hop ≤ n)
    (hp : p < L) :
    ∃ t < 1 + (L + 2 * (n / 2) - n) / hop, ∃ o,
      t * hop + o = n / 2 + p ∧ n ≤ 4 * o ∧ 4 * o ≤ 3 * n := by
  have hlower := Nat.div_mul_le_self (n / 2 + p - (n + 3) / 4) hop
  have hupper := Nat.lt_div_mul_add (a := n / 2 + p - (n + 3) / 4) hhop
  have hframes := Nat.lt_div_mul_add (a := L + 2 * (n / 2) - n) hhop
  generalize (n / 2 + p - (n + 3) / 4) / hop = k at hlower hupper
  generalize (L + 2 * (n / 2) - n) / hop = last at hframes ⊢
  by_cases hk : k ≤ last
  · exact ⟨k, by omega, n / 2 + p - k * hop, by omega, by omega, by omega⟩
  · have hnext : last * hop + hop ≤ k * hop := by
      rw [← Nat.succ_mul]
      exact Nat.mul_le_mul_right hop (by omega)
    exact ⟨last, by omega, n / 2 + p - last * hop, by omega, by omega, by omega⟩

/-! ### The sums -/

theorem getD_olaWeights (order : Schedule) {T Lp p : ℕ} (hp : p < Lp) :
    (stft.olaWeights order T Lp).getD p 0 = ∑ i ∈ Finset.range (T * stft.nFft),
      if stft.position i = p then
        stft.window.getD (i % stft.nFft) 0 * stft.window.getD (i % stft.nFft) 0
      else 0 := by
  rw [olaWeights, order.getD_scatterAdd _ _ _ (by rw [List.length_replicate]; exact hp),
    List.getD_replicate 0 hp, zero_add]

/-- The sum of the weighted frames is the signal, weighted. -/
theorem getD_olaSignal [CharZero K] (order order' : Schedule) {framed signal : List K} {T Lp p : ℕ}
    (hnFft : 0 < stft.nFft) (hp : p < Lp)
    (hframed : ∀ i < T * stft.nFft, framed.getD i 0 = stft.nFft *
      (signal.getD (stft.position i) 0 * stft.window.getD (i % stft.nFft) 0)) :
    (stft.olaSignal order framed T Lp).getD p 0 =
      signal.getD p 0 * (stft.olaWeights order' T Lp).getD p 0 := by
  have hne : (stft.nFft : K) ≠ 0 := Nat.cast_ne_zero.2 hnFft.ne'
  rw [getD_olaWeights stft order' hp, Finset.mul_sum, olaSignal,
    order.getD_scatterAdd _ _ _ (by rw [List.length_replicate]; exact hp),
    List.getD_replicate 0 hp, zero_add]
  refine Finset.sum_congr rfl fun i hi => ?_
  by_cases hposition : stft.position i = p
  · rw [if_pos hposition, if_pos hposition, hframed i (Finset.mem_range.1 hi), hposition]
    field_simp
  · rw [if_neg hposition, if_neg hposition, mul_zero]

variable [LinearOrder K] [IsStrictOrderedRing K]

/-- A central offset alone gives more weight than the floor of the division. -/
theorem lt_olaWeights (order : Schedule) {T Lp t o : ℕ} (hp : t * stft.hop + o < Lp) (ht : t < T)
    (ho : o < stft.nFft) (hwindow : 1 / 100 ≤ |stft.window.getD o 0|) :
    1 / 10 ^ 8 < (stft.olaWeights order T Lp).getD (t * stft.hop + o) 0 := by
  have hthread : t * stft.nFft + o < T * stft.nFft :=
    calc t * stft.nFft + o < t * stft.nFft + stft.nFft := Nat.add_lt_add_left ho _
      _ = (t + 1) * stft.nFft := (Nat.succ_mul _ _).symm
      _ ≤ T * stft.nFft := Nat.mul_le_mul_right _ ht
  have hmod : (t * stft.nFft + o) % stft.nFft = o := by
    rw [Nat.mul_add_mod_self_right, Nat.mod_eq_of_lt ho]
  have hposition : stft.position (t * stft.nFft + o) = t * stft.hop + o := by
    have hdiv : (t * stft.nFft + o) / stft.nFft = t := by
      rw [Nat.mul_comm, Nat.mul_add_div (Nat.zero_lt_of_lt ho), Nat.div_eq_of_lt ho, Nat.add_zero]
    rw [position, hdiv, hmod]
  rw [getD_olaWeights stft order hp]
  calc (1 / 10 ^ 8 : K) < (1 / 100) ^ 2 := by norm_num
    _ ≤ |stft.window.getD o 0| ^ 2 := by gcongr
    _ = stft.window.getD o 0 * stft.window.getD o 0 := by rw [sq_abs, sq]
    _ = if stft.position (t * stft.nFft + o) = t * stft.hop + o then
          stft.window.getD ((t * stft.nFft + o) % stft.nFft) 0 *
            stft.window.getD ((t * stft.nFft + o) % stft.nFft) 0
        else 0 := by rw [if_pos hposition, hmod]
    _ ≤ _ := Finset.single_le_sum
      (f := fun i => if stft.position i = t * stft.hop + o then
        stft.window.getD (i % stft.nFft) 0 * stft.window.getD (i % stft.nFft) 0 else 0)
      (fun i _ => by
        split
        · exact mul_self_nonneg _
        · exact le_rfl) (Finset.mem_range.2 hthread)

/-! ### The reconstruction -/

omit [LinearOrder K] [IsStrictOrderedRing K] in
/-- The sizes that `forward` accepts, and the spectrum. -/
theorem of_forward {order : Kernel → Schedule} {r2c : List K → List (K × K)} {audio : List K}
    {spectrum : Spectrum K} (h : stft.forward order r2c audio = .ok spectrum) :
    ∃ T, stft.numFrames audio.length = .ok T ∧
      (∀ context, checkedIntProduct [T, stft.nFft] context = .ok (T * stft.nFft)) ∧
      (∀ context, checkedIntProduct [T, stft.nFreq] context = .ok (T * stft.nFreq)) ∧
      (∃ n, ∀ context, checkedFloatCount [T, stft.nFreq, 2] context = .ok n) ∧
      (∃ n, ∀ context, checkedFloatCount [audio.length + 2 * stft.pad] context = .ok n) ∧
      let c := batch r2c T stft.nFft
        (stft.frameWindow (order .frameWindow) (stft.padded audio) T)
      spectrum = {
        re := split (order .split) Prod.fst c T stft.nFreq
        im := split (order .split) Prod.snd c T stft.nFreq
        frames := T } := by
  rw [forward] at h
  obtain ⟨T, hT, h⟩ := bind_eq_ok.1 h
  obtain ⟨frameElements, hframes, h⟩ := bind_eq_ok.1 h
  obtain ⟨spectrumElements, hspectrum, h⟩ := bind_eq_ok.1 h
  obtain ⟨storage, hstorage, h⟩ := bind_eq_ok.1 h
  obtain ⟨samples, hsamples, h⟩ := bind_eq_ok.1 h
  have hframes := checkedIntProduct_eq_ok.1 hframes
  have hspectrum := checkedIntProduct_eq_ok.1 hspectrum
  have hstorage := checkedFloatCount_eq_ok.1 hstorage
  have hsamples := checkedFloatCount_eq_ok.1 hsamples
  obtain rfl := checkedElementCount_pair hframes.1
  obtain rfl := checkedElementCount_pair hspectrum.1
  exact ⟨T, hT, fun _ => checkedIntProduct_eq_ok.2 hframes,
    fun _ => checkedIntProduct_eq_ok.2 hspectrum,
    ⟨storage, fun _ => checkedFloatCount_eq_ok.2 hstorage⟩,
    ⟨samples, fun _ => checkedFloatCount_eq_ok.2 hsamples⟩, (Except.ok.inj h).symm⟩

omit [LinearOrder K] [IsStrictOrderedRing K] in
/-- The frames that come back from the spectrum. -/
theorem batch_merge_split {r2c : List K → List (K × K)} {c2r : List (K × K) → List K}
    (hfft : FftPair stft.nFft r2c c2r) (first second third : Schedule) {framed : List K} {T : ℕ}
    (hframed : framed.length = T * stft.nFft) :
    let c := batch r2c T stft.nFft framed
    batch c2r T stft.nFreq (merge third (split first Prod.fst c T stft.nFreq)
      (split second Prod.snd c T stft.nFreq) T stft.nFreq) =
        framed.map ((stft.nFft : K) * ·) := by
  have hlength (x : List K) (hx : x.length = stft.nFft) : (r2c x).length = stft.nFreq :=
    hfft.length_r2c x hx
  dsimp only
  rw [merge_split first second third (length_batch hframed.ge hlength)]
  exact batch_batch hframed hlength hfft.c2r_r2c

/-- The division by the sum of the weights, where it is above the floor. -/
theorem getD_norm (order order' order'' : Schedule) {framed signal : List K} {T Lp p : ℕ}
    (hnFft : 0 < stft.nFft) (hp : p < Lp)
    (hframed : ∀ i < T * stft.nFft, framed.getD i 0 = stft.nFft *
      (signal.getD (stft.position i) 0 * stft.window.getD (i % stft.nFft) 0))
    (hfloor : 1 / 10 ^ 8 < (stft.olaWeights order'' T Lp).getD p 0) :
    (norm order (stft.olaSignal order' framed T Lp) (stft.olaWeights order'' T Lp) Lp).getD p 0 =
      signal.getD p 0 := by
  have hpos : (0 : K) < 1 / 10 ^ 8 := by positivity
  have hlength : (stft.olaSignal order' framed T Lp).length = Lp := by
    rw [olaSignal, length_scatterAdd, List.length_replicate]
  rw [norm, order.scatter_self _ hlength, getD_map_range _ hp, max_eq_left hfloor.le,
    getD_olaSignal stft order' order'' hnFft hp hframed,
    mul_div_cancel_right₀ _ (hpos.trans hfloor).ne']

/-- Samples that the sums above the floor give back. -/
theorem inverse_of_floor {r2c : List K → List (K × K)} {c2r : List (K × K) → List K}
    (hfft : FftPair stft.nFft r2c c2r) (hnFft : 0 < stft.nFft) {order order' : Kernel → Schedule}
    {audio : List K} {spectrum : Spectrum K} (h : stft.forward order r2c audio = .ok spectrum)
    (hfloor : ∀ p < audio.length, 1 / 10 ^ 8 < (stft.olaWeights (order' .olaWeights)
      spectrum.frames (audio.length + 2 * stft.pad)).getD (stft.pad + p) 0) :
    stft.inverse order' c2r spectrum.re spectrum.im spectrum.frames audio.length = .ok audio := by
  obtain ⟨T, hT, hframes, hspectrum, ⟨storage, hstorage⟩, ⟨samples, hsamples⟩, rfl⟩ :=
    stft.of_forward h
  obtain ⟨hL, -, hcount⟩ := stft.of_numFrames hT
  have hframed : (stft.frameWindow (order .frameWindow) (stft.padded audio) T).length =
      T * stft.nFft := by
    rw [frameWindow, length_scatter, List.length_replicate]
  have hsplit (part : K × K → K) (c : List (K × K)) :
      (split (order .split) part c T stft.nFreq).length = T * stft.nFreq := by
    rw [split, length_scatter, List.length_replicate]
  have hread (i : ℕ) (hi : i < T * stft.nFft) :
      ((stft.frameWindow (order .frameWindow) (stft.padded audio) T).map
        ((stft.nFft : K) * ·)).getD i 0 = stft.nFft *
          ((stft.padded audio).getD (stft.position i) 0 * stft.window.getD (i % stft.nFft) 0) := by
    rw [frameWindow, (order .frameWindow).scatter_self _ List.length_replicate, List.map_map,
      getD_map_range _ hi]
    rfl
  have hTpos : 0 < T := by
    rw [hcount]
    exact Nat.add_pos_left Nat.one_pos _
  have hsizes : ¬(T = 0 ∨ audio.length = 0) := by omega
  dsimp only at hfloor ⊢
  rw [inverse]
  refine bind_eq_ok.2 ⟨(), require_eq_ok.2 hsizes, bind_eq_ok.2 ⟨T, hT, bind_eq_ok.2
    ⟨(), require_eq_ok.2 rfl, bind_eq_ok.2 ⟨_, hframes _, bind_eq_ok.2 ⟨_, hspectrum _,
      bind_eq_ok.2 ⟨_, hstorage _, bind_eq_ok.2 ⟨_, hsamples _, bind_eq_ok.2
        ⟨(), require_eq_ok.2 ?_, congrArg Except.ok ?_⟩⟩⟩⟩⟩⟩⟩⟩
  · rw [hsplit, hsplit]
    omega
  · rw [stft.batch_merge_split hfft (order .split) (order .split) (order' .merge) hframed]
    symm
    refine eq_slice_of_getElem? (Nat.add_sub_cancel_left _ _).symm fun i hi => ?_
    have hi : i < audio.length := by omega
    have hp : stft.pad + i < audio.length + 2 * stft.pad := by omega
    have hsample := stft.getD_norm (order' .norm) (order' .olaSignal) (order' .olaWeights) hnFft hp
      hread (hfloor i hi)
    rw [stft.getD_padded audio hi] at hsample
    refine getElem?_eq_of_getD hi ?_ hsample.symm
    rw [norm, length_scatter, olaSignal, length_scatterAdd, List.length_replicate]
    exact hp

/-- **The inverse gives the signal back.** Every sample lies in a frame at a central offset, so that
the sum of its weights is above the floor of the division. -/
theorem inverse_forward {nFft hop : ℕ} (hnFft : 16 ≤ nFft) (hhop : 1 ≤ hop)
    (hquarter : 4 * hop ≤ nFft) {hann : ℕ → ℕ → K} (hwindow : CentralWindow (hann nFft) nFft)
    {stft : Stft K} (hcreate : create nFft hop 0 true (-1) hann = .ok stft)
    {r2c : List K → List (K × K)} {c2r : List (K × K) → List K} (hfft : FftPair nFft r2c c2r)
    {order order' : Kernel → Schedule} {audio : List K} {spectrum : Spectrum K}
    (h : stft.forward order r2c audio = .ok spectrum) :
    stft.inverse order' c2r spectrum.re spectrum.im spectrum.frames audio.length = .ok audio ∧
      ∀ p < audio.length,
        (∃ t < spectrum.frames, ∃ o,
          t * hop + o = stft.pad + p ∧ nFft ≤ 4 * o ∧ 4 * o ≤ 3 * nFft) ∧
        1 / 10 ^ 8 < (stft.olaWeights (order' .olaWeights) spectrum.frames
          (audio.length + 2 * stft.pad)).getD (stft.pad + p) 0 := by
  obtain ⟨rfl, rfl, hpad, hvalues⟩ := of_create hcreate
  obtain ⟨T, hT, -, -, -, -, hspectrum⟩ := stft.of_forward h
  obtain ⟨-, -, hcount⟩ := stft.of_numFrames hT
  have hframes : spectrum.frames = T := by rw [hspectrum]
  have hcover (p : ℕ) (hp : p < audio.length) : ∃ t < spectrum.frames, ∃ o,
      t * stft.hop + o = stft.pad + p ∧ stft.nFft ≤ 4 * o ∧ 4 * o ≤ 3 * stft.nFft := by
    rw [hframes, hcount, hpad]
    exact exists_central hnFft hhop hquarter hp
  have hfloor (p : ℕ) (hp : p < audio.length) :
      1 / 10 ^ 8 < (stft.olaWeights (order' .olaWeights) spectrum.frames
        (audio.length + 2 * stft.pad)).getD (stft.pad + p) 0 := by
    obtain ⟨t, ht, o, hposition, hlower, hupper⟩ := hcover p hp
    have ho : o < stft.nFft := by omega
    have hvalue : 1 / 100 ≤ |stft.window.getD o 0| := by
      rw [hvalues, getD_map_range _ ho]
      exact hwindow.central o hlower hupper
    rw [← hposition]
    exact stft.lt_olaWeights (order' .olaWeights) (by omega) ht ho hvalue
  exact ⟨stft.inverse_of_floor hfft (by omega) h hfloor, fun p hp => ⟨hcover p hp, hfloor p hp⟩⟩

/-- A clip of twenty-four samples in frames of sixteen, each of which overlaps the next ones. -/
theorem inverse_forward_frames : ∃ (stft : Stft ℝ) (spectrum : Spectrum ℝ),
    create 16 4 0 true (-1) (fun _ i => if i = 0 then 0 else 1) = .ok stft ∧
    stft.forward (fun _ => .inOrder) (RealDft.forward 16)
      ((List.range 24).map fun i : ℕ => (i : ℝ)) = .ok spectrum ∧
    spectrum.frames = 7 ∧
    stft.inverse (fun _ => .inOrder) (RealDft.backward 16) spectrum.re spectrum.im
      spectrum.frames 24 = .ok ((List.range 24).map fun i : ℕ => (i : ℝ)) := by
  have hwindow : CentralWindow (fun i => if i = 0 then (0 : ℝ) else 1) 16 := by
    refine ⟨rfl, fun o hlower _ => ?_⟩
    rw [if_neg (by omega)]
    norm_num
  have hfft : FftPair 16 (RealDft.forward 16) (RealDft.backward 16) :=
    ⟨fun x _ => RealDft.length_forward 16 x, fun _ hx => RealDft.backward_forward 16 hx⟩
  exact ⟨_, _, rfl, rfl, rfl, (@inverse_forward ℝ _ _ _ 16 4 (by decide) (by decide) (by decide)
    (fun _ i => if i = 0 then 0 else 1) hwindow _ rfl _ _ hfft (fun _ => .inOrder)
    (fun _ => .inOrder) ((List.range 24).map fun i : ℕ => (i : ℝ)) _ rfl).1⟩

end Stft

end Resonantia.Separation
