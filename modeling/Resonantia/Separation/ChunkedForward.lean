import Mathlib
import Mathlib.Algebra.BigOperators.Field
import Mathlib.Algebra.BigOperators.Ring.Finset
import Mathlib.Algebra.Order.BigOperators.Group.Finset
import Mathlib.Algebra.Order.Field.Basic
import Mathlib.Tactic.NormNum
import Mathlib.Tactic.Positivity
import Resonantia.Library.Scatter
import Resonantia.Pipeline.ResumableLoop
import Resonantia.Pipeline.Synthesis

/-!
# Chunked separation

`forward_chunked` separates a long stereo signal chunk by chunk. The chunks start half a chunk
apart, the last one is short and padded with zeros, each output is weighted by a window and added to
the output, and at the end every sample is divided by the sum of its weights. The outer halves of
the first and the last chunk are not weighted. A block that a checkpoint holds is taken in place of
the computed one.

Arithmetic is exact, and the model of a block is a function.

## Main definitions

* `Separation.forwardChunked`: `forward_chunked`.
* `Separation.Ready`: a session over computed blocks in which no call fails.
* `Separation.windowCount`, `Separation.windowWeight`, `Separation.windowValue`: the blocks of a
  signal, with the weights and the values that they give to a sample.

## Main results

* `Separation.le_sum_windowWeight`: every sample is covered.
* `Separation.forwardChunked_spec`: the output is a convex combination of the blocks.
-/

namespace Resonantia.Separation

open Effect Io Pipeline Scatter

variable {K : Type} [Field K] [LinearOrder K]

/-- A checksum of rational samples that forgets nothing. -/
instance : BlockDigest ℚ where
  digest identity key offset data :=
    identity ++ ":" ++ key ++ ":" ++ toString offset ++ ":" ++
      ",".intercalate (data.map toString)

/-- The name of a block in a checkpoint. -/
def windowKey (offset : ℕ) : String := "window_" ++ toString offset

/-- `chunk_size`: the configured number of samples, which is replaced if it is below `nfft` or above
four seconds. -/
def chunkSize (nfft sr configured : ℕ) : ℕ :=
  let safeChunk := max nfft (sr * 4)
  if configured < nfft ∨ configured > safeChunk then safeChunk else configured

/-- A chunk holds a spectral frame. -/
theorem le_chunkSize (nfft sr configured : ℕ) :
    nfft ≤ chunkSize nfft sr configured ∧ chunkSize nfft sr configured ≤ max nfft (sr * 4) := by
  rw [chunkSize]
  split
  · exact ⟨le_max_left _ _, le_rfl⟩
  · omega

/-- The samples of both channels from `start` on, padded with zeros. -/
def chunkInput (stereo : List K) (L cs start : ℕ) : List K :=
  let len := min cs (L - start)
  scatter ((List.range 2).flatMap fun c => (List.range len).map fun i => (c, i))
    (fun q : ℕ × ℕ => q.1 * cs + q.2) (fun q => stereo.getD (q.1 * L + start + q.2) 0)
    (List.replicate (2 * cs) 0)

/-- The weight of the sample `i` of a chunk. -/
def blockWeight (win : ℕ → K) (hop : ℕ) (first last : Prop) [Decidable first] [Decidable last]
    (i : ℕ) : K :=
  if first ∧ i < hop ∨ last ∧ i ≥ hop then 1 else win i

/-- `out` and `wsum`. -/
structure OverlapSums (K : Type) where
  out : List K
  wsum : List K

/-- The output `y` of the chunk at `start` is added. -/
def addBlock (win : ℕ → K) (L cs start : ℕ) (y : List K) (sums : OverlapSums K) : OverlapSums K :=
  let hop := cs / 2
  let remaining := L - start
  let len := min cs remaining
  let weight := blockWeight win hop (start = 0) (remaining ≤ cs)
  { out := scatterAdd ((List.range len).flatMap fun i => [(0, i), (1, i)])
      (fun q : ℕ × ℕ => q.1 * L + start + q.2) (fun q => y.getD (q.1 * cs + q.2) 0 * weight q.2)
      sums.out
    wsum := scatterAdd (List.range len) (fun i => start + i) weight sums.wsum }

/-- The division by the sums of the weights. -/
def normalized (L : ℕ) (sums : OverlapSums K) : List K :=
  (List.range (2 * L)).map fun (p : ℕ) =>
    sums.out.getD p 0 / max (sums.wsum.getD (p % L) 0) (1 / 10 ^ 6)

/-- The output with the announced and the completed number of chunks. -/
structure ChunkedOutput (K : Type) where
  samples : List K
  announced : ℕ
  completed : ℕ

section Checkpoint

variable [Sample K] [BlockDigest K] (forward : List K → ℕ → List K)

/-- `block`: a block of the checkpoint, or the computed one. -/
def windowBlock (input : List K) (count offset : ℕ) : CheckpointM K (List K) := do
  boundary
  match ← load (windowKey offset) offset (2 * count) with
  | some cached => return cached
  | none =>
    let result := forward input count
    ifCheckpoint do
      CheckpointM.ofExcept do
        require (result.length = 2 * count) "Roformer checkpoint output shape mismatch"
        require (∀ x ∈ result, Sample.isFinite x = true)
          "Roformer checkpoint output produced NaN or infinity"
      save (windowKey offset) offset result
    return result

variable (stereo : List K) (win : ℕ → K) (L cs : ℕ)

/-- The loop over the chunks, which are not shorter than two samples. -/
def chunkLoop (start completed : ℕ) (sums : OverlapSums K) :
    CheckpointM K (OverlapSums K × ℕ) :=
  if _h : start < L ∧ 0 < cs / 2 then do
    let y ← windowBlock forward (chunkInput stereo L cs start) cs start
    let sums := addBlock win L cs start y sums
    boundary
    if L - start ≤ cs then return (sums, completed + 1)
    else chunkLoop (start + cs / 2) (completed + 1) sums
  else return (sums, completed)
termination_by L - start

/-- `forward_chunked`. -/
def forwardChunked : CheckpointM K (ChunkedOutput K) := do
  if cs = 0 ∨ L ≤ cs then
    let result ← windowBlock forward stereo L 0
    boundary
    return { samples := result, announced := 1, completed := 1 }
  else
    let hop := cs / 2
    let chunks := 1 + (L - cs + hop - 1) / hop
    let (sums, completed) ← chunkLoop forward stereo win L cs 0 0
      { out := List.replicate (2 * L) 0, wsum := List.replicate L 0 }
    return { samples := normalized L sums, announced := chunks, completed := completed }

end Checkpoint

/-! ### The blocks of a signal -/

/-- The number of blocks. -/
def windowCount (L cs : ℕ) : ℕ := if L ≤ cs then 1 else 1 + (L - cs + cs / 2 - 1) / (cs / 2)

/-- The weight that the block `k` gives to the sample `p`. -/
def windowWeight (win : ℕ → K) (L cs k p : ℕ) : K :=
  if L ≤ cs then 1
  else if k * (cs / 2) ≤ p ∧ p < k * (cs / 2) + cs then
    blockWeight win (cs / 2) (k * (cs / 2) = 0) (L - k * (cs / 2) ≤ cs) (p - k * (cs / 2))
  else 0

/-- The value of the block `k` at the sample `p` of a channel. -/
def windowValue (forward : List K → ℕ → List K) (stereo : List K) (L cs k c p : ℕ) : K :=
  if L ≤ cs then (forward stereo L).getD (c * L + p) 0
  else (forward (chunkInput stereo L cs (k * (cs / 2))) cs).getD (c * cs + (p - k * (cs / 2))) 0

/-! ### One block -/

section Blocks

omit [LinearOrder K]

theorem length_chunkInput (stereo : List K) (L cs start : ℕ) :
    (chunkInput stereo L cs start).length = 2 * cs := by
  rw [chunkInput, length_scatter, List.length_replicate]

/-- A chunk holds the samples of both channels. -/
theorem getD_chunkInput (stereo : List K) {L cs start c i : ℕ} (hc : c < 2)
    (hi : i < min cs (L - start)) :
    (chunkInput stereo L cs start).getD (c * cs + i) 0 = stereo.getD (c * L + start + i) 0 := by
  have hlt : c * cs + i < (List.replicate (2 * cs) (0 : K)).length := by
    rw [List.length_replicate]
    have hle : c * cs ≤ 1 * cs := Nat.mul_le_mul_right cs (by omega)
    omega
  have hmem : (c, i) ∈ (List.range 2).flatMap fun c =>
      (List.range (min cs (L - start))).map fun i => (c, i) :=
    List.mem_flatMap.2 ⟨c, List.mem_range.2 hc, List.mem_map_of_mem (List.mem_range.2 hi)⟩
  have hother (q : ℕ × ℕ)
      (hq : q ∈ (List.range 2).flatMap fun c =>
        (List.range (min cs (L - start))).map fun i => (c, i))
      (heq : q.1 * cs + q.2 = c * cs + i) : q = (c, i) := by
    obtain ⟨c', hc', hq⟩ := List.mem_flatMap.1 hq
    obtain ⟨i', hi', rfl⟩ := List.mem_map.1 hq
    have hc' := List.mem_range.1 hc'
    have hi' := List.mem_range.1 hi'
    dsimp only at heq
    obtain rfl | rfl : c = 0 ∨ c = 1 := by omega
    all_goals
      obtain rfl | rfl : c' = 0 ∨ c' = 1 := by omega
      all_goals
        rw [Prod.mk.injEq]
        omega
  have hget := getElem?_scatter hmem hother
    (fun q : ℕ × ℕ => stereo.getD (q.1 * L + start + q.2) 0) hlt
  rw [chunkInput, List.getD_eq_getElem?_getD]
  exact (congrArg (Option.getD · 0) hget).trans rfl

theorem sum_map_flatMap_pair (f : ℕ × ℕ → K) (l : List ℕ) :
    ((l.flatMap fun i => [(0, i), (1, i)]).map f).sum =
      (l.map fun i => f (0, i) + f (1, i)).sum := by
  induction l with
  | nil => rfl
  | cons i l ih =>
    rw [List.flatMap_cons, List.map_append, List.sum_append, ih, List.map_cons (l := l),
      List.sum_cons]
    simp

/-- What a block adds to the sum of the weights. -/
theorem getD_wsum_addBlock (win : ℕ → K) {L cs start p : ℕ} (y : List K) (sums : OverlapSums K)
    (hlength : sums.wsum.length = L) (hp : p < L) :
    (addBlock win L cs start y sums).wsum.getD p 0 = sums.wsum.getD p 0 +
      if start ≤ p ∧ p < start + cs then
        blockWeight win (cs / 2) (start = 0) (L - start ≤ cs) (p - start)
      else 0 := by
  rw [addBlock]
  dsimp only
  rw [getD_scatterAdd _ _ _ (hlength ▸ hp), sum_map_range_ite]
  have hiff : start ≤ p ∧ p < start + min cs (L - start) ↔ start ≤ p ∧ p < start + cs := by omega
  simp only [hiff]

/-- What a block adds to the output. -/
theorem getD_out_addBlock (win : ℕ → K) {L cs start c p : ℕ} (y : List K) (sums : OverlapSums K)
    (hlength : sums.out.length = 2 * L) (hc : c < 2) (hp : p < L) :
    (addBlock win L cs start y sums).out.getD (c * L + p) 0 = sums.out.getD (c * L + p) 0 +
      if start ≤ p ∧ p < start + cs then
        y.getD (c * cs + (p - start)) 0 *
          blockWeight win (cs / 2) (start = 0) (L - start ≤ cs) (p - start)
      else 0 := by
  have hlt : c * L + p < sums.out.length := by
    rw [hlength]
    have hle : c * L ≤ 1 * L := Nat.mul_le_mul_right L (by omega)
    omega
  have hterm (i : ℕ) (hi : i ∈ List.range (min cs (L - start))) (v : ℕ × ℕ → K) :
      ((if 0 * L + start + i = c * L + p then v (0, i) else 0) +
        if 1 * L + start + i = c * L + p then v (1, i) else 0) =
          if start + i = p then v (c, i) else 0 := by
    have hi := List.mem_range.1 hi
    obtain rfl | rfl : c = 0 ∨ c = 1 := by omega
    · rw [if_neg (show ¬1 * L + start + i = 0 * L + p by omega), add_zero]
      simp only [Nat.zero_mul, Nat.zero_add]
    · rw [if_neg (show ¬0 * L + start + i = 1 * L + p by omega), zero_add]
      have hiff : 1 * L + start + i = 1 * L + p ↔ start + i = p := by omega
      simp only [hiff]
  have hiff : start ≤ p ∧ p < start + min cs (L - start) ↔ start ≤ p ∧ p < start + cs := by omega
  rw [addBlock]
  dsimp only
  rw [getD_scatterAdd _ _ _ hlt, sum_map_flatMap_pair,
    List.map_congr_left fun i hi => hterm i hi fun q => y.getD (q.1 * cs + q.2) 0 *
      blockWeight win (cs / 2) (start = 0) (L - start ≤ cs) q.2,
    sum_map_range_ite]
  simp only [hiff]

/-! ### The loop -/

section Loop

variable (forward : List K → ℕ → List K) (stereo : List K) (win : ℕ → K) (L cs : ℕ)

/-- The loop without a checkpoint. -/
def plainLoop (start completed : ℕ) (sums : OverlapSums K) : OverlapSums K × ℕ :=
  if _h : start < L ∧ 0 < cs / 2 then
    let sums := addBlock win L cs start (forward (chunkInput stereo L cs start) cs) sums
    if L - start ≤ cs then (sums, completed + 1)
    else plainLoop (start + cs / 2) (completed + 1) sums
  else (sums, completed)
termination_by L - start

/-- The first `n` blocks have been added. -/
structure Sums (n : ℕ) (sums : OverlapSums K) : Prop where
  length_out : sums.out.length = 2 * L
  length_wsum : sums.wsum.length = L
  wsum : ∀ p < L, sums.wsum.getD p 0 = ∑ k ∈ Finset.range n, windowWeight win L cs k p
  out : ∀ c < 2, ∀ p < L, sums.out.getD (c * L + p) 0 =
    ∑ k ∈ Finset.range n, windowValue forward stereo L cs k c p * windowWeight win L cs k p

variable {L cs} (hlong : cs < L)

include hlong

/-- A block adds its term to every sum. -/
theorem Sums.addBlock {n : ℕ} {sums : OverlapSums K}
    (h : Sums forward stereo win L cs n sums) :
    Sums forward stereo win L cs (n + 1) (addBlock win L cs (n * (cs / 2))
      (forward (chunkInput stereo L cs (n * (cs / 2))) cs) sums) := by
  refine ⟨?_, ?_, fun p hp => ?_, fun c hc p hp => ?_⟩
  · exact (length_scatterAdd _ _ _ _).trans h.length_out
  · exact (length_scatterAdd _ _ _ _).trans h.length_wsum
  · rw [getD_wsum_addBlock win _ sums h.length_wsum hp, Finset.sum_range_succ, h.wsum p hp,
      windowWeight, if_neg (not_le.2 hlong)]
  · rw [getD_out_addBlock win _ sums h.length_out hc hp, Finset.sum_range_succ, h.out c hc p hp,
      windowValue, windowWeight, if_neg (not_le.2 hlong), if_neg (not_le.2 hlong)]
    split
    · rfl
    · rw [mul_zero]

omit [Field K] in
/-- The last of the announced blocks is the first that reaches the end. -/
theorem windowCount_bounds (hcs : 2 ≤ cs) {n : ℕ} (hn : n < windowCount L cs) :
    n * (cs / 2) < L ∧ (L - n * (cs / 2) ≤ cs ↔ n + 1 = windowCount L cs) := by
  have hhop : 0 < cs / 2 := Nat.div_pos hcs (by decide)
  have hle : cs / 2 ≤ cs := Nat.div_le_self cs 2
  rw [windowCount, if_neg (not_le.2 hlong)] at hn ⊢
  generalize cs / 2 = hop at hhop hle hn ⊢
  have hupper : n * hop ≤ L - cs + hop - 1 := (Nat.le_div_iff_mul_le hhop).1 (by omega)
  refine ⟨by omega, fun hlast => ?_, fun heq => ?_⟩
  · have hlt : (L - cs + hop - 1) / hop < n + 1 := by
      rw [Nat.div_lt_iff_lt_mul hhop, Nat.add_mul]
      omega
    omega
  · by_contra hmore
    have hnext : n + 1 ≤ (L - cs + hop - 1) / hop := by
      rw [Nat.le_div_iff_mul_le hhop, Nat.add_mul]
      omega
    omega

/-- The loop ends after the announced number of blocks. -/
theorem exists_plainLoop (hcs : 2 ≤ cs) {n : ℕ} (hn : n < windowCount L cs) {sums : OverlapSums K}
    (h : Sums forward stereo win L cs n sums) :
    ∃ last, plainLoop forward stereo win L cs (n * (cs / 2)) n sums =
      (last, windowCount L cs) ∧ Sums forward stereo win L cs (windowCount L cs) last := by
  induction hd : windowCount L cs - n using Nat.strongRecOn generalizing n sums with
  | ind d ih =>
    obtain ⟨hstart, hlast⟩ := windowCount_bounds hlong hcs hn
    have hnext := h.addBlock forward stereo win hlong
    rw [plainLoop, dif_pos ⟨hstart, Nat.div_pos hcs (by decide)⟩]
    dsimp only
    by_cases hend : L - n * (cs / 2) ≤ cs
    · rw [if_pos hend]
      rw [hlast.1 hend] at hnext ⊢
      exact ⟨_, rfl, hnext⟩
    · have hmore : n + 1 < windowCount L cs := by
        have hne := fun heq => hend (hlast.2 heq)
        omega
      rw [if_neg hend, ← Nat.succ_mul]
      exact ih (windowCount L cs - (n + 1)) (by omega) hmore hnext rfl

end Loop

end Blocks

/-! ### The coverage -/

/-- What is asked of a window of `cs` samples. -/
structure Window (win : ℕ → K) (cs : ℕ) : Prop where
  zero : win 0 = 0
  pos : ∀ i, 0 < i → i < cs → 0 < win i
  overlap : ∀ i, i + cs / 2 < cs → 1 / 10 ^ 6 ≤ win i + win (i + cs / 2)

section Coverage

variable [IsStrictOrderedRing K] {win : ℕ → K} {L cs : ℕ}

omit [IsStrictOrderedRing K] in
theorem Window.nonneg (h : Window win cs) {i : ℕ} (hi : i < cs) : 0 ≤ win i := by
  rcases Nat.eq_zero_or_pos i with rfl | hpos
  · exact h.zero.ge
  · exact (h.pos i hpos hi).le

theorem windowWeight_nonneg (h : Window win cs) (k p : ℕ) : 0 ≤ windowWeight win L cs k p := by
  rw [windowWeight]
  split
  · exact zero_le_one
  · split
    · rw [blockWeight]
      split
      · exact zero_le_one
      · exact h.nonneg (by omega)
    · exact le_rfl

/-- **Every sample is covered**: its weights sum up to more than the floor of the division. -/
theorem le_sum_windowWeight (h : Window win cs) (hcs : 2 ≤ cs) {p : ℕ} (hp : p < L) :
    1 / 10 ^ 6 ≤ ∑ k ∈ Finset.range (windowCount L cs), windowWeight win L cs k p := by
  have hfloor : (1 / 10 ^ 6 : K) ≤ 1 := by
    rw [div_le_one (by positivity)]
    exact one_le_pow₀ (by norm_num)
  have hnonneg (k : ℕ) (_ : k ∈ Finset.range (windowCount L cs)) :
      0 ≤ windowWeight win L cs k p := windowWeight_nonneg h k p
  -- One block of weight one is enough.
  have hone (k : ℕ) (hk : k < windowCount L cs) (hweight : windowWeight win L cs k p = 1) :
      1 / 10 ^ 6 ≤ ∑ k ∈ Finset.range (windowCount L cs), windowWeight win L cs k p :=
    calc (1 / 10 ^ 6 : K) ≤ windowWeight win L cs k p := hweight ▸ hfloor
      _ ≤ _ := Finset.single_le_sum hnonneg (Finset.mem_range.2 hk)
  by_cases hlong : cs < L
  · have hhop : 0 < cs / 2 := Nat.div_pos hcs (by decide)
    have hcount : 0 < windowCount L cs := by
      rw [windowCount, if_neg (not_le.2 hlong)]
      exact Nat.add_pos_left Nat.one_pos _
    -- The last block that starts in front of the sample.
    obtain ⟨k, hk, hstart, hnear⟩ : ∃ k < windowCount L cs, k * (cs / 2) ≤ p ∧
        (p < k * (cs / 2) + cs / 2 ∨ k + 1 = windowCount L cs) := by
      by_cases hinner : p / (cs / 2) < windowCount L cs
      · exact ⟨p / (cs / 2), hinner, Nat.div_mul_le_self _ _, Or.inl (Nat.lt_div_mul_add hhop)⟩
      · refine ⟨windowCount L cs - 1, by omega, ?_, Or.inr (by omega)⟩
        exact (Nat.le_div_iff_mul_le hhop).1 (by omega)
    obtain ⟨-, hlast⟩ := windowCount_bounds hlong hcs hk
    have hcover : k * (cs / 2) ≤ p ∧ p < k * (cs / 2) + cs := by
      refine ⟨hstart, ?_⟩
      rcases hnear with hnear | hnear
      · omega
      · have hend := hlast.2 hnear
        omega
    have hweight : windowWeight win L cs k p =
        blockWeight win (cs / 2) (k * (cs / 2) = 0) (L - k * (cs / 2) ≤ cs)
          (p - k * (cs / 2)) := by
      rw [windowWeight, if_neg (not_le.2 hlong), if_pos hcover]
    by_cases hinner : p - k * (cs / 2) < cs / 2
    · rcases Nat.eq_zero_or_pos k with rfl | hkpos
      · refine hone 0 hk (hweight.trans (if_pos (Or.inl ⟨Nat.zero_mul _, hinner⟩)))
      · -- The fading half of the block before complements the window.
        have hprev : (k - 1) * (cs / 2) + cs / 2 = k * (cs / 2) := by
          rw [← Nat.succ_mul]
          congr 1
          omega
        have hkstart : k * (cs / 2) ≠ 0 := by omega
        have hprevCount : k - 1 < windowCount L cs := by omega
        obtain ⟨-, hprevLast⟩ := windowCount_bounds hlong hcs hprevCount
        have hprevWeight : windowWeight win L cs (k - 1) p =
            win (p - k * (cs / 2) + cs / 2) := by
          have hindex : p - (k - 1) * (cs / 2) = p - k * (cs / 2) + cs / 2 := by omega
          have hmore : ¬L - (k - 1) * (cs / 2) ≤ cs := by
            rw [hprevLast]
            omega
          rw [windowWeight, if_neg (not_le.2 hlong), if_pos (by omega), hindex, blockWeight,
            if_neg (by omega)]
        have hkWeight : windowWeight win L cs k p = win (p - k * (cs / 2)) := by
          rw [hweight, blockWeight, if_neg (by omega)]
        have hpair : windowWeight win L cs k p + windowWeight win L cs (k - 1) p ≤
            ∑ k ∈ Finset.range (windowCount L cs), windowWeight win L cs k p := by
          rw [← Finset.sum_pair (f := fun k => windowWeight win L cs k p)
            (show k ≠ k - 1 by omega)]
          refine Finset.sum_le_sum_of_subset_of_nonneg ?_ fun j hj _ => hnonneg j hj
          intro j hj
          rw [Finset.mem_insert, Finset.mem_singleton] at hj
          exact Finset.mem_range.2 (by omega)
        rw [hkWeight, hprevWeight] at hpair
        exact (h.overlap _ (by omega)).trans hpair
    · have hend : k + 1 = windowCount L cs := by omega
      exact hone k hk (hweight.trans (if_pos (Or.inr ⟨hlast.2 hend, not_lt.1 hinner⟩)))
  · refine hone 0 ?_ ?_
    · rw [windowCount, if_pos (not_lt.1 hlong)]
      decide
    · rw [windowWeight, if_pos (not_lt.1 hlong)]

end Coverage

/-! ### Runs with and without a checkpoint -/

section Runs

variable [Sample K] [BlockDigest K] (forward : List K → ℕ → List K) (stereo : List K)
  (win : ℕ → K) (L cs : ℕ)

/-- The computed block at an offset. -/
def blockOutput (offset : ℕ) : List K :=
  if L ≤ cs then forward stereo L else forward (chunkInput stereo L cs offset) cs

/-- The blocks in a checkpoint are computed ones, whichever they are. -/
def Computed (c : String → Option (List K)) : Prop :=
  ∀ offset v, c (windowKey offset) = some v → v = blockOutput forward stereo L cs offset

/-- The output without a checkpoint. -/
def plainOutput : ChunkedOutput K :=
  if L ≤ cs then { samples := forward stereo L, announced := 1, completed := 1 }
  else
    let last := plainLoop forward stereo win L cs 0 0
      { out := List.replicate (2 * L) 0, wsum := List.replicate L 0 }
    { samples := normalized L last.1, announced := windowCount L cs, completed := last.2 }

omit [LinearOrder K] [Field K] [Sample K] [BlockDigest K] in
theorem windowKey_injective {offset offset' : ℕ} (h : windowKey offset = windowKey offset') :
    offset = offset' :=
  Nat.repr_injective ((String.append_right_inj _).1 h)

variable {forward stereo win L cs}

/-- A block is the computed one, loaded or not. -/
theorem windowBlock_spec {input : List K} {count offset : ℕ}
    (h : forward input count = blockOutput forward stereo L cs offset) :
    Triple (fun s => Computed forward stereo L cs (cached s))
      (windowBlock forward input count offset)
      (fun y s => y = blockOutput forward stereo L cs offset ∧
        Computed forward stereo L cs (cached s))
      (fun _ s => Computed forward stereo L cs (cached s)) := by
  refine triple_bind (boundary_spec (Computed forward stereo L cs)) fun _ => ?_
  intro s hs
  refine triple_bind (triple_conseq (load_spec (windowKey offset) offset (2 * count) (cached s))
    (fun _ h => h) (fun _ _ h => h) (fun _ t ht => ?_)) (fun loaded => ?_) s rfl
  · exact ht ▸ hs
  · refine triple_of_fact fun hloaded => ?_
    cases loaded with
    | some y =>
      refine triple_pure fun t ht => ⟨hs offset y (hloaded y rfl), ?_⟩
      rw [ht]
      exact hs
    | none =>
      refine triple_bind (triple_ifCheckpoint
        (Q := fun _ t => Computed forward stereo L cs (cached t)) ?_ fun ht => ?_)
        fun _ => triple_pure fun t ht => ⟨h, ht⟩
      · refine triple_bind (triple_conseq (ofExcept_spec _ _) (fun _ h => h) (fun _ _ h => h.2)
          (fun _ t ht => ?_)) fun _ => triple_conseq
            (save_spec (windowKey offset) offset (forward input count) (cached s)) (fun _ h => h)
            ?_ ?_
        · rw [ht]
          exact hs
        all_goals
          intro _ t ht offset' v hv
          rcases ht _ v hv with hold | ⟨hkey, rfl⟩
          · exact hs offset' v hold
          · rw [windowKey_injective hkey]
            exact h
      · rw [ht]
        exact hs

omit [Field K] in
theorem exec_windowBlock_none (input : List K) (count offset : ℕ) :
    exec (windowBlock forward input count offset) none = (.ok (forward input count), none) := rfl

/-- The loop adds the computed blocks, loaded or not. -/
theorem chunkLoop_spec (hlong : cs < L) (start completed : ℕ) (sums : OverlapSums K) :
    Triple (fun s => Computed forward stereo L cs (cached s))
      (chunkLoop forward stereo win L cs start completed sums)
      (fun last s => last = plainLoop forward stereo win L cs start completed sums ∧
        Computed forward stereo L cs (cached s))
      (fun _ s => Computed forward stereo L cs (cached s)) := by
  induction hd : L - start using Nat.strongRecOn generalizing start completed sums with
  | ind d ih =>
    rw [chunkLoop, plainLoop]
    by_cases hmore : start < L ∧ 0 < cs / 2
    · have hblock : forward (chunkInput stereo L cs start) cs =
          blockOutput forward stereo L cs start := (if_neg (not_le.2 hlong)).symm
      rw [dif_pos hmore, dif_pos hmore]
      refine triple_bind (windowBlock_spec hblock) fun y => triple_of_fact ?_
      rintro rfl
      refine triple_bind (boundary_spec (Computed forward stereo L cs)) fun _ => ?_
      rw [hblock]
      dsimp only
      split
      · exact triple_pure fun s hs => ⟨rfl, hs⟩
      · exact ih _ (by omega) _ _ _ rfl
    · rw [dif_neg hmore, dif_neg hmore]
      exact triple_pure fun s hs => ⟨rfl, hs⟩

theorem exec_chunkLoop_none (start completed : ℕ) (sums : OverlapSums K) :
    exec (chunkLoop forward stereo win L cs start completed sums) none =
      (.ok (plainLoop forward stereo win L cs start completed sums), none) := by
  induction hd : L - start using Nat.strongRecOn generalizing start completed sums with
  | ind d ih =>
    rw [chunkLoop, plainLoop]
    by_cases hmore : start < L ∧ 0 < cs / 2
    · have hboundary : exec (boundary : CheckpointM K Unit) none = (.ok (), none) := rfl
      rw [dif_pos hmore, dif_pos hmore, exec_bind_of_ok (exec_windowBlock_none _ _ _),
        exec_bind_of_ok hboundary]
      dsimp only
      split
      · rfl
      · exact ih _ (by omega) _ _ _ rfl
    · rw [dif_neg hmore, dif_neg hmore]
      rfl

/-- A run returns the output without a checkpoint, and leaves computed blocks. -/
theorem forwardChunked_triple (hcs : 2 ≤ cs) :
    Triple (fun s => Computed forward stereo L cs (cached s))
      (forwardChunked forward stereo win L cs)
      (fun output s => output = plainOutput forward stereo win L cs ∧
        Computed forward stereo L cs (cached s))
      (fun _ s => Computed forward stereo L cs (cached s)) := by
  rw [forwardChunked, plainOutput]
  by_cases hlong : cs < L
  · rw [if_neg (by omega), if_neg (not_le.2 hlong)]
    refine triple_bind (chunkLoop_spec hlong 0 0 _) fun last => triple_of_fact ?_
    rintro rfl
    refine triple_pure fun s hs => ⟨?_, hs⟩
    rw [windowCount, if_neg (not_le.2 hlong)]
  · rw [if_pos (Or.inr (not_lt.1 hlong)), if_pos (not_lt.1 hlong)]
    have hblock : forward stereo L = blockOutput forward stereo L cs 0 :=
      (if_pos (not_lt.1 hlong)).symm
    refine triple_bind (windowBlock_spec hblock) fun y => triple_of_fact ?_
    rintro rfl
    refine triple_bind (boundary_spec (Computed forward stereo L cs)) fun _ => ?_
    exact triple_pure fun s hs => ⟨by rw [hblock], hs⟩

theorem exec_forwardChunked_none (hcs : 2 ≤ cs) :
    exec (forwardChunked forward stereo win L cs) none =
      (.ok (plainOutput forward stereo win L cs), none) := by
  rw [forwardChunked, plainOutput]
  by_cases hlong : cs < L
  · rw [if_neg (by omega), if_neg (not_le.2 hlong), exec_bind_of_ok (exec_chunkLoop_none _ _ _),
      windowCount, if_neg (not_le.2 hlong)]
    rfl
  · rw [if_pos (Or.inr (not_lt.1 hlong)), if_pos (not_lt.1 hlong)]
    rfl

end Runs

/-! ### Sessions that do not fail -/

section Sessions

variable [Sample K] [BlockDigest K] (forward : List K → ℕ → List K) (stereo : List K) (L cs : ℕ)

/-- The number of samples of a block, of both channels. -/
def blockSamples : ℕ := 2 * min L cs

/-- The number of blocks from the block `n` on that a directory does not hold. -/
def missing (directory : BlockDirectory K) (n : ℕ) : ℕ :=
  (List.range' n (windowCount L cs - n)).countP fun k =>
    (directory[windowKey (k * (cs / 2))]?).isNone

/-- A session before the block `n`: it holds computed blocks and has room for the others, and the
environment lets every call succeed. -/
structure Ready (n : ℕ) (s : Session K) : Prop where
  healthy : s.checkpoint.healthy = true
  writable : s.checkpoint.readOnly = false
  proceeds : ∀ t, s.environment.signal t = .proceed
  commits : ∀ t, s.environment.publication t = .committed
  samples_le : blockSamples L cs ≤ s.checkpoint.limits.blockBytes / 4
  stored : ∀ k < windowCount L cs, ∀ block,
    s.checkpoint.directory[windowKey (k * (cs / 2))]? = some block →
      block = s.checkpoint.blockFile (windowKey (k * (cs / 2))) (k * (cs / 2))
        (blockOutput forward stereo L cs (k * (cs / 2)))
  blocks_le : s.checkpoint.blocks + missing L cs s.checkpoint.directory n ≤
    s.checkpoint.limits.blocks
  bytes_le : s.checkpoint.bytes +
    missing L cs s.checkpoint.directory n * (headerSize + 4 * blockSamples L cs) ≤
      s.checkpoint.limits.totalBytes

/-- A session is open, and it is ready for the block `n`. -/
def ReadyAt (n : ℕ) : Option (Session K) → Prop
  | none => False
  | some s => Ready forward stereo L cs n s

variable {forward stereo L cs} {win : ℕ → K}

omit [LinearOrder K] [Sample K] [BlockDigest K] [Field K] in
theorem missing_eq {directory : BlockDirectory K} {n : ℕ} (hn : n < windowCount L cs) :
    missing L cs directory n = missing L cs directory (n + 1) +
      if (directory[windowKey (n * (cs / 2))]?).isNone then 1 else 0 := by
  rw [missing, missing, show windowCount L cs - n = windowCount L cs - (n + 1) + 1 by omega,
    List.range'_succ, List.countP_cons]

omit [LinearOrder K] [Sample K] [BlockDigest K] [Field K] in
/-- Publishing a block fills its place only. -/
theorem missing_publish (hcs : 2 ≤ cs) (c : BlockCheckpoint K) (n : ℕ) (block : Block K) :
    missing L cs (c.publish (windowKey (n * (cs / 2))) block).directory (n + 1) =
      missing L cs c.directory (n + 1) := by
  refine List.countP_congr fun k hk => ?_
  have hlt := (List.mem_range'_1.1 hk).1
  have hne : windowKey (n * (cs / 2)) ≠ windowKey (k * (cs / 2)) := fun heq => by
    have hpos : 0 < cs / 2 := Nat.div_pos hcs (by decide)
    have hindex := Nat.eq_of_mul_eq_mul_right hpos (windowKey_injective heq)
    omega
  rw [BlockCheckpoint.directory_publish, if_neg hne]

/-- The names of a signal's blocks are accepted. -/
theorem validKey_windowKey {offset : ℕ} (h : offset ≤ intMax) :
    validKey (windowKey offset) = true := by
  have hlength : (Nat.repr offset).length ≤ 10 :=
    (Nat.length_repr_le_iff (by decide)).2 (Nat.lt_of_le_of_lt h (by decide))
  have hletter : ∀ n < 58, 48 ≤ n →
      "abcdefghijklmnopqrstuvwxyz0123456789_-".toList.contains (Char.ofNat n) = true := by
    decide
  have hdigits : ((Nat.repr offset).toList.all fun c =>
      "abcdefghijklmnopqrstuvwxyz0123456789_-".toList.contains c) = true := by
    rw [List.all_eq_true]
    intro c hc
    rw [Nat.toList_repr] at hc
    have hrange := Nat.isDigit_of_mem_toDigits (by decide) (by decide) hc
    rw [Char.isDigit_iff_toNat] at hrange
    have hzero : '0'.toNat = 48 := rfl
    have hnine : '9'.toNat = 57 := rfl
    rw [← Char.ofNat_toNat c]
    exact hletter c.toNat (by omega) (by omega)
  have hword : ("window_".toList.all fun c =>
      "abcdefghijklmnopqrstuvwxyz0123456789_-".toList.contains c) = true := by decide
  have hwordLength : "window_".length = 7 := rfl
  rw [validKey, show windowKey offset = "window_" ++ Nat.repr offset from rfl, String.toList_append,
    List.all_append, hword, hdigits, String.length_append, hwordLength,
    decide_eq_true (show 7 + (Nat.repr offset).length ≤ 64 by omega)]
  simp

section Block

variable (hcs : 2 ≤ cs) (hpos : 0 < L) (hmax : L ≤ intMax)
  (hlength : ∀ offset, (blockOutput forward stereo L cs offset).length = blockSamples L cs)
  (hfinite : ∀ k < windowCount L cs, ∀ x ∈ blockOutput forward stereo L cs (k * (cs / 2)),
    Sample.isFinite x = true)

include hcs hpos in
omit [LinearOrder K] [Sample K] [BlockDigest K] [Field K] in
theorem blockSamples_pos : 0 < blockSamples L cs := by
  rw [blockSamples]
  omega

include hcs in
omit [LinearOrder K] [Sample K] [BlockDigest K] [Field K] in
/-- A block starts inside the signal. -/
theorem offset_le {n : ℕ} (hn : n < windowCount L cs) : n * (cs / 2) ≤ L := by
  by_cases hlong : cs < L
  · exact (windowCount_bounds hlong hcs hn).1.le
  · rw [windowCount, if_pos (not_lt.1 hlong)] at hn
    obtain rfl : n = 0 := by omega
    rw [Nat.zero_mul]
    exact Nat.zero_le _

include hcs hpos hmax hlength hfinite in
omit [LinearOrder K] in
/-- A block that is held is the computed one; one that is not held is missing. -/
theorem read_of_ready {n k : ℕ} (hk : k < windowCount L cs) {s : Session K}
    (h : Ready forward stereo L cs n s) :
    s.checkpoint.read (windowKey (k * (cs / 2))) (k * (cs / 2)) (blockSamples L cs) =
      .ok (if (s.checkpoint.directory[windowKey (k * (cs / 2))]?).isNone then none
        else some (blockOutput forward stereo L cs (k * (cs / 2)))) := by
  have hkey := validKey_windowKey ((offset_le hcs hk).trans hmax)
  have hpositive := blockSamples_pos hcs hpos
  have hsamples := h.samples_le
  rw [BlockCheckpoint.read, if_neg (by rw [h.healthy]; decide), if_neg (by rw [hkey]; decide),
    if_neg (by omega)]
  cases hblock : s.checkpoint.directory[windowKey (k * (cs / 2))]? with
  | none => rfl
  | some block =>
    obtain rfl := h.stored k hk block hblock
    have hall : (blockOutput forward stereo L cs (k * (cs / 2))).all Sample.isFinite = true :=
      List.all_eq_true.2 (hfinite k hk)
    dsimp only [BlockCheckpoint.blockFile]
    rw [BlockCheckpoint.blockSize, hlength, if_neg (by simp), if_neg (by simp),
      if_neg (by rw [hall]; decide), if_neg (by simp)]
    rfl

include hcs hpos hmax hlength hfinite in
/-- A block that is not held is accepted. -/
theorem accept_of_ready {n : ℕ} (hn : n < windowCount L cs) {s : Session K}
    (h : Ready forward stereo L cs n s)
    (hnone : (s.checkpoint.directory[windowKey (n * (cs / 2))]?).isNone = true) :
    s.checkpoint.accept (windowKey (n * (cs / 2))) (n * (cs / 2))
        (blockOutput forward stereo L cs (n * (cs / 2))) =
      .ok (some (s.checkpoint.blockFile (windowKey (n * (cs / 2))) (n * (cs / 2))
        (blockOutput forward stereo L cs (n * (cs / 2))))) := by
  have hkey := validKey_windowKey ((offset_le hcs hn).trans hmax)
  have hpositive := blockSamples_pos hcs hpos
  have hsamples := h.samples_le
  have hread := read_of_ready hcs hpos hmax hlength hfinite hn h
  have hall : (blockOutput forward stereo L cs (n * (cs / 2))).all Sample.isFinite = true :=
    List.all_eq_true.2 (hfinite n hn)
  have hempty : (blockOutput forward stereo L cs (n * (cs / 2))).isEmpty = false := by
    rw [List.isEmpty_eq_false_iff_exists_mem]
    exact List.exists_mem_of_length_pos (by rw [hlength]; exact hpositive)
  have hblocks := h.blocks_le
  have hbytes := h.bytes_le
  rw [missing_eq hn, if_pos hnone] at hblocks hbytes
  rw [Nat.add_mul, Nat.one_mul] at hbytes
  rw [if_pos hnone] at hread
  rw [BlockCheckpoint.accept, if_neg (by rw [h.writable]; decide), if_neg (by rw [hkey]; decide),
    if_neg (by rw [hempty, hlength]; simp; omega), if_neg (by rw [hall]; decide), hlength, hread]
  dsimp only
  rw [if_neg]
  rw [BlockCheckpoint.blockSize, hlength]
  omega

omit [LinearOrder K] [Sample K] [BlockDigest K] [Field K] in
/-- A computation that returns leaves the session alone. -/
theorem triple_ofExcept_ok {β : Type} {x : Except String β} {b : β} (h : x = .ok b)
    {P : Option (Session K) → Prop} {E : Halt → Option (Session K) → Prop} :
    Triple P (CheckpointM.ofExcept x) (fun _ => P) E := by
  subst h
  exact triple_pure fun s hs => hs

omit [LinearOrder K] [Sample K] in
theorem boundary_ready (n : ℕ) :
    Triple (ReadyAt forward stereo L cs n) boundary (fun _ => ReadyAt forward stereo L cs n)
      (fun _ _ => False) := by
  rintro (_ | s) h
  · exact h.elim
  · have h : Ready forward stereo L cs n s := h
    rw [exec, boundary]
    dsimp only
    rw [if_neg (by rw [h.healthy]; decide), h.proceeds]
    exact ⟨h.healthy, h.writable, h.proceeds, h.commits, h.samples_le, h.stored, h.blocks_le,
      h.bytes_le⟩

/-- A session that is ready for the block `n`, and does not hold it. -/
def Lacks (forward : List K → ℕ → List K) (stereo : List K) (L cs n : ℕ) (s : Option (Session K)) :
    Prop :=
  ∃ t, s = some t ∧ Ready forward stereo L cs n t ∧
    (t.checkpoint.directory[windowKey (n * (cs / 2))]?).isNone = true

include hcs hpos hmax hlength hfinite in
omit [LinearOrder K] in
theorem load_ready {n : ℕ} (hn : n < windowCount L cs) :
    Triple (ReadyAt forward stereo L cs n)
      (load (windowKey (n * (cs / 2))) (n * (cs / 2)) (blockSamples L cs))
      (fun loaded s =>
        loaded = some (blockOutput forward stereo L cs (n * (cs / 2))) ∧
            ReadyAt forward stereo L cs (n + 1) s ∨
          loaded = none ∧ Lacks forward stereo L cs n s)
      (fun _ _ => False) := by
  rintro (_ | s) h
  · exact h.elim
  · have h : Ready forward stereo L cs n s := h
    have hblocks := h.blocks_le
    have hbytes := h.bytes_le
    rw [exec, load]
    dsimp only
    rw [read_of_ready hcs hpos hmax hlength hfinite hn h]
    by_cases hnone : (s.checkpoint.directory[windowKey (n * (cs / 2))]?).isNone = true
    · rw [if_pos hnone]
      exact Or.inr ⟨rfl, s, rfl, h, hnone⟩
    · rw [if_neg hnone]
      rw [missing_eq hn, if_neg hnone, Nat.add_zero] at hblocks hbytes
      exact Or.inl ⟨rfl, h.healthy, h.writable, h.proceeds, h.commits, h.samples_le, h.stored,
        hblocks, hbytes⟩

include hcs hpos hmax hlength hfinite in
theorem save_ready {n : ℕ} (hn : n < windowCount L cs) :
    Triple (Lacks forward stereo L cs n)
      (save (windowKey (n * (cs / 2))) (n * (cs / 2))
        (blockOutput forward stereo L cs (n * (cs / 2))))
      (fun _ => ReadyAt forward stereo L cs (n + 1)) (fun _ _ => False) := by
  rintro _ ⟨s, rfl, h, hnone⟩
  have hblocks := h.blocks_le
  have hbytes := h.bytes_le
  rw [missing_eq hn, if_pos hnone] at hblocks hbytes
  rw [Nat.add_mul, Nat.one_mul] at hbytes
  rw [exec, save]
  dsimp only
  rw [accept_of_ready hcs hpos hmax hlength hfinite hn h hnone]
  dsimp only
  rw [h.commits]
  refine ⟨h.healthy, h.writable, h.proceeds, h.commits, h.samples_le, fun k hk block hblock => ?_,
    ?_, ?_⟩
  · rw [BlockCheckpoint.directory_publish] at hblock
    split at hblock
    · rename_i hkey
      obtain rfl := Option.some.inj hblock
      rw [hkey, windowKey_injective hkey]
      rfl
    · exact h.stored k hk block hblock
  · rw [missing_publish hcs]
    change s.checkpoint.blocks + 1 + _ ≤ s.checkpoint.limits.blocks
    omega
  · rw [missing_publish hcs]
    change s.checkpoint.bytes + BlockCheckpoint.blockSize _ + _ ≤ s.checkpoint.limits.totalBytes
    rw [BlockCheckpoint.blockSize, BlockCheckpoint.blockFile, hlength]
    omega

include hcs hpos hmax hlength hfinite in
/-- A block is loaded or computed and saved. -/
theorem windowBlock_ready {n count : ℕ} {input : List K} (hn : n < windowCount L cs)
    (hcount : 2 * count = blockSamples L cs)
    (hinput : forward input count = blockOutput forward stereo L cs (n * (cs / 2))) :
    Triple (ReadyAt forward stereo L cs n) (windowBlock forward input count (n * (cs / 2)))
      (fun y s => y = blockOutput forward stereo L cs (n * (cs / 2)) ∧
        ReadyAt forward stereo L cs (n + 1) s) (fun _ _ => False) := by
  rw [windowBlock, hcount]
  refine triple_bind (boundary_ready n) fun _ => ?_
  refine triple_bind (load_ready hcs hpos hmax hlength hfinite hn) fun loaded => ?_
  cases loaded with
  | some y =>
    refine triple_pure fun s hs => ?_
    rcases hs with ⟨hy, hready⟩ | ⟨hy, -⟩
    · exact ⟨Option.some.inj hy, hready⟩
    · cases hy
  | none =>
    dsimp only
    rw [hinput]
    refine triple_bind (Q := fun _ => ReadyAt forward stereo L cs (n + 1)) ?_ fun _ =>
      triple_pure fun s hs => ⟨rfl, hs⟩
    refine triple_pre (P := Lacks forward stereo L cs n) ?_ fun s hs => ?_
    · refine triple_ifCheckpoint (triple_bind (triple_ofExcept_ok (b := ()) ?_) fun _ =>
        save_ready hcs hpos hmax hlength hfinite hn) fun hlacks => ?_
      · rw [require, if_pos (hlength _)]
        exact if_pos (hfinite n hn)
      · obtain ⟨t, ht, -⟩ := hlacks
        cases ht
    · rcases hs with ⟨hy, -⟩ | ⟨-, hlacks⟩
      · cases hy
      · exact hlacks

include hcs hpos hmax hlength hfinite in
/-- The loop returns what it returns without a checkpoint. -/
theorem chunkLoop_ready (hlong : cs < L) {n : ℕ} (hn : n < windowCount L cs) (completed : ℕ)
    (sums : OverlapSums K) :
    Triple (ReadyAt forward stereo L cs n)
      (chunkLoop forward stereo win L cs (n * (cs / 2)) completed sums)
      (fun last _ => last = plainLoop forward stereo win L cs (n * (cs / 2)) completed sums)
      (fun _ _ => False) := by
  induction hd : windowCount L cs - n using Nat.strongRecOn generalizing n completed sums with
  | ind d ih =>
    obtain ⟨hstart, hlast⟩ := windowCount_bounds hlong hcs hn
    have hmore : n * (cs / 2) < L ∧ 0 < cs / 2 := ⟨hstart, Nat.div_pos hcs (by decide)⟩
    have hblock : forward (chunkInput stereo L cs (n * (cs / 2))) cs =
        blockOutput forward stereo L cs (n * (cs / 2)) := (if_neg (not_le.2 hlong)).symm
    have hcount : 2 * cs = blockSamples L cs := by
      rw [blockSamples, min_eq_right hlong.le]
    rw [chunkLoop, plainLoop, dif_pos hmore, dif_pos hmore]
    refine triple_bind (windowBlock_ready hcs hpos hmax hlength hfinite hn hcount hblock)
      fun y => triple_of_fact ?_
    rintro rfl
    refine triple_bind (boundary_ready (n + 1)) fun _ => ?_
    rw [hblock]
    dsimp only
    by_cases hend : L - n * (cs / 2) ≤ cs
    · rw [if_pos hend, if_pos hend]
      exact triple_pure fun _ _ => rfl
    · have hnext : n + 1 < windowCount L cs := by
        have hne := fun heq => hend (hlast.2 heq)
        omega
      rw [if_neg hend, if_neg hend, ← Nat.succ_mul]
      exact ih (windowCount L cs - (n + 1)) (by omega) hnext _ _ rfl

include hcs hpos hmax hlength hfinite in
/-- **A session that does not fail** ends with the output without a checkpoint. -/
theorem forwardChunked_ready :
    Triple (ReadyAt forward stereo L cs 0) (forwardChunked forward stereo win L cs)
      (fun output _ => output = plainOutput forward stereo win L cs) (fun _ _ => False) := by
  rw [forwardChunked, plainOutput]
  by_cases hlong : cs < L
  · have hfirst : 0 < windowCount L cs := by
      rw [windowCount, if_neg (not_le.2 hlong)]
      exact Nat.add_pos_left Nat.one_pos _
    have hloop := @chunkLoop_ready K _ _ _ _ forward stereo L cs win hcs hpos hmax hlength hfinite
      hlong 0 hfirst 0 { out := List.replicate (2 * L) 0, wsum := List.replicate L 0 }
    rw [Nat.zero_mul] at hloop
    rw [if_neg (by omega), if_neg (not_le.2 hlong)]
    refine triple_bind hloop fun last => triple_pure ?_
    rintro s rfl
    rw [windowCount, if_neg (not_le.2 hlong)]
  · have hshort := not_lt.1 hlong
    have hfirst : 0 < windowCount L cs := by
      rw [windowCount, if_pos hshort]
      exact Nat.one_pos
    have hcount : 2 * L = blockSamples L cs := by
      rw [blockSamples, min_eq_left hshort]
    have hblock : forward stereo L = blockOutput forward stereo L cs (0 * (cs / 2)) :=
      (if_pos hshort).symm
    have hwindow := windowBlock_ready hcs hpos hmax hlength hfinite hfirst hcount hblock
    rw [Nat.zero_mul] at hwindow
    rw [if_pos (Or.inr hshort), if_pos hshort]
    refine triple_bind hwindow fun y => triple_of_fact ?_
    rintro rfl
    refine triple_bind (boundary_ready 1) fun _ => triple_pure fun s _ => ?_
    rw [blockOutput, if_pos hshort]

end Block

end Sessions

/-! ### The output -/

/-- The share of the block `k` in the sample `p`. -/
def windowShare (win : ℕ → K) (L cs k p : ℕ) : K :=
  windowWeight win L cs k p / ∑ j ∈ Finset.range (windowCount L cs), windowWeight win L cs j p

section Output

variable [IsStrictOrderedRing K] {forward : List K → ℕ → List K} {stereo : List K} {win : ℕ → K}
  {L cs : ℕ}

omit [LinearOrder K] [IsStrictOrderedRing K] in
theorem sums_empty : Sums forward stereo win L cs 0
    { out := List.replicate (2 * L) 0, wsum := List.replicate L 0 } := by
  have hzero (n p : ℕ) : (List.replicate n (0 : K)).getD p 0 = 0 := by
    rw [List.getD_eq_getElem?_getD, List.getElem?_replicate]
    split <;> rfl
  refine ⟨List.length_replicate, List.length_replicate, fun p _ => ?_, fun c _ p _ => ?_⟩
  · rw [hzero, Finset.sum_range_zero]
  · rw [hzero, Finset.sum_range_zero]

theorem sum_windowShare (hwin : Window win cs) (hcs : 2 ≤ cs) {p : ℕ} (hp : p < L) :
    ∑ k ∈ Finset.range (windowCount L cs), windowShare win L cs k p = 1 := by
  have hfloor := le_sum_windowWeight hwin hcs hp
  have hpos : (0 : K) < 1 / 10 ^ 6 := by positivity
  simp only [windowShare]
  rw [← Finset.sum_div, div_self (hpos.trans_le hfloor).ne']

omit [LinearOrder K] [IsStrictOrderedRing K] in
theorem windowShare_of_not_covered [LinearOrder K] {k p : ℕ} (hk : k < windowCount L cs)
    (hp : p < L) (h : ¬(k * (cs / 2) ≤ p ∧ p < k * (cs / 2) + cs)) :
    windowShare win L cs k p = 0 := by
  have hlong : ¬L ≤ cs := by
    intro hshort
    rw [windowCount, if_pos hshort] at hk
    obtain rfl : k = 0 := by omega
    omega
  rw [windowShare, windowWeight, if_neg hlong, if_neg h, zero_div]

/-- **The sums behind the division.** A sample of the output is the combination of the blocks by
their shares. -/
theorem getD_plainOutput (hwin : Window win cs) (hcs : 2 ≤ cs) {c p : ℕ} (hc : c < 2) (hp : p < L) :
    (plainOutput forward stereo win L cs).samples.getD (c * L + p) 0 =
      ∑ k ∈ Finset.range (windowCount L cs),
        windowShare win L cs k p * windowValue forward stereo L cs k c p := by
  have hfloor := le_sum_windowWeight hwin hcs hp
  by_cases hlong : cs < L
  · obtain ⟨last, hrun, hsums⟩ := exists_plainLoop forward stereo win hlong hcs
      (show 0 < windowCount L cs by
        rw [windowCount, if_neg (not_le.2 hlong)]
        exact Nat.add_pos_left Nat.one_pos _) sums_empty
    rw [Nat.zero_mul] at hrun
    have hlt : c * L + p < 2 * L := by
      have hle : c * L ≤ 1 * L := Nat.mul_le_mul_right L (by omega)
      omega
    have hmod : (c * L + p) % L = p := by
      rw [Nat.mul_comm, Nat.mul_add_mod, Nat.mod_eq_of_lt hp]
    rw [plainOutput, if_neg (not_le.2 hlong), hrun]
    dsimp only
    rw [normalized, List.getD_eq_getElem?_getD, List.getElem?_map, List.getElem?_range hlt]
    change last.out.getD (c * L + p) 0 / max (last.wsum.getD ((c * L + p) % L) 0) _ = _
    rw [hmod, hsums.wsum p hp, hsums.out c hc p hp, max_eq_left hfloor, Finset.sum_div]
    refine Finset.sum_congr rfl fun k _ => ?_
    rw [windowShare, mul_comm, mul_div_right_comm]
  · have hcount : windowCount L cs = 1 := if_pos (not_lt.1 hlong)
    have hshare := sum_windowShare hwin hcs hp
    rw [hcount, Finset.sum_range_one] at hshare ⊢
    rw [hshare, one_mul, plainOutput, if_pos (not_lt.1 hlong), windowValue,
      if_pos (not_lt.1 hlong)]

omit [LinearOrder K] [IsStrictOrderedRing K] in
theorem length_blockOutput [LinearOrder K] (hstereo : stereo.length = 2 * L)
    (hshape : ∀ input count, input.length = 2 * count →
      (forward input count).length = 2 * count) (offset : ℕ) :
    (blockOutput forward stereo L cs offset).length = blockSamples L cs := by
  rw [blockOutput, blockSamples]
  split
  · rw [hshape stereo L hstereo]
    omega
  · rw [hshape _ cs (length_chunkInput _ _ _ _)]
    omega

omit [LinearOrder K] [IsStrictOrderedRing K] in
theorem length_plainOutput [LinearOrder K] (hstereo : stereo.length = 2 * L)
    (hshape : ∀ input count, input.length = 2 * count →
      (forward input count).length = 2 * count) :
    (plainOutput forward stereo win L cs).samples.length = 2 * L := by
  rw [plainOutput]
  split
  · exact hshape stereo L hstereo
  · exact (List.length_map _).trans List.length_range

/-- Blocks that are passed through give the signal back. -/
theorem samples_plainOutput (hwin : Window win cs) (hcs : 2 ≤ cs) (hstereo : stereo.length = 2 * L)
    (hid : ∀ input count, input.length = 2 * count → forward input count = input) :
    (plainOutput forward stereo win L cs).samples = stereo := by
  have hlength := @length_plainOutput K _ forward stereo win L cs _ hstereo
    fun input count h => by rw [hid input count h, h]
  have hvalue (c p : ℕ) (hc : c < 2) (hp : p < L) :
      (plainOutput forward stereo win L cs).samples.getD (c * L + p) 0 =
        stereo.getD (c * L + p) 0 := by
    rw [getD_plainOutput hwin hcs hc hp]
    have hterm (k : ℕ) (hk : k ∈ Finset.range (windowCount L cs)) :
        windowShare win L cs k p * windowValue forward stereo L cs k c p =
          windowShare win L cs k p * stereo.getD (c * L + p) 0 := by
      by_cases hcover : k * (cs / 2) ≤ p ∧ p < k * (cs / 2) + cs
      · congr 1
        rw [windowValue]
        split
        · rw [hid stereo L hstereo]
        · have hinner : p - k * (cs / 2) < min cs (L - k * (cs / 2)) := by omega
          rw [hid _ _ (length_chunkInput _ _ _ _), getD_chunkInput stereo hc hinner]
          congr 1
          omega
      · rw [windowShare_of_not_covered (Finset.mem_range.1 hk) hp hcover, zero_mul, zero_mul]
    rw [Finset.sum_congr rfl hterm, ← Finset.sum_mul, sum_windowShare hwin hcs hp, one_mul]
  refine List.ext_getElem? fun q => ?_
  by_cases hq : q < 2 * L
  · have hpos : 0 < L := by omega
    have hsplit : q / L * L + q % L = q := Nat.div_add_mod' q L
    have hget := hvalue (q / L) (q % L) (Nat.div_lt_of_lt_mul (Nat.mul_comm 2 L ▸ hq))
      (Nat.mod_lt _ hpos)
    rw [hsplit, List.getD_eq_getElem?_getD, List.getD_eq_getElem?_getD,
      List.getElem?_eq_getElem (hlength ▸ hq), List.getElem?_eq_getElem (hstereo ▸ hq)] at hget
    rw [List.getElem?_eq_getElem (hlength ▸ hq), List.getElem?_eq_getElem (hstereo ▸ hq)]
    exact congrArg some hget
  · rw [List.getElem?_eq_none (by omega), List.getElem?_eq_none (by omega)]

/-- **Chunked separation is a faithful overlap-add.** The loop ends after the announced number of
blocks; every sample has more weight than the floor, so that it is the convex combination of the
blocks that cover it; blocks that are passed through give the signal back. A run over any computed
blocks of a checkpoint returns the same output if it returns, and it returns where no call fails. -/
theorem forwardChunked_spec [Sample K] [BlockDigest K] (hcs : 2 ≤ cs) (hwin : Window win cs)
    (hstereo : stereo.length = 2 * L)
    (hshape : ∀ input count, input.length = 2 * count →
      (forward input count).length = 2 * count) :
    ∃ output : ChunkedOutput K,
      exec (forwardChunked forward stereo win L cs) none = (.ok output, none) ∧
      output.announced = windowCount L cs ∧ output.completed = output.announced ∧
      output.samples.length = 2 * L ∧
      (∀ p < L,
        1 / 10 ^ 6 ≤ ∑ k ∈ Finset.range (windowCount L cs), windowWeight win L cs k p ∧
        (∀ k < windowCount L cs, 0 ≤ windowShare win L cs k p ∧
          (¬(k * (cs / 2) ≤ p ∧ p < k * (cs / 2) + cs) → windowShare win L cs k p = 0)) ∧
        ∑ k ∈ Finset.range (windowCount L cs), windowShare win L cs k p = 1 ∧
        ∀ c < 2, output.samples.getD (c * L + p) 0 = ∑ k ∈ Finset.range (windowCount L cs),
          windowShare win L cs k p * windowValue forward stereo L cs k c p) ∧
      ((∀ input count, input.length = 2 * count → forward input count = input) →
        output.samples = stereo) ∧
      (∀ session, Computed forward stereo L cs (cached session) → ∀ result session',
        exec (forwardChunked forward stereo win L cs) session = (.ok result, session') →
          result = output) ∧
      ∀ session, 0 < L → L ≤ intMax →
        (∀ k < windowCount L cs, ∀ x ∈ blockOutput forward stereo L cs (k * (cs / 2)),
          Sample.isFinite x = true) →
        Ready forward stereo L cs 0 session →
          ∃ session', exec (forwardChunked forward stereo win L cs) (some session) =
            (.ok output, session') := by
  refine ⟨plainOutput forward stereo win L cs, exec_forwardChunked_none hcs, ?_, ?_,
    length_plainOutput hstereo hshape, fun p hp => ⟨le_sum_windowWeight hwin hcs hp,
      fun k hk => ⟨?_, windowShare_of_not_covered hk hp⟩, sum_windowShare hwin hcs hp,
      fun c hc => getD_plainOutput hwin hcs hc hp⟩, samples_plainOutput hwin hcs hstereo, ?_, ?_⟩
  · rw [plainOutput, windowCount]
    split <;> rfl
  · by_cases hlong : cs < L
    · obtain ⟨last, hrun, -⟩ := exists_plainLoop forward stereo win hlong hcs
        (show 0 < windowCount L cs by
          rw [windowCount, if_neg (not_le.2 hlong)]
          exact Nat.add_pos_left Nat.one_pos _) sums_empty
      rw [Nat.zero_mul] at hrun
      rw [plainOutput, if_neg (not_le.2 hlong), hrun]
    · rw [plainOutput, if_pos (not_lt.1 hlong)]
  · exact div_nonneg (windowWeight_nonneg hwin k p)
      (Finset.sum_nonneg fun j _ => windowWeight_nonneg hwin j p)
  · intro session hsession result session' hexec
    rcases triple_elim (forwardChunked_triple hcs) hsession hexec with
      ⟨output, hok, houtput, -⟩ | ⟨e, herror, -⟩
    · rw [Except.ok.inj hok, houtput]
    · cases herror
  · intro session hpos hmax hfinite hready
    rcases hexec : exec (forwardChunked forward stereo win L cs) (some session) with
      ⟨outcome, session'⟩
    have hopen : ReadyAt forward stereo L cs 0 (some session) := hready
    rcases triple_elim (forwardChunked_ready hcs hpos hmax (length_blockOutput hstereo hshape)
      hfinite) hopen hexec with ⟨output, rfl, rfl⟩ | ⟨e, -, hfalse⟩
    · exact ⟨session', rfl⟩
    · exact hfalse.elim

end Output

/-- A checkpoint that holds the second of three blocks. -/
def secondWindow : BlockCheckpoint ℚ :=
  let empty : BlockCheckpoint ℚ :=
    { identity := "", limits := {}, directory := ∅, bytes := 0, blocks := 0, hits := 0
      healthy := true, readOnly := false }
  empty.publish (windowKey 1) (empty.blockFile (windowKey 1) 1 [2, 3, 4, 7, 8, 9])

/-- A session over it in which no call fails. -/
def secondWindowSession : Session ℚ where
  checkpoint := secondWindow
  environment := { signal := fun _ => .proceed, publication := fun _ => .committed }
  ticks := 0

theorem ready_secondWindowSession :
    Ready (fun input _ => input) [1, 2, 3, 4, 5, 6, 7, 8, 9, 10] 5 3 0 secondWindowSession := by
  have hmissing : missing 5 3 secondWindow.directory 0 ≤ 3 := List.countP_le_length
  refine ⟨rfl, rfl, fun _ => rfl, fun _ => rfl, by decide, fun k _ block hblock => ?_, ?_, ?_⟩
  · change (BlockCheckpoint.publish _ _ _).directory[_]? = _ at hblock
    rw [BlockCheckpoint.directory_publish] at hblock
    split at hblock
    · rename_i hkey
      obtain rfl := Option.some.inj hblock
      rw [← hkey, ← windowKey_injective hkey]
      rfl
    · simp at hblock
  · change 1 + missing 5 3 secondWindow.directory 0 ≤ 4096
    omega
  · change 160 + 4 * 6 + missing 5 3 secondWindow.directory 0 * (160 + 4 * 6) ≤ 2147483648
    omega

/-- Five samples of two channels in three blocks, the second of which is loaded. -/
theorem forwardChunked_spec_secondWindow : ∃ (output : ChunkedOutput ℚ) (session' : _),
    exec (forwardChunked (fun input _ => input) [1, 2, 3, 4, 5, 6, 7, 8, 9, 10]
      (fun i => if i = 0 then 0 else 1 / 2) 5 3) none = (.ok output, none) ∧
    exec (forwardChunked (fun input _ => input) [1, 2, 3, 4, 5, 6, 7, 8, 9, 10]
      (fun i => if i = 0 then 0 else 1 / 2) 5 3) (some secondWindowSession) =
        (.ok output, session') ∧
    output.completed = 3 ∧ output.samples = [1, 2, 3, 4, 5, 6, 7, 8, 9, 10] := by
  have hwin : Window (fun i => if i = 0 then (0 : ℚ) else 1 / 2) 3 := by
    refine ⟨rfl, fun i hi _ => ?_, fun i hi => ?_⟩
    · rw [if_neg hi.ne']
      norm_num
    · obtain rfl | rfl : i = 0 ∨ i = 1 := by omega
      · change (1 / 10 ^ 6 : ℚ) ≤ 0 + 1 / 2
        norm_num
      · change (1 / 10 ^ 6 : ℚ) ≤ 1 / 2 + 1 / 2
        norm_num
  obtain ⟨output, hexec, hannounced, hcompleted, -, -, hid, -, hsession⟩ :=
    @forwardChunked_spec ℚ _ _ _ (fun input _ => input) [1, 2, 3, 4, 5, 6, 7, 8, 9, 10] _ 5 3 _ _
      (by decide) hwin rfl fun _ _ h => h
  obtain ⟨session', hrun⟩ := hsession secondWindowSession (by decide) (by decide)
    (fun _ _ _ _ => rfl) ready_secondWindowSession
  exact ⟨output, session', hexec, hrun, hcompleted.trans hannounced, hid fun _ _ _ => rfl⟩

end Resonantia.Separation
