import Mathlib.Algebra.Order.Floor.Ring
import Mathlib.Data.Rat.Floor
import Mathlib.Tactic.Linarith
import Mathlib.Tactic.NormNum
import Mathlib.Tactic.SplitIfs
import Resonantia.Pipeline.FrameEnergies
import Resonantia.Pipeline.Synthesis

/-!
# The hard bound of quiet cores

Cuts are searched on frames of 160 samples, while the bound on a core counts samples. The first
frame of a query window may start up to a frame before the window, so that two cuts can lie further
apart than the bound. `ChunkRequest.CutsFit` compares, for every pair of consecutive targets, the
first frame of the earlier window with the last frame of the later one; this decides whether the
plan of every clip of that length succeeds.

## Main definitions

* `Pipeline.ChunkRequest`: an accepted chunk configuration with the length of a clip.
* `Pipeline.QuietCorePlanner.plan`: all cores of a clip.
* `Pipeline.WellPlanned`: a partition into cores within the bounds.
* `Pipeline.ChunkRequest.CutsFit`: the comparison of windows.
* `Pipeline.ChunkRequest.AlwaysPlans`: every clip of the request has a plan within the bounds.

## Main results

* `Pipeline.ChunkRequest.exists_layout`: accepted configurations have a layout.
* `Pipeline.ChunkRequest.alwaysPlans_iff_cutsFit`: the plan succeeds on all clips exactly when the
  windows fit.
-/

namespace Resonantia.Pipeline

open BinaryFloat Slices Io

/-! ### Accepted configurations -/

/-- The chunk settings of a configuration in seconds; no value stands for one that is not
finite. -/
structure ChunkConfig where
  maxChunkSec : Option ℚ
  chunkQuerySec : Option ℚ
  chunkPadSec : Option ℚ

/-- The checks of `init_in_place` on the chunk settings. -/
def ChunkConfig.Accepted (config : ChunkConfig) : Prop :=
  ∃ chunk query pad, config.maxChunkSec = some chunk ∧ config.chunkQuerySec = some query ∧
    config.chunkPadSec = some pad ∧ ¬ chunk < 1 ∧ ¬ chunk > 30 ∧ ¬ pad < 0 ∧ ¬ pad > 5 ∧
    ¬ query < 0 ∧ ¬ query > 5 ∧ ¬ query > chunk / 2

/-- An accepted configuration, the number of samples of a clip and the layout of its chunks. -/
structure ChunkRequest where
  config : ChunkConfig
  samples : ℕ
  layout : ChunkLayout
  accepted : config.Accepted
  samples_ge : ¬ samples < 2
  scaled : (checkedMul samples kOutputSampleRate).isSome
  layout_eq : chunkLayout config.maxChunkSec config.chunkQuerySec config.chunkPadSec samples =
    .ok layout

theorem secondsToSamples_eq (seconds : ℚ) (n : ℕ) (h : 0 ≤ seconds) (hn : seconds ≤ n)
    (hle : n * kInputSampleRate ≤ uint64Max) :
    secondsToSamples (some seconds) = some ⌊seconds * kInputSampleRate⌋.toNat := by
  have hlimit : ¬ seconds * kInputSampleRate > uint64Max := by
    have hle' : ((n * kInputSampleRate : ℕ) : ℚ) ≤ uint64Max := by exact_mod_cast hle
    push_cast at hle'
    have hmul : seconds * kInputSampleRate ≤ n * kInputSampleRate := by gcongr
    exact not_lt.2 (hmul.trans hle')
  simp only [secondsToSamples, if_neg (not_lt.2 h), if_neg hlimit]
  rfl

theorem secondsToSamples_bounds (seconds : ℚ) (low high : ℕ) (hlow : low ≤ seconds)
    (hhigh : seconds ≤ high) :
    low * kInputSampleRate ≤ ⌊seconds * kInputSampleRate⌋.toNat ∧
      ⌊seconds * kInputSampleRate⌋.toNat ≤ high * kInputSampleRate := by
  have hrate : (0 : ℚ) ≤ kInputSampleRate := Nat.cast_nonneg _
  have hfloor : ((low * kInputSampleRate : ℕ) : ℤ) ≤ ⌊seconds * kInputSampleRate⌋ := by
    rw [Int.le_floor]
    push_cast
    exact mul_le_mul_of_nonneg_right hlow hrate
  have hceil : ⌊seconds * kInputSampleRate⌋ ≤ ((high * kInputSampleRate : ℕ) : ℤ) := by
    have hle : seconds * kInputSampleRate ≤ ((high * kInputSampleRate : ℕ) : ℤ) := by
      push_cast
      exact mul_le_mul_of_nonneg_right hhigh hrate
    exact (Int.floor_mono hle).trans_eq (Int.floor_intCast _)
  omega

/-- The sizes behind a layout. -/
theorem chunkLayout_eq {chunk query pad : ℚ} (hchunk : 1 ≤ chunk ∧ chunk ≤ 30)
    (hquery : 0 ≤ query ∧ query ≤ 5) (hhalf : query ≤ chunk / 2) (hpad : 0 ≤ pad ∧ pad ≤ 5)
    (samples : ℕ) :
    ∃ layout : ChunkLayout,
      chunkLayout (some chunk) (some query) (some pad) samples = .ok layout ∧
      160 ≤ layout.query ∧ 2 * layout.query ≤ layout.effectiveChunk ∧
      layout.hardCore = layout.effectiveChunk + 2 * layout.query ∧
      layout.hardSegment = layout.hardCore + 2 * layout.pad + 160 ∧
      layout.hardSegment ≤ kContentMaximumSamples := by
  have hC := secondsToSamples_eq chunk 30 (by linarith) (by exact_mod_cast hchunk.2) (by decide)
  have hQ := secondsToSamples_eq query 5 hquery.1 (by exact_mod_cast hquery.2) (by decide)
  have hP := secondsToSamples_eq pad 5 hpad.1 (by exact_mod_cast hpad.2) (by decide)
  have hCbounds := secondsToSamples_bounds chunk 1 30 (by exact_mod_cast hchunk.1)
    (by exact_mod_cast hchunk.2)
  have hQbounds := secondsToSamples_bounds query 0 5 (by exact_mod_cast hquery.1)
    (by exact_mod_cast hquery.2)
  have hPbounds := secondsToSamples_bounds pad 0 5 (by exact_mod_cast hpad.1)
    (by exact_mod_cast hpad.2)
  have htwice : 2 * ⌊query * kInputSampleRate⌋.toNat ≤ ⌊chunk * kInputSampleRate⌋.toNat := by
    have hle : 2 * ⌊query * kInputSampleRate⌋ ≤ ⌊chunk * kInputSampleRate⌋ := by
      rw [Int.le_floor]
      have hfloor := Int.floor_le (query * kInputSampleRate)
      have hmul : query * kInputSampleRate ≤ chunk / 2 * kInputSampleRate :=
        mul_le_mul_of_nonneg_right hhalf (Nat.cast_nonneg _)
      push_cast
      linarith
    omega
  rw [chunkLayout, hC, hQ, hP]
  generalize ⌊chunk * kInputSampleRate⌋.toNat = C at *
  generalize ⌊query * kInputSampleRate⌋.toNat = Q at *
  generalize ⌊pad * kInputSampleRate⌋.toNat = P at *
  simp only [kInputSampleRate] at hCbounds hQbounds hPbounds
  have hhop : kPitchHop = 160 := rfl
  have hcontent : kContentMaximumSamples = 640000 := rfl
  dsimp only
  rw [checkedMul_of_lt (by omega), checkedMul_of_lt (by omega)]
  dsimp only
  rw [checkedAdd_of_lt (by omega), Option.bind_some, checkedAdd_of_lt (by omega)]
  dsimp only
  rw [if_neg (by omega), dif_neg (by omega), checkedAdd_of_lt (by omega)]
  dsimp only
  rw [checkedAdd_of_lt (by omega), Option.bind_some, checkedAdd_of_lt (by omega)]
  dsimp only
  rw [if_neg (by omega)]
  refine ⟨_, rfl, ?_, ?_, ?_, ?_, ?_⟩ <;> dsimp only <;> omega

namespace ChunkRequest

/-- Accepted configurations have a layout. -/
theorem exists_layout {config : ChunkConfig} (h : config.Accepted) (samples : ℕ) :
    ∃ layout, chunkLayout config.maxChunkSec config.chunkQuerySec config.chunkPadSec samples =
      .ok layout := by
  obtain ⟨chunk, query, pad, hchunk, hquery, hpad, h₁, h₂, h₃, h₄, h₅, h₆, h₇⟩ := h
  rw [not_lt] at *
  obtain ⟨layout, hlayout, -⟩ := chunkLayout_eq ⟨h₁, h₂⟩ ⟨h₅, h₆⟩ h₇ ⟨h₃, h₄⟩ samples
  exact ⟨layout, by rw [hchunk, hquery, hpad, hlayout]⟩

/-- What the layout of a request satisfies. -/
structure Bounds (r : ChunkRequest) : Prop where
  query_ge : 160 ≤ r.layout.query
  query_le : 2 * r.layout.query ≤ r.layout.effectiveChunk
  core_eq : r.layout.hardCore = r.layout.effectiveChunk + 2 * r.layout.query
  segment_eq : r.layout.hardSegment = r.layout.hardCore + 2 * r.layout.pad + 160
  segment_le : r.layout.hardSegment ≤ 640000
  samples_lt : r.samples < 2 ^ 49

theorem bounds (r : ChunkRequest) : r.Bounds := by
  obtain ⟨chunk, query, pad, hchunk, hquery, hpad, h₁, h₂, h₃, h₄, h₅, h₆, h₇⟩ := r.accepted
  rw [not_lt] at *
  obtain ⟨layout, hlayout, h⟩ := chunkLayout_eq ⟨h₁, h₂⟩ ⟨h₅, h₆⟩ h₇ ⟨h₃, h₄⟩ r.samples
  have heq := r.layout_eq
  rw [hchunk, hquery, hpad, hlayout] at heq
  obtain rfl := Except.ok.inj heq
  refine ⟨h.1, h.2.1, h.2.2.1, h.2.2.2.1, h.2.2.2.2, ?_⟩
  obtain ⟨scaled, hscaled⟩ := Option.isSome_iff_exists.1 r.scaled
  rw [checkedMul] at hscaled
  split_ifs at hscaled with hlimit
  have hpos := r.samples_ge
  simp only [uint64Max, kOutputSampleRate, not_and_or, not_not, not_lt] at hlimit
  rcases hlimit with hlimit | hlimit
  · omega
  · rw [Nat.le_div_iff_mul_le (by omega)] at hlimit
    omega

/-! ### One target -/

/-- The planner of a clip before the target with the given number. -/
def planner (r : ChunkRequest) (k previous : ℕ) : QuietCorePlanner where
  samples := r.samples
  chunk := r.layout.effectiveChunk
  query := r.layout.query
  hardCore := r.layout.hardCore
  previous := previous
  target := k * r.layout.effectiveChunk
  chunk_pos := r.layout.chunk_pos

/-- The first frame of the query window of a target. -/
def lowAt (r : ChunkRequest) (k : ℕ) : ℕ := (k * r.layout.effectiveChunk - r.layout.query) / 160

/-- The last frame of the query window of a target. -/
def highAt (r : ChunkRequest) (k : ℕ) : ℕ :=
  min (r.samples / 160 - 1) ((k * r.layout.effectiveChunk + r.layout.query) / 160)

theorem le_mul_chunk (r : ChunkRequest) {k : ℕ} (hk : 1 ≤ k) :
    r.layout.effectiveChunk ≤ k * r.layout.effectiveChunk :=
  Nat.le_mul_of_pos_left _ hk

theorem lowFrame_planner (r : ChunkRequest) {k : ℕ} (hk : 1 ≤ k) (previous : ℕ) :
    (r.planner k previous).lowFrame = r.lowAt k := by
  have hbounds := r.bounds
  have hquery := hbounds.query_ge
  have htwice := hbounds.query_le
  have hchunk := r.le_mul_chunk hk
  have htarget : (r.planner k previous).target > (r.planner k previous).query :=
    show r.layout.query < k * r.layout.effectiveChunk by omega
  rw [QuietCorePlanner.lowFrame, if_pos htarget]
  change max 1 (k * r.layout.effectiveChunk - r.layout.query) / 160 = _
  rw [max_eq_right (by omega)]
  rfl

theorem highFrame_planner (r : ChunkRequest) {k : ℕ} (hlt : k * r.layout.effectiveChunk < r.samples)
    (previous : ℕ) : (r.planner k previous).highFrame = r.highAt k := by
  have hbounds := r.bounds
  have hsamples := hbounds.samples_lt
  have hsegment := hbounds.segment_le
  rw [hbounds.segment_eq, hbounds.core_eq] at hsegment
  simp only [QuietCorePlanner.highFrame, planner, highAt, kPitchHop]
  rw [u64_of_lt (by omega)]
  omega

section Samples

variable {α : Type} [Sample α] [FrameEnergy α]

/-- The quietest frame of the query window of a target, in samples. -/
def cut (r : ChunkRequest) (source : RawFloatSpool α) (k : ℕ) : ℕ :=
  QuietCorePlanner.bestFrame (slice source.samples (r.lowAt k * 160) ((r.highAt k + 1) * 160))
    (r.lowAt k) (r.highAt k - r.lowAt k + 1) * 160

omit [Sample α] in
theorem bestFrame_bounds (audio : List α) (lowFrame : ℕ) {frameCount : ℕ} (h : 0 < frameCount) :
    lowFrame ≤ QuietCorePlanner.bestFrame audio lowFrame frameCount ∧
      QuietCorePlanner.bestFrame audio lowFrame frameCount < lowFrame + frameCount := by
  have hfold : ∀ (frames : List ℕ) (best : ℕ × FrameEnergy.Energy α),
      (∀ frame ∈ frames, frame < frameCount) → lowFrame ≤ best.1 ∧ best.1 < lowFrame + frameCount →
      let best' := frames.foldl (fun (best : ℕ × FrameEnergy.Energy α) frame =>
        let base := frame * kPitchHop
        let energy := FrameEnergy.frameEnergy (slice audio base (base + kPitchHop))
        if FrameEnergy.less energy best.2 then (lowFrame + frame, energy) else best) best
      lowFrame ≤ best'.1 ∧ best'.1 < lowFrame + frameCount := by
    intro frames
    induction frames with
    | nil => exact fun _ _ h => h
    | cons frame frames ih =>
      intro best hframes hbest
      rw [List.foldl_cons]
      refine ih _ (fun frame hframe => hframes frame (List.mem_cons_of_mem _ hframe)) ?_
      dsimp only
      split_ifs
      · have hframe := hframes frame List.mem_cons_self
        dsimp only
        omega
      · exact hbest
  exact hfold (List.range frameCount) (lowFrame, FrameEnergy.maximum)
    (fun frame hframe => List.mem_range.1 hframe) ⟨le_rfl, by omega⟩

theorem cut_bounds (r : ChunkRequest) (source : RawFloatSpool α) {k : ℕ}
    (h : r.lowAt k ≤ r.highAt k) :
    r.lowAt k * 160 ≤ r.cut source k ∧ r.cut source k ≤ r.highAt k * 160 := by
  obtain ⟨hlow, hhigh⟩ := bestFrame_bounds
    (slice source.samples (r.lowAt k * 160) ((r.highAt k + 1) * 160)) (r.lowAt k)
    (Nat.add_one_pos (r.highAt k - r.lowAt k))
  exact ⟨Nat.mul_le_mul_right _ hlow, Nat.mul_le_mul_right _ (by omega)⟩

/-- Cuts lie inside the clip. -/
theorem highAt_lt (r : ChunkRequest) {k : ℕ} (hk : 1 ≤ k)
    (hlt : k * r.layout.effectiveChunk < r.samples) : r.highAt k * 160 + 160 ≤ r.samples := by
  have hbounds := r.bounds
  have hquery := hbounds.query_ge
  have htwice := hbounds.query_le
  have hchunk := r.le_mul_chunk hk
  simp only [highAt]
  omega

/-- The planner at a target before the end of the clip. -/
theorem advance_planner (r : ChunkRequest) {source : RawFloatSpool α}
    (hsource : source.sampleCount = r.samples) {k : ℕ} (hk : 1 ≤ k)
    (hlt : k * r.layout.effectiveChunk < r.samples) (previous : ℕ) :
    (r.planner k previous).advance source =
      if r.lowAt k > r.highAt k then (r.planner (k + 1) previous).advance source
      else if r.cut source k ≤ previous then (r.planner (k + 1) previous).advance source
      else if r.cut source k - previous > r.layout.hardCore then
        .error "quiet planner exceeded the core hard bound"
      else .ok ((previous, r.cut source k), r.planner (k + 1) (r.cut source k)) := by
  have hbounds := r.bounds
  have hsamples := hbounds.samples_lt
  have hsegment := hbounds.segment_le
  rw [hbounds.segment_eq, hbounds.core_eq] at hsegment
  have hquery := hbounds.query_ge
  have htwice := hbounds.query_le
  have hchunk := r.le_mul_chunk hk
  have hframes : ¬ (r.planner k previous).samples / kPitchHop = 0 :=
    show ¬ r.samples / 160 = 0 by omega
  have hnext : checkedAdd (k * r.layout.effectiveChunk) r.layout.effectiveChunk =
      some ((k + 1) * r.layout.effectiveChunk) := by
    rw [checkedAdd_of_lt (by omega), Nat.succ_mul]
  rw [QuietCorePlanner.advance.eq_def]
  rw [dif_pos (show (r.planner k previous).target < (r.planner k previous).samples from hlt),
    if_neg hframes]
  split
  · rename_i hnone
    cases hnext.symm.trans hnone
  · rename_i nextTarget hsome
    obtain rfl := Option.some.inj (hnext.symm.trans hsome)
    rw [r.lowFrame_planner hk, r.highFrame_planner hlt]
    dsimp only
    by_cases hempty : r.lowAt k > r.highAt k
    · rw [if_pos hempty, if_pos hempty]
      rfl
    · have hhigh := r.highAt_lt hk hlt
      have hcount : r.lowAt k * kPitchHop + (r.highAt k - r.lowAt k + 1) * kPitchHop =
          (r.highAt k + 1) * 160 := by
        simp only [kPitchHop]
        omega
      have hread : source.read (r.lowAt k * kPitchHop)
          ((r.highAt k - r.lowAt k + 1) * kPitchHop) =
            some (slice source.samples (r.lowAt k * 160) ((r.highAt k + 1) * 160)) := by
        have hlength : source.samples.length = r.samples := hsource
        rw [RawSampleSpool.read_of_le (by rw [hcount, hlength]; omega), hcount]
        rfl
      have hcut := r.cut_bounds source (not_lt.1 hempty)
      rw [if_neg hempty, if_neg hempty, narrowSize_of_lt (by omega)]
      dsimp only
      rw [hread]
      dsimp only
      have hskip : (r.cut source k ≤ previous ∨ r.cut source k ≥ r.samples) ↔
          r.cut source k ≤ previous := by omega
      change (if r.cut source k ≤ previous ∨ r.cut source k ≥ r.samples then _ else _) = _
      rw [if_congr hskip rfl rfl]
      rfl

/-- The planner behind the last target. -/
theorem advance_planner_last (r : ChunkRequest) (source : RawFloatSpool α) {k : ℕ}
    (hle : r.samples ≤ k * r.layout.effectiveChunk) (previous : ℕ) :
    (r.planner k previous).advance source =
      if r.samples - previous > r.layout.hardCore then
        .error "quiet planner final core exceeded the hard bound"
      else .ok ((previous, r.samples), r.planner k r.samples) := by
  have htarget : ¬ (r.planner k previous).target < (r.planner k previous).samples :=
    not_lt.2 hle
  rw [QuietCorePlanner.advance.eq_def, dif_neg htarget]
  rfl

end Samples

end ChunkRequest

/-! ### The plan of a clip -/

section Plan

variable {α : Type} [Sample α] [FrameEnergy α]

/-- All cores of a clip: the loop of `convert_file_bounded`, without the synthesis. -/
def QuietCorePlanner.plan (source : RawFloatSpool α) (p : QuietCorePlanner) :
    Except String (List (ℕ × ℕ)) :=
  match _hnext : p.next source with
  | .error message => .error message
  | .ok none => .ok []
  | .ok (some (core, p')) => (p'.plan source).map (core :: ·)
termination_by p.samples - p.previous
decreasing_by
  obtain ⟨start, stop⟩ := core
  have hnext := QuietCorePlanner.next_spec _hnext
  omega

/-- Consecutive cores that are not empty. -/
inductive Partitions : ℕ → List (ℕ × ℕ) → ℕ → Prop
  | nil (n : ℕ) : Partitions n [] n
  | cons {start stop n : ℕ} {rest : List (ℕ × ℕ)} :
      start < stop → Partitions stop rest n → Partitions start ((start, stop) :: rest) n

/-- Cores that make up a clip, none of them over its bound, and no segment over its own. -/
structure WellPlanned (r : ChunkRequest) (cores : List (ℕ × ℕ)) : Prop where
  partition : Partitions 0 cores r.samples
  core_le : ∀ core ∈ cores, core.2 - core.1 ≤ r.layout.hardCore
  segment_le : ∀ core ∈ cores, ∃ stop, segmentEnd r.samples r.layout.pad core.2 = some stop ∧
    core.1 < stop ∧ stop - core.1 ≤ r.layout.hardSegment ∧ stop - core.1 ≤ kContentMaximumSamples

/-- The plan for the clip of a request. -/
def ChunkRequest.plan (r : ChunkRequest) (source : RawFloatSpool α) :
    Except String (List (ℕ × ℕ)) :=
  (QuietCorePlanner.create r.samples r.layout.effectiveChunk r.layout.query r.layout.hardCore
    r.layout.chunk_pos).plan source

theorem Partitions.le {start n : ℕ} {cores : List (ℕ × ℕ)} (h : Partitions start cores n) :
    start ≤ n := by
  induction h with
  | nil n => exact le_rfl
  | cons hlt _ ih => exact hlt.le.trans ih

theorem Partitions.bounds {start n : ℕ} {cores : List (ℕ × ℕ)} (h : Partitions start cores n) :
    ∀ core ∈ cores, core.1 < core.2 ∧ core.2 ≤ n := by
  induction h with
  | nil n => exact fun core hcore => nomatch hcore
  | cons hlt hrest ih =>
    intro core hcore
    rcases List.mem_cons.1 hcore with rfl | hcore
    · exact ⟨hlt, hrest.le⟩
    · exact ih core hcore

end Plan

namespace ChunkRequest

/-- Every last frame of a query window lies within the bound behind the first frame of the window
before. -/
def CutsFit (r : ChunkRequest) : Prop :=
  ∀ k, 1 ≤ k → (k + 1) * r.layout.effectiveChunk < r.samples →
    min (r.samples / 160 - 1) (((k + 1) * r.layout.effectiveChunk + r.layout.query) / 160) * 160 ≤
      (k * r.layout.effectiveChunk - r.layout.query) / 160 * 160 +
        (r.layout.effectiveChunk + 2 * r.layout.query)

/-- Bounds that are whole frames always fit. -/
theorem cutsFit_of_dvd (r : ChunkRequest)
    (h : 160 ∣ r.layout.effectiveChunk + 2 * r.layout.query) : r.CutsFit := by
  intro k hk hlt
  have hbounds := r.bounds
  have hquery := hbounds.query_ge
  have htwice := hbounds.query_le
  have hchunk := r.le_mul_chunk hk
  rw [Nat.succ_mul] at *
  omega

/-! ### Requests whose windows fit -/

/-- What is known before a target: the last cut lies behind the window of the target before, or that
window was empty and the rest of the clip is one core. -/
def Ready (r : ChunkRequest) (k previous : ℕ) : Prop :=
  (k = 0 ∧ previous = 0) ∨ (1 ≤ k ∧ r.lowAt k * 160 ≤ previous) ∨
    (1 ≤ k ∧ r.samples / 160 ≤ r.lowAt k ∧ r.samples - previous ≤ r.layout.hardCore)

section Samples

variable {α : Type} [Sample α] [FrameEnergy α]

/-- The next core, with the planner behind it. -/
theorem CutsFit.advance {r : ChunkRequest} (h : r.CutsFit) {source : RawFloatSpool α}
    (hsource : source.sampleCount = r.samples) {k previous : ℕ} (hready : r.Ready k previous) :
    ∃ stop k', (r.planner (k + 1) previous).advance source =
        .ok ((previous, stop), r.planner (k' + 1) stop) ∧
      stop - previous ≤ r.layout.hardCore ∧ (stop = r.samples ∨ r.Ready k' stop) := by
  have hbounds := r.bounds
  have hquery := hbounds.query_ge
  have htwice := hbounds.query_le
  have hcore := hbounds.core_eq
  have hpos := r.layout.chunk_pos
  induction hd : r.samples - k * r.layout.effectiveChunk using Nat.strong_induction_on
    generalizing k previous with
  | _ d ih =>
    have hsucc : (k + 1) * r.layout.effectiveChunk =
        k * r.layout.effectiveChunk + r.layout.effectiveChunk := Nat.succ_mul _ _
    by_cases hlt : (k + 1) * r.layout.effectiveChunk < r.samples
    · have hskip : r.Ready (k + 1) previous →
          ∃ stop k', (r.planner (k + 1 + 1) previous).advance source =
            .ok ((previous, stop), r.planner (k' + 1) stop) ∧
          stop - previous ≤ r.layout.hardCore ∧ (stop = r.samples ∨ r.Ready k' stop) :=
        fun hready' => ih _ (by omega) hready' rfl
      have hzero : k = 0 → k * r.layout.effectiveChunk = 0 := fun hk => by rw [hk, Nat.zero_mul]
      have hone : 1 ≤ k → r.layout.effectiveChunk ≤ k * r.layout.effectiveChunk := r.le_mul_chunk
      rw [r.advance_planner hsource (Nat.le_add_left 1 k) hlt]
      split_ifs with hempty hback hover
      · -- an empty window: no target behind it has another
        refine hskip (Or.inr (Or.inr ⟨Nat.le_add_left 1 k, ?_, ?_⟩))
        · simp only [lowAt, highAt] at hempty ⊢
          omega
        · simp only [Ready, lowAt, highAt] at hready hempty
          omega
      · exact hskip (Or.inr (Or.inl ⟨Nat.le_add_left 1 k, (r.cut_bounds source
          (not_lt.1 hempty)).1.trans hback⟩))
      · -- a cut over the bound: the windows do not fit
        exfalso
        have hcut := r.cut_bounds source (not_lt.1 hempty)
        rcases hready with ⟨hk, hprevious⟩ | ⟨hk, hprevious⟩ | ⟨hk, hlow, -⟩
        · simp only [highAt] at hcut
          omega
        · have hfit := h k hk hlt
          simp only [lowAt, highAt] at hcut hprevious
          omega
        · simp only [lowAt, highAt] at hempty hlow
          omega
      · refine ⟨_, k + 1, rfl, by omega, Or.inr (Or.inr (Or.inl ⟨Nat.le_add_left 1 k, ?_⟩))⟩
        exact (r.cut_bounds source (not_lt.1 hempty)).1
    · have hlast : ¬ r.samples - previous > r.layout.hardCore := by
        have hzero : k = 0 → k * r.layout.effectiveChunk = 0 := fun hk => by rw [hk, Nat.zero_mul]
        have hone : 1 ≤ k → r.layout.effectiveChunk ≤ k * r.layout.effectiveChunk :=
          r.le_mul_chunk
        simp only [Ready, lowAt] at hready
        omega
      rw [r.advance_planner_last source (not_lt.1 hlt), if_neg hlast]
      exact ⟨r.samples, k, rfl, by omega, Or.inl rfl⟩

/-- All cores from a cut on. -/
theorem CutsFit.plan {r : ChunkRequest} (h : r.CutsFit) {source : RawFloatSpool α}
    (hsource : source.sampleCount = r.samples) {k previous : ℕ}
    (hready : previous = r.samples ∨ r.Ready k previous) :
    ∃ cores, (r.planner (k + 1) previous).plan source = .ok cores ∧
      (previous ≤ r.samples → Partitions previous cores r.samples) ∧
      ∀ core ∈ cores, core.2 - core.1 ≤ r.layout.hardCore := by
  induction hd : r.samples - previous using Nat.strong_induction_on generalizing k previous with
  | _ d ih =>
    by_cases hend : r.samples ≤ previous
    · have hnext : (r.planner (k + 1) previous).next source = .ok none := if_pos hend
      refine ⟨[], ?_, fun hle => ?_, fun core hcore => nomatch hcore⟩
      · rw [QuietCorePlanner.plan]
        split
        · rename_i herror
          rw [hnext] at herror
          cases herror
        · rfl
        · rename_i hsome
          rw [hnext] at hsome
          cases hsome
      · rw [le_antisymm hle hend]
        exact Partitions.nil _
    · obtain ⟨stop, k', hadvance, hle, hready'⟩ :=
        h.advance hsource (hready.resolve_left fun heq => hend heq.ge)
      have hspec := QuietCorePlanner.advance_spec (p := r.planner (k + 1) previous)
        (not_le.1 hend) hadvance
      have hnext : (r.planner (k + 1) previous).next source =
          .ok (some ((previous, stop), r.planner (k' + 1) stop)) := by
        rw [QuietCorePlanner.next, hadvance]
        exact if_neg hend
      obtain ⟨cores, hcores, hpartition, hbound⟩ := ih (r.samples - stop) (by omega) hready' rfl
      refine ⟨(previous, stop) :: cores, ?_, fun _ => ?_, fun core hcore => ?_⟩
      · rw [QuietCorePlanner.plan]
        split
        · rename_i herror
          rw [hnext] at herror
          cases herror
        · rename_i hnone
          rw [hnext] at hnone
          cases hnone
        · rename_i hsome
          rw [hnext] at hsome
          cases hsome
          rw [hcores]
          rfl
      · exact Partitions.cons hspec.2.2.1 (hpartition hspec.2.2.2.1)
      · rcases List.mem_cons.1 hcore with rfl | hcore
        · exact hle
        · exact hbound core hcore

/-- A segment stays within its bound where its core does. -/
theorem segment_le (r : ChunkRequest) {start stop : ℕ} (hlt : start < stop)
    (hle : stop ≤ r.samples) (hcore : stop - start ≤ r.layout.hardCore) :
    ∃ last, segmentEnd r.samples r.layout.pad stop = some last ∧ start < last ∧
      last - start ≤ r.layout.hardSegment ∧ last - start ≤ kContentMaximumSamples := by
  have hbounds := r.bounds
  have hsegment := hbounds.segment_eq
  have hcontent := hbounds.segment_le
  have hsamples := hbounds.samples_lt
  have hmaximum : kContentMaximumSamples = 640000 := rfl
  have hhop : kPitchHop = 160 := rfl
  rw [segmentEnd, u64_of_lt (by omega)]
  rw [checkedAdd_of_lt (by omega), checkedAdd_of_lt (by omega)]
  simp only [Option.bind_eq_bind, Option.bind_some]
  rw [checkedAdd_of_lt (by omega), Option.bind_some]
  exact ⟨_, rfl, by omega, by omega, by omega⟩

/-- The plan of every clip succeeds where the windows fit. -/
theorem CutsFit.wellPlanned {r : ChunkRequest} (h : r.CutsFit) {source : RawFloatSpool α}
    (hsource : source.sampleCount = r.samples) :
    ∃ cores, r.plan source = .ok cores ∧ WellPlanned r cores := by
  obtain ⟨cores, hcores, hpartition, hbound⟩ := h.plan hsource (Or.inr (Or.inl ⟨rfl, rfl⟩))
  have hcreate : QuietCorePlanner.create r.samples r.layout.effectiveChunk r.layout.query
      r.layout.hardCore r.layout.chunk_pos = r.planner (0 + 1) 0 := by
    simp only [QuietCorePlanner.create, planner, Nat.zero_add, Nat.one_mul]
  refine ⟨cores, by rw [ChunkRequest.plan, hcreate, hcores], hpartition (Nat.zero_le _), hbound,
    fun core hcore => ?_⟩
  obtain ⟨hlt, hle⟩ := (hpartition (Nat.zero_le _)).bounds core hcore
  exact r.segment_le hlt hle (hbound core hcore)

end Samples

/-! ### Requests whose windows do not fit -/

section Scan

variable {α : Type} [FrameEnergy α]

/-- The energy of a frame of a query window. -/
def energyAt (audio : List α) (frame : ℕ) : FrameEnergy.Energy α :=
  FrameEnergy.frameEnergy (slice audio (frame * kPitchHop) (frame * kPitchHop + kPitchHop))

/-- The scan keeps the first frame if it has less energy than the start value and no other frame has
less. -/
theorem bestFrame_first (audio : List α) (lowFrame frameCount : ℕ)
    (hmaximum : FrameEnergy.less (energyAt audio 0) FrameEnergy.maximum = true)
    (hfirst : ∀ frame ≤ frameCount,
      FrameEnergy.less (energyAt audio frame) (energyAt audio 0) = false) :
    QuietCorePlanner.bestFrame audio lowFrame (frameCount + 1) = lowFrame := by
  have hfold : ∀ frames : List ℕ, (∀ frame ∈ frames, frame ≤ frameCount) →
      frames.foldl (fun (best : ℕ × FrameEnergy.Energy α) frame =>
        if FrameEnergy.less (energyAt audio frame) best.2 then
          (lowFrame + frame, energyAt audio frame) else best) (lowFrame, energyAt audio 0) =
        (lowFrame, energyAt audio 0) := by
    intro frames
    induction frames with
    | nil => exact fun _ => rfl
    | cons frame frames ih =>
      intro hframes
      rw [List.foldl_cons, if_neg (by simp [hfirst frame (hframes frame List.mem_cons_self)])]
      exact ih fun frame hframe => hframes frame (List.mem_cons_of_mem _ hframe)
  have hrest := hfold ((List.range frameCount).map Nat.succ) fun frame hframe => by
    obtain ⟨frame', hframe', rfl⟩ := List.mem_map.1 hframe
    exact List.mem_range.1 hframe'
  rw [QuietCorePlanner.bestFrame, List.range_succ_eq_map, List.foldl_cons]
  change (List.foldl _ (if FrameEnergy.less (energyAt audio 0) FrameEnergy.maximum then
    (lowFrame + 0, energyAt audio 0) else (lowFrame, FrameEnergy.maximum)) _).1 = _
  rw [if_pos hmaximum]
  exact congrArg Prod.fst hrest

/-- The scan ends at the last frame if it has less energy than the start value and all others. -/
theorem bestFrame_last (audio : List α) (lowFrame frameCount : ℕ)
    (hmaximum : FrameEnergy.less (energyAt audio frameCount) FrameEnergy.maximum = true)
    (hlast : ∀ frame < frameCount,
      FrameEnergy.less (energyAt audio frameCount) (energyAt audio frame) = true) :
    QuietCorePlanner.bestFrame audio lowFrame (frameCount + 1) = lowFrame + frameCount := by
  have hfold : ∀ (frames : List ℕ) (best : ℕ × FrameEnergy.Energy α),
      (∀ frame ∈ frames, frame < frameCount) →
      FrameEnergy.less (energyAt audio frameCount) best.2 = true →
      FrameEnergy.less (energyAt audio frameCount)
        (frames.foldl (fun (best : ℕ × FrameEnergy.Energy α) frame =>
          if FrameEnergy.less (energyAt audio frame) best.2 then
            (lowFrame + frame, energyAt audio frame) else best) best).2 = true := by
    intro frames
    induction frames with
    | nil => exact fun _ _ h => h
    | cons frame frames ih =>
      intro best hframes hbest
      rw [List.foldl_cons]
      refine ih _ (fun frame hframe => hframes frame (List.mem_cons_of_mem _ hframe)) ?_
      split_ifs
      · exact hlast frame (hframes frame List.mem_cons_self)
      · exact hbest
  have hrest := hfold (List.range frameCount) (lowFrame, FrameEnergy.maximum)
    (fun frame hframe => List.mem_range.1 hframe) hmaximum
  rw [QuietCorePlanner.bestFrame, List.range_succ, List.foldl_append]
  exact congrArg Prod.fst (if_pos hrest)

end Scan

section Loud

attribute [local irreducible] lowAt highAt

/-- Silence but for the frames before the last one of a query window. -/
def loudSource (r : ChunkRequest) (k : ℕ) : RawFloatSpool Single where
  samples := (List.range r.samples).map fun i =>
    level (decide (r.lowAt k ≤ i / 160 ∧ i / 160 < r.highAt k))
  finite _ _ := rfl
  bounded := by
    have hsamples := r.bounds.samples_lt
    rw [List.length_map, List.length_range, offMax]
    omega

theorem slice_loudSource (r : ChunkRequest) (k : ℕ) {frame : ℕ}
    (hframe : frame * 160 + 160 ≤ r.samples) :
    slice (r.loudSource k).samples (frame * 160) (frame * 160 + 160) =
      List.replicate 160 (level (decide (r.lowAt k ≤ frame ∧ frame < r.highAt k))) := by
  refine (eq_slice_of_getElem? (by simp) fun i hi => ?_).symm
  have hi' : i < 160 := by omega
  have hdiv : (frame * 160 + i) / 160 = frame := by omega
  rw [List.getElem?_replicate, if_pos hi', loudSource, List.getElem?_map,
    List.getElem?_range (by omega), Option.map_some, hdiv]

/-- The energies of the frames of a window. -/
theorem energyAt_loudSource (r : ChunkRequest) (k : ℕ) {j : ℕ} (frame : ℕ) (hj : 1 ≤ j)
    (hlt : j * r.layout.effectiveChunk < r.samples) (hframe : r.lowAt j + frame ≤ r.highAt j) :
    energyAt (slice (r.loudSource k).samples (r.lowAt j * 160) ((r.highAt j + 1) * 160)) frame =
      FrameEnergy.frameEnergy (List.replicate 160
        (level (decide (r.lowAt k ≤ r.lowAt j + frame ∧ r.lowAt j + frame < r.highAt k)))) := by
  have hinside : r.lowAt j * 160 + (frame * 160 + 160) ≤ (r.highAt j + 1) * 160 := by omega
  have hend : (r.lowAt j + frame) * 160 + 160 ≤ r.samples :=
    (Nat.add_le_add_right (Nat.mul_le_mul_right 160 hframe) 160).trans (r.highAt_lt hj hlt)
  rw [energyAt, show kPitchHop = 160 from rfl, slice_slice _ _ _ hinside]
  have hstart : r.lowAt j * 160 + frame * 160 = (r.lowAt j + frame) * 160 := by omega
  rw [← Nat.add_assoc, hstart, r.slice_loudSource k hend]

/-- Before the loud window, the planner cuts at the first frame of every window. -/
theorem cut_loudSource_of_lt (r : ChunkRequest) {j k : ℕ} (hj : 1 ≤ j)
    (hlt : j * r.layout.effectiveChunk < r.samples) (hlow : r.lowAt j < r.lowAt k)
    (hle : r.lowAt j ≤ r.highAt j) : r.cut (r.loudSource k) j = r.lowAt j * 160 := by
  have hfirst := r.energyAt_loudSource k 0 hj hlt hle
  rw [cut, bestFrame_first]
  · rw [hfirst, Nat.add_zero, decide_eq_false (by omega)]
    exact less_maximum (by norm_num)
  · intro frame hframe
    rw [hfirst, r.energyAt_loudSource k frame hj hlt (by omega), Nat.add_zero,
      less_frameEnergy_replicate _ _ (by norm_num) (by norm_num)]
    rw [decide_eq_false (show ¬ (r.lowAt k ≤ r.lowAt j ∧ r.lowAt j < r.highAt k) by omega),
      Bool.and_false]

/-- In the loud window, the planner cuts at the last frame. -/
theorem cut_loudSource (r : ChunkRequest) {k : ℕ} (hk : 1 ≤ k)
    (hlt : k * r.layout.effectiveChunk < r.samples) (hle : r.lowAt k ≤ r.highAt k) :
    r.cut (r.loudSource k) k = r.highAt k * 160 := by
  have hend : r.lowAt k + (r.highAt k - r.lowAt k) = r.highAt k := by omega
  have hlast := r.energyAt_loudSource k (r.highAt k - r.lowAt k) hk hlt hend.le
  rw [hend, decide_eq_false (show ¬ (r.lowAt k ≤ r.highAt k ∧ r.highAt k < r.highAt k) by omega)]
    at hlast
  rw [cut, bestFrame_last, hend]
  · rw [hlast]
    exact less_maximum (by norm_num)
  · intro frame hframe
    rw [hlast, r.energyAt_loudSource k frame hk hlt (by omega),
      less_frameEnergy_replicate _ _ (by norm_num) (by norm_num)]
    rw [decide_eq_true (show r.lowAt k ≤ r.lowAt k + frame ∧ r.lowAt k + frame < r.highAt k by
      omega)]
    rfl

end Loud

theorem lowAt_lt (r : ChunkRequest) {i j : ℕ} (hi : 1 ≤ i) (hij : i < j) : r.lowAt i < r.lowAt j := by
  have hbounds := r.bounds
  have hquery := hbounds.query_ge
  have htwice := hbounds.query_le
  have hmul : (i + 1) * r.layout.effectiveChunk ≤ j * r.layout.effectiveChunk :=
    Nat.mul_le_mul_right _ hij
  have hchunk := r.le_mul_chunk hi
  rw [Nat.succ_mul] at hmul
  simp only [lowAt]
  omega

/-- The last cut before a target in the clip that is loud in a later window. -/
def lastCut (r : ChunkRequest) (k : ℕ) : ℕ := if k = 0 then 0 else r.lowAt k * 160

theorem lastCut_le (r : ChunkRequest) (k : ℕ) :
    r.lastCut k ≤ k * r.layout.effectiveChunk - r.layout.query := by
  rw [lastCut]
  split_ifs
  · exact Nat.zero_le _
  · rw [lowAt]
    omega

/-- The cuts before the loud window. -/
theorem advance_loudSource_of_lt (r : ChunkRequest) {j k : ℕ} (hjk : j < k)
    (hlt : (k + 1) * r.layout.effectiveChunk < r.samples) :
    (r.planner (j + 1) (r.lastCut j)).advance (r.loudSource (k + 1)) =
      .ok ((r.lastCut j, r.lastCut (j + 1)), r.planner (j + 1 + 1) (r.lastCut (j + 1))) := by
  have hbounds := r.bounds
  have hquery := hbounds.query_ge
  have htwice := hbounds.query_le
  have hcore := hbounds.core_eq
  have hj : 1 ≤ j + 1 := Nat.le_add_left 1 j
  have hlow : r.lowAt (j + 1) < r.lowAt (k + 1) := r.lowAt_lt hj (by omega)
  have hmul : (j + 1) * r.layout.effectiveChunk ≤ (k + 1) * r.layout.effectiveChunk :=
    Nat.mul_le_mul_right _ (by omega)
  have hle : r.lowAt (j + 1) ≤ r.highAt (j + 1) := by
    simp only [lowAt, highAt] at hlow ⊢
    omega
  have hlt' := hmul.trans_lt hlt
  have hsource : (r.loudSource (k + 1)).sampleCount = r.samples := by
    simp [loudSource, RawSampleSpool.sampleCount]
  have hnext : r.lastCut (j + 1) = r.lowAt (j + 1) * 160 := if_neg (Nat.succ_ne_zero j)
  have hsucc : (j + 1) * r.layout.effectiveChunk =
      j * r.layout.effectiveChunk + r.layout.effectiveChunk := Nat.succ_mul _ _
  have hbefore : r.lastCut j < r.lastCut (j + 1) ∧
      r.lastCut (j + 1) ≤ r.lastCut j + r.layout.hardCore := by
    rw [hnext, lastCut]
    split_ifs with hzero
    · subst hzero
      simp only [lowAt]
      omega
    · have hmono := r.lowAt_lt (Nat.one_le_iff_ne_zero.2 hzero) (Nat.lt_succ_self j)
      simp only [lowAt] at hmono ⊢
      omega
  rw [r.advance_planner hsource hj hlt', if_neg (not_lt.2 hle),
    r.cut_loudSource_of_lt hj hlt' hlow hle, ← hnext, if_neg (not_le.2 hbefore.1),
    if_neg (by omega)]

/-- The planner stops at the loud window. -/
theorem advance_loudSource (r : ChunkRequest) {k : ℕ} (hk : 1 ≤ k)
    (hlt : (k + 1) * r.layout.effectiveChunk < r.samples)
    (hwindow : r.lowAt (k + 1) ≤ r.highAt (k + 1))
    (hover : r.lowAt k * 160 + r.layout.hardCore < r.highAt (k + 1) * 160) :
    (r.planner (k + 1) (r.lastCut k)).advance (r.loudSource (k + 1)) =
      .error "quiet planner exceeded the core hard bound" := by
  have hsource : (r.loudSource (k + 1)).sampleCount = r.samples := by
    simp [loudSource, RawSampleSpool.sampleCount]
  have hcut : r.lastCut k = r.lowAt k * 160 := if_neg (by omega)
  rw [r.advance_planner hsource (Nat.le_add_left 1 k) hlt, if_neg (not_lt.2 hwindow),
    r.cut_loudSource (Nat.le_add_left 1 k) hlt hwindow, hcut, if_neg (by omega),
    if_pos (by omega)]

theorem plan_of_advance_error {α : Type} [Sample α] [FrameEnergy α] {source : RawFloatSpool α}
    {p : QuietCorePlanner} {message : String} (hlt : p.previous < p.samples)
    (h : p.advance source = .error message) : p.plan source = .error message := by
  have hnext : p.next source = .error message := by
    rw [QuietCorePlanner.next, h]
    exact if_neg (not_le.2 hlt)
  rw [QuietCorePlanner.plan]
  split
  · rename_i herror
    rw [hnext] at herror
    cases herror
    rfl
  · rename_i hnone
    rw [hnext] at hnone
    cases hnone
  · rename_i hsome
    rw [hnext] at hsome
    cases hsome

theorem plan_of_advance_ok {α : Type} [Sample α] [FrameEnergy α] {source : RawFloatSpool α}
    {p p' : QuietCorePlanner} {core : ℕ × ℕ} (hlt : p.previous < p.samples)
    (h : p.advance source = .ok (core, p')) :
    p.plan source = (p'.plan source).map (core :: ·) := by
  have hnext : p.next source = .ok (some (core, p')) := by
    rw [QuietCorePlanner.next, h]
    exact if_neg (not_le.2 hlt)
  rw [QuietCorePlanner.plan]
  split
  · rename_i herror
    rw [hnext] at herror
    cases herror
  · rename_i hnone
    rw [hnext] at hnone
    cases hnone
  · rename_i hsome
    rw [hnext] at hsome
    cases hsome
    rfl

/-- The plan of the clip that is loud in the wrong window fails. -/
theorem plan_loudSource (r : ChunkRequest) {k : ℕ} (hk : 1 ≤ k)
    (hlt : (k + 1) * r.layout.effectiveChunk < r.samples)
    (hover : r.lowAt k * 160 + r.layout.hardCore < r.highAt (k + 1) * 160) :
    r.plan (r.loudSource (k + 1)) = .error "quiet planner exceeded the core hard bound" := by
  have hbounds := r.bounds
  have hquery := hbounds.query_ge
  have htwice := hbounds.query_le
  have hcore := hbounds.core_eq
  have hchunk := r.le_mul_chunk hk
  have hsucc : (k + 1) * r.layout.effectiveChunk =
      k * r.layout.effectiveChunk + r.layout.effectiveChunk := Nat.succ_mul _ _
  have hwindow : r.lowAt (k + 1) ≤ r.highAt (k + 1) := by
    simp only [lowAt] at hover ⊢
    omega
  have hplan : ∀ d j, j + d = k → (r.planner (j + 1) (r.lastCut j)).plan (r.loudSource (k + 1)) =
      .error "quiet planner exceeded the core hard bound" := by
    intro d
    induction d with
    | zero =>
      intro j hj
      obtain rfl : j = k := hj
      have hinside := r.lastCut_le j
      exact plan_of_advance_error (show r.lastCut j < r.samples by omega)
        (r.advance_loudSource hk hlt hwindow hover)
    | succ d ih =>
      intro j hj
      have hinside := r.lastCut_le j
      have hmul : j * r.layout.effectiveChunk ≤ k * r.layout.effectiveChunk :=
        Nat.mul_le_mul_right _ (by omega)
      rw [plan_of_advance_ok (show r.lastCut j < r.samples by omega)
        (r.advance_loudSource_of_lt (by omega) hlt), ih (j + 1) (by omega)]
      rfl
  have hcreate : QuietCorePlanner.create r.samples r.layout.effectiveChunk r.layout.query
      r.layout.hardCore r.layout.chunk_pos = r.planner (0 + 1) (r.lastCut 0) := by
    simp only [QuietCorePlanner.create, planner, Nat.zero_add, Nat.one_mul, lastCut, if_pos]
  rw [ChunkRequest.plan, hcreate]
  exact hplan k 0 (Nat.zero_add k)

/-- The clips of a request all have a plan within the bounds. -/
def AlwaysPlans (r : ChunkRequest) : Prop :=
  ∀ source : RawFloatSpool Single, source.sampleCount = r.samples →
    ∃ cores, r.plan source = .ok cores ∧ WellPlanned r cores

theorem not_alwaysPlans (r : ChunkRequest) {k : ℕ} (hk : 1 ≤ k)
    (hlt : (k + 1) * r.layout.effectiveChunk < r.samples)
    (hover : r.lowAt k * 160 + r.layout.hardCore < r.highAt (k + 1) * 160) : ¬ r.AlwaysPlans := by
  intro h
  obtain ⟨cores, hcores, -⟩ := h (r.loudSource (k + 1)) (by
    simp [loudSource, RawSampleSpool.sampleCount])
  rw [r.plan_loudSource hk hlt hover] at hcores
  cases hcores

/-- **The hard bound of quiet cores.** All clips of a request have a plan, whose cores make up the
clip and whose cores and segments are within their bounds, exactly when the query windows fit. -/
theorem alwaysPlans_iff_cutsFit (r : ChunkRequest) : r.AlwaysPlans ↔ r.CutsFit := by
  constructor
  · intro h k hk hlt
    by_contra hover
    rw [not_le] at hover
    refine r.not_alwaysPlans hk hlt ?_ h
    rw [r.bounds.core_eq]
    exact hover
  · exact fun h source hsource => h.wellPlanned hsource

/-- Cores of 129/128 seconds, the least query and no pad, for a clip of 2.03 seconds. -/
def offGrid : ChunkRequest where
  config := ⟨some (129 / 128), some 0, some 0⟩
  samples := 32480
  layout := ⟨160, 160, 16125, 16445, 16925, by decide⟩
  accepted := ⟨129 / 128, 0, 0, rfl, rfl, rfl, by norm_num⟩
  samples_ge := by decide
  scaled := by decide
  layout_eq := by
    rw [chunkLayout, secondsToSamples_eq (129 / 128) 2 (by norm_num) (by norm_num) (by decide),
      secondsToSamples_eq 0 0 le_rfl le_rfl (by decide)]
    norm_num [kInputSampleRate]
    rfl

/-- The cuts of a clip may lie further apart than the bound. -/
theorem not_alwaysPlans_offGrid : ¬ offGrid.AlwaysPlans :=
  offGrid.not_alwaysPlans (k := 1) le_rfl (by decide) (by decide)

end ChunkRequest

end Resonantia.Pipeline
